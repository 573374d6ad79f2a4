/-
  TgRcore.Kernel.Turns — runs of chapter 8 with their threads in user mode, step by step.

  `Run` adds to the steps of the kernel those of the current thread in user mode, which leaves
  any registers behind; a `Turn` is a step with the states around it.
  - `handle_did`: what a call does to contexts, saved contexts and dead threads.
  - `finish_cases`: a trap ends the thread or puts the result of the call in its `a0`.
  - `Keeps`: no other thread changes the `a0` of a thread, an `exec` of its process apart.
-/

import TgRcore.Kernel.ForkContext
import TgRcore.Kernel.Handles

namespace TgRcore.Kernel

open TgRcore.BlockProg TgRcore.Sync TgRcore.Task

/-! ## Turns -/

inductive Act where
  | kernel (e : Event)
  | user (context : LocalContext)

/-- What a call can have for an exit code: a usize taken as an isize. -/
def Typed : Event → Prop
  | .trap (.exit exitCode) => -2 ^ 63 ≤ exitCode ∧ exitCode < 2 ^ 63
  | _ => True

inductive Move : State → Act → State → Prop
  | kernel {s t : State} {e : Event} : Typed e → Step s e t → Move s (.kernel e) t
  | user {s : State} {tid : Task.ThreadId} {context : LocalContext} : s.tm.current = some tid →
      Move s (.user context) ⟨Manager.setContext s.tm tid context, s.usedPids, s.usedTids⟩

/-- A step with the states around it. -/
structure Turn where
  before : State
  act : Act
  after : State

abbrev Moves : State → List Turn → State → Prop :=
  Exec fun s x t => x.before = s ∧ x.after = t ∧ Move s x.act t

/-- The turns since boot. -/
abbrev Run (es : List Turn) (s : State) : Prop := Moves Threads.World.new es s

/-- The thread of the process is current. -/
def Runs (s : State) (c : Task.ThreadId) (p : ProcId) : Prop := s.tm.current = some c ∧ s.tm.tid2pid c = some p

/-- The thread of the process makes the call. -/
def Makes (x : Turn) (c : Task.ThreadId) (p : ProcId) (call : Syscall) : Prop :=
  x.act = .kernel (.trap call) ∧ Runs x.before c p

/-! ## What a call does -/

/-- The dead threads that nobody has waited for, by process. -/
def deadOf (m : BTreeMap ProcId ProcThreadRel) : BTreeMap ProcId (List (Task.ThreadId × Int)) :=
  fun p => (m p).map ProcThreadRel.deadThreads

/-- What `handle_signals` is at, by process. -/
def handlingOf (tm : Manager) : BTreeMap ProcId (Option HandlingSignal) :=
  fun p => (tm.procManager.procs p).map fun q => q.signal.handling

/-- The thread that a call makes. -/
def newTid : Syscall → Option Task.ThreadId
  | .fork _ tid | .threadCreate tid _ => some tid
  | _ => none

def deadAfter (d : BTreeMap ProcId (List (Task.ThreadId × Int))) (c : Task.ThreadId) (p : ProcId) :
    Syscall → BTreeMap ProcId (List (Task.ThreadId × Int))
  | .fork child _ => d.insert child []
  | .waittid t => if t = c then d else d.adjust p fun l => l.eraseP fun x => x.1 == t
  | _ => d

def handlingAfter (h : BTreeMap ProcId (Option HandlingSignal)) (p : ProcId) :
    Syscall → BTreeMap ProcId (Option HandlingSignal)
  | .fork child _ => h.insert child none
  | .sigreturn =>
    match h p with
    | some (some (.userSignal _)) => h.insert p none
    | _ => h
  | _ => h

/-- A call of thread `c` of process `p` leaves the context of thread `u` alone. -/
def Apart (tm : Manager) (c : Task.ThreadId) (p : ProcId) (call : Syscall) (u : Task.ThreadId) : Prop :=
  u ≠ c ∧ newTid call ≠ some u ∧ ∀ context, call = .exec context → tm.tid2pid u ≠ some p

structure Did (tm : Manager) (c : Task.ThreadId) (p : ProcId) (call : Syscall) (tm' : Manager) : Prop where
  current : tm'.current = tm.current
  owner : ∀ u, newTid call ≠ some u → tm'.tid2pid u = tm.tid2pid u
  context : ∀ u, Apart tm c p call u → tm'.manager.tasks u = tm.manager.tasks u
  dead : deadOf tm'.relMap = deadAfter (deadOf tm.relMap) c p call
  handling : handlingOf tm' = handlingAfter (handlingOf tm) p call

section

variable {s t : State} {tm tm' : Manager} {call : Syscall} {ret : Option Int} {c u : Task.ThreadId} {p pid : ProcId}
  {proc proc' : Process} {r : ProcThreadRel} {code : Int}

theorem deadOf_insert {m : BTreeMap ProcId ProcThreadRel} :
    deadOf (m.insert pid r) = (deadOf m).insert pid r.deadThreads := by
  funext q
  simp only [deadOf, BTreeMap.insert_apply]
  split
  · rfl
  · rfl

/-- A record changed in other things than its dead threads. -/
theorem deadOf_same {m : BTreeMap ProcId ProcThreadRel} {r' : ProcThreadRel} (hr : m pid = some r)
    (h : r'.deadThreads = r.deadThreads) : deadOf (m.insert pid r') = deadOf m := by
  rw [deadOf_insert]
  exact BTreeMap.insert_self (by rw [deadOf, hr, Option.map_some, h])

theorem handlingOf_setProc : handlingOf (Manager.setProc tm pid proc) = (handlingOf tm).insert pid proc.signal.handling := by
  funext q
  simp only [handlingOf, Manager.setProc, ProcStore.insert, BTreeMap.insert_apply]
  split
  · rfl
  · rfl

theorem handlingOf_some (hp : tm.procManager.procs p = some proc) : handlingOf tm p = some proc.signal.handling := by
  rw [handlingOf, hp]
  rfl

/-- A process changed in other things than what `handle_signals` is at. -/
theorem handlingOf_same (hp : tm.procManager.procs pid = some proc) (h : proc'.signal.handling = proc.signal.handling) :
    handlingOf (Manager.setProc tm pid proc') = handlingOf tm := by
  rw [handlingOf_setProc]
  exact BTreeMap.insert_self (by rw [handlingOf_some hp, h])

theorem runs_of_proc (hc : tm.current = some c) (h : Manager.getCurrentProc tm = .ok (p, proc)) :
    tm.tid2pid c = some p ∧ tm.procManager.procs p = some proc := by
  obtain ⟨u, hu, ht, hp⟩ := getCurrentProc_ok h
  rw [hc] at hu
  cases hu
  exact ⟨ht, hp⟩

/-- A call that does nothing to the tables, or changes only a process, not what it is at. -/
theorem Did.quiet (hcurrent : tm'.current = tm.current) (howner : tm'.tid2pid = tm.tid2pid)
    (htasks : tm'.manager.tasks = tm.manager.tasks) (hrel : tm'.relMap = tm.relMap) (hhandling : handlingOf tm' = handlingOf tm)
    (hdead : deadAfter (deadOf tm.relMap) c p call = deadOf tm.relMap)
    (hafter : handlingAfter (handlingOf tm) p call = handlingOf tm) : Did tm c p call tm' :=
  ⟨hcurrent, fun u _ => by rw [howner], fun u _ => by rw [htasks], by rw [hrel, hdead], by rw [hhandling, hafter]⟩

/-- A call of the current process that changes objects of it and wakes a thread. -/
theorem Did.woken {woken : Option Nat} (hc : tm.current = some c) (hproc : Manager.getCurrentProc tm = .ok (p, proc))
    (hsignal : proc'.signal = proc.signal) (hwake : Manager.wake (Manager.setProc tm p proc') woken = .ok tm')
    (hdead : deadAfter (deadOf tm.relMap) c p call = deadOf tm.relMap)
    (hafter : handlingAfter (handlingOf tm) p call = handlingOf tm) : Did tm c p call tm' := by
  have hp := (runs_of_proc hc hproc).2
  obtain ⟨hprocs, hcurrent, htasks⟩ := wake_procs hwake
  have hrest : tm'.tid2pid = tm.tid2pid ∧ tm'.relMap = tm.relMap := by
    cases woken with
    | none =>
      cases hwake
      exact ⟨rfl, rfl⟩
    | some t =>
      cases hwake
      exact ⟨rfl, rfl⟩
  refine .quiet hcurrent hrest.1 htasks hrest.2 ?_ hdead hafter
  rw [← handlingOf_same hp (congrArg SignalImpl.handling hsignal)]
  unfold handlingOf
  rw [hprocs]

/-- A thread that is new, of a process that is there. -/
theorem Did.thread {context : LocalContext} {tid : Task.ThreadId} (hr : tm.relMap p = some r)
    (hadd : tm.add tid context p = .ok tm') : Did tm c p (.threadCreate tid context) tm' := by
  rw [Threads.add_eq hr, Except.ok.injEq] at hadd
  subst hadd
  refine ⟨rfl, fun u hu => ?_, fun u hu => ?_, ?_, rfl⟩
  · show tm.tid2pid.insert tid p u = _
    rw [BTreeMap.insert_apply, if_neg fun e => hu (by rw [e]; rfl)]
  · show tm.manager.tasks.insert tid context u = _
    rw [BTreeMap.insert_apply, if_neg fun e => hu.2.1 (by rw [e]; rfl)]
  · exact deadOf_same hr rfl

/-- A process that is new, with its thread. -/
theorem Did.process {child parent : ProcId} {tid : Task.ThreadId} {context : LocalContext}
    (hproc : proc'.signal.handling = none)
    (hadd : (tm.addProc child proc' parent).add tid context child = .ok tm') : Did tm c p (.fork child tid) tm' := by
  have hr : (tm.addProc child proc' parent).relMap child = some (.new parent) := by
    simp [PThreadManager.addProc]
  rw [Threads.add_eq hr, Except.ok.injEq] at hadd
  subst hadd
  refine ⟨rfl, fun u hu => ?_, fun u hu => ?_, ?_, ?_⟩
  · show tm.tid2pid.insert tid child u = _
    rw [BTreeMap.insert_apply, if_neg fun e => hu (by rw [e]; rfl)]
  · show tm.manager.tasks.insert tid context u = _
    rw [BTreeMap.insert_apply, if_neg fun e => hu.2.1 (by rw [e]; rfl)]
  · show deadOf ((tm.addProc child proc' parent).relMap.insert child _) = (deadOf tm.relMap).insert child []
    funext q
    simp only [deadOf, PThreadManager.addProc, BTreeMap.insert_apply]
    split
    · rfl
    · rw [adjust_onRel, Option.map_map]
      rfl
  · show handlingOf (Manager.setProc tm child proc') = _
    rw [handlingOf_setProc, hproc]
    rfl

theorem waitThread_dead (r : ProcThreadRel) (t : Task.ThreadId) :
    (r.waitThread t).2.deadThreads = r.deadThreads.eraseP fun x => x.1 == t := by
  unfold ProcThreadRel.waitThread
  split
  · rfl
  · rename_i hno
    have hsame : (r.deadThreads.eraseP fun x => x.1 == t) = r.deadThreads :=
      List.eraseP_of_forall_not fun x hx => List.find?_eq_none.mp hno x hx
    rw [hsame]
    split
    · rfl
    · rfl

/-- What every call does. -/
theorem handle_did (hi : Threads.ThInv (Threads.threadsOf tm.relMap) tm.tid2pid) (hc : tm.current = some c)
    (hp : tm.tid2pid c = some p) (h : Manager.handle tm call = .ok (ret, tm')) : Did tm c p call tm' := by
  have howner : ∀ {q proc}, Manager.getCurrentProc tm = .ok (q, proc) → q = p := by
    intro q proc hproc
    have hq := (runs_of_proc hc hproc).1
    rw [hp] at hq
    exact (Option.some.inj hq).symm
  have hself : ∀ {q proc proc'}, Manager.getCurrentProc tm = .ok (q, proc) → proc'.signal.handling = proc.signal.handling →
      handlingOf (Manager.setProc tm q proc') = handlingOf tm :=
    fun hproc hsame => handlingOf_same (runs_of_proc hc hproc).2 hsame
  cases call with
  | exit | other | unsupported =>
    cases h
    exact .quiet rfl rfl rfl rfl rfl rfl rfl
  | fork child tid =>
    obtain ⟨r, hx, rfl⟩ := done_ok h
    obtain ⟨⟨parent, proc⟩, hproc, hx⟩ := bind_eq_ok.mp hx
    dsimp only at hx
    split at hx
    · cases hx
    · split at hx
      · cases hx
      · split at hx
        · cases hx
        · obtain ⟨tm1, hadd, hx⟩ := bind_eq_ok.mp hx
          cases hx
          exact .process rfl hadd
  | exec context =>
    obtain ⟨r, hx, rfl⟩ := done_ok h
    obtain ⟨⟨pid, proc⟩, hproc, hx⟩ := bind_eq_ok.mp hx
    obtain rfl := howner hproc
    dsimp only at hx
    split at hx
    · cases hx
    · rename_i rel hrel
      split at hx
      · cases hx
      · rename_i first rest hthreads
        cases hx
        have hl : Threads.threadsOf tm.relMap pid = some rel.threads := by rw [Threads.threadsOf, hrel]; rfl
        have hfirst : tm.tid2pid first = some pid := (hi.mem hl first).mp (by rw [hthreads]; exact List.mem_cons_self)
        refine ⟨rfl, fun _ _ => rfl, fun u hu => ?_, rfl, rfl⟩
        show tm.manager.tasks.adjust first _ u = _
        rw [BTreeMap.adjust_apply, if_neg ?_]
        rintro rfl
        exact hu.2.2 context rfl hfirst
  | wait child =>
    obtain ⟨r, hx, rfl⟩ := done_ok h
    obtain ⟨⟨w, tm1⟩, hw, hx⟩ := bind_eq_ok.mp hx
    obtain ⟨⟨pid, rel⟩, hrel, hw⟩ := bind_eq_ok.mp hw
    cases hw
    have hdead : deadOf (tm.relMap.insert pid { rel with toProcRel := (rel.toProcRel.wait child).2 }) = deadOf tm.relMap :=
      deadOf_same (Threads.currentRel_ok hrel).2 rfl
    dsimp only at hx
    split at hx
    · cases hx
      exact ⟨rfl, fun _ _ => rfl, fun _ _ => rfl, hdead, rfl⟩
    · cases hx
      exact ⟨rfl, fun _ _ => rfl, fun _ _ => rfl, hdead, rfl⟩
  | threadCreate tid context =>
    obtain ⟨r, hx, rfl⟩ := done_ok h
    obtain ⟨⟨pid, proc⟩, hproc, hx⟩ := bind_eq_ok.mp hx
    obtain rfl := howner hproc
    obtain ⟨tm1, hadd, hx⟩ := bind_eq_ok.mp hx
    cases hx
    have hsome := hi.owner hp
    rw [Threads.isSome_threadsOf] at hsome
    obtain ⟨rel, hrel⟩ := Option.isSome_iff_exists.mp hsome
    exact .thread hrel hadd
  | waittid t =>
    obtain ⟨r, hx, rfl⟩ := done_ok h
    obtain ⟨⟨current, context⟩, hcur, hx⟩ := bind_eq_ok.mp hx
    obtain rfl : current = c := by
      have hcurrent := getCurrent_ok hcur
      rw [hc] at hcurrent
      exact (Option.some.inj hcurrent).symm
    dsimp only at hx
    split at hx
    · rename_i e
      cases hx
      exact .quiet rfl rfl rfl rfl rfl (if_pos e) rfl
    · rename_i hne
      obtain ⟨⟨w, tm1⟩, hw, hx⟩ := bind_eq_ok.mp hx
      obtain ⟨⟨pid, rel⟩, hrel, hw⟩ := bind_eq_ok.mp hw
      cases hw
      cases hx
      obtain ⟨hpid, hrel⟩ := Threads.currentRel_ok hrel
      obtain rfl : pid = p := by
        rw [Threads.currentPid, hc, Option.bind_some, hp] at hpid
        exact (Option.some.inj hpid).symm
      refine ⟨rfl, fun _ _ => rfl, fun _ _ => rfl, ?_, rfl⟩
      show deadOf (tm.relMap.insert pid (rel.waitThread t).2) = if t = current then _ else _
      rw [if_neg hne, deadOf_insert, waitThread_dead]
      funext q
      rw [BTreeMap.insert_apply, BTreeMap.adjust_apply]
      split
      · rename_i e
        rw [e, deadOf, hrel]
        rfl
      · rfl
  | semaphoreCreate | mutexCreate | condvarCreate =>
    obtain ⟨pid, proc, p1, n, hproc, rfl, hsignal, -⟩ := create_made rfl h
    exact .quiet rfl rfl rfl rfl (hself hproc (congrArg SignalImpl.handling hsignal)) rfl rfl
  | sigprocmask mask =>
    obtain ⟨r, hx, rfl⟩ := done_ok h
    obtain ⟨⟨pid, proc⟩, hproc, hx⟩ := bind_eq_ok.mp hx
    cases hx
    exact .quiet rfl rfl rfl rfl (hself hproc rfl) rfl rfl
  | semaphoreUp | semaphoreDown | mutexLock | mutexUnlock | condvarSignal | condvarWait =>
    obtain ⟨pid, proc, proc', woken, hproc, -, hsignal, hwake⟩ := operation_ok h trivial
    obtain rfl := howner hproc
    exact .woken hc hproc hsignal hwake rfl rfl
  | kill target signum =>
    obtain ⟨r, hx, rfl⟩ := done_ok h
    have htm := congrArg Prod.snd (Except.ok.inj hx)
    dsimp only at htm
    rw [← htm]
    unfold Manager.kill
    split
    · exact .quiet rfl rfl rfl rfl rfl rfl rfl
    · rename_i proc hproc
      split
      · exact .quiet rfl rfl rfl rfl rfl rfl rfl
      · split
        · exact .quiet rfl rfl rfl rfl (handlingOf_same hproc rfl) rfl rfl
        · exact .quiet rfl rfl rfl rfl rfl rfl rfl
  | sigaction signum action oldAction =>
    obtain ⟨r, hx, rfl⟩ := done_ok h
    rcases Manager.sigaction_cases hx with rfl | ⟨pid, proc, signal, hproc, hkept, rfl⟩
    · exact .quiet rfl rfl rfl rfl rfl rfl rfl
    · exact .quiet rfl rfl rfl rfl (hself hproc hkept) rfl rfl
  | sigreturn =>
    obtain ⟨r, hx, rfl⟩ := done_ok h
    obtain ⟨⟨pid, proc⟩, hproc, hx⟩ := bind_eq_ok.mp hx
    obtain rfl := howner hproc
    obtain ⟨⟨tid, context⟩, hcur, hx⟩ := bind_eq_ok.mp hx
    cases hx
    have hcurrent := getCurrent_ok hcur
    rw [hc] at hcurrent
    cases hcurrent
    refine ⟨rfl, fun _ _ => rfl, fun u hu => ?_, rfl, ?_⟩
    · show tm.manager.tasks.adjust c _ u = _
      rw [BTreeMap.adjust_apply, if_neg hu.1]
    · show handlingOf (Manager.setProc tm pid { proc with signal := (proc.signal.sigReturn context).2.1 }) = _
      have hhandling := handlingOf_some (runs_of_proc hc hproc).2
      rw [handlingAfter, hhandling]
      rcases proc.signal.sigReturn_cases context with ⟨old, hold, e⟩ | ⟨hno, e⟩
      · rw [e, handlingOf_setProc, hold]
      · rw [e, handlingOf_same (runs_of_proc hc hproc).2 rfl]
        split
        · rename_i old hold
          exact absurd (Option.some.inj hold) (hno old)
        · rfl

/-! ## The end of a trap -/

/-- The exit code with which a call ends its thread. -/
def endCode (call : Syscall) : Option Int → Option Int
  | none => some (-2)
  | some ret =>
    match call with
    | .exit _ => some ret
    | _ => none

/-- The exit code with which a trap ends its thread. -/
def verdict (call : Syscall) (syscallRet : Option Int) : SignalResult → Option Int
  | .processKilled exitCode => some exitCode
  | _ => endCode call syscallRet

theorem getCurrent_task {context : LocalContext} (h : Manager.getCurrent tm = .ok (c, context)) :
    tm.manager.tasks c = some context := by
  unfold Manager.getCurrent at h
  split at h
  · cases h
  · split at h
    · cases h
    · rename_i d hd
      cases h
      exact hd

/-- The thread ends, or it waits for its next turn with the result in `a0`. -/
theorem finish_cases {result : SignalResult} (hc : tm.current = some c) (h : Manager.finish tm call ret result = .ok tm') :
    (∃ code, verdict call ret result = some code ∧ tm.makeCurrentExited code = .ok tm') ∨
      verdict call ret result = none ∧ ∃ r context queue, ret = some r ∧ tm.manager.tasks c = some context ∧
        tm' = { tm with
          manager := ⟨tm.manager.tasks.adjust c fun _ => context.setA 0 (Manager.asUsize r), queue⟩
          current := none } := by
  have hset : ∀ {r tm1}, Manager.setRet tm r = .ok tm1 → ∃ context, tm.manager.tasks c = some context ∧
      tm1 = Manager.setContext tm c (context.setA 0 (Manager.asUsize r)) := by
    intro r tm1 hset
    obtain ⟨⟨c', context⟩, hcur, hset⟩ := bind_eq_ok.mp hset
    cases hset
    obtain rfl := getCurrent_eq hcur hc
    exact ⟨context, getCurrent_task hcur, rfl⟩
  have hsuspend : ∀ {r tm1}, Manager.setRet tm r = .ok tm1 → tm1.makeCurrentSuspend = .ok tm' →
      ∃ context queue, tm.manager.tasks c = some context ∧ tm' = { tm with
        manager := ⟨tm.manager.tasks.adjust c fun _ => context.setA 0 (Manager.asUsize r), queue⟩
        current := none } := by
    intro r tm1 h1 h2
    obtain ⟨context, hcontext, rfl⟩ := hset h1
    have hc1 : (Manager.setContext tm c (context.setA 0 (Manager.asUsize r))).current = some c := hc
    simp only [PThreadManager.makeCurrentSuspend, hc1] at h2
    cases h2
    exact ⟨context, _, hcontext, rfl⟩
  unfold Manager.finish at h
  split at h
  · exact .inl ⟨_, rfl, h⟩
  · rename_i hkilled
    have hverdict : verdict call ret result = endCode call ret := by
      unfold verdict
      split
      · exact absurd rfl (hkilled _)
      · rfl
    rw [hverdict]
    split at h
    · exact .inl ⟨_, rfl, h⟩
    · cases call with
      | exit code => exact .inl ⟨_, rfl, h⟩
      | semaphoreDown | mutexLock | condvarWait =>
        refine .inr ⟨rfl, ?_⟩
        obtain ⟨tm1, h1, h⟩ := bind_eq_ok.mp h
        split at h
        · obtain ⟨context, hcontext, rfl⟩ := hset h1
          cases h
          exact ⟨_, context, _, rfl, hcontext, rfl⟩
        · obtain ⟨context, queue, hcontext, e⟩ := hsuspend h1 h
          exact ⟨_, context, queue, rfl, hcontext, e⟩
      | _ =>
        refine .inr ⟨rfl, ?_⟩
        obtain ⟨tm1, h1, h⟩ := bind_eq_ok.mp h
        obtain ⟨context, queue, hcontext, e⟩ := hsuspend h1 h
        exact ⟨_, context, queue, rfl, hcontext, e⟩

/-- A thread that ends is among the dead ones of its process, if that lives on. -/
theorem exited_dead {q : ProcId} {l : List (Task.ThreadId × Int)} (hc : tm.current = some c) (hp : tm.tid2pid c = some p)
    (hr : tm.relMap p = some r) (hmem : c ∈ r.threads) (h : tm.makeCurrentExited code = .ok tm')
    (hl : deadOf tm'.relMap q = some l) :
    ∃ l0, deadOf tm.relMap q = some l0 ∧ l = if q = p then l0 ++ [(c, code)] else l0 := by
  have hdead : (r.delThread c code).deadThreads = r.deadThreads ++ [(c, code)] := by
    rw [ProcThreadRel.delThread, if_pos hmem]
  have hkept : deadOf (tm.relMap.insert p (r.delThread c code)) q = some l →
      ∃ l0, deadOf tm.relMap q = some l0 ∧ l = if q = p then l0 ++ [(c, code)] else l0 := by
    intro hl
    rw [deadOf_insert, BTreeMap.insert_apply] at hl
    split at hl
    · rename_i e
      cases hl
      exact ⟨r.deadThreads, by rw [e, deadOf, hr]; rfl, by rw [hdead, if_pos e]⟩
    · rename_i e
      exact ⟨l, hl, by rw [if_neg e]⟩
  rcases (Threads.exited_eq_ok hc hp hr).mp h with ⟨-, rfl⟩ | ⟨-, relMap, hleave, rfl⟩
  · exact hkept hl
  · obtain ⟨-, -, rfl⟩ := (leave_eq_ok (show tm.relMap.insert p (r.delThread c code) p = some _ from if_pos rfl)).mp hleave
    refine hkept ?_
    rw [← hl]
    simp only [deadOf]
    split
    · rename_i e
      simp only [deadOf, if_pos e, Option.map_none] at hl
      cases hl
    · rw [Option.map_map]
      rfl

/-! ## A whole trap -/

/-- The threads that a call makes are new. -/
theorem Fresh.new (h : Fresh s call) (hu : newTid call = some u) : u ∉ s.usedTids := by
  cases call with
  | fork child tid =>
    cases hu
    exact h.2.2
  | threadCreate tid context =>
    cases hu
    exact h
  | _ => cases hu

theorem Step.fresh (h : Step s (.trap call) t) : Fresh s call := by
  cases h with
  | trap hf => exact hf

theorem TInv.runs {c : Task.ThreadId} (hi : Threads.TInv s) (hc : s.tm.current = some c) : ∃ p, Runs s c p := by
  obtain ⟨p, hp⟩ := Option.isSome_iff_exists.mp (hi.current hc)
  exact ⟨p, hc, hp⟩

theorem pid_used (hi : Threads.TInv s) (hu : s.tm.tid2pid u = some p) : p ∈ s.usedPids := by
  have hsome := hi.threads.owner hu
  rw [Threads.isSome_threadsOf] at hsome
  obtain ⟨r, hr⟩ := Option.isSome_iff_exists.mp hsome
  exact hi.fam.known (show family s.tm.relMap p = some r.toProcRel by rw [family, hr]; rfl)

/-- The trap of a call of thread `c` of process `p`: `m` is the state in which `handle_signals` was
    called, for `proc` and `context`. -/
structure Traps (s : State) (call : Syscall) (t : State) (c : Task.ThreadId) (p : ProcId) (ret : Option Int) (m : State)
    (proc : Process) (context : LocalContext) (result : SignalResult) (signal : SignalImpl) (context' : LocalContext) :
    Prop where
  called : Called s call ret m
  did : Did s.tm c p call m.tm
  process : Manager.getCurrentProc m.tm = .ok (p, proc)
  thread : Manager.getCurrent m.tm = .ok (c, context)
  signals : proc.signal.handleSignals context = .ok (result, signal, context')
  finish : Manager.finish (Manager.setContext (Manager.setProc m.tm p { proc with signal := signal }) c context') call ret
    result = .ok t.tm
  used : ∀ u ∈ s.usedTids, u ∈ t.usedTids

theorem called_did (hi : Threads.TInv s) (hr : Runs s c p) {m : State} (h : Called s call ret m) : Did s.tm c p call m.tm := by
  obtain ⟨tid, context, tm1, hcur, hhandle, rfl⟩ := h
  rw [mark_tm]
  obtain rfl := getCurrent_eq hcur hr.1
  have hd : Did (Manager.setContext s.tm tid context.moveNext) tid p call tm1 := handle_did hi.threads hr.1 hr.2 hhandle
  refine ⟨hd.current, hd.owner, fun u hu => ?_, hd.dead, hd.handling⟩
  rw [hd.context u hu]
  show s.tm.manager.tasks.adjust tid _ u = _
  rw [BTreeMap.adjust_apply, if_neg hu.1]

theorem trap_traps (hi : Threads.TInv s) (hr : Runs s c p) (h : Step s (.trap call) t) :
    ∃ ret m proc context result signal context', Traps s call t c p ret m proc context result signal context' := by
  cases h with
  | @trap _ _ tm hf htrap =>
    obtain ⟨ret, m, pid, result, tm1, hcalled, hsignalled, hfin, -⟩ := trap_called htrap
    obtain ⟨proc, tid, context, signal, context', hproc, hcur, hsig, rfl⟩ := hsignalled
    have hd := called_did hi hr hcalled
    have hc : m.tm.current = some c := hd.current.trans hr.1
    obtain rfl := getCurrent_eq hcur hc
    have hnew : newTid call ≠ some tid := fun e => hf.new e (hi.tids (hi.current hr.1))
    obtain rfl : pid = p := by
      have hpid := (runs_of_proc hc hproc).1
      rw [hd.owner tid hnew, hr.2] at hpid
      exact (Option.some.inj hpid).symm
    refine ⟨ret, m, proc, context, result, signal, context', hcalled, hd, hproc, hcur, hsig, ?_, fun u hu => ?_⟩
    · rw [mark_tm]
      exact hfin
    · cases call with
      | fork child v => exact List.mem_cons_of_mem _ hu
      | threadCreate v context => exact List.mem_cons_of_mem _ hu
      | _ => exact hu

end

/-! ## Whole runs -/

section

variable {s t : State} {x : Turn} {a : Act} {es es1 es2 : List Turn} {call : Syscall} {c u : Task.ThreadId} {p q : ProcId}

theorem Move.micros (h : Move s a t) : Micros s t := by
  cases h with
  | kernel _ hs => exact step_micros hs
  | user => exact .single (.context _ _)

theorem Run.tInv (h : Run es s) : Threads.TInv s :=
  h.inv (P := fun _ s => Threads.TInv s) Threads.tInv_new fun hi hs => Micros.tInv hs.2.2.micros hi

/-- The run up to a turn, the turn, and the run after it. -/
theorem Run.at (h : Run (es1 ++ x :: es2) s) : Run es1 x.before ∧ Move x.before x.act x.after ∧ Moves x.after es2 s := by
  obtain ⟨u, h1, h2⟩ := Exec.split h
  obtain ⟨v, ⟨rfl, rfl, hx⟩, h3⟩ := Exec.uncons h2
  exact ⟨h1, hx, h3⟩

theorem Run.kernel {e : Event} (h : Run es s) (hs : Step s e t) (he : Typed e) : Run (es ++ [⟨s, .kernel e, t⟩]) t :=
  Exec.snoc h ⟨rfl, rfl, .kernel he hs⟩

theorem Makes.step (hx : Makes x c p call) (h : Move x.before x.act x.after) : Step x.before (.trap call) x.after := by
  rw [hx.1] at h
  generalize x.before = s at h
  generalize x.after = t at h
  cases h with
  | kernel _ hs => exact hs

/-- The context of thread `c`, if it lives, has `v` in `a0`. -/
def Keeps (s : State) (c : Task.ThreadId) (v : Nat) : Prop :=
  c ∈ s.usedTids ∧ ∀ d, s.tm.manager.tasks c = some d → d.x 10 = v

/-- The turn is not one of thread `c` of process `p`, and the process keeps its program. -/
def Away (x : Turn) (c : Task.ThreadId) (p : ProcId) : Prop :=
  x.before.tm.current ≠ some c ∧ ∀ d context, ¬ Makes x d p (.exec context)

/-- The trap of another thread leaves the context alone, or the thread is gone. -/
theorem Traps.context {ret : Option Int} {m : State} {proc : Process} {context context' : LocalContext}
    {result : SignalResult} {signal : SignalImpl} (h : Traps s call t c p ret m proc context result signal context')
    (hr : Runs s c p) (ha : Apart s.tm c p call u) : t.tm.manager.tasks u = s.tm.manager.tasks u := by
  have hset : ∀ d, (Manager.setContext (Manager.setProc m.tm p { proc with signal := signal }) c d).manager.tasks u =
      s.tm.manager.tasks u := by
    intro d
    rw [← h.did.context u ha]
    show m.tm.manager.tasks.adjust c _ u = _
    rw [BTreeMap.adjust_apply, if_neg ha.1]
  have hc := h.did.current.trans hr.1
  rcases finish_cases (by exact hc) h.finish with ⟨code, -, hexit⟩ | ⟨-, r, d, queue, -, -, htm⟩
  · rw [(exited_threads (by exact hc) hexit).1, BTreeMap.remove_apply, if_neg ha.1]
    exact hset _
  · rw [htm]
    show BTreeMap.adjust _ c _ u = _
    rw [BTreeMap.adjust_apply, if_neg ha.1]
    exact hset _

theorem Keeps.step {v : Nat} (hk : Keeps x.before c v) (hi : Threads.TInv x.before) (h : Move x.before x.act x.after)
    (ha : Away x c p) (hp : ∀ q, x.before.tm.tid2pid c = some q → q = p) : Keeps x.after c v := by
  obtain ⟨hno, hexec⟩ := ha
  have hmakes : ∀ d context, x.act = .kernel (.trap (.exec context)) → ¬ Runs x.before d p :=
    fun d context he hr => hexec d context ⟨he, hr⟩
  generalize x.before = s at *
  generalize x.after = t at *
  generalize x.act = a at *
  cases h with
  | @user tid context hc =>
    refine ⟨hk.1, fun d hd => hk.2 d ?_⟩
    change s.tm.manager.tasks.adjust tid _ c = some d at hd
    rw [BTreeMap.adjust_apply, if_neg ?_] at hd
    · exact hd
    · rintro rfl
      exact hno hc
  | @kernel _ e _ hs =>
    cases e with
    | boot =>
      cases hs
      cases hk.1
    | dispatch =>
      cases hs with
      | dispatch hc hf =>
        obtain ⟨queue, ⟨rfl, -⟩ | ⟨id, task, -, -, -, rfl⟩⟩ := Threads.findNext_ok hf
        · exact hk
        · exact hk
    | fault =>
      cases hs with
      | fault hsome hexit =>
        obtain ⟨d, hd⟩ := Option.isSome_iff_exists.mp hsome
        refine ⟨hk.1, fun context hcontext => hk.2 context ?_⟩
        rw [(exited_threads hd hexit).1, BTreeMap.remove_apply, if_neg ?_] at hcontext
        · exact hcontext
        · rintro rfl
          exact hno hd
    | trap call =>
      have hcur : ∃ d, s.tm.current = some d := by
        cases hs with
        | trap hf htrap =>
          obtain ⟨⟨d, context⟩, hd, -⟩ := bind_eq_ok.mp htrap
          exact ⟨d, getCurrent_ok hd⟩
      obtain ⟨d, hd⟩ := hcur
      obtain ⟨q, hr⟩ := TInv.runs hi hd
      obtain ⟨ret, m, proc, context, result, signal, context', htraps⟩ := trap_traps hi hr hs
      have hapart : Apart s.tm d q call c := by
        refine ⟨fun e => hno (e ▸ hd), fun e => hs.fresh.new e hk.1, ?_⟩
        · rintro ctx rfl he
          obtain rfl := hp q he
          exact hmakes d ctx rfl hr
      refine ⟨htraps.used c hk.1, fun ctx hctx => hk.2 ctx ?_⟩
      rw [← htraps.context hr hapart]
      exact hctx

end

/-! ## Threads that end -/

/-- The thread of the process ends with the code in this turn. -/
def Ends (x : Turn) (u : Task.ThreadId) (p : ProcId) (code : Int) : Prop :=
  Runs x.before u p ∧ (x.act = .kernel .fault ∧ code = -3 ∨
    ∃ call ret m pid result tm, x.act = .kernel (.trap call) ∧ Called x.before call ret m ∧ Signalled m pid result tm ∧
      verdict call ret result = some code)

/-- A handler is entered in the trap of thread `u` of the process, and its context is saved. -/
def Saves (x : Turn) (u : Task.ThreadId) (p : ProcId) (old : LocalContext) : Prop :=
  Runs x.before u p ∧ ∃ call ret m proc context result signal context', x.act = .kernel (.trap call) ∧
    Called x.before call ret m ∧ Manager.getCurrentProc m.tm = .ok (p, proc) ∧ Manager.getCurrent m.tm = .ok (u, context) ∧
    proc.signal.handleSignals context = .ok (result, signal, context') ∧ proc.signal.handling = none ∧
    signal.handling = some (.userSignal old)

section

variable {s t : State} {x : Turn} {call : Syscall} {c u v : Task.ThreadId} {p q : ProcId} {code code' : Int} {tm : Manager}

theorem Runs.unique (h : Runs s c p) (h' : Runs s u q) : c = u ∧ p = q := by
  have hc := h.1.symm.trans h'.1
  cases hc
  have hp := h.2.symm.trans h'.2
  cases hp
  exact ⟨rfl, rfl⟩

theorem Ends.unique (h : Ends x u p code) (h' : Ends x v q code') : u = v ∧ p = q ∧ code = code' := by
  obtain ⟨hr, h⟩ := h
  obtain ⟨hr', h'⟩ := h'
  obtain ⟨rfl, rfl⟩ := hr.unique hr'
  refine ⟨rfl, rfl, ?_⟩
  rcases h with ⟨ha, rfl⟩ | ⟨call, ret, m, pid, result, tm, ha, hcalled, hsig, hv⟩
  · rcases h' with ⟨-, rfl⟩ | ⟨call', ret', m', pid', result', tm', ha', -⟩
    · rfl
    · rw [ha] at ha'
      cases ha'
  · rcases h' with ⟨ha', -⟩ | ⟨call', ret', m', pid', result', tm', ha', hcalled', hsig', hv'⟩
    · rw [ha] at ha'
      cases ha'
    · rw [ha] at ha'
      cases ha'
      obtain ⟨rfl, rfl⟩ := hcalled.unique hcalled'
      obtain ⟨-, rfl, -⟩ := hsig.unique hsig'
      exact Option.some.inj (hv.symm.trans hv')

/-- What is saved in a trap is seen from what `handle_signals` returns in it. -/
theorem Saves.eq {ret : Option Int} {m : State} {proc : Process} {context context' old : LocalContext}
    {result : SignalResult} {signal : SignalImpl} (h : Saves x u p old) (ha : x.act = .kernel (.trap call))
    (hcalled : Called x.before call ret m) (hproc : Manager.getCurrentProc m.tm = .ok (q, proc))
    (hcur : Manager.getCurrent m.tm = .ok (c, context))
    (hsig : proc.signal.handleSignals context = .ok (result, signal, context')) :
    u = c ∧ p = q ∧ proc.signal.handling = none ∧ signal.handling = some (.userSignal old) := by
  obtain ⟨-, call', ret', m', proc', ctx, result', signal', ctx', ha', hcalled', hproc', hcur', hsig', hnone, hold⟩ := h
  rw [ha] at ha'
  cases ha'
  obtain ⟨rfl, rfl⟩ := hcalled.unique hcalled'
  rw [hproc] at hproc'
  cases hproc'
  rw [hcur] at hcur'
  cases hcur'
  rw [hsig] at hsig'
  cases hsig'
  exact ⟨rfl, rfl, hnone, hold⟩

/-- A turn of thread `c` of process `p`: a call (a fault is like one without effect), and then
    the end of the thread or nothing to the tables of threads. -/
structure Ran (x : Turn) (c : Task.ThreadId) (p : ProcId) (call : Syscall) (tm : Manager) : Prop where
  runs : Runs x.before c p
  asks : ∀ d q u, Makes x d q (.waittid u) ↔ d = c ∧ q = p ∧ call = .waittid u
  fresh : Fresh x.before call
  dead : deadOf tm.relMap = deadAfter (deadOf x.before.tm.relMap) c p call
  owner : ∀ u, newTid call ≠ some u → tm.tid2pid u = x.before.tm.tid2pid u
  threads : Threads.ThInv (Threads.threadsOf tm.relMap) tm.tid2pid
  current : tm.current = some c
  ends : (∃ code, Ends x c p code ∧ tm.makeCurrentExited code = .ok x.after.tm) ∨
    (∀ u q code, ¬ Ends x u q code) ∧ x.after.tm.relMap = tm.relMap ∧ x.after.tm.tid2pid = tm.tid2pid
  usedTids : ∀ u ∈ x.before.usedTids, u ∈ x.after.usedTids
  usedPids : ∀ q ∈ x.before.usedPids, q ∈ x.after.usedPids

/-- A turn in which no thread makes a call or ends. -/
structure Rested (x : Turn) : Prop where
  asks : ∀ d q call, ¬ Makes x d q call
  ends : ∀ u q code, ¬ Ends x u q code
  usedTids : ∀ u ∈ x.before.usedTids, u ∈ x.after.usedTids
  usedPids : ∀ q ∈ x.before.usedPids, q ∈ x.after.usedPids
  tables : x.after.tm.relMap = x.before.tm.relMap ∧ x.after.tm.tid2pid = x.before.tm.tid2pid ∨
    x.before = Threads.World.new ∧ ∀ q l, deadOf x.after.tm.relMap q = some l → l = []

theorem Rested.of_act (htrap : ∀ call, x.act ≠ .kernel (.trap call)) (hfault : x.act ≠ .kernel .fault)
    (htids : ∀ u ∈ x.before.usedTids, u ∈ x.after.usedTids) (hpids : ∀ q ∈ x.before.usedPids, q ∈ x.after.usedPids)
    (htables : x.after.tm.relMap = x.before.tm.relMap ∧ x.after.tm.tid2pid = x.before.tm.tid2pid ∨
      x.before = Threads.World.new ∧ ∀ q l, deadOf x.after.tm.relMap q = some l → l = []) : Rested x := by
  refine ⟨fun d q call h => htrap _ h.1, fun u q code h => ?_, htids, hpids, htables⟩
  rcases h.2 with ⟨ha, -⟩ | ⟨call, -, -, -, -, -, ha, -⟩
  · exact hfault ha
  · exact htrap _ ha

theorem Traps.ran {ret : Option Int} {m : State} {proc : Process} {context context' : LocalContext} {result : SignalResult}
    {signal : SignalImpl} (hi : Threads.TInv x.before) (hr : Runs x.before c p) (ha : x.act = .kernel (.trap call))
    (hs : Step x.before (.trap call) x.after)
    (h : Traps x.before call x.after c p ret m proc context result signal context') :
    Ran x c p call (Manager.setContext (Manager.setProc m.tm p { proc with signal := signal }) c context') := by
  have hf := hs.fresh
  have hmi : Threads.TInv m := Micros.tInv (h.called.micros hf) hi
  have hcur : (Manager.setContext (Manager.setProc m.tm p { proc with signal := signal }) c context').current = some c :=
    h.did.current.trans hr.1
  refine ⟨hr, fun d q u => ?_, hf, h.did.dead, h.did.owner, hmi.threads, hcur, ?_, h.used, fun q hq => ?_⟩
  · constructor
    · rintro ⟨ha', hr'⟩
      rw [ha] at ha'
      cases ha'
      obtain ⟨rfl, rfl⟩ := hr.unique hr'
      exact ⟨rfl, rfl, rfl⟩
    · rintro ⟨rfl, rfl, rfl⟩
      exact ⟨ha, hr⟩
  · have hsignalled : Signalled m p result _ := ⟨proc, c, context, signal, context', h.process, h.thread, h.signals, rfl⟩
    have hends : ∀ code, Ends x c p code ↔ verdict call ret result = some code := by
      intro code
      constructor
      · rintro ⟨-, ⟨ha', -⟩ | ⟨call', ret', m', pid', result', tm', ha', hcalled, hsig, hv⟩⟩
        · rw [ha] at ha'
          cases ha'
        · rw [ha] at ha'
          cases ha'
          obtain ⟨rfl, rfl⟩ := h.called.unique hcalled
          obtain ⟨-, rfl, -⟩ := hsignalled.unique hsig
          exact hv
      · intro hv
        exact ⟨hr, .inr ⟨call, ret, m, p, result, _, ha, h.called, hsignalled, hv⟩⟩
    rcases finish_cases hcur h.finish with ⟨code, hv, hexit⟩ | ⟨hv, r, d, queue, -, -, htm⟩
    · exact .inl ⟨code, (hends code).mpr hv, hexit⟩
    · refine .inr ⟨fun u q code he => ?_, by rw [htm], by rw [htm]⟩
      obtain ⟨rfl, rfl⟩ := hr.unique he.1
      rw [(hends code).mp he] at hv
      cases hv
  · exact step_used hs hq

/-- Every turn is of one of the two kinds. -/
theorem turn_kinds (hi : Threads.TInv x.before) (h : Move x.before x.act x.after) :
    Rested x ∨ ∃ c p call tm, Ran x c p call tm := by
  rcases x with ⟨s, a, t⟩
  dsimp only at hi h
  cases h with
  | user =>
    exact .inl (.of_act (fun _ e => by cases e) (fun e => by cases e) (fun _ h => h) (fun _ h => h) (.inl ⟨rfl, rfl⟩))
  | @kernel _ e _ hs =>
    cases e with
    | boot =>
      refine .inl (.of_act (fun _ e => by cases e) (fun e => by cases e) ?_ ?_ ?_)
      all_goals
        cases hs with
        | boot hadd => ?_
      · intro u hu
        cases hu
      · intro q hq
        cases hq
      · refine .inr ⟨rfl, fun q l hl => ?_⟩
        have hr : (PThreadManager.addProc (.new : Manager) 0 Process.new usizeMax).relMap 0 = some (.new usizeMax) := by
          simp [PThreadManager.addProc]
        rw [Threads.add_eq hr, Except.ok.injEq] at hadd
        subst hadd
        rw [deadOf_insert, BTreeMap.insert_apply] at hl
        split at hl
        · cases hl
          rfl
        · rename_i hq
          simp only [deadOf, PThreadManager.addProc, PThreadManager.new, BTreeMap.insert_apply, if_neg hq] at hl
          rw [BTreeMap.adjust_apply] at hl
          split at hl
          · cases hl
          · cases hl
    | dispatch =>
      cases hs with
      | dispatch hc hf =>
        refine .inl (.of_act (fun _ e => by cases e) (fun e => by cases e) (fun _ h => h) (fun _ h => h) (.inl ?_))
        obtain ⟨queue, ⟨rfl, -⟩ | ⟨id, task, -, -, -, rfl⟩⟩ := Threads.findNext_ok hf
        · exact ⟨rfl, rfl⟩
        · exact ⟨rfl, rfl⟩
    | fault =>
      cases hs with
      | @fault _ tm hsome hexit =>
        obtain ⟨c, hc⟩ := Option.isSome_iff_exists.mp hsome
        obtain ⟨p, hr⟩ := TInv.runs hi hc
        refine .inr ⟨c, p, .other 0, s.tm, hr, fun d q u => ?_, trivial, rfl, fun _ _ => rfl, hi.threads, hc, .inl ⟨-3, ?_, hexit⟩,
          fun _ h => h, fun _ h => h⟩
        · refine iff_of_false (fun hm => ?_) (fun he => by cases he.2.2)
          cases hm.1
        · exact ⟨hr, .inl ⟨rfl, rfl⟩⟩
    | trap call =>
      have hcur : ∃ c, s.tm.current = some c := by
        cases hs with
        | trap hf htrap =>
          obtain ⟨⟨c, context⟩, hc, -⟩ := bind_eq_ok.mp htrap
          exact ⟨c, getCurrent_ok hc⟩
      obtain ⟨c, hc⟩ := hcur
      obtain ⟨p, hr⟩ := TInv.runs hi hc
      obtain ⟨ret, m, proc, context, result, signal, context', htraps⟩ := trap_traps hi hr hs
      exact .inr ⟨c, p, call, _, Traps.ran (x := ⟨s, .kernel (.trap call), t⟩) hi hr rfl hs htraps⟩

end

end TgRcore.Kernel
