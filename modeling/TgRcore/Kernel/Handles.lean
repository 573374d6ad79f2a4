/-
  TgRcore.Kernel.Handles — the numbers of mutexes, semaphores and condition variables in
  chapter 8.

  A list of a process has its objects by number; a create takes the first free entry.
  `mutex_create` without blocking leaves the entry free, so its number does not denote a mutex
  and is given out again (`handle_twice`). The calls on the objects look the number up without
  a check, `unlock` asserts that the mutex is locked, and `condvar_wait` needs a waiter.
  - `handle_slots`: what each call does to the lists of the processes.
  - `sync_handles`: over every run whose mutexes are blocking ones; and exactly when a call on
    an object comes back.
-/

import TgRcore.Kernel.Killed

namespace TgRcore.Kernel

open TgRcore.BlockProg TgRcore.Sync TgRcore.Task

/-- The number denotes an object of the kind. -/
def Process.Holds (p : Process) (k : Kind) (id : Nat) : Prop := (p.slots k)[id]? = some true

/-! ## Lists of objects -/

section

variable {α : Type} {l l' : List (Option α)} {id : Nat} {x y : α} {o : Option α}

theorem holds_iff : (l.map Option.isSome)[id]? = some true ↔ ∃ x, l[id]? = some (some x) := by
  rw [List.getElem?_map]
  cases l[id]? with
  | none => simp
  | some o =>
    cases o with
    | none => simp
    | some x => simp

/-- A create takes an entry without an object, leaves the others, and fills it if there is
    something to put there. -/
theorem place_slots (h : place l o = (id, l')) : ¬ (l.map Option.isSome)[id]? = some true ∧
    (∀ j : Nat, (l.map Option.isSome)[j]? = some true → (l'.map Option.isSome)[j]? = some true) ∧
    (o.isSome = true → (l'.map Option.isSome)[id]? = some true) := by
  unfold place at h
  split at h
  · rename_i n hn
    cases h
    obtain ⟨hlt, hnone, -⟩ := List.findIdx?_eq_some_iff_getElem.mp hn
    have hget : l[id]? = some none := by
      rw [List.getElem?_eq_getElem hlt]
      simpa using hnone
    refine ⟨fun h => ?_, fun j hj => ?_, fun ho => ?_⟩
    · obtain ⟨z, hz⟩ := holds_iff.mp h
      rw [hget] at hz
      cases hz
    · obtain ⟨z, hz⟩ := holds_iff.mp hj
      have hne : id ≠ j := by
        intro e
        rw [← e, hget] at hz
        cases hz
      exact holds_iff.mpr ⟨z, by rw [List.getElem?_set_ne hne, hz]⟩
    · obtain ⟨z, rfl⟩ := Option.isSome_iff_exists.mp ho
      exact holds_iff.mpr ⟨z, List.getElem?_set_self hlt⟩
  · cases h
    refine ⟨by simp, fun j hj => ?_, fun ho => ?_⟩
    · obtain ⟨z, hz⟩ := holds_iff.mp hj
      have hlt := (List.getElem?_eq_some_iff.mp hz).1
      exact holds_iff.mpr ⟨z, by rw [List.getElem?_append_left hlt, hz]⟩
    · obtain ⟨z, rfl⟩ := Option.isSome_iff_exists.mp ho
      exact holds_iff.mpr ⟨z, by simp⟩

end

/-! ## What the calls do to the lists -/

/-- The kind of object that a create makes. -/
def kindMade : Syscall → Option Kind
  | .mutexCreate _ => some .mutex
  | .semaphoreCreate _ => some .semaphore
  | .condvarCreate => some .condvar
  | _ => none

/-- The objects of a process after a call, from those before; a child has none. -/
inductive Lists (tm : Manager) (call : Syscall) (q : ProcId) (p' : Process) : Prop
  | kept (p : Process) : tm.procManager.procs q = some p → (∀ c j, p.Holds c j → p'.Holds c j) → Lists tm call q p'
  | forked (tid : Task.ThreadId) : call = .fork q tid → Lists tm call q p'

section

variable {tm tm' : Manager} {call : Syscall} {ret : Option Int} {q pid : ProcId} {p p' proc : Process}

/-- Only the process `pid` is another one. -/
theorem Lists.setProc (h : (Manager.setProc tm pid p).procManager.procs q = some p')
    (hq : q = pid → Lists tm call q p) : Lists tm call q p' := by
  change tm.procManager.procs.insert pid p q = some p' at h
  rw [BTreeMap.insert_apply] at h
  split at h
  · rename_i e
    cases h
    exact hq e
  · exact .kept p' h fun _ _ hj => hj

/-- The call changed objects of the process in place. -/
theorem Lists.same (hproc : Manager.getCurrentProc tm = .ok (pid, proc))
    (h : (Manager.setProc tm pid p).procManager.procs q = some p') (hslots : p.slots = proc.slots) :
    Lists tm call q p' := by
  refine .setProc h fun e => ?_
  obtain ⟨-, -, -, hp⟩ := getCurrentProc_ok hproc
  refine .kept proc (e ▸ hp) fun c j hj => ?_
  rw [Process.Holds, hslots]
  exact hj

theorem wake_procs {woken : Option Task.ThreadId} (h : Manager.wake tm woken = .ok tm') :
    tm'.procManager = tm.procManager ∧ tm'.current = tm.current ∧ tm'.manager.tasks = tm.manager.tasks := by
  cases woken with
  | none =>
    cases h
    exact ⟨rfl, rfl, rfl⟩
  | some t =>
    cases h
    exact ⟨rfl, rfl, rfl⟩

/-- A create of a process changes its lists alone. -/
theorem create_made {k : Kind} (hk : kindMade call = some k) (h : Manager.handle tm call = .ok (ret, tm')) :
    ∃ pid proc p n, Manager.getCurrentProc tm = .ok (pid, proc) ∧ tm' = Manager.setProc tm pid p ∧
      p.signal = proc.signal ∧ ret = some ((n : Nat) : Int) ∧ ¬ proc.Holds k n ∧ (∀ c j, proc.Holds c j → p.Holds c j) ∧
      (call ≠ .mutexCreate false → p.Holds k n) := by
  cases call with
  | semaphoreCreate resCount =>
    cases hk
    obtain ⟨r, hx, rfl⟩ := done_ok h
    obtain ⟨⟨pid, proc⟩, hproc, hx⟩ := bind_eq_ok.mp hx
    rcases hplace : place proc.semaphoreList (some (.new resCount)) with ⟨id, l⟩
    simp only [hplace, Except.ok.injEq, Prod.mk.injEq] at hx
    obtain ⟨rfl, rfl⟩ := hx
    obtain ⟨hnew, hkeep, hmade⟩ := place_slots hplace
    refine ⟨pid, proc, _, id, hproc, rfl, rfl, rfl, hnew, fun c j hj => ?_, fun _ => hmade rfl⟩
    cases c with
    | mutex => exact hj
    | semaphore => exact hkeep j hj
    | condvar => exact hj
  | mutexCreate blocking =>
    cases hk
    obtain ⟨r, hx, rfl⟩ := done_ok h
    obtain ⟨⟨pid, proc⟩, hproc, hx⟩ := bind_eq_ok.mp hx
    rcases hplace : place proc.mutexList (if blocking then some .new else none) with ⟨id, l⟩
    simp only [hplace, Except.ok.injEq, Prod.mk.injEq] at hx
    obtain ⟨rfl, rfl⟩ := hx
    obtain ⟨hnew, hkeep, hmade⟩ := place_slots hplace
    refine ⟨pid, proc, _, id, hproc, rfl, rfl, rfl, hnew, fun c j hj => ?_, fun hb => hmade ?_⟩
    · cases c with
      | mutex => exact hkeep j hj
      | semaphore => exact hj
      | condvar => exact hj
    · cases blocking with
      | true => rfl
      | false => exact absurd rfl hb
  | condvarCreate =>
    cases hk
    obtain ⟨r, hx, rfl⟩ := done_ok h
    obtain ⟨⟨pid, proc⟩, hproc, hx⟩ := bind_eq_ok.mp hx
    rcases hplace : place proc.condvarList (some .new) with ⟨id, l⟩
    simp only [hplace, Except.ok.injEq, Prod.mk.injEq] at hx
    obtain ⟨rfl, rfl⟩ := hx
    obtain ⟨hnew, hkeep, hmade⟩ := place_slots hplace
    refine ⟨pid, proc, _, id, hproc, rfl, rfl, rfl, hnew, fun c j hj => ?_, fun _ => hmade rfl⟩
    cases c with
    | mutex => exact hj
    | semaphore => exact hj
    | condvar => exact hkeep j hj
  | _ => cases hk

theorem handle_slots (h : Manager.handle tm call = .ok (ret, tm')) (hq : tm'.procManager.procs q = some p') :
    Lists tm call q p' := by
  cases call with
  | exit | other | unsupported =>
    cases h
    exact .kept p' hq fun _ _ hj => hj
  | fork child tid =>
    obtain ⟨r, hx, rfl⟩ := done_ok h
    obtain ⟨⟨parentPid, proc⟩, hproc, hx⟩ := bind_eq_ok.mp hx
    dsimp only at hx
    split at hx
    · cases hx
    · split at hx
      · cases hx
      · split at hx
        · cases hx
        · obtain ⟨tm1, hadd, hx⟩ := bind_eq_ok.mp hx
          cases hx
          have hr : (tm.addProc child proc.fork parentPid).relMap child = some (.new parentPid) := by
            simp [PThreadManager.addProc]
          rw [Threads.add_eq hr, Except.ok.injEq] at hadd
          subst hadd
          have hq : (Manager.setProc tm child proc.fork).procManager.procs q = some p' := hq
          exact .setProc hq fun e => .forked tid (by rw [e])
  | exec context =>
    obtain ⟨r, hx, rfl⟩ := done_ok h
    obtain ⟨⟨pid, proc⟩, hproc, hx⟩ := bind_eq_ok.mp hx
    dsimp only at hx
    split at hx
    · cases hx
    · split at hx
      · cases hx
      · cases hx
        exact .kept p' hq fun _ _ hj => hj
  | wait child =>
    obtain ⟨r, hx, rfl⟩ := done_ok h
    obtain ⟨⟨w, tm1⟩, hw, hx⟩ := bind_eq_ok.mp hx
    obtain ⟨⟨pid, rel⟩, -, hw⟩ := bind_eq_ok.mp hw
    cases hw
    dsimp only at hx
    split at hx
    · cases hx
      exact .kept p' hq fun _ _ hj => hj
    · cases hx
      exact .kept p' hq fun _ _ hj => hj
  | threadCreate tid context =>
    obtain ⟨r, hx, rfl⟩ := done_ok h
    obtain ⟨⟨pid, proc⟩, hproc, hx⟩ := bind_eq_ok.mp hx
    obtain ⟨tm1, hadd, hx⟩ := bind_eq_ok.mp hx
    cases hx
    unfold PThreadManager.add at hadd
    obtain ⟨manager, -, hadd⟩ := bind_eq_ok.mp hadd
    split at hadd
    · cases hadd
      exact .kept p' hq fun _ _ hj => hj
    · cases hadd
      exact .kept p' hq fun _ _ hj => hj
  | waittid tid =>
    obtain ⟨r, hx, rfl⟩ := done_ok h
    obtain ⟨⟨current, context⟩, -, hx⟩ := bind_eq_ok.mp hx
    dsimp only at hx
    split at hx
    · cases hx
      exact .kept p' hq fun _ _ hj => hj
    · obtain ⟨⟨w, tm1⟩, hw, hx⟩ := bind_eq_ok.mp hx
      obtain ⟨⟨pid, rel⟩, -, hw⟩ := bind_eq_ok.mp hw
      cases hw
      cases hx
      exact .kept p' hq fun _ _ hj => hj
  | semaphoreCreate | mutexCreate | condvarCreate =>
    obtain ⟨pid, proc, p, n, hproc, rfl, -, -, -, hkeep, -⟩ := create_made rfl h
    obtain ⟨-, -, -, hp⟩ := getCurrentProc_ok hproc
    exact .setProc hq fun e => .kept proc (e ▸ hp) hkeep
  | sigprocmask mask =>
    obtain ⟨r, hx, rfl⟩ := done_ok h
    obtain ⟨⟨pid, proc⟩, hproc, hx⟩ := bind_eq_ok.mp hx
    cases hx
    exact .same hproc hq rfl
  | semaphoreUp | semaphoreDown | mutexLock | mutexUnlock | condvarSignal | condvarWait =>
    obtain ⟨pid, proc, proc', woken, hproc, hslots, -, hwake⟩ := operation_ok h trivial
    rw [(wake_procs hwake).1] at hq
    exact .same hproc hq hslots
  | kill target signum =>
    obtain ⟨r, hx, rfl⟩ := done_ok h
    have htm := congrArg Prod.snd (Except.ok.inj hx)
    dsimp only at htm
    rw [← htm] at hq
    unfold Manager.kill at hq
    split at hq
    · exact .kept p' hq fun _ _ hj => hj
    · rename_i proc hp
      split at hq
      · exact .kept p' hq fun _ _ hj => hj
      · split at hq
        · exact .setProc hq fun e => .kept proc (e ▸ hp) fun _ _ hj => hj
        · exact .kept p' hq fun _ _ hj => hj
  | sigaction signum action oldAction =>
    obtain ⟨r, hx, rfl⟩ := done_ok h
    rcases Manager.sigaction_cases hx with rfl | ⟨pid, proc, signal, hproc, -, rfl⟩
    · exact .kept p' hq fun _ _ hj => hj
    · exact .same hproc hq rfl
  | sigreturn =>
    obtain ⟨r, hx, rfl⟩ := done_ok h
    obtain ⟨⟨pid, proc⟩, hproc, hx⟩ := bind_eq_ok.mp hx
    obtain ⟨⟨tid, context⟩, -, hx⟩ := bind_eq_ok.mp hx
    cases hx
    exact .same hproc hq rfl

/-- The end of a trap removes a process or leaves them all as they are. -/
theorem finish_procs {result : SignalResult} (h : Manager.finish tm call ret result = .ok tm')
    (hq : tm'.procManager.procs q = some p) : tm.procManager.procs q = some p := by
  have hsuspend : ∀ {r tm1}, Manager.setRet tm r = .ok tm1 → tm1.makeCurrentSuspend = .ok tm' →
      tm.procManager.procs q = some p := by
    intro r tm1 h1 h2
    obtain ⟨t, context, rfl⟩ := setRet_ok h1
    rw [Threads.suspend_procs h2] at hq
    exact hq
  have hblock : ∀ {r tm1}, Manager.setRet tm r = .ok tm1 → tm1.makeCurrentBlocked = tm' →
      tm.procManager.procs q = some p := by
    intro r tm1 h1 h2
    obtain ⟨t, context, rfl⟩ := setRet_ok h1
    subst h2
    exact hq
  unfold Manager.finish at h
  split at h
  · exact Threads.exited_procs h hq
  · split at h
    · exact Threads.exited_procs h hq
    · split at h
      · exact Threads.exited_procs h hq
      all_goals
        obtain ⟨tm1, h1, h⟩ := bind_eq_ok.mp h
        first
          | exact hsuspend h1 h
          | split at h
            · exact hblock h1 (Except.ok.inj h)
            · exact hsuspend h1 h

end

section

variable {s t m : State} {call : Syscall} {ret : Option Int} {e : Event} {q : ProcId} {p p' : Process} {k : Kind}

/-- After the call a trap changes the signals of a process, or removes it. -/
theorem trap_after (h : Step s (.trap call) t) (hcalled : Called s call ret m) (hq : t.tm.procManager.procs q = some p') :
    ∃ p, m.tm.procManager.procs q = some p ∧ p'.slots = p.slots := by
  cases h with
  | @trap _ _ tm hf htrap =>
    rw [mark_tm] at hq
    obtain ⟨ret0, m0, pid, result, tm1, hcalled0, hsig, hfin, -⟩ := trap_called htrap
    obtain ⟨rfl, rfl⟩ := hcalled.unique hcalled0
    obtain ⟨proc, tid, context, signal, context', hproc, -, -, rfl⟩ := hsig
    have hset : m.tm.procManager.procs.insert pid { proc with signal := signal } q = some p' := finish_procs hfin hq
    rw [BTreeMap.insert_apply] at hset
    split at hset
    · rename_i e
      cases hset
      obtain ⟨-, -, -, hp⟩ := getCurrentProc_ok hproc
      exact ⟨proc, by rw [e, hp], rfl⟩
    · exact ⟨p', hset, rfl⟩

/-- A step keeps the objects of a process; a process that was not there is a new one. -/
theorem step_slots (h : Step s e t) (hq : t.tm.procManager.procs q = some p') :
    (∃ p, s.tm.procManager.procs q = some p ∧ ∀ c j, p.Holds c j → p'.Holds c j) ∨ q ∉ s.usedPids := by
  cases h with
  | boot hadd => exact .inr List.not_mem_nil
  | dispatch hc hf =>
    obtain ⟨queue, ⟨rfl, -⟩ | ⟨id, task, -, -, -, rfl⟩⟩ := Threads.findNext_ok hf
    · exact .inl ⟨p', hq, fun _ _ h => h⟩
    · exact .inl ⟨p', hq, fun _ _ h => h⟩
  | fault hc hexit => exact .inl ⟨p', Threads.exited_procs hexit hq, fun _ _ h => h⟩
  | @trap _ call tm hf htrap =>
    obtain ⟨ret, m, -, -, -, hcalled, -⟩ := trap_called htrap
    obtain ⟨p1, hp1, hslots⟩ := trap_after (Step.trap hf htrap) hcalled hq
    obtain ⟨tid, context, tm1, -, hhandle, rfl⟩ := hcalled
    rw [mark_tm] at hp1
    cases handle_slots hhandle hp1 with
    | kept p hp hkeep =>
      refine .inl ⟨p, hp, fun c j hj => ?_⟩
      rw [Process.Holds, hslots]
      exact hkeep c j hj
    | forked tid hc =>
      subst hc
      exact .inr hf.1

/-- A create of the current process in a trap. -/
theorem create_called (hk : kindMade call = some k) (h : Called s call ret m) :
    ∃ pid proc p n, Manager.getCurrentProc s.tm = .ok (pid, proc) ∧ m.tm.procManager.procs pid = some p ∧
      ret = some ((n : Nat) : Int) ∧ ¬ proc.Holds k n ∧ (call ≠ .mutexCreate false → p.Holds k n) := by
  obtain ⟨tid, context, tm, -, hhandle, rfl⟩ := h
  obtain ⟨pid, proc, p, n, hproc, rfl, -, hret, hnew, -, hmade⟩ := create_made hk hhandle
  refine ⟨pid, proc, p, n, hproc, ?_, hret, hnew, hmade⟩
  rw [mark_tm]
  exact setProc_self

end

/-! ## Runs with the numbers given out -/

/-- A number that a create returned in a process. -/
structure Issued where
  pid : ProcId
  kind : Kind
  id : Int

/-- A step of the kernel and the numbers returned so far. -/
inductive LogStep : State × List Issued → Event → State × List Issued → Prop
  | create {s t m : State} {log : List Issued} {call : Syscall} {k : Kind} {pid : ProcId} {proc : Process} {id : Int} :
      Step s (.trap call) t → kindMade call = some k → Manager.getCurrentProc s.tm = .ok (pid, proc) →
      Called s call (some id) m → LogStep (s, log) (.trap call) (t, ⟨pid, k, id⟩ :: log)
  | other {s t : State} {log : List Issued} {e : Event} : Step s e t →
      (∀ call, e = .trap call → kindMade call = none) → LogStep (s, log) e (t, log)

section

variable {s t : State} {e : Event} {log log' : List Issued} {pid q : ProcId} {p' : Process}

theorem LogStep.step (h : LogStep (s, log) e (t, log')) : Step s e t := by
  cases h with
  | create hs => exact hs
  | other hs => exact hs

/-- Every run has its log. -/
theorem log_run {es : List Event} (h : Exec Step Threads.World.new es s) :
    ∃ log, Exec LogStep (Threads.World.new, []) es (s, log) := by
  induction h with
  | nil => exact ⟨[], .nil _⟩
  | @snoc a b es e hab hs ih =>
    obtain ⟨log, ih⟩ := ih
    by_cases hmade : ∃ call k, e = .trap call ∧ kindMade call = some k
    · obtain ⟨call, k, rfl, hk⟩ := hmade
      cases hs with
      | trap hf htrap =>
        obtain ⟨ret, m, -, -, -, hcalled, -⟩ := trap_called htrap
        obtain ⟨pid, proc, -, n, hproc, -, rfl, -⟩ := create_called hk hcalled
        exact ⟨_, ih.snoc (.create (.trap hf htrap) hk hproc hcalled)⟩
    · refine ⟨log, ih.snoc (.other hs fun call he => ?_)⟩
      cases hk : kindMade call with
      | none => rfl
      | some k => exact absurd ⟨call, k, he, hk⟩ hmade

/-- The numbers are numbers of objects, and no two are one. -/
structure HInv (s : State) (log : List Issued) : Prop where
  inv : Threads.TInv s
  nodup : log.Nodup
  used : ∀ {x}, x ∈ log → x.pid ∈ s.usedPids
  holds : ∀ {x}, x ∈ log → ∃ n : Nat, x.id = n ∧ ∀ p, s.tm.procManager.procs x.pid = some p → p.Holds x.kind n

theorem step_used (h : Step s e t) (hq : q ∈ s.usedPids) : q ∈ t.usedPids := by
  cases h with
  | boot => cases hq
  | dispatch => exact hq
  | fault => exact hq
  | @trap _ call tm hf htrap =>
    cases call with
    | fork => exact List.mem_cons_of_mem _ hq
    | _ => exact hq

/-- What the log says of the objects holds after a step. -/
theorem HInv.later (h : HInv s log) (hs : Step s e t) {x : Issued} (hx : x ∈ log) :
    x.pid ∈ t.usedPids ∧ ∃ n : Nat, x.id = n ∧ ∀ p, t.tm.procManager.procs x.pid = some p → p.Holds x.kind n := by
  obtain ⟨n, hn, hholds⟩ := h.holds hx
  refine ⟨step_used hs (h.used hx), n, hn, fun p hp => ?_⟩
  rcases step_slots hs hp with ⟨p0, hp0, hkeep⟩ | hnew
  · exact hkeep _ _ (hholds p0 hp0)
  · exact absurd (h.used hx) hnew

theorem HInv.step (h : HInv s log) (hs : LogStep (s, log) e (t, log')) (he : e ≠ .trap (.mutexCreate false)) :
    HInv t log' := by
  have hi : Threads.TInv t := Micros.tInv (step_micros hs.step) h.inv
  cases hs with
  | other hs => exact ⟨hi, h.nodup, fun hx => (h.later hs hx).1, fun hx => (h.later hs hx).2⟩
  | @create _ _ m _ call k pid proc id hs hk hproc hcalled =>
    obtain ⟨-, -, -, hp⟩ := getCurrentProc_ok hproc
    have hpid : pid ∈ s.usedPids := by
      obtain ⟨r, hr⟩ := Option.isSome_iff_exists.mp ((h.inv.procs pid).mp (by rw [hp]; rfl))
      exact h.inv.fam.known (show family s.tm.relMap pid = some r.toProcRel by rw [family, hr]; rfl)
    obtain ⟨pid', proc', p1, n, hproc', hp1, hret, hfree, hmade⟩ := create_called hk hcalled
    cases hproc.symm.trans hproc'
    cases hret
    -- An entry of the log denotes an object; this number did not.
    have hnew : ⟨pid, k, n⟩ ∉ log := by
      intro hx
      obtain ⟨n', hn, hholds⟩ := h.holds hx
      cases Int.ofNat.inj hn
      exact hfree (hholds proc hp)
    refine ⟨hi, List.nodup_cons.mpr ⟨hnew, h.nodup⟩, fun hx => ?_, fun hx => ?_⟩
    · rcases List.mem_cons.mp hx with rfl | hx
      · exact step_used hs hpid
      · exact (h.later hs hx).1
    · rcases List.mem_cons.mp hx with rfl | hx
      · refine ⟨n, rfl, fun p hp => ?_⟩
        obtain ⟨p2, hp2, hslots⟩ := trap_after hs hcalled hp
        cases hp1.symm.trans hp2
        rw [Process.Holds, hslots]
        exact hmade fun hc => he (by rw [hc])
      · exact (h.later hs hx).2

end

/-! ## The calls on objects -/

/-- The numbers denote objects, `unlock` finds the mutex locked, `condvar_wait` finds a thread to
    hand it to, and the counter of a semaphore stays an isize. -/
def Usable (p : Process) : Syscall → Prop
  | .semaphoreUp id => ∃ sem, p.semaphoreList[id]? = some (some sem) ∧ -2 ^ 63 ≤ sem.count + 1 ∧ sem.count + 1 < 2 ^ 63
  | .semaphoreDown id => ∃ sem, p.semaphoreList[id]? = some (some sem) ∧ -2 ^ 63 ≤ sem.count - 1 ∧ sem.count - 1 < 2 ^ 63
  | .mutexLock id => ∃ mutex, p.mutexList[id]? = some (some mutex)
  | .mutexUnlock id => ∃ mutex, p.mutexList[id]? = some (some mutex) ∧ mutex.locked = true
  | .condvarSignal id => ∃ condvar, p.condvarList[id]? = some (some condvar)
  | .condvarWait id mutexId => ∃ condvar mutex, p.condvarList[id]? = some (some condvar) ∧
      p.mutexList[mutexId]? = some (some mutex) ∧ mutex.locked = true ∧ mutex.waitQueue ≠ []
  | _ => True

/-- The call comes back, and unless a signal ends the process the trap goes on: the thread is
    made ready or, where the call returned -1, left blocked. -/
def Returns (tm : Manager) (call : Syscall) : Prop :=
  ∃ ret tm', Manager.handle tm call = .ok (some ret, tm') ∧ ∀ result, (∀ code, result ≠ .processKilled code) →
    ∃ tm'', Manager.finish tm' call (some ret) result = .ok tm''

section

variable {tm tm' : Manager} {call : Syscall} {ret : Option Int} {pid : ProcId} {tid : Task.ThreadId} {p : Process}
  {context : LocalContext}

theorem slot_eq {α : Type} {l : List (Option α)} {id : Nat} {x : α} (h : l[id]? = some (some x)) : slot l id = .ok x := by
  simp only [slot, h]

theorem wake_eq (tm : Manager) (woken : Option Task.ThreadId) : ∃ tm', Manager.wake tm woken = .ok tm' := by
  cases woken with
  | none => exact ⟨tm, rfl⟩
  | some t => exact ⟨_, rfl⟩

/-- The trap goes on after a call that came back. -/
theorem finish_ok {r : Int} {result : SignalResult} (hcur : Manager.getCurrent tm = .ok (tid, context))
    (hop : Operation call) (hresult : ∀ code, result ≠ .processKilled code) :
    ∃ tm', Manager.finish tm call (some r) result = .ok tm' := by
  have hset : Manager.setRet tm r = .ok (Manager.setContext tm tid (context.setA 0 (Manager.asUsize r))) := by
    simp only [Manager.setRet, hcur]
    rfl
  have hsuspend : ∀ tm : Manager, ∃ tm', tm.makeCurrentSuspend = .ok tm' := by
    intro tm
    unfold PThreadManager.makeCurrentSuspend
    split
    · exact ⟨_, rfl⟩
    · exact ⟨_, rfl⟩
  obtain ⟨tm1, h1⟩ := hsuspend (Manager.setContext tm tid (context.setA 0 (Manager.asUsize r)))
  unfold Manager.finish
  split
  · rename_i code
    exact absurd rfl (hresult code)
  · cases call with
    | semaphoreUp | mutexUnlock | condvarSignal =>
      refine ⟨tm1, ?_⟩
      simp only [hset]
      exact h1
    | semaphoreDown | mutexLock | condvarWait =>
      simp only [hset, bind, Except.bind]
      split
      · exact ⟨_, rfl⟩
      · exact ⟨tm1, h1⟩
    | _ => exact absurd hop (by simp [Operation])

theorem unlock_returns {m : MutexBlocking} : (∃ x, m.unlock = .ok x) ↔ m.locked = true := by
  unfold MutexBlocking.unlock
  split
  · rename_i hl
    refine iff_of_true ?_ hl
    split
    · exact ⟨_, rfl⟩
    · exact ⟨_, rfl⟩
  · rename_i hl
    exact iff_of_false (by simp) hl

theorem wake_current {woken : Option Task.ThreadId} (h : Manager.wake tm woken = .ok tm') :
    Manager.getCurrent tm' = Manager.getCurrent tm := by
  obtain ⟨-, hc, ht⟩ := wake_procs h
  simp only [Manager.getCurrent, FifoManager.getMut, hc, ht]

theorem returns_of {x : Except Halt (Int × Manager)} (r : Int) (u : Manager) (hop : Operation call)
    (hhandle : Manager.handle tm call = Manager.done x) (hx : x = .ok (r, u))
    (hcur : Manager.getCurrent u = .ok (tid, context)) : Returns tm call := by
  refine ⟨r, u, ?_, fun result hresult => finish_ok hcur hop hresult⟩
  rw [hhandle, hx]
  rfl

/-- A call on objects comes back exactly when they can be used. -/
theorem operation_returns (hcur : Manager.getCurrent tm = .ok (tid, context))
    (hproc : Manager.getCurrentProc tm = .ok (pid, p)) (hop : Operation call) : Returns tm call ↔ Usable p call := by
  cases call with
  | semaphoreUp id =>
    constructor
    · rintro ⟨ret, tm1, h, -⟩
      obtain ⟨r, hx, -⟩ := done_ok h
      obtain ⟨⟨pid', p'⟩, hproc', hx⟩ := bind_eq_ok.mp hx
      cases hproc.symm.trans hproc'
      obtain ⟨sem, hsem, hx⟩ := bind_eq_ok.mp hx
      obtain ⟨⟨woken, sem'⟩, hup, -⟩ := bind_eq_ok.mp hx
      obtain ⟨count, hcount, -⟩ := bind_eq_ok.mp hup
      exact ⟨sem, slot_ok hsem, (checkedIsize_ok hcount).2⟩
    · rintro ⟨sem, hsem, hfits⟩
      obtain ⟨tm1, hwake⟩ := wake_eq (Manager.setProc tm pid { p with
        semaphoreList := p.semaphoreList.set id (some ⟨sem.count + 1, sem.waitQueue.tail⟩) }) sem.waitQueue.head?
      refine returns_of 0 tm1 hop rfl ?_ ((wake_current hwake).trans hcur)
      simp only [Manager.semaphoreUp, hproc, slot_eq hsem, Semaphore.up, checkedIsize_eq hfits, bind, Except.bind, hwake]
  | semaphoreDown id =>
    constructor
    · rintro ⟨ret, tm1, h, -⟩
      obtain ⟨r, hx, -⟩ := done_ok h
      obtain ⟨⟨tid', context'⟩, -, hx⟩ := bind_eq_ok.mp hx
      obtain ⟨⟨pid', p'⟩, hproc', hx⟩ := bind_eq_ok.mp hx
      cases hproc.symm.trans hproc'
      obtain ⟨sem, hsem, hx⟩ := bind_eq_ok.mp hx
      obtain ⟨⟨passed, sem'⟩, hdown, -⟩ := bind_eq_ok.mp hx
      obtain ⟨count, hcount, -⟩ := bind_eq_ok.mp hdown
      exact ⟨sem, slot_ok hsem, (checkedIsize_ok hcount).2⟩
    · rintro ⟨sem, hsem, hfits⟩
      obtain ⟨passed, sem', hdown⟩ : ∃ passed sem', sem.down tid = .ok (passed, sem') := by
        simp only [Semaphore.down, checkedIsize_eq hfits, bind, Except.bind]
        split
        · exact ⟨_, _, rfl⟩
        · exact ⟨_, _, rfl⟩
      refine returns_of (if passed then 0 else -1) (Manager.setProc tm pid { p with
        semaphoreList := p.semaphoreList.set id (some sem') }) hop rfl ?_ hcur
      simp only [Manager.semaphoreDown, hcur, hproc, slot_eq hsem, hdown, bind, Except.bind]
  | mutexLock id =>
    constructor
    · rintro ⟨ret, tm1, h, -⟩
      obtain ⟨r, hx, -⟩ := done_ok h
      obtain ⟨⟨tid', context'⟩, -, hx⟩ := bind_eq_ok.mp hx
      obtain ⟨⟨pid', p'⟩, hproc', hx⟩ := bind_eq_ok.mp hx
      cases hproc.symm.trans hproc'
      obtain ⟨mutex, hmutex, -⟩ := bind_eq_ok.mp hx
      exact ⟨mutex, slot_ok hmutex⟩
    · rintro ⟨mutex, hmutex⟩
      refine returns_of (if (mutex.lock tid).1 then 0 else -1) (Manager.setProc tm pid { p with
        mutexList := p.mutexList.set id (some (mutex.lock tid).2) }) hop rfl ?_ hcur
      simp only [Manager.mutexLock, hcur, hproc, slot_eq hmutex, bind, Except.bind]
  | mutexUnlock id =>
    constructor
    · rintro ⟨ret, tm1, h, -⟩
      obtain ⟨r, hx, -⟩ := done_ok h
      obtain ⟨⟨pid', p'⟩, hproc', hx⟩ := bind_eq_ok.mp hx
      cases hproc.symm.trans hproc'
      obtain ⟨mutex, hmutex, hx⟩ := bind_eq_ok.mp hx
      obtain ⟨⟨woken, mutex'⟩, hunlock, -⟩ := bind_eq_ok.mp hx
      exact ⟨mutex, slot_ok hmutex, (unlock_returns.mp ⟨_, hunlock⟩)⟩
    · rintro ⟨mutex, hmutex, hlocked⟩
      obtain ⟨⟨woken, mutex'⟩, hunlock⟩ := unlock_returns.mpr hlocked
      obtain ⟨tm1, hwake⟩ := wake_eq (Manager.setProc tm pid { p with
        mutexList := p.mutexList.set id (some mutex') }) woken
      refine returns_of 0 tm1 hop rfl ?_ ((wake_current hwake).trans hcur)
      simp only [Manager.mutexUnlock, hproc, slot_eq hmutex, hunlock, bind, Except.bind, hwake]
  | condvarSignal id =>
    constructor
    · rintro ⟨ret, tm1, h, -⟩
      obtain ⟨r, hx, -⟩ := done_ok h
      obtain ⟨⟨pid', p'⟩, hproc', hx⟩ := bind_eq_ok.mp hx
      cases hproc.symm.trans hproc'
      obtain ⟨condvar, hcondvar, -⟩ := bind_eq_ok.mp hx
      exact ⟨condvar, slot_ok hcondvar⟩
    · rintro ⟨condvar, hcondvar⟩
      obtain ⟨tm1, hwake⟩ := wake_eq (Manager.setProc tm pid { p with
        condvarList := p.condvarList.set id (some condvar.signal.2) }) condvar.signal.1
      refine returns_of 0 tm1 hop rfl ?_ ((wake_current hwake).trans hcur)
      simp only [Manager.condvarSignal, hproc, slot_eq hcondvar, bind, Except.bind, hwake]
  | condvarWait id mutexId =>
    constructor
    · rintro ⟨ret, tm1, h, -⟩
      obtain ⟨r, hx, -⟩ := done_ok h
      obtain ⟨⟨tid', context'⟩, -, hx⟩ := bind_eq_ok.mp hx
      obtain ⟨⟨pid', p'⟩, hproc', hx⟩ := bind_eq_ok.mp hx
      cases hproc.symm.trans hproc'
      obtain ⟨condvar, hcondvar, hx⟩ := bind_eq_ok.mp hx
      obtain ⟨mutex, hmutex, hx⟩ := bind_eq_ok.mp hx
      obtain ⟨⟨⟨flag, next⟩, mutex'⟩, hwait, -⟩ := bind_eq_ok.mp hx
      obtain ⟨m1, hunlock, -⟩ := Condvar.waitWithMutex_eq hwait
      obtain ⟨hlocked, hqueue, -⟩ := unlock_eq_some hunlock
      exact ⟨condvar, mutex, slot_ok hcondvar, slot_ok hmutex, hlocked, by rw [hqueue]; simp⟩
    · rintro ⟨condvar, mutex, hcondvar, hmutex, hlocked, hqueue⟩
      obtain ⟨next, queue, hq⟩ := List.exists_cons_of_ne_nil hqueue
      have hwait : condvar.waitWithMutex tid mutex = .ok ((false, next), ⟨true, queue ++ [tid]⟩) := by
        simp only [Condvar.waitWithMutex, MutexBlocking.unlock, MutexBlocking.lock, hlocked, hq, bind, Except.bind,
          if_true]
      obtain ⟨tm1, hwake⟩ := wake_eq (Manager.setProc tm pid { p with
        mutexList := p.mutexList.set mutexId (some ⟨true, queue ++ [tid]⟩) }) (some next)
      refine returns_of (-1) tm1 hop rfl ?_ ((wake_current hwake).trans hcur)
      simp only [Manager.condvarWait, hcur, hproc, slot_eq hcondvar, slot_eq hmutex, hwait, bind, Except.bind, hwake]
      rfl
  | _ => exact absurd hop (by simp [Operation])

end

/-! ## Handles -/

theorem hInv_run {es : List Event} {s : State} {log : List Issued} (h : Exec LogStep (Threads.World.new, []) es (s, log))
    (hblocking : .trap (.mutexCreate false) ∉ es) : HInv s log := by
  have hrun := h.inv (P := fun es x => .trap (.mutexCreate false) ∉ es → HInv x.1 x.2)
    (fun _ => ⟨Threads.tInv_new, List.nodup_nil, by simp, by simp⟩) ?_
  · exact hrun hblocking
  · intro es x e y ih hs hno
    refine (ih fun hm => hno (List.mem_append_left _ hm)).step hs fun he => hno ?_
    exact List.mem_append_right _ (List.mem_singleton.mpr he.symm)

/-- In every run whose mutexes are blocking ones the numbers that creates of one kind return in a
    process differ, and each denotes an object as long as the process lives. In every state a
    call on objects comes back exactly when they can be used. -/
theorem sync_handles {es : List Event} {s : State} {log : List Issued}
    (h : Exec LogStep (Threads.World.new, []) es (s, log)) (hblocking : .trap (.mutexCreate false) ∉ es) :
    log.Nodup ∧
    (∀ x ∈ log, ∃ n : Nat, x.id = n ∧ ∀ p, s.tm.procManager.procs x.pid = some p → p.Holds x.kind n) ∧
    ∀ t, s.tm.current = some t → ∃ pid p, Manager.getCurrentProc s.tm = .ok (pid, p) ∧
      ∀ call, Operation call → (Returns s.tm call ↔ Usable p call) := by
  have hi := hInv_run h hblocking
  refine ⟨hi.nodup, fun x hx => hi.holds hx, fun t hc => ?_⟩
  have htid := hi.inv.current hc
  obtain ⟨pid, hpid⟩ := Option.isSome_iff_exists.mp htid
  obtain ⟨context, hcontext⟩ := Option.isSome_iff_exists.mp ((hi.inv.tasks t).mpr htid)
  have hproc : (s.tm.procManager.procs pid).isSome = true := by
    rw [hi.inv.procs, ← Option.isSome_map]
    exact hi.inv.threads.owner hpid
  obtain ⟨p, hp⟩ := Option.isSome_iff_exists.mp hproc
  have hcur : Manager.getCurrent s.tm = .ok (t, context) := by
    simp only [Manager.getCurrent, hc, FifoManager.getMut, hcontext]
  exact ⟨pid, p, getCurrentProc_eq hc hpid hp, fun call => operation_returns hcur (getCurrentProc_eq hc hpid hp)⟩

/-- Two creates of a mutex in process 0. -/
theorem two_mutexes (blocking : Bool) : ∃ s n, Exec LogStep (Threads.World.new, [])
    [.boot, .dispatch, .trap (.mutexCreate blocking), .dispatch, .trap (.mutexCreate blocking), .dispatch]
    (s, [⟨0, .mutex, n⟩, ⟨0, .mutex, 0⟩]) ∧ n = (if blocking then 1 else 0) ∧ s.tm.current = some 0 := by
  have h1 : Exec LogStep (Threads.World.new, []) [.boot] _ :=
    .single (.other (@Step.boot (.user 0) _ rfl) (by simp))
  have h2 : Exec LogStep _ [.boot, .dispatch] _ := h1.snoc (.other (.dispatch rfl rfl) (by simp))
  cases blocking with
  | true =>
    have h3 := h2.snoc (.create (@Step.trap _ (.mutexCreate true) _ trivial rfl) rfl rfl ⟨_, _, _, rfl, rfl, rfl⟩)
    have h4 := h3.snoc (.other (.dispatch rfl rfl) (by simp))
    have h5 := h4.snoc (.create (@Step.trap _ (.mutexCreate true) _ trivial rfl) rfl rfl ⟨_, _, _, rfl, rfl, rfl⟩)
    exact ⟨_, _, h5.snoc (.other (.dispatch rfl rfl) (by simp)), rfl, rfl⟩
  | false =>
    have h3 := h2.snoc (.create (@Step.trap _ (.mutexCreate false) _ trivial rfl) rfl rfl ⟨_, _, _, rfl, rfl, rfl⟩)
    have h4 := h3.snoc (.other (.dispatch rfl rfl) (by simp))
    have h5 := h4.snoc (.create (@Step.trap _ (.mutexCreate false) _ trivial rfl) rfl rfl ⟨_, _, _, rfl, rfl, rfl⟩)
    exact ⟨_, _, h5.snoc (.other (.dispatch rfl rfl) (by simp)), rfl, rfl⟩

theorem sync_handles_two : ∃ es s x y, Exec LogStep (Threads.World.new, []) es (s, [x, y]) ∧ x.pid = y.pid ∧
    x.kind = y.kind ∧ x ≠ y ∧ ∃ t, s.tm.current = some t ∧ ∃ pid p, Manager.getCurrentProc s.tm = .ok (pid, p) ∧
      (Returns s.tm (.mutexLock 1) ↔ Usable p (.mutexLock 1)) := by
  obtain ⟨s, n, hrun, rfl, hc⟩ := two_mutexes true
  obtain ⟨hnodup, -, hreturns⟩ := sync_handles hrun (by simp)
  obtain ⟨pid, p, hproc, hcall⟩ := hreturns 0 hc
  refine ⟨_, s, _, _, hrun, rfl, rfl, ?_, 0, hc, pid, p, hproc, hcall _ trivial⟩
  simp

/-- Two mutexes that are not blocking have one number, and it denotes no mutex: to lock it stops
    the kernel. -/
theorem handle_twice : ¬ ∀ es s log, Exec LogStep (Threads.World.new, []) es (s, log) → log.Nodup ∧
    (∀ x ∈ log, ∃ n : Nat, x.id = n ∧ ∀ p, s.tm.procManager.procs x.pid = some p → p.Holds x.kind n) ∧
    ∀ t, s.tm.current = some t → ∀ call, Operation call → Returns s.tm call := by
  intro hall
  obtain ⟨s, n, hrun, rfl, -⟩ := two_mutexes false
  obtain ⟨hnodup, -⟩ := hall _ s _ hrun
  exact absurd hnodup (by simp)

end TgRcore.Kernel
