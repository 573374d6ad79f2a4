/-
  TgRcore.Task.ThreadManager — processes and their threads (`thread_manager.rs`,
  `proc_thread_rel.rs`) with the stores of chapter 8, and the runs of the kernel.

  - `Threads.Step`: the uses of chapter 8. A process is made together with its first thread,
    as a child of the current process or, at boot, of no process.
  - `TInv`: threads, their processes and the links between processes stay in step.
  - `thread_table`: over every run, with what makes a process disappear.
-/

import TgRcore.Task.Managers

namespace TgRcore.Task

open TgRcore.BlockProg

abbrev ThreadId := Nat

structure ProcThreadRel extends ProcRel where
  threads : List ThreadId
  deadThreads : List (ThreadId × Int)
  deriving DecidableEq, Repr

instance : HasRel ProcThreadRel :=
  ⟨ProcThreadRel.toProcRel, fun f r => { r with toProcRel := f r.toProcRel }, fun _ _ => rfl, fun _ _ _ => rfl,
    fun _ => rfl⟩

namespace ProcThreadRel

def new (parentPid : ProcId) : ProcThreadRel := ⟨.new parentPid, [], []⟩

def addThread (r : ProcThreadRel) (tid : ThreadId) : ProcThreadRel := { r with threads := r.threads ++ [tid] }

def delThread (r : ProcThreadRel) (tid : ThreadId) (exitCode : Int) : ProcThreadRel :=
  if tid ∈ r.threads then
    { r with
      threads := r.threads.erase tid
      deadThreads := r.deadThreads ++ [(tid, exitCode)] }
  else r

/-- -2 for a thread that still runs. -/
def waitThread (r : ProcThreadRel) (threadTid : ThreadId) : Option Int × ProcThreadRel :=
  match r.deadThreads.find? fun d => d.1 == threadTid with
  | some d => (some d.2, { r with deadThreads := r.deadThreads.eraseP fun d => d.1 == threadTid })
  | none => if threadTid ∈ r.threads then (some (-2), r) else (none, r)

end ProcThreadRel

/-- The processes by number. -/
structure ProcStore (P : Type) where
  procs : BTreeMap ProcId P

namespace ProcStore

variable {P : Type}

def insert (m : ProcStore P) (id : ProcId) (item : P) : ProcStore P := ⟨m.procs.insert id item⟩

def getMut (m : ProcStore P) (id : ProcId) : Option P := m.procs id

def delete (m : ProcStore P) (id : ProcId) : ProcStore P := ⟨m.procs.remove id⟩

end ProcStore

/-- Both managers are set once, at boot, before the first call. -/
structure PThreadManager (P T : Type) where
  relMap : BTreeMap ProcId ProcThreadRel
  procManager : ProcStore P
  tid2pid : BTreeMap ThreadId ProcId
  manager : FifoManager T
  current : Option ThreadId

namespace PThreadManager

variable {P T : Type}

def new : PThreadManager P T := ⟨.empty, ⟨.empty⟩, .empty, .new, none⟩

def findNext (tm : PThreadManager P T) : Except Halt (Option T × PThreadManager P T) := do
  let (next, manager) ← tm.manager.fetch
  match next with
  | some id =>
    match manager.getMut id with
    | some task => .ok (some task, { tm with manager := manager, current := some id })
    | none => .ok (none, { tm with manager := manager })
  | none => .ok (none, { tm with manager := manager })

def makeCurrentSuspend (tm : PThreadManager P T) : Except Halt (PThreadManager P T) :=
  match tm.current with
  | some id => do
    let manager ← tm.manager.add id
    .ok { tm with manager := manager, current := none }
  | none => .ok tm

def delProc (tm : PThreadManager P T) (id : ProcId) (exitCode : Int) : Except Halt (PThreadManager P T) := do
  let procManager := tm.procManager.delete id
  let relMap ← leave tm.relMap id exitCode
  .ok { tm with procManager := procManager, relMap := relMap }

def makeCurrentExited (tm : PThreadManager P T) (exitCode : Int) : Except Halt (PThreadManager P T) :=
  match tm.current with
  | some id =>
    let manager := tm.manager.delete id
    match tm.tid2pid id with
    | none => .error .panic
    | some pid =>
      let tm := { tm with manager := manager, tid2pid := tm.tid2pid.remove id }
      match tm.relMap pid with
      | some currentRel => do
        let currentRel := currentRel.delThread id exitCode
        let tm := { tm with relMap := tm.relMap.insert pid currentRel }
        if currentRel.threads.isEmpty then
          let tm ← tm.delProc pid exitCode
          .ok { tm with current := none }
        else .ok { tm with current := none }
      | none => .ok { tm with current := none }
  | none => .ok tm

def makeCurrentBlocked (tm : PThreadManager P T) : PThreadManager P T := { tm with current := none }

def reEnque (tm : PThreadManager P T) (id : ThreadId) : Except Halt (PThreadManager P T) := do
  let manager ← tm.manager.add id
  .ok { tm with manager := manager }

def add (tm : PThreadManager P T) (id : ThreadId) (task : T) (pid : ProcId) : Except Halt (PThreadManager P T) := do
  let manager := tm.manager.insert id task
  let manager ← manager.add id
  match tm.relMap pid with
  | some parentRel =>
    .ok { tm with
      manager := manager
      relMap := tm.relMap.insert pid (parentRel.addThread id)
      tid2pid := tm.tid2pid.insert id pid }
  | none => .ok { tm with manager := manager }

def addProc (tm : PThreadManager P T) (id : ProcId) (proc : P) (parent : ProcId) : PThreadManager P T :=
  { tm with
    procManager := tm.procManager.insert id proc
    relMap := (tm.relMap.adjust parent (onRel fun r => r.addChild id)).insert id (.new parent) }

/-- The process of the current thread and its record. -/
def currentRel (tm : PThreadManager P T) : Except Halt (ProcId × ProcThreadRel) :=
  match tm.current with
  | none => .error .panic
  | some id =>
    match tm.tid2pid id with
    | none => .error .panic
    | some pid =>
      match tm.relMap pid with
      | none => .error .panic
      | some currentRel => .ok (pid, currentRel)

def wait (tm : PThreadManager P T) (childPid : ProcId) :
    Except Halt (Option (ProcId × Int) × PThreadManager P T) := do
  let (pid, currentRel) ← tm.currentRel
  let (ret, rel) := currentRel.toProcRel.wait childPid
  .ok (ret, { tm with relMap := tm.relMap.insert pid { currentRel with toProcRel := rel } })

def waittid (tm : PThreadManager P T) (threadTid : ThreadId) : Except Halt (Option Int × PThreadManager P T) := do
  let (pid, currentRel) ← tm.currentRel
  let (ret, currentRel) := currentRel.waitThread threadTid
  .ok (ret, { tm with relMap := tm.relMap.insert pid currentRel })

end PThreadManager

namespace Threads

/-! ## Runs -/

/-- The managers and the process and thread ids used so far. -/
structure World (P T : Type) where
  tm : PThreadManager P T
  usedPids : List ProcId
  usedTids : List ThreadId

def World.new {P T : Type} : World P T := ⟨.new, [], []⟩

inductive Event where
  | newProc (pid : ProcId) (tid : ThreadId) (parent : ProcId)
  | newThread (tid : ThreadId) (pid : ProcId)
  | findNext
  | suspend
  | block
  | reEnque (tid : ThreadId)
  | exit (tid : Option ThreadId) (exitCode : Int)
  | wait (childPid : ProcId) (ret : Option (ProcId × Int))
  | waittid (tid : ThreadId) (ret : Option Int)

variable {P T : Type}

/-- The process of the current thread. -/
def currentPid (tm : PThreadManager P T) : Option ProcId := tm.current.bind tm.tid2pid

inductive Step : World P T → Event → World P T → Prop
  | newProc {w : World P T} {pid parent : ProcId} {tid : ThreadId} {proc : P} {task : T} {tm : PThreadManager P T} :
      pid ∉ w.usedPids → pid < 2 ^ 64 - 2 → tid ∉ w.usedTids →
      parent = usizeMax ∨ currentPid w.tm = some parent →
      (w.tm.addProc pid proc parent).add tid task pid = .ok tm →
      Step w (.newProc pid tid parent) ⟨tm, pid :: w.usedPids, tid :: w.usedTids⟩
  | newThread {w : World P T} {pid : ProcId} {tid : ThreadId} {task : T} {tm : PThreadManager P T} :
      tid ∉ w.usedTids → currentPid w.tm = some pid → w.tm.add tid task pid = .ok tm →
      Step w (.newThread tid pid) ⟨tm, w.usedPids, tid :: w.usedTids⟩
  | findNext {w : World P T} {ret : Option T} {tm : PThreadManager P T} : w.tm.findNext = .ok (ret, tm) →
      Step w .findNext ⟨tm, w.usedPids, w.usedTids⟩
  | suspend {w : World P T} {tm : PThreadManager P T} : w.tm.makeCurrentSuspend = .ok tm →
      Step w .suspend ⟨tm, w.usedPids, w.usedTids⟩
  | block {w : World P T} : Step w .block ⟨w.tm.makeCurrentBlocked, w.usedPids, w.usedTids⟩
  | reEnque {w : World P T} {tid : ThreadId} {tm : PThreadManager P T} : w.tm.reEnque tid = .ok tm →
      Step w (.reEnque tid) ⟨tm, w.usedPids, w.usedTids⟩
  | exit {w : World P T} {code : Int} {tm : PThreadManager P T} : w.tm.makeCurrentExited code = .ok tm →
      Step w (.exit w.tm.current code) ⟨tm, w.usedPids, w.usedTids⟩
  | wait {w : World P T} {c : ProcId} {ret : Option (ProcId × Int)} {tm : PThreadManager P T} :
      w.tm.wait c = .ok (ret, tm) → Step w (.wait c ret) ⟨tm, w.usedPids, w.usedTids⟩
  | waittid {w : World P T} {t : ThreadId} {ret : Option Int} {tm : PThreadManager P T} :
      w.tm.waittid t = .ok (ret, tm) → Step w (.waittid t ret) ⟨tm, w.usedPids, w.usedTids⟩

/-! ## Threads and their processes -/

/-- The live threads of every process. -/
def threadsOf (m : BTreeMap ProcId ProcThreadRel) : BTreeMap ProcId (List ThreadId) :=
  fun p => (m p).map ProcThreadRel.threads

structure ThInv (threads : BTreeMap ProcId (List ThreadId)) (tid2pid : BTreeMap ThreadId ProcId) : Prop where
  mem : ∀ {p l}, threads p = some l → ∀ t, t ∈ l ↔ tid2pid t = some p
  owner : ∀ {t p}, tid2pid t = some p → (threads p).isSome = true
  once : ∀ {p l}, threads p = some l → l.Nodup
  nonempty : ∀ {p l}, threads p = some l → l ≠ []

section

variable {threads : BTreeMap ProcId (List ThreadId)} {tid2pid : BTreeMap ThreadId ProcId} {p : ProcId} {t : ThreadId}
  {l : List ThreadId}

theorem ThInv.add (h : ThInv threads tid2pid) (hl : (threads p).getD [] = l) (ht : tid2pid t = none) :
    ThInv (threads.insert p (l ++ [t])) (tid2pid.insert t p) := by
  have hmem : ∀ u, u ∈ l ↔ tid2pid u = some p := by
    intro u
    cases hp : threads p with
    | none =>
      rw [hp] at hl
      subst hl
      refine iff_of_false (by simp) fun hu => ?_
      have ho := h.owner hu
      rw [hp] at ho
      cases ho
    | some l' =>
      rw [hp] at hl
      subst hl
      exact h.mem hp u
  have hnodup : l.Nodup := by
    cases hp : threads p with
    | none =>
      rw [hp] at hl
      subst hl
      exact List.nodup_nil
    | some l' =>
      rw [hp] at hl
      subst hl
      exact h.once hp
  have hnew : t ∉ l := by
    intro hm
    rw [(hmem t).mp hm] at ht
    cases ht
  refine ⟨?_, ?_, ?_, ?_⟩
  · intro q k hq u
    rw [BTreeMap.insert_apply] at hq
    rw [BTreeMap.insert_apply]
    by_cases hu : u = t
    · subst hu
      rw [if_pos rfl, Option.some.injEq]
      split at hq
      · rename_i e
        cases hq
        simp [e]
      · rename_i e
        rw [h.mem hq, ht]
        exact iff_of_false (by simp) fun e' => e e'.symm
    · rw [if_neg hu]
      split at hq
      · rename_i e
        cases hq
        rw [List.mem_append, hmem, e, List.mem_singleton]
        exact or_iff_left hu
      · exact h.mem hq u
  · intro u q hq
    rw [BTreeMap.isSome_insert]
    rw [BTreeMap.insert_apply] at hq
    split at hq
    · cases hq
      exact .inl rfl
    · exact .inr (h.owner hq)
  · intro q k hq
    rw [BTreeMap.insert_apply] at hq
    split at hq
    · cases hq
      refine List.nodup_append.mpr ⟨hnodup, List.nodup_singleton t, ?_⟩
      intro a ha b hb e
      rw [List.mem_singleton.mp hb] at e
      exact hnew (e ▸ ha)
    · exact h.once hq
  · intro q k hq
    rw [BTreeMap.insert_apply] at hq
    split at hq
    · cases hq
      simp
    · exact h.nonempty hq

/-- A thread that is not the last one of its process exits. -/
theorem ThInv.exit (h : ThInv threads tid2pid) (hl : threads p = some l) (ht : t ∈ l) (hne : l.erase t ≠ []) :
    ThInv (threads.insert p (l.erase t)) (tid2pid.remove t) := by
  have htp := (h.mem hl t).mp ht
  refine ⟨?_, ?_, ?_, ?_⟩
  · intro q k hq u
    rw [BTreeMap.insert_apply] at hq
    rw [BTreeMap.remove_apply]
    split at hq
    · rename_i e
      cases hq
      rw [(h.once hl).mem_erase_iff, h.mem hl, e]
      by_cases hu : u = t
      · simp [hu]
      · simp [hu]
    · rename_i e
      rw [h.mem hq]
      by_cases hu : u = t
      · rw [hu, htp]
        simpa using fun e' => e e'.symm
      · simp [hu]
  · intro u q hq
    rw [BTreeMap.isSome_insert]
    rw [BTreeMap.remove_apply] at hq
    split at hq
    · cases hq
    · exact .inr (h.owner hq)
  · intro q k hq
    rw [BTreeMap.insert_apply] at hq
    split at hq
    · cases hq
      exact (h.once hl).erase t
    · exact h.once hq
  · intro q k hq
    rw [BTreeMap.insert_apply] at hq
    split at hq
    · cases hq
      exact hne
    · exact h.nonempty hq

/-- The last thread of a process exits. -/
theorem ThInv.last (h : ThInv threads tid2pid) (hl : threads p = some l) (ht : t ∈ l) (hnil : l.erase t = []) :
    ThInv (threads.remove p) (tid2pid.remove t) := by
  have honly : ∀ u, tid2pid u = some p → u = t := by
    intro u hu
    by_contra hne
    have hm := (h.once hl).mem_erase_iff.mpr ⟨hne, (h.mem hl u).mpr hu⟩
    rw [hnil] at hm
    cases hm
  have htp := (h.mem hl t).mp ht
  refine ⟨?_, ?_, ?_, ?_⟩
  · intro q k hq u
    rw [BTreeMap.remove_apply] at hq
    rw [BTreeMap.remove_apply]
    split at hq
    · cases hq
    · rename_i e
      rw [h.mem hq]
      by_cases hu : u = t
      · rw [hu, htp]
        simpa using fun e' => e e'.symm
      · simp [hu]
  · intro u q hq
    rw [BTreeMap.isSome_remove]
    rw [BTreeMap.remove_apply] at hq
    split at hq
    · cases hq
    · rename_i hu
      exact ⟨fun e => hu (honly u (e ▸ hq)), h.owner hq⟩
  · intro q k hq
    rw [BTreeMap.remove_apply] at hq
    split at hq
    · cases hq
    · exact h.once hq
  · intro q k hq
    rw [BTreeMap.remove_apply] at hq
    split at hq
    · cases hq
    · exact h.nonempty hq

end

/-! ## What the calls did when they returned -/

section

variable {tm tm' : PThreadManager P T} {id : ThreadId} {pid parent : ProcId} {r : ProcThreadRel} {code : Int}

theorem findNext_ok {ret : Option T} (h : tm.findNext = .ok (ret, tm')) :
    ∃ queue, (tm' = { tm with manager := { tm.manager with readyQueue := queue } } ∧ ret = none ∨
      ∃ id task, tm.manager.readyQueue = id :: queue ∧ tm.manager.tasks id = some task ∧ ret = some task ∧
        tm' = { tm with manager := { tm.manager with readyQueue := queue }, current := some id }) := by
  unfold PThreadManager.findNext FifoManager.fetch at h
  simp only [bind, Except.bind] at h
  refine ⟨tm.manager.readyQueue.tail, ?_⟩
  split at h
  · rename_i id hid
    split at h
    · rename_i task ht
      cases h
      right
      refine ⟨id, task, ?_, ht, rfl, rfl⟩
      rw [← List.cons_head?_tail hid]
      rfl
    · cases h
      exact .inl ⟨rfl, rfl⟩
  · cases h
    exact .inl ⟨rfl, rfl⟩

/-- `make_current_exited` of a thread of a process: the process goes with its last thread. -/
theorem exited_eq_ok (hc : tm.current = some id) (ht : tm.tid2pid id = some pid) (hr : tm.relMap pid = some r) :
    tm.makeCurrentExited code = .ok tm' ↔
      (r.delThread id code).threads ≠ [] ∧ tm' = ⟨tm.relMap.insert pid (r.delThread id code), tm.procManager,
        tm.tid2pid.remove id, tm.manager.delete id, none⟩ ∨
      (r.delThread id code).threads = [] ∧ ∃ relMap,
        leave (tm.relMap.insert pid (r.delThread id code)) pid code = .ok relMap ∧
        tm' = ⟨relMap, tm.procManager.delete pid, tm.tid2pid.remove id, tm.manager.delete id, none⟩ := by
  simp only [PThreadManager.makeCurrentExited, hc, ht, hr, PThreadManager.delProc, List.isEmpty_iff]
  by_cases hnil : (r.delThread id code).threads = []
  · simp only [hnil, if_true, bind_eq_ok, Except.ok.injEq, ne_eq, not_true, false_and, false_or, true_and]
    constructor
    · rintro ⟨_, ⟨relMap, hl, rfl⟩, h⟩
      exact ⟨relMap, hl, h.symm⟩
    · rintro ⟨relMap, hl, h⟩
      exact ⟨_, ⟨relMap, hl, rfl⟩, h.symm⟩
  · simp only [hnil, if_false, Except.ok.injEq, ne_eq, not_false_iff, true_and, false_and, or_false]
    exact eq_comm

/-- The exit of a thread adds and changes no process. -/
theorem exited_procs {code : Int} {q : ProcId} {p : P} (h : tm.makeCurrentExited code = .ok tm')
    (hq : tm'.procManager.procs q = some p) : tm.procManager.procs q = some p := by
  unfold PThreadManager.makeCurrentExited at h
  split at h
  · split at h
    · cases h
    · dsimp only at h
      split at h
      · split at h
        · obtain ⟨tm1, hdel, h⟩ := bind_eq_ok.mp h
          obtain ⟨relMap, -, hdel⟩ := bind_eq_ok.mp hdel
          cases hdel
          cases h
          change tm.procManager.procs.remove _ q = some p at hq
          rw [BTreeMap.remove_apply] at hq
          split at hq
          · cases hq
          · exact hq
        · cases h
          exact hq
      · cases h
        exact hq
  · cases h
    exact hq

theorem suspend_procs (h : tm.makeCurrentSuspend = .ok tm') : tm'.procManager = tm.procManager := by
  unfold PThreadManager.makeCurrentSuspend at h
  split at h
  · cases h
    rfl
  · cases h
    rfl

theorem add_eq {task : T} (hr : tm.relMap pid = some r) : tm.add id task pid = .ok ⟨tm.relMap.insert pid (r.addThread id),
    tm.procManager, tm.tid2pid.insert id pid, ⟨tm.manager.tasks.insert id task, tm.manager.readyQueue ++ [id]⟩,
    tm.current⟩ := by
  simp only [PThreadManager.add, hr, FifoManager.insert, FifoManager.add, bind, Except.bind]

theorem currentRel_ok {x : ProcId × ProcThreadRel} (h : tm.currentRel = .ok x) :
    currentPid tm = some x.1 ∧ tm.relMap x.1 = some x.2 := by
  unfold PThreadManager.currentRel at h
  split at h
  · cases h
  · rename_i id hc
    split at h
    · cases h
    · rename_i pid hp
      split at h
      · cases h
      · rename_i r hr
        cases h
        exact ⟨by rw [currentPid, hc, Option.bind_some, hp], hr⟩

/-- A record changed in its threads only keeps the links. -/
theorem family_insert {m : BTreeMap ProcId ProcThreadRel} {r' : ProcThreadRel} (hr : m pid = some r)
    (he : r'.toProcRel = r.toProcRel) : family (m.insert pid r') = family m := by
  funext q
  simp only [family, BTreeMap.insert_apply]
  split
  · rename_i e
    rw [e, hr, Option.map_some, Option.map_some]
    exact congrArg some he
  · rfl

theorem family_insert_rel {m : BTreeMap ProcId ProcThreadRel} :
    family (m.insert pid r) = (family m).insert pid r.toProcRel := by
  funext q
  simp only [family, BTreeMap.insert_apply]
  split
  · rfl
  · rfl

theorem threadsOf_insert {m : BTreeMap ProcId ProcThreadRel} :
    threadsOf (m.insert pid r) = (threadsOf m).insert pid r.threads := by
  funext q
  simp only [threadsOf, BTreeMap.insert_apply]
  split
  · rfl
  · rfl

/-- A process that leaves: the links, and the threads of the others. -/
theorem leave_ok {m m' : BTreeMap ProcId ProcThreadRel} (hr : m pid = some r) (h : leave m pid code = .ok m') :
    family m' = departed (family m) pid code r.toProcRel ∧ threadsOf m' = (threadsOf m).remove pid ∧
      pid ∉ r.children ∧ (r.children ≠ [] → pid ≠ 0 ∧ (family m 0).isSome = true) := by
  obtain ⟨hself, hzero, rfl⟩ := (leave_eq_ok hr).mp h
  refine ⟨?_, ?_, fun hm => (hself pid hm).1 rfl, ?_⟩
  · funext q
    simp only [family, departed]
    split
    · rfl
    · cases hq : m q with
      | none => rfl
      | some x => rfl
  · funext q
    simp only [threadsOf, BTreeMap.remove_apply]
    split
    · rfl
    · cases hq : m q with
      | none => rfl
      | some x => rfl
  · intro hne
    obtain ⟨h0, hs⟩ := hzero hne
    exact ⟨h0, by rw [family, Option.isSome_map]; exact hs⟩

end

/-! ## The invariant -/

structure TInv (w : World P T) : Prop where
  fam : FamInv w.usedPids (family w.tm.relMap)
  threads : ThInv (threadsOf w.tm.relMap) w.tm.tid2pid
  tasks : ∀ t, (w.tm.manager.tasks t).isSome = true ↔ (w.tm.tid2pid t).isSome = true
  procs : ∀ p, (w.tm.procManager.procs p).isSome = true ↔ (w.tm.relMap p).isSome = true
  tids : ∀ {t}, (w.tm.tid2pid t).isSome = true → t ∈ w.usedTids
  current : ∀ {t}, w.tm.current = some t → (w.tm.tid2pid t).isSome = true

theorem tInv_new : TInv (World.new : World P T) := by
  refine ⟨famInv_empty, ⟨?_, ?_, ?_, ?_⟩, ?_, ?_, ?_, ?_⟩
  all_goals
    intros
    first
      | contradiction
      | exact Iff.rfl

section

variable {w w' : World P T} {e : Event}

theorem isSome_family {m : BTreeMap ProcId ProcThreadRel} {p : ProcId} : (family m p).isSome = (m p).isSome :=
  Option.isSome_map

theorem isSome_threadsOf {m : BTreeMap ProcId ProcThreadRel} {p : ProcId} : (threadsOf m p).isSome = (m p).isSome :=
  Option.isSome_map

/-- The process of the current thread is there. -/
theorem TInv.currentPid_some (h : TInv w) {pid : ProcId} (hc : currentPid w.tm = some pid) :
    ∃ r, w.tm.relMap pid = some r := by
  obtain ⟨t, -, ht⟩ := Option.bind_eq_some_iff.mp hc
  have hs := h.threads.owner ht
  rw [isSome_threadsOf] at hs
  exact Option.isSome_iff_exists.mp hs

/-- A thread that is new belongs to no process. -/
theorem TInv.fresh (h : TInv w) {tid : ThreadId} (ht : tid ∉ w.usedTids) : w.tm.tid2pid tid = none := by
  by_contra hne
  exact ht (h.tids (Option.isSome_iff_ne_none.mpr hne))

/-- The links after `add_proc`. -/
theorem family_addProc {tm : PThreadManager P T} {pid parent : ProcId} {proc : P} :
    family (tm.addProc pid proc parent).relMap = joined (family tm.relMap) pid parent := by
  funext q
  simp only [family, PThreadManager.addProc, joined, BTreeMap.insert_apply, BTreeMap.adjust_apply]
  split
  · rfl
  · split
    · cases tm.relMap q with
      | none => rfl
      | some x => rfl
    · rfl

theorem threadsOf_addProc {tm : PThreadManager P T} {pid parent : ProcId} {proc : P} :
    threadsOf (tm.addProc pid proc parent).relMap = (threadsOf tm.relMap).insert pid [] := by
  funext q
  simp only [threadsOf, PThreadManager.addProc, BTreeMap.insert_apply]
  split
  · rfl
  · rw [adjust_onRel]
    cases hq : tm.relMap q with
    | none => rfl
    | some x => rfl

/-- The tables after a thread has been added to a process. -/
theorem TInv.add (h : TInv w) {pid : ProcId} {tid : ThreadId} {task : T} {tm : PThreadManager P T} {r : ProcThreadRel}
    (ht : tid ∉ w.usedTids) (hr : w.tm.relMap pid = some r) (hadd : w.tm.add tid task pid = .ok tm) :
    TInv ⟨tm, w.usedPids, tid :: w.usedTids⟩ := by
  rw [add_eq hr, Except.ok.injEq] at hadd
  subst hadd
  refine ⟨?_, ?_, ?_, ?_, ?_, ?_⟩
  · show FamInv _ (family (w.tm.relMap.insert pid (r.addThread tid)))
    rw [family_insert hr (by rfl)]
    exact h.fam
  · show ThInv (threadsOf (w.tm.relMap.insert pid (r.addThread tid))) _
    rw [threadsOf_insert]
    exact h.threads.add (by rw [threadsOf, hr]; rfl) (h.fresh ht)
  · intro t
    show (w.tm.manager.tasks.insert tid task t).isSome = true ↔ (w.tm.tid2pid.insert tid pid t).isSome = true
    rw [BTreeMap.isSome_insert, BTreeMap.isSome_insert, h.tasks]
  · intro p
    show _ ↔ (w.tm.relMap.insert pid (r.addThread tid) p).isSome = true
    rw [BTreeMap.isSome_insert, h.procs]
    refine ⟨.inr, fun hp => hp.elim (fun e => ?_) fun hp => hp⟩
    rw [e, hr]
    rfl
  · intro t hs
    rcases (BTreeMap.isSome_insert _ _ _ _).mp hs with rfl | hs
    · exact List.mem_cons_self
    · exact List.mem_cons_of_mem _ (h.tids hs)
  · intro t hc
    exact (BTreeMap.isSome_insert _ _ _ _).mpr (.inr (h.current hc))

theorem TInv.addProc (h : TInv w) {pid parent : ProcId} {tid : ThreadId} {proc : P} {task : T}
    {tm : PThreadManager P T} (hp : pid ∉ w.usedPids) (hlt : pid < 2 ^ 64 - 2) (ht : tid ∉ w.usedTids)
    (hparent : parent = usizeMax ∨ currentPid w.tm = some parent)
    (hadd : (w.tm.addProc pid proc parent).add tid task pid = .ok tm) :
    TInv ⟨tm, pid :: w.usedPids, tid :: w.usedTids⟩ := by
  have hnew : w.tm.relMap pid = none := by
    by_contra hne
    obtain ⟨r, hr⟩ := Option.ne_none_iff_exists'.mp hne
    exact hp (h.fam.known (show family w.tm.relMap pid = some r.toProcRel by rw [family, hr]; rfl))
  have hmax : pid ≠ usizeMax := by
    intro e
    rw [e] at hlt
    exact absurd hlt (by decide)
  have hpar : parent = usizeMax ∨ (family w.tm.relMap parent).isSome = true := by
    refine hparent.imp_right fun hc => ?_
    obtain ⟨r, hr⟩ := h.currentPid_some hc
    rw [isSome_family, hr]
    rfl
  have hr : (w.tm.addProc pid proc parent).relMap pid = some (.new parent) := by
    simp [PThreadManager.addProc]
  rw [add_eq hr, Except.ok.injEq] at hadd
  subst hadd
  refine ⟨?_, ?_, ?_, ?_, ?_, ?_⟩
  · show FamInv _ (family ((w.tm.addProc pid proc parent).relMap.insert pid _))
    rw [family_insert hr (by rfl), family_addProc]
    exact h.fam.add hp hmax hpar
  · show ThInv (threadsOf ((w.tm.addProc pid proc parent).relMap.insert pid _)) _
    rw [threadsOf_insert, threadsOf_addProc, BTreeMap.insert_insert]
    exact h.threads.add (l := []) (by rw [threadsOf, hnew]; rfl) (h.fresh ht)
  · intro t
    show (w.tm.manager.tasks.insert tid task t).isSome = true ↔ (w.tm.tid2pid.insert tid pid t).isSome = true
    rw [BTreeMap.isSome_insert, BTreeMap.isSome_insert, h.tasks]
  · intro p
    show (w.tm.procManager.procs.insert pid proc p).isSome = true ↔
      ((w.tm.addProc pid proc parent).relMap.insert pid _ p).isSome = true
    rw [BTreeMap.isSome_insert, h.procs, PThreadManager.addProc, BTreeMap.insert_insert, BTreeMap.isSome_insert,
      BTreeMap.isSome_adjust]
  · intro t hs
    rcases (BTreeMap.isSome_insert _ _ _ _).mp hs with rfl | hs
    · exact List.mem_cons_self
    · exact List.mem_cons_of_mem _ (h.tids hs)
  · intro t hc
    exact (BTreeMap.isSome_insert _ _ _ _).mpr (.inr (h.current hc))

/-- The record of a process after one of its threads has exited. -/
theorem delThread_eq {r : ProcThreadRel} {tid : ThreadId} (h : tid ∈ r.threads) (code : Int) :
    (r.delThread tid code).toProcRel = r.toProcRel ∧ (r.delThread tid code).threads = r.threads.erase tid ∧
      ((r.delThread tid code).threads = [] ↔ r.threads = [tid]) := by
  rw [ProcThreadRel.delThread, if_pos h]
  refine ⟨rfl, rfl, ?_⟩
  rw [List.erase_eq_nil_iff]
  exact or_iff_right (List.ne_nil_of_mem h)

/-- What the exit of a thread of process `pid` does to the tables. -/
theorem TInv.exit (h : TInv w) {tid : ThreadId} {pid : ProcId} {r : ProcThreadRel} {code : Int}
    {tm : PThreadManager P T} (hc : w.tm.current = some tid) (ht : w.tm.tid2pid tid = some pid)
    (hr : w.tm.relMap pid = some r) (hexit : w.tm.makeCurrentExited code = .ok tm) :
    TInv ⟨tm, w.usedPids, w.usedTids⟩ ∧
      (r.threads ≠ [tid] ∧ family tm.relMap = family w.tm.relMap ∨
        r.threads = [tid] ∧ pid ∉ r.children ∧
          family tm.relMap = departed (family w.tm.relMap) pid code r.toProcRel) := by
  have hl : threadsOf w.tm.relMap pid = some r.threads := by rw [threadsOf, hr]; rfl
  have hmem : tid ∈ r.threads := (h.threads.mem hl tid).mpr ht
  obtain ⟨hlinks, hthreads, hlast⟩ := delThread_eq hmem code
  rw [hthreads] at hlast
  have htasks : ∀ t, (w.tm.manager.tasks.remove tid t).isSome = true ↔ (w.tm.tid2pid.remove tid t).isSome = true := by
    intro t
    rw [BTreeMap.isSome_remove, BTreeMap.isSome_remove, h.tasks]
  have htids : ∀ {t}, (w.tm.tid2pid.remove tid t).isSome = true → t ∈ w.usedTids := by
    intro t hs
    exact h.tids ((BTreeMap.isSome_remove _ _ _).mp hs).2
  have hfam := family_insert hr hlinks
  have hth : threadsOf (w.tm.relMap.insert pid (r.delThread tid code)) =
      (threadsOf w.tm.relMap).insert pid (r.threads.erase tid) := by
    rw [threadsOf_insert, hthreads]
  have hsome : ∀ p, (w.tm.relMap.insert pid (r.delThread tid code) p).isSome = true ↔
      (w.tm.relMap p).isSome = true := by
    intro p
    rw [BTreeMap.isSome_insert]
    refine ⟨fun hp => hp.elim (fun e => ?_) fun hp => hp, .inr⟩
    rw [e, hr]
    rfl
  rcases (exited_eq_ok hc ht hr).mp hexit with ⟨hne, rfl⟩ | ⟨hnil, relMap, hleave, rfl⟩
  · rw [hthreads] at hne
    refine ⟨⟨?_, ?_, htasks, ?_, htids, by simp⟩, .inl ⟨fun e => hne (hlast.mpr e), hfam⟩⟩
    · rw [hfam]
      exact h.fam
    · rw [hth]
      exact h.threads.exit hl hmem hne
    · intro p
      rw [hsome]
      exact h.procs p
  · rw [hthreads] at hnil
    have hpid : w.tm.relMap.insert pid (r.delThread tid code) pid = some (r.delThread tid code) := by simp
    obtain ⟨hrel, hrest, hself, hzero⟩ := leave_ok hpid hleave
    rw [hfam, hlinks] at hrel hzero
    rw [hlinks] at hself
    rw [hth, BTreeMap.remove_insert] at hrest
    have hkin : family w.tm.relMap pid = some r.toProcRel := by rw [family, hr]; rfl
    refine ⟨⟨?_, ?_, htasks, ?_, htids, by simp⟩, .inr ⟨hlast.mp hnil, hself, hrel⟩⟩
    · rw [hrel]
      exact h.fam.leave hkin hself hzero
    · rw [hrest]
      exact h.threads.last hl hmem hnil
    · intro p
      show (w.tm.procManager.procs.remove pid p).isSome = true ↔ (relMap p).isSome = true
      rw [BTreeMap.isSome_remove, h.procs, ← isSome_family (m := relMap), hrel, isSome_departed, isSome_family]

/-- `wait` and `waittid` change a record of the process of the current thread only. -/
theorem TInv.rewrite (h : TInv w) {pid : ProcId} {r r' : ProcThreadRel} (hr : w.tm.relMap pid = some r)
    (hth : r'.threads = r.threads) (hfam : FamInv w.usedPids (family (w.tm.relMap.insert pid r'))) :
    TInv ⟨{ w.tm with relMap := w.tm.relMap.insert pid r' }, w.usedPids, w.usedTids⟩ := by
  refine ⟨hfam, ?_, h.tasks, ?_, h.tids, h.current⟩
  · have hsame : threadsOf (w.tm.relMap.insert pid r') = threadsOf w.tm.relMap := by
      funext q
      rw [threadsOf_insert, hth, BTreeMap.insert_apply]
      split
      · rename_i e
        rw [e, threadsOf, hr]
        rfl
      · rfl
    show ThInv (threadsOf (w.tm.relMap.insert pid r')) _
    rw [hsame]
    exact h.threads
  · intro p
    show _ ↔ (w.tm.relMap.insert pid r' p).isSome = true
    rw [BTreeMap.isSome_insert, h.procs]
    refine ⟨.inr, fun hp => hp.elim (fun e => ?_) fun hp => hp⟩
    rw [e, hr]
    rfl

/-- The threads and the processes themselves change, but not which there are. -/
theorem TInv.stores (h : TInv w) {manager : FifoManager T} {procManager : ProcStore P}
    (htasks : ∀ t, (manager.tasks t).isSome = (w.tm.manager.tasks t).isSome)
    (hprocs : ∀ p, (procManager.procs p).isSome = (w.tm.procManager.procs p).isSome) :
    TInv ⟨{ w.tm with manager := manager, procManager := procManager }, w.usedPids, w.usedTids⟩ := by
  refine ⟨h.fam, h.threads, fun t => ?_, fun p => ?_, h.tids, h.current⟩
  · show (manager.tasks t).isSome = true ↔ _
    rw [htasks]
    exact h.tasks t
  · show (procManager.procs p).isSome = true ↔ _
    rw [hprocs]
    exact h.procs p

theorem TInv.step (h : TInv w) (hs : Step w e w') : TInv w' := by
  cases hs with
  | newProc hp hlt ht hparent hadd => exact h.addProc hp hlt ht hparent hadd
  | newThread ht hc hadd =>
    obtain ⟨r, hr⟩ := h.currentPid_some hc
    exact h.add ht hr hadd
  | findNext hf =>
    obtain ⟨queue, ⟨rfl, -⟩ | ⟨id, task, -, ht, -, rfl⟩⟩ := findNext_ok hf
    · exact ⟨h.fam, h.threads, h.tasks, h.procs, h.tids, h.current⟩
    · refine ⟨h.fam, h.threads, h.tasks, h.procs, h.tids, ?_⟩
      intro t hc
      cases hc
      exact (h.tasks id).mp (by rw [ht]; rfl)
  | suspend hsus =>
    unfold PThreadManager.makeCurrentSuspend at hsus
    split at hsus
    · cases hsus
      exact ⟨h.fam, h.threads, h.tasks, h.procs, h.tids, by simp⟩
    · cases hsus
      exact h
  | block => exact ⟨h.fam, h.threads, h.tasks, h.procs, h.tids, by simp [PThreadManager.makeCurrentBlocked]⟩
  | reEnque hre =>
    cases hre
    exact ⟨h.fam, h.threads, h.tasks, h.procs, h.tids, h.current⟩
  | exit hexit =>
    cases hc : w.tm.current with
    | none =>
      simp only [PThreadManager.makeCurrentExited, hc, Except.ok.injEq] at hexit
      subst hexit
      exact h
    | some tid =>
      obtain ⟨pid, ht⟩ := Option.isSome_iff_exists.mp (h.current hc)
      obtain ⟨r, hr⟩ := h.currentPid_some (show currentPid w.tm = some pid by rw [currentPid, hc]; exact ht)
      exact (h.exit hc ht hr hexit).1
  | wait hw =>
    obtain ⟨⟨pid, r⟩, hrel, hw⟩ := bind_eq_ok.mp hw
    obtain ⟨-, hr⟩ := currentRel_ok hrel
    simp only [Except.ok.injEq, Prod.mk.injEq] at hw
    obtain ⟨-, rfl⟩ := hw
    refine h.rewrite hr rfl ?_
    rw [family_insert_rel]
    exact h.fam.wait (by rw [family, hr]; rfl) _
  | waittid hw =>
    obtain ⟨⟨pid, r⟩, hrel, hw⟩ := bind_eq_ok.mp hw
    obtain ⟨-, hr⟩ := currentRel_ok hrel
    simp only [Except.ok.injEq, Prod.mk.injEq] at hw
    obtain ⟨-, rfl⟩ := hw
    have hlinks : ∀ t, (r.waitThread t).2.toProcRel = r.toProcRel ∧ (r.waitThread t).2.threads = r.threads := by
      intro t
      unfold ProcThreadRel.waitThread
      split
      · exact ⟨rfl, rfl⟩
      · split
        · exact ⟨rfl, rfl⟩
        · exact ⟨rfl, rfl⟩
    refine h.rewrite hr (hlinks _).2 ?_
    rw [family_insert hr (hlinks _).1]
    exact h.fam

theorem tInv_run {es : List Event} (h : Exec Step (World.new : World P T) es w) : TInv w :=
  h.inv (P := fun _ w => TInv w) tInv_new fun h hs => h.step hs

theorem exit_inv {c : Option ThreadId} {code : Int} (h : Step w (.exit c code) w') :
    w.tm.current = c ∧ ∃ tm, w.tm.makeCurrentExited code = .ok tm ∧ w' = ⟨tm, w.usedPids, w.usedTids⟩ := by
  generalize he : Event.exit c code = e at h
  cases h with
  | exit hexit =>
    cases he
    exact ⟨rfl, _, hexit, rfl⟩
  | _ => cases he

/-- The thread that exits, its process and the record of that process. -/
theorem TInv.exit_current (h : TInv w) {tid : ThreadId} (hc : w.tm.current = some tid) :
    ∃ pid r, w.tm.tid2pid tid = some pid ∧ w.tm.relMap pid = some r ∧ tid ∈ r.threads := by
  obtain ⟨pid, ht⟩ := Option.isSome_iff_exists.mp (h.current hc)
  obtain ⟨r, hr⟩ := h.currentPid_some (show currentPid w.tm = some pid by rw [currentPid, hc]; exact ht)
  exact ⟨pid, r, ht, hr, (h.threads.mem (show threadsOf w.tm.relMap pid = some r.threads by
    rw [threadsOf, hr]; rfl) tid).mpr ht⟩

/-- A call other than the exit of a thread keeps the processes. -/
theorem TInv.step_keeps (h : TInv w) (hs : Step w e w') (he : ∀ t code, e ≠ .exit (some t) code) {p : ProcId}
    (hp : (w.tm.relMap p).isSome = true) : (w'.tm.relMap p).isSome = true := by
  cases hs with
  | @newProc pid parent tid proc task tm hpid hlt ht hparent hadd =>
    have hr : (w.tm.addProc pid proc parent).relMap pid = some (.new parent) := by
      simp [PThreadManager.addProc]
    rw [add_eq hr, Except.ok.injEq] at hadd
    subst hadd
    rw [PThreadManager.addProc, BTreeMap.insert_insert, BTreeMap.isSome_insert, BTreeMap.isSome_adjust]
    exact .inr hp
  | newThread ht hc hadd =>
    obtain ⟨r, hr⟩ := h.currentPid_some hc
    rw [add_eq hr, Except.ok.injEq] at hadd
    subst hadd
    rw [BTreeMap.isSome_insert]
    exact .inr hp
  | findNext hf =>
    obtain ⟨queue, ⟨rfl, -⟩ | ⟨id, task, -, -, -, rfl⟩⟩ := findNext_ok hf
    · exact hp
    · exact hp
  | suspend hsus =>
    unfold PThreadManager.makeCurrentSuspend at hsus
    split at hsus
    · cases hsus
      exact hp
    · cases hsus
      exact hp
  | block => exact hp
  | reEnque hre =>
    cases hre
    exact hp
  | @exit code tm hexit =>
    cases hc : w.tm.current with
    | none =>
      simp only [PThreadManager.makeCurrentExited, hc, Except.ok.injEq] at hexit
      subst hexit
      exact hp
    | some tid => exact absurd (by rw [hc]) (he tid code)
  | wait hw =>
    obtain ⟨⟨pid, r⟩, hrel, hw⟩ := bind_eq_ok.mp hw
    simp only [Except.ok.injEq, Prod.mk.injEq] at hw
    obtain ⟨-, rfl⟩ := hw
    exact (BTreeMap.isSome_insert _ _ _ _).mpr (.inr hp)
  | waittid hw =>
    obtain ⟨⟨pid, r⟩, hrel, hw⟩ := bind_eq_ok.mp hw
    simp only [Except.ok.injEq, Prod.mk.injEq] at hw
    obtain ⟨-, rfl⟩ := hw
    exact (BTreeMap.isSome_insert _ _ _ _).mpr (.inr hp)

/-- A process disappears with its last thread, and its parent has the exit code of that thread. -/
theorem TInv.vanish (h : TInv w) (hs : Step w e w') {p : ProcId} {r : ProcThreadRel} (hr : w.tm.relMap p = some r) :
    (w'.tm.relMap p = none ↔ ∃ t code, e = .exit (some t) code ∧ r.threads = [t]) ∧
      ∀ t code, e = .exit (some t) code → r.threads = [t] → ∀ rp, w.tm.relMap r.parent = some rp →
        ∃ rp', w'.tm.relMap r.parent = some rp' ∧ rp'.deadChildren = rp.deadChildren ++ [(p, code)] := by
  have hkin : family w.tm.relMap p = some r.toProcRel := by rw [family, hr]; rfl
  have hown : ∀ t, t ∈ r.threads ↔ w.tm.tid2pid t = some p :=
    h.threads.mem (show threadsOf w.tm.relMap p = some r.threads by rw [threadsOf, hr]; rfl)
  by_cases he : ∃ t code, e = .exit (some t) code
  · obtain ⟨t, code, rfl⟩ := he
    obtain ⟨hc, tm, hexit, rfl⟩ := exit_inv hs
    obtain ⟨pid, rt, ht, hrt, -⟩ := h.exit_current hc
    have hsame : r.threads = [t] → pid = p ∧ rt = r := by
      intro hl
      have hp := (hown t).mp (by rw [hl]; exact List.mem_singleton.mpr rfl)
      rw [ht, Option.some.injEq] at hp
      rw [hp, hr, Option.some.injEq] at hrt
      exact ⟨hp, hrt.symm⟩
    have hnone : tm.relMap p = none ↔ family tm.relMap p = none := by
      rw [family, Option.map_eq_none_iff]
    rw [hnone]
    rcases (h.exit hc ht hrt hexit).2 with ⟨hne, hfam⟩ | ⟨hlast, hself, hfam⟩
    · rw [hfam, hkin]
      have hno : r.threads ≠ [t] := by
        intro hl
        obtain ⟨-, rfl⟩ := hsame hl
        exact hne hl
      refine ⟨iff_of_false (by simp) ?_, ?_⟩
      · rintro ⟨t', code', he, hl⟩
        cases he
        exact hno hl
      · intro t' code' he hl
        cases he
        exact absurd hl hno
    · rw [hfam]
      refine ⟨⟨?_, ?_⟩, ?_⟩
      · intro hn
        have hp : p = pid := by
          by_contra hne
          rw [departed_some hne hkin] at hn
          cases hn
        rw [← hp, hr, Option.some.injEq] at hrt
        exact ⟨t, code, rfl, hrt ▸ hlast⟩
      · rintro ⟨t', code', he, hl⟩
        cases he
        obtain ⟨rfl, -⟩ := hsame hl
        simp [departed]
      · intro t' code' he hl rp hrp
        cases he
        obtain ⟨rfl, rfl⟩ := hsame hl
        have hkp : family w.tm.relMap rt.parent = some rp.toProcRel := by rw [family, hrp]; rfl
        have hx : departed (family w.tm.relMap) pid code rt.toProcRel rt.parent = some _ :=
          departed_some (h.fam.parent_ne hkin hself) hkp
        rw [← hfam, family] at hx
        obtain ⟨rp', hrp', hlink⟩ := Option.map_eq_some_iff.mp hx
        refine ⟨rp', hrp', ?_⟩
        rw [show rp'.deadChildren = (rel rp').deadChildren from rfl, hlink, h.fam.departed_dead hkin hkp, if_pos rfl]
  · have hne : ∀ t code, e ≠ .exit (some t) code := fun t code e' => he ⟨t, code, e'⟩
    have hkeep : (w'.tm.relMap p).isSome = true := h.step_keeps hs hne (by rw [hr]; rfl)
    refine ⟨iff_of_false ?_ ?_, fun t code e' => absurd e' (hne t code)⟩
    · intro hn
      rw [hn] at hkeep
      cases hkeep
    · rintro ⟨t, code, e', -⟩
      exact hne t code e'

end

/-- Threads, processes and their links over every run. -/
theorem thread_table {es : List Event} {w : World P T} (h : Exec Step (World.new : World P T) es w) :
    (∀ t, (w.tm.manager.tasks t).isSome = true ↔ (w.tm.tid2pid t).isSome = true) ∧
    (∀ p r, w.tm.relMap p = some r → r.threads.Nodup ∧ r.threads ≠ [] ∧ ∀ t, t ∈ r.threads ↔ w.tm.tid2pid t = some p) ∧
    (∀ t p, w.tm.tid2pid t = some p → (w.tm.relMap p).isSome = true) ∧
    (∀ p, (w.tm.procManager.procs p).isSome = true ↔ (w.tm.relMap p).isSome = true) ∧
    (∀ p q rp rq, w.tm.relMap p = some rp → w.tm.relMap q = some rq → (q ∈ rp.children ↔ rq.parent = p)) ∧
    (∀ p rp, w.tm.relMap p = some rp → rp.children.Nodup ∧ (rp.deadChildren.map Prod.fst).Nodup ∧
      ∀ d ∈ rp.deadChildren, w.tm.relMap d.1 = none) ∧
    (∀ p q rp rq, w.tm.relMap p = some rp → w.tm.relMap q = some rq → p ≠ q →
      ∀ d ∈ rp.deadChildren, ∀ e ∈ rq.deadChildren, d.1 ≠ e.1) ∧
    ∀ e w' p r, Step w e w' → w.tm.relMap p = some r →
      (w'.tm.relMap p = none ↔ ∃ t code, e = .exit (some t) code ∧ r.threads = [t]) ∧
      ∀ t code, e = .exit (some t) code → r.threads = [t] → ∀ rp, w.tm.relMap r.parent = some rp →
        ∃ rp', w'.tm.relMap r.parent = some rp' ∧ rp'.deadChildren = rp.deadChildren ++ [(p, code)] := by
  have hi := tInv_run h
  have hkin : ∀ {p r}, w.tm.relMap p = some r → family w.tm.relMap p = some r.toProcRel := by
    intro p r hr
    rw [family, hr]
    rfl
  refine ⟨hi.tasks, ?_, ?_, hi.procs, ?_, ?_, ?_, fun e w' p r hs hr => hi.vanish hs hr⟩
  · intro p r hr
    have hl : threadsOf w.tm.relMap p = some r.threads := by
      rw [threadsOf, hr]
      rfl
    exact ⟨hi.threads.once hl, hi.threads.nonempty hl, hi.threads.mem hl⟩
  · intro t p ht
    have hs := hi.threads.owner ht
    rwa [isSome_threadsOf] at hs
  · intro p q rp rq hp hq
    exact hi.fam.mem_children (hkin hp) (hkin hq)
  · intro p rp hp
    refine ⟨hi.fam.nodup (hkin hp), hi.fam.once (hkin hp), fun d hd => ?_⟩
    have hn := (hi.fam.gone (hkin hp) hd).1
    rwa [family, Option.map_eq_none_iff] at hn
  · intro p q rp rq hp hq hne d hd e he hde
    exact hne (hi.fam.one (hkin hp) (hkin hq) hd he hde)

/-- `exit` of the thread that is current. -/
theorem Step.exitOf {w : World P T} {tid : ThreadId} {code : Int} {tm : PThreadManager P T} (hc : w.tm.current = some tid)
    (h : w.tm.makeCurrentExited code = .ok tm) : Step w (.exit (some tid) code) ⟨tm, w.usedPids, w.usedTids⟩ := by
  rw [← hc]
  exact .exit h

/-- Process 1, a child of process 0, has the threads 1 and 2: it outlives the exit of the first, and that of the
    second is reported to its parent. -/
theorem thread_table_two : ∃ w w' : World Unit Unit,
    Exec Step World.new [.newProc 0 0 usizeMax, .findNext, .newProc 1 1 0, .block, .findNext, .newThread 2 1,
      .exit (some 1) 5, .findNext] w ∧ (w.tm.relMap 1).isSome = true ∧
      Step w (.exit (some 2) 7) w' ∧ w'.tm.relMap 1 = none ∧
      ∃ r, w'.tm.relMap 0 = some r ∧ r.deadChildren = [(1, 7)] := by
  have h1 : Exec Step (World.new : World Unit Unit) [.newProc 0 0 usizeMax] _ :=
    .single (@Step.newProc _ _ _ 0 usizeMax 0 () () _ (by decide) (by decide) (by decide) (.inl rfl) rfl)
  have h2 : Exec Step (World.new : World Unit Unit) [.newProc 0 0 usizeMax, .findNext] _ := h1.snoc (.findNext rfl)
  have h3 := h2.snoc (@Step.newProc _ _ _ 1 0 1 () () _ (by decide) (by decide) (by decide) (.inr rfl) rfl)
  have h4 := h3.snoc .block
  have h5 := h4.snoc (.findNext rfl)
  have h6 := h5.snoc (@Step.newThread _ _ _ 1 2 () _ (by decide) rfl rfl)
  have h7 := h6.snoc (@Step.exit _ _ _ 5 _ rfl)
  have h8 : Exec Step (World.new : World Unit Unit) [.newProc 0 0 usizeMax, .findNext, .newProc 1 1 0, .block, .findNext,
      .newThread 2 1, .exit (some 1) 5, .findNext] _ := h7.snoc (.findNext rfl)
  obtain ⟨-, -, -, -, -, -, -, hgone⟩ := thread_table h8
  obtain ⟨hnone, hreport⟩ := @hgone (.exit (some 2) 7) _ 1 ⟨⟨0, [], []⟩, [2], [(1, 5)]⟩ (.exitOf rfl rfl) rfl
  obtain ⟨r, hr, hdead⟩ := hreport 2 7 rfl rfl ⟨⟨usizeMax, [1], []⟩, [0], []⟩ rfl
  exact ⟨_, _, h8, rfl, .exitOf rfl rfl, hnone.mpr ⟨2, 7, rfl, rfl⟩, r, hr, hdead⟩
end Threads

end TgRcore.Task
