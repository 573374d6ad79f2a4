/-
  TgRcore.Kernel.ReadyQueue — the ready queue of chapter 8 against the wait queues of the
  synchronisation objects.

  A call that blocks queues its thread before the signals of the trap are looked at. A fatal
  signal in that trap ends the thread and leaves its number in the wait queue; the call that
  wakes it puts a dead thread on the ready queue, and `find_next` gives up on it.
  - `QInv`: ready, current and waiting threads are apart; the operations keep it.
  - `ready_queue_sound`: over every run in which no thread is ended by a signal in the trap
    in which its own call blocks.
  - `dead_thread_ready`: a run with such a trap, which ends with `find_next` at `None` while
    two threads are ready.
-/

import TgRcore.Kernel.MainLoop

namespace TgRcore.Kernel

open TgRcore.BlockProg TgRcore.Sync TgRcore.Task

/-! ## Queues of threads -/

structure QInv (ready : List Nat) (current : Option Nat) (tid2pid : BTreeMap Nat ProcId)
    (waits : BTreeMap ProcId (List Nat)) : Prop where
  nodup : ready.Nodup
  live : ∀ {t}, t ∈ ready → (tid2pid t).isSome = true
  apart : ∀ {t}, current = some t → t ∉ ready
  once : ∀ {p l}, waits p = some l → l.Nodup
  mine : ∀ {p l t}, waits p = some l → t ∈ l → tid2pid t = some p ∧ t ∉ ready

/-- The current thread waits nowhere. -/
def Awake (current : Option Nat) (waits : BTreeMap ProcId (List Nat)) : Prop :=
  ∀ t p l, current = some t → waits p = some l → t ∉ l

section

variable {ready : List Nat} {current : Option Nat} {tid2pid : BTreeMap Nat ProcId}
  {waits : BTreeMap ProcId (List Nat)} {t : Nat} {p : ProcId} {l l' : List Nat}

theorem nodup_snoc {α : Type} {l : List α} {a : α} (h : l.Nodup) (ha : a ∉ l) : (l ++ [a]).Nodup := by
  refine List.nodup_append.mpr ⟨h, List.nodup_singleton a, ?_⟩
  intro x hx y hy e
  rw [List.mem_singleton.mp hy] at e
  exact ha (e ▸ hx)

/-- A thread is taken off a wait queue and is ready. -/
theorem QInv.wake (h : QInv ready current tid2pid waits) (ha : Awake current waits) (hl : waits p = some l)
    (hperm : l.Perm (t :: l')) :
    QInv (ready ++ [t]) current tid2pid (waits.insert p l') ∧ Awake current (waits.insert p l') := by
  have htl : t ∈ l := hperm.mem_iff.mpr List.mem_cons_self
  obtain ⟨htp, htr⟩ := h.mine hl htl
  have hnd := hperm.nodup_iff.mp (h.once hl)
  rw [List.nodup_cons] at hnd
  refine ⟨⟨nodup_snoc h.nodup htr, ?_, ?_, ?_, ?_⟩, ?_⟩
  · intro u hu
    rcases List.mem_append.mp hu with hu | hu
    · exact h.live hu
    · rw [List.mem_singleton.mp hu, htp]
      rfl
  · intro u hc hu
    rcases List.mem_append.mp hu with hu | hu
    · exact h.apart hc hu
    · exact ha u p l hc hl (List.mem_singleton.mp hu ▸ htl)
  · intro q k hq
    rw [BTreeMap.insert_apply] at hq
    split at hq
    · cases hq
      exact hnd.2
    · exact h.once hq
  · intro q k u hq hu
    rw [BTreeMap.insert_apply] at hq
    split at hq
    · rename_i e
      cases hq
      obtain ⟨hup, hur⟩ := h.mine hl (hperm.mem_iff.mpr (List.mem_cons_of_mem _ hu))
      refine ⟨e ▸ hup, fun hm => ?_⟩
      rcases List.mem_append.mp hm with hm | hm
      · exact hur hm
      · exact hnd.1 (List.mem_singleton.mp hm ▸ hu)
    · rename_i e
      obtain ⟨hup, hur⟩ := h.mine hq hu
      refine ⟨hup, fun hm => ?_⟩
      rcases List.mem_append.mp hm with hm | hm
      · exact hur hm
      · rw [List.mem_singleton.mp hm, htp, Option.some.injEq] at hup
        exact e hup.symm
  · intro u q k hc hq hu
    rw [BTreeMap.insert_apply] at hq
    split at hq
    · cases hq
      exact ha u p l hc hl (hperm.mem_iff.mpr (List.mem_cons_of_mem _ hu))
    · exact ha u q k hc hq hu

/-- Only the order in the wait queues changes. -/
theorem QInv.perm (h : QInv ready current tid2pid waits) (hl : waits p = some l) (hperm : l'.Perm l) :
    QInv ready current tid2pid (waits.insert p l') := by
  refine ⟨h.nodup, h.live, h.apart, ?_, ?_⟩
  · intro q k hq
    rw [BTreeMap.insert_apply] at hq
    split at hq
    · cases hq
      exact hperm.nodup_iff.mpr (h.once hl)
    · exact h.once hq
  · intro q k u hq hu
    rw [BTreeMap.insert_apply] at hq
    split at hq
    · rename_i e
      cases hq
      exact e ▸ h.mine hl (hperm.mem_iff.mp hu)
    · exact h.mine hq hu

theorem Awake.perm (ha : Awake current waits) (hl : waits p = some l) (hperm : l'.Perm l) :
    Awake current (waits.insert p l') := by
  intro u q k hc hq hu
  rw [BTreeMap.insert_apply] at hq
  split at hq
  · cases hq
    exact ha u p l hc hl (hperm.mem_iff.mp hu)
  · exact ha u q k hc hq hu

/-- The current thread is put on a wait queue of its process. -/
theorem QInv.queue (h : QInv ready current tid2pid waits) (ha : Awake current waits) (hc : current = some t)
    (htp : tid2pid t = some p) (hl : waits p = some l) (hperm : l'.Perm (t :: l)) :
    QInv ready current tid2pid (waits.insert p l') := by
  refine ⟨h.nodup, h.live, h.apart, ?_, ?_⟩
  · intro q k hq
    rw [BTreeMap.insert_apply] at hq
    split at hq
    · cases hq
      exact hperm.nodup_iff.mpr (List.nodup_cons.mpr ⟨ha t p l hc hl, h.once hl⟩)
    · exact h.once hq
  · intro q k u hq hu
    rw [BTreeMap.insert_apply] at hq
    split at hq
    · rename_i e
      cases hq
      rcases List.mem_cons.mp (hperm.mem_iff.mp hu) with rfl | hu
      · exact ⟨e ▸ htp, h.apart hc⟩
      · obtain ⟨hup, hur⟩ := h.mine hl hu
        exact ⟨e ▸ hup, hur⟩
    · exact h.mine hq hu

/-- A new thread is ready. -/
theorem QInv.add (h : QInv ready current tid2pid waits) (ht : tid2pid t = none)
    (hc : ∀ {u}, current = some u → (tid2pid u).isSome = true) :
    QInv (ready ++ [t]) current (tid2pid.insert t p) waits := by
  have hnew : ∀ {u}, (tid2pid u).isSome = true → u ≠ t := by
    intro u hu e
    rw [e, ht] at hu
    cases hu
  refine ⟨nodup_snoc h.nodup fun hm => hnew (h.live hm) rfl, ?_, ?_, h.once, ?_⟩
  · intro u hu
    rw [BTreeMap.isSome_insert]
    rcases List.mem_append.mp hu with hu | hu
    · exact .inr (h.live hu)
    · exact .inl (List.mem_singleton.mp hu)
  · intro u hcu hu
    rcases List.mem_append.mp hu with hu | hu
    · exact h.apart hcu hu
    · exact hnew (hc hcu) (List.mem_singleton.mp hu)
  · intro q k u hq hu
    obtain ⟨hup, hur⟩ := h.mine hq hu
    have hne : u ≠ t := hnew (by rw [hup]; rfl)
    refine ⟨by rw [BTreeMap.insert_apply, if_neg hne, hup], fun hm => ?_⟩
    rcases List.mem_append.mp hm with hm | hm
    · exact hur hm
    · exact hne (List.mem_singleton.mp hm)

/-- A new process has no wait queue. -/
theorem QInv.newProc (h : QInv ready current tid2pid waits) (ha : Awake current waits) :
    QInv ready current tid2pid (waits.insert p []) ∧ Awake current (waits.insert p []) := by
  refine ⟨⟨h.nodup, h.live, h.apart, ?_, ?_⟩, ?_⟩
  · intro q k hq
    rw [BTreeMap.insert_apply] at hq
    split at hq
    · cases hq
      exact List.nodup_nil
    · exact h.once hq
  · intro q k u hq hu
    rw [BTreeMap.insert_apply] at hq
    split at hq
    · cases hq
      cases hu
    · exact h.mine hq hu
  · intro u q k hc hq hu
    rw [BTreeMap.insert_apply] at hq
    split at hq
    · cases hq
      cases hu
    · exact ha u q k hc hq hu

/-- The current thread is ready again. -/
theorem QInv.suspend (h : QInv ready current tid2pid waits) (ha : Awake current waits) (hc : current = some t)
    (ht : (tid2pid t).isSome = true) : QInv (ready ++ [t]) none tid2pid waits := by
  refine ⟨nodup_snoc h.nodup (h.apart hc), ?_, by simp, h.once, ?_⟩
  · intro u hu
    rcases List.mem_append.mp hu with hu | hu
    · exact h.live hu
    · rw [List.mem_singleton.mp hu]
      exact ht
  · intro q k u hq hu
    obtain ⟨hup, hur⟩ := h.mine hq hu
    refine ⟨hup, fun hm => ?_⟩
    rcases List.mem_append.mp hm with hm | hm
    · exact hur hm
    · exact ha t q k hc hq (List.mem_singleton.mp hm ▸ hu)

theorem QInv.block (h : QInv ready current tid2pid waits) : QInv ready none tid2pid waits :=
  ⟨h.nodup, h.live, by simp, h.once, h.mine⟩

/-- The current thread, which waits nowhere, exits; `waits'` may lack its process. -/
theorem QInv.exit {waits' : BTreeMap ProcId (List Nat)} (h : QInv ready current tid2pid waits)
    (ha : Awake current waits) (hc : current = some t) (hw : ∀ {q k}, waits' q = some k → waits q = some k) :
    QInv ready none (tid2pid.remove t) waits' := by
  refine ⟨h.nodup, ?_, by simp, fun hq => h.once (hw hq), ?_⟩
  · intro u hu
    exact (BTreeMap.isSome_remove _ _ _).mpr ⟨fun e => h.apart hc (e ▸ hu), h.live hu⟩
  · intro q k u hq hu
    obtain ⟨hup, hur⟩ := h.mine (hw hq) hu
    have hne : u ≠ t := fun e => ha t q k hc (hw hq) (e ▸ hu)
    exact ⟨by rw [BTreeMap.remove_apply, if_neg hne, hup], hur⟩

/-- The first ready thread is chosen. -/
theorem QInv.dispatch (h : QInv (t :: ready) none tid2pid waits) :
    QInv ready (some t) tid2pid waits ∧ Awake (some t) waits := by
  have hnd := h.nodup
  rw [List.nodup_cons] at hnd
  refine ⟨⟨hnd.2, fun hu => h.live (List.mem_cons_of_mem _ hu), ?_, h.once, ?_⟩, ?_⟩
  · intro u hc
    cases hc
    exact hnd.1
  · intro q k u hq hu
    obtain ⟨hup, hur⟩ := h.mine hq hu
    exact ⟨hup, fun hm => hur (List.mem_cons_of_mem _ hm)⟩
  · intro u q k hc hq hu
    cases hc
    exact (h.mine hq hu).2 List.mem_cons_self

end

/-! ## The wait queues of a process -/

/-- The threads queued in the objects of a list. -/
def queued {α : Type} (queue : α → List Nat) (l : List (Option α)) : List Nat :=
  l.flatMap fun x => (x.map queue).getD []

def Process.waiting (p : Process) : List Nat :=
  queued Semaphore.waitQueue p.semaphoreList ++ queued MutexBlocking.waitQueue p.mutexList ++
    queued Condvar.waitQueue p.condvarList

/-- All wait queues, by process. -/
def waitsOf (tm : Manager) : BTreeMap ProcId (List Nat) := fun p => (tm.procManager.procs p).map Process.waiting

section

variable {α : Type} {queue : α → List Nat} {l : List (Option α)} {id : Nat} {x y : α}

/-- One object of a list apart from the others. -/
theorem queued_set (queue : α → List Nat) (h : l[id]? = some (some x)) : ∃ rest, (queued queue l).Perm (queue x ++ rest) ∧
    ∀ y, (queued queue (l.set id (some y))).Perm (queue y ++ rest) := by
  induction l generalizing id with
  | nil => cases h
  | cons z l ih =>
    cases id with
    | zero =>
      cases h
      exact ⟨queued queue l, List.Perm.refl _, fun y => List.Perm.refl _⟩
    | succ n =>
      obtain ⟨rest, h1, h2⟩ := ih h
      have hmove : ∀ a : List Nat, ((z.map queue).getD [] ++ (a ++ rest)).Perm (a ++ ((z.map queue).getD [] ++ rest)) := by
        intro a
        rw [← List.append_assoc, ← List.append_assoc]
        exact List.perm_append_comm.append_right rest
      refine ⟨(z.map queue).getD [] ++ rest, ?_, ?_⟩
      · exact (h1.append_left _).trans (hmove _)
      · intro y
        exact ((h2 y).append_left _).trans (hmove _)

/-- Threads come to the end of the queue of one object. -/
theorem queued_push {w : List Nat} (h : l[id]? = some (some x)) (hq : queue y = queue x ++ w) :
    (queued queue (l.set id (some y))).Perm (w ++ queued queue l) := by
  obtain ⟨rest, h1, h2⟩ := queued_set queue h
  refine (h2 y).trans ?_
  rw [hq]
  have hmove : (queue x ++ w ++ rest).Perm (w ++ (queue x ++ rest)) := by
    rw [← List.append_assoc]
    exact List.perm_append_comm.append_right rest
  exact hmove.trans (h1.symm.append_left w)

/-- Threads leave the front of the queue of one object. -/
theorem queued_pop {w : List Nat} (h : l[id]? = some (some x)) (hq : queue x = w ++ queue y) :
    (queued queue l).Perm (w ++ queued queue (l.set id (some y))) := by
  obtain ⟨rest, h1, h2⟩ := queued_set queue h
  rw [hq, List.append_assoc] at h1
  exact h1.trans ((h2 y).symm.append_left w)

theorem slot_ok (h : slot l id = .ok x) : l[id]? = some (some x) := by
  unfold slot at h
  split at h
  · rename_i y hy
    cases h
    exact hy
  · cases h

/-- A new object has nobody waiting. -/
theorem queued_place {x : Option α} {l' : List (Option α)} (h : place l x = (id, l'))
    (hx : (x.map queue).getD [] = []) : queued queue l' = queued queue l := by
  unfold place at h
  split at h
  · rename_i n hn
    cases h
    obtain ⟨hlt, hnone, -⟩ := List.findIdx?_eq_some_iff_getElem.mp hn
    have hget : l[id] = none := by simpa using hnone
    have hsplit : l = l.take id ++ none :: l.drop (id + 1) := by
      rw [← hget, List.getElem_cons_drop, List.take_append_drop]
    have hset : l.set id x = l.take id ++ x :: l.drop (id + 1) := by
      rw [List.set_eq_take_append_cons_drop, if_pos hlt]
    rw [hset]
    conv_rhs => rw [hsplit]
    simp [queued, hx]
  · cases h
    simp [queued, hx]

end

section

variable {p : Process} {w : List Nat}

theorem waiting_semaphores {a b : List (Option Semaphore)}
    (h : (queued Semaphore.waitQueue a).Perm (w ++ queued Semaphore.waitQueue b)) :
    ({ p with semaphoreList := a } : Process).waiting.Perm (w ++ ({ p with semaphoreList := b } : Process).waiting) := by
  unfold Process.waiting
  rw [← List.append_assoc, ← List.append_assoc]
  exact (h.append_right _).append_right _

theorem waiting_mutexes {a b : List (Option MutexBlocking)}
    (h : (queued MutexBlocking.waitQueue a).Perm (w ++ queued MutexBlocking.waitQueue b)) :
    ({ p with mutexList := a } : Process).waiting.Perm (w ++ ({ p with mutexList := b } : Process).waiting) := by
  unfold Process.waiting
  rw [← List.append_assoc, ← List.append_assoc]
  refine List.Perm.append_right _ ((h.append_left _).trans ?_)
  rw [← List.append_assoc]
  exact List.perm_append_comm.append_right _

theorem waiting_condvars {a b : List (Option Condvar)}
    (h : (queued Condvar.waitQueue a).Perm (w ++ queued Condvar.waitQueue b)) :
    ({ p with condvarList := a } : Process).waiting.Perm (w ++ ({ p with condvarList := b } : Process).waiting) := by
  unfold Process.waiting
  refine (h.append_left _).trans ?_
  rw [← List.append_assoc, ← List.append_assoc]
  exact List.perm_append_comm.append_right _

end

/-! ## The state -/

/-- The current thread may be queued: between its call and the end of the trap. -/
structure Mid (s : State) : Prop where
  inv : Threads.TInv s
  queues : QInv s.tm.manager.readyQueue s.tm.current s.tm.tid2pid (waitsOf s.tm)

structure KInv (s : State) : Prop extends Mid s where
  awake : Awake s.tm.current (waitsOf s.tm)

section

variable {s : State} {pid : ProcId} {proc proc' : Process} {t : Nat}

theorem getCurrentProc_ok {tm : Manager} (h : Manager.getCurrentProc tm = .ok (pid, proc)) :
    ∃ t, tm.current = some t ∧ tm.tid2pid t = some pid ∧ tm.procManager.procs pid = some proc := by
  unfold Manager.getCurrentProc at h
  split at h
  · cases h
  · rename_i t hc
    split at h
    · cases h
    · rename_i p hp
      split at h
      · cases h
      · rename_i q hq
        cases h
        exact ⟨t, hc, hp, hq⟩

theorem getCurrentProc_eq {tm : Manager} (hc : tm.current = some t) (ht : tm.tid2pid t = some pid)
    (hp : tm.procManager.procs pid = some proc) : Manager.getCurrentProc tm = .ok (pid, proc) := by
  simp only [Manager.getCurrentProc, hc, ht, ProcStore.getMut, hp]

theorem setProc_self {tm : Manager} : (Manager.setProc tm pid proc).procManager.procs pid = some proc := by
  simp [Manager.setProc, ProcStore.insert]

theorem getCurrent_ok {tm : Manager} {context : LocalContext} (h : Manager.getCurrent tm = .ok (t, context)) :
    tm.current = some t := by
  unfold Manager.getCurrent at h
  split at h
  · cases h
  · rename_i t' hc
    split at h
    · cases h
    · cases h
      exact hc

theorem waitsOf_setProc {tm : Manager} :
    waitsOf (Manager.setProc tm pid proc) = (waitsOf tm).insert pid proc.waiting := by
  funext q
  simp only [waitsOf, Manager.setProc, ProcStore.insert, BTreeMap.insert_apply]
  split
  · rfl
  · rfl

theorem tInv_setProc (h : Threads.TInv s) (hp : s.tm.procManager.procs pid = some proc) :
    Threads.TInv ⟨Manager.setProc s.tm pid proc', s.usedPids, s.usedTids⟩ := by
  refine ⟨h.fam, h.threads, h.tasks, ?_, h.tids, h.current⟩
  intro p
  show (s.tm.procManager.procs.insert pid proc' p).isSome = true ↔ (s.tm.relMap p).isSome = true
  rw [BTreeMap.isSome_insert, ← h.procs]
  refine ⟨fun hq => hq.elim (fun e => ?_) fun hq => hq, .inr⟩
  rw [e, hp]
  rfl

theorem tInv_setContext (h : Threads.TInv s) (context : LocalContext) :
    Threads.TInv ⟨Manager.setContext s.tm t context, s.usedPids, s.usedTids⟩ := by
  refine ⟨h.fam, h.threads, ?_, h.procs, h.tids, h.current⟩
  intro u
  show (s.tm.manager.tasks.adjust t (fun _ => context) u).isSome = true ↔ _
  rw [BTreeMap.isSome_adjust]
  exact h.tasks u

theorem Mid.setContext (h : Mid s) (context : LocalContext) :
    Mid ⟨Manager.setContext s.tm t context, s.usedPids, s.usedTids⟩ :=
  ⟨tInv_setContext h.inv context, h.queues⟩

theorem KInv.setContext (h : KInv s) (context : LocalContext) :
    KInv ⟨Manager.setContext s.tm t context, s.usedPids, s.usedTids⟩ :=
  ⟨h.toMid.setContext context, h.awake⟩

theorem waitsOf_some {tm : Manager} (hp : tm.procManager.procs pid = some proc) : waitsOf tm pid = some proc.waiting := by
  rw [waitsOf, hp]
  rfl

/-- A process is changed and nobody is queued or woken. -/
theorem Mid.update (h : Mid s) (hp : s.tm.procManager.procs pid = some proc)
    (hw : proc'.waiting.Perm proc.waiting) : Mid ⟨Manager.setProc s.tm pid proc', s.usedPids, s.usedTids⟩ := by
  refine ⟨tInv_setProc h.inv hp, ?_⟩
  rw [waitsOf_setProc]
  exact h.queues.perm (waitsOf_some hp) hw

theorem KInv.update (h : KInv s) (hp : s.tm.procManager.procs pid = some proc)
    (hw : proc'.waiting.Perm proc.waiting) : KInv ⟨Manager.setProc s.tm pid proc', s.usedPids, s.usedTids⟩ := by
  refine ⟨h.toMid.update hp hw, ?_⟩
  rw [waitsOf_setProc]
  exact h.awake.perm (waitsOf_some hp) hw

/-- A thread is taken off a wait queue of a process. -/
theorem KInv.wake {tm : Manager} {woken : Option Nat} (h : KInv s) (hp : s.tm.procManager.procs pid = some proc)
    (hw : proc.waiting.Perm (woken.toList ++ proc'.waiting))
    (hok : Manager.wake (Manager.setProc s.tm pid proc') woken = .ok tm) :
    KInv ⟨tm, s.usedPids, s.usedTids⟩ ∧ tm.current = s.tm.current := by
  cases woken with
  | none =>
    cases hok
    exact ⟨h.update hp hw.symm, rfl⟩
  | some t =>
    cases hok
    have hw : proc.waiting.Perm (t :: proc'.waiting) := hw
    obtain ⟨hq, ha⟩ := h.queues.wake h.awake (waitsOf_some hp) hw
    rw [← waitsOf_setProc] at hq ha
    have hi : Threads.TInv ⟨Manager.setProc s.tm pid proc', s.usedPids, s.usedTids⟩ := tInv_setProc h.inv hp
    exact ⟨⟨⟨hi.step (@Threads.Step.reEnque _ _ _ t _ rfl), hq⟩, ha⟩, rfl⟩

/-- The current thread is put on a wait queue of its process. -/
theorem KInv.queue (h : KInv s) (hc : s.tm.current = some t) (ht : s.tm.tid2pid t = some pid)
    (hp : s.tm.procManager.procs pid = some proc) (hw : proc'.waiting.Perm (t :: proc.waiting)) :
    Mid ⟨Manager.setProc s.tm pid proc', s.usedPids, s.usedTids⟩ := by
  refine ⟨tInv_setProc h.inv hp, ?_⟩
  rw [waitsOf_setProc]
  exact h.queues.queue h.awake hc ht (waitsOf_some hp) hw

/-! ## The calls -/

/-- The call of the current thread will not be served at once. -/
def Blocks (tm : Manager) : Syscall → Prop
  | .semaphoreDown semId => ∃ pid proc sem, Manager.getCurrentProc tm = .ok (pid, proc) ∧
      slot proc.semaphoreList semId = .ok sem ∧ sem.count ≤ 0
  | .mutexLock mutexId => ∃ pid proc mutex, Manager.getCurrentProc tm = .ok (pid, proc) ∧
      slot proc.mutexList mutexId = .ok mutex ∧ mutex.locked = true
  | .condvarWait _ _ => True
  | _ => False

/-- The signals of the current process are the same. -/
def SameSignals (tm tm' : Manager) : Prop :=
  ∃ pid proc proc', Manager.getCurrentProc tm = .ok (pid, proc) ∧ Manager.getCurrentProc tm' = .ok (pid, proc') ∧
    proc'.signal = proc.signal

/-- What the trap has after the call: nobody is queued that should not be, the current thread
    only when its call blocks and returned -1. -/
structure Served (s : State) (call : Syscall) (ret : Option Int) (tm : Manager) : Prop where
  mid : Mid (mark s tm call)
  current : tm.current = s.tm.current
  awake : Awake tm.current (waitsOf tm) ∨ Blocks s.tm call ∧ ret = some (-1) ∧ SameSignals s.tm tm

theorem KInv.served {call : Syscall} {ret : Option Int} {tm : Manager} (h : KInv (mark s tm call))
    (hc : tm.current = s.tm.current) : Served s call ret tm := by
  refine ⟨h.toMid, hc, .inl ?_⟩
  have ha := h.awake
  cases call <;> exact ha

theorem done_ok {x : Except Halt (Int × Manager)} {ret : Option Int} {tm : Manager}
    (h : Manager.done x = .ok (ret, tm)) : ∃ r, x = .ok (r, tm) ∧ ret = some r := by
  obtain ⟨⟨r, tm'⟩, hx, h⟩ := bind_eq_ok.mp h
  cases h
  exact ⟨r, hx, rfl⟩

theorem up_queue {sem sem' : Semaphore} {woken : Option Nat} (h : sem.up = .ok (woken, sem')) :
    sem.waitQueue = woken.toList ++ sem'.waitQueue := by
  obtain ⟨count, -, h⟩ := bind_eq_ok.mp h
  cases h
  cases sem.waitQueue with
  | nil => rfl
  | cons t q => rfl

theorem unlock_queue {m m' : MutexBlocking} {woken : Option Nat} (h : m.unlock = .ok (woken, m')) :
    m.waitQueue = woken.toList ++ m'.waitQueue := by
  cases woken with
  | none =>
    obtain ⟨-, -, rfl⟩ := unlock_eq_none h
    rfl
  | some t => exact (unlock_eq_some h).2.1

theorem semaphoreUp_spec {semId : Nat} {r : Int} {tm : Manager} (h : KInv s)
    (hok : Manager.semaphoreUp s.tm semId = .ok (r, tm)) :
    KInv ⟨tm, s.usedPids, s.usedTids⟩ ∧ tm.current = s.tm.current := by
  obtain ⟨⟨pid, proc⟩, hproc, hok⟩ := bind_eq_ok.mp hok
  obtain ⟨sem, hsem, hok⟩ := bind_eq_ok.mp hok
  obtain ⟨⟨woken, sem'⟩, hup, hok⟩ := bind_eq_ok.mp hok
  obtain ⟨tm', hwake, hok⟩ := bind_eq_ok.mp hok
  cases hok
  obtain ⟨t, hc, ht, hp⟩ := getCurrentProc_ok hproc
  exact h.wake hp (waiting_semaphores (queued_pop (slot_ok hsem) (up_queue hup))) hwake

theorem mutexUnlock_spec {mutexId : Nat} {r : Int} {tm : Manager} (h : KInv s)
    (hok : Manager.mutexUnlock s.tm mutexId = .ok (r, tm)) :
    KInv ⟨tm, s.usedPids, s.usedTids⟩ ∧ tm.current = s.tm.current := by
  obtain ⟨⟨pid, proc⟩, hproc, hok⟩ := bind_eq_ok.mp hok
  obtain ⟨mutex, hmutex, hok⟩ := bind_eq_ok.mp hok
  obtain ⟨⟨woken, mutex'⟩, hunlock, hok⟩ := bind_eq_ok.mp hok
  obtain ⟨tm', hwake, hok⟩ := bind_eq_ok.mp hok
  cases hok
  obtain ⟨t, hc, ht, hp⟩ := getCurrentProc_ok hproc
  exact h.wake hp (waiting_mutexes (queued_pop (slot_ok hmutex) (unlock_queue hunlock))) hwake

theorem condvarSignal_spec {condvarId : Nat} {r : Int} {tm : Manager} (h : KInv s)
    (hok : Manager.condvarSignal s.tm condvarId = .ok (r, tm)) :
    KInv ⟨tm, s.usedPids, s.usedTids⟩ ∧ tm.current = s.tm.current := by
  obtain ⟨⟨pid, proc⟩, hproc, hok⟩ := bind_eq_ok.mp hok
  obtain ⟨condvar, hcondvar, hok⟩ := bind_eq_ok.mp hok
  obtain ⟨tm', hwake, hok⟩ := bind_eq_ok.mp hok
  cases hok
  obtain ⟨t, hc, ht, hp⟩ := getCurrentProc_ok hproc
  have hq : condvar.waitQueue = condvar.signal.1.toList ++ condvar.signal.2.waitQueue := by
    unfold Condvar.signal
    cases condvar.waitQueue with
    | nil => rfl
    | cons u q => rfl
  exact h.wake hp (waiting_condvars (queued_pop (slot_ok hcondvar) hq)) hwake

/-- A call that queues the current thread or is served at once. -/
theorem KInv.served_queue {call : Syscall} {passed : Bool} {r : Int} (h : KInv s) (hc : s.tm.current = some t)
    (ht : s.tm.tid2pid t = some pid) (hp : s.tm.procManager.procs pid = some proc)
    (hmark : ∀ tm, mark s tm call = ⟨tm, s.usedPids, s.usedTids⟩) (hr : r = if passed then 0 else -1)
    (hsig : proc'.signal = proc.signal)
    (hw : passed = true ∧ proc'.waiting.Perm proc.waiting ∨
      passed = false ∧ Blocks s.tm call ∧ proc'.waiting.Perm (t :: proc.waiting)) :
    Served s call (some r) (Manager.setProc s.tm pid proc') := by
  rcases hw with ⟨-, hw⟩ | ⟨rfl, hb, hw⟩
  · have hk := h.update hp hw
    exact ⟨by rw [hmark]; exact hk.toMid, rfl, .inl hk.awake⟩
  · refine ⟨by rw [hmark]; exact h.queue hc ht hp hw, rfl, .inr ⟨hb, by rw [hr]; rfl, pid, proc, proc', ?_, ?_, hsig⟩⟩
    · exact getCurrentProc_eq hc ht hp
    · exact getCurrentProc_eq hc ht setProc_self

/-- The two views of the current thread agree. -/
theorem getCurrent_eq {tm : Manager} {tid : Nat} {context : LocalContext}
    (h : Manager.getCurrent tm = .ok (tid, context)) (hc : tm.current = some t) : tid = t := by
  have h' := getCurrent_ok h
  rw [hc, Option.some.injEq] at h'
  exact h'.symm

theorem semaphoreDown_spec {semId : Nat} {r : Int} {tm : Manager} (h : KInv s)
    (hok : Manager.semaphoreDown s.tm semId = .ok (r, tm)) : Served s (.semaphoreDown semId) (some r) tm := by
  obtain ⟨⟨tid, context⟩, hcur, hok⟩ := bind_eq_ok.mp hok
  obtain ⟨⟨pid, proc⟩, hproc, hok⟩ := bind_eq_ok.mp hok
  obtain ⟨sem, hsem, hok⟩ := bind_eq_ok.mp hok
  obtain ⟨⟨passed, sem'⟩, hdown, hok⟩ := bind_eq_ok.mp hok
  cases hok
  obtain ⟨t, hc, ht, hp⟩ := getCurrentProc_ok hproc
  obtain rfl := getCurrent_eq hcur hc
  refine h.served_queue hc ht hp (fun _ => rfl) rfl rfl ?_
  obtain ⟨hcount, -, ⟨hneg, rfl, hq⟩ | ⟨hpos, rfl, hq⟩⟩ := Semaphore.down_ok hdown
  · refine .inr ⟨rfl, ⟨pid, proc, sem, hproc, hsem, by omega⟩, ?_⟩
    exact waiting_semaphores (w := [tid]) (queued_push (slot_ok hsem) hq)
  · refine .inl ⟨rfl, ?_⟩
    exact waiting_semaphores (w := []) (queued_push (slot_ok hsem) (by rw [hq, List.append_nil]))

theorem mutexLock_spec {mutexId : Nat} {r : Int} {tm : Manager} (h : KInv s)
    (hok : Manager.mutexLock s.tm mutexId = .ok (r, tm)) : Served s (.mutexLock mutexId) (some r) tm := by
  obtain ⟨⟨tid, context⟩, hcur, hok⟩ := bind_eq_ok.mp hok
  obtain ⟨⟨pid, proc⟩, hproc, hok⟩ := bind_eq_ok.mp hok
  obtain ⟨mutex, hmutex, hok⟩ := bind_eq_ok.mp hok
  rcases hlock : mutex.lock tid with ⟨locked, mutex'⟩
  rw [hlock] at hok
  cases hok
  obtain ⟨t, hc, ht, hp⟩ := getCurrentProc_ok hproc
  obtain rfl := getCurrent_eq hcur hc
  refine h.served_queue hc ht hp (fun _ => rfl) rfl rfl ?_
  cases locked with
  | true =>
    obtain ⟨-, rfl⟩ := lock_eq_true hlock
    refine .inl ⟨rfl, ?_⟩
    exact waiting_mutexes (w := []) (queued_push (slot_ok hmutex) (List.append_nil _).symm)
  | false =>
    obtain ⟨hl, rfl⟩ := lock_eq_false hlock
    refine .inr ⟨rfl, ⟨pid, proc, mutex, hproc, hmutex, hl⟩, ?_⟩
    exact waiting_mutexes (w := [tid]) (queued_push (slot_ok hmutex) rfl)

/-- `condvar_wait` wakes the first thread queued on the mutex and queues the caller on it. -/
theorem condvarWait_spec {condvarId mutexId : Nat} {r : Int} {tm : Manager} (h : KInv s)
    (hok : Manager.condvarWait s.tm condvarId mutexId = .ok (r, tm)) :
    Served s (.condvarWait condvarId mutexId) (some r) tm := by
  obtain ⟨⟨tid, context⟩, hcur, hok⟩ := bind_eq_ok.mp hok
  obtain ⟨⟨pid, proc⟩, hproc, hok⟩ := bind_eq_ok.mp hok
  obtain ⟨condvar, hcondvar, hok⟩ := bind_eq_ok.mp hok
  obtain ⟨mutex, hmutex, hok⟩ := bind_eq_ok.mp hok
  obtain ⟨⟨⟨flag, next⟩, mutex'⟩, hwait, hok⟩ := bind_eq_ok.mp hok
  obtain ⟨tm', hwake, hok⟩ := bind_eq_ok.mp hok
  cases hok
  obtain ⟨t, hc, ht, hp⟩ := getCurrentProc_ok hproc
  obtain rfl := getCurrent_eq hcur hc
  obtain ⟨m1, hunlock, hlock, rfl⟩ := Condvar.waitWithMutex_eq hwait
  obtain ⟨-, rfl⟩ := lock_eq_false hlock
  have hpop : proc.waiting.Perm ((some next).toList ++
      ({ proc with mutexList := proc.mutexList.set mutexId (some m1) } : Process).waiting) :=
    waiting_mutexes (queued_pop (slot_ok hmutex) (unlock_queue hunlock))
  -- The mutex is handed over first; the caller is queued in the state after that.
  obtain ⟨hk, -⟩ := h.wake hp hpop (show Manager.wake _ (some next) = .ok _ from rfl)
  have hslot : (proc.mutexList.set mutexId (some m1))[mutexId]? = some (some m1) := by
    rw [List.getElem?_set_self]
    exact (List.getElem?_eq_some_iff.mp (slot_ok hmutex)).1
  have hpush := waiting_mutexes (p := { proc with mutexList := proc.mutexList.set mutexId (some m1) }) (w := [tid])
    (queued_push hslot (show MutexBlocking.waitQueue { m1 with waitQueue := m1.waitQueue ++ [tid] } = _ from rfl))
  have hmid := hk.queue hc ht (BTreeMap.insert_apply _ _ _ _ |>.trans (if_pos rfl)) hpush
  cases hwake
  refine ⟨?_, rfl, .inr ⟨trivial, rfl, pid, proc, _, hproc, getCurrentProc_eq hc ht setProc_self, rfl⟩⟩
  simpa only [mark, Manager.setProc, ProcStore.insert, BTreeMap.insert_insert, List.set_set] using hmid

theorem create_spec (h : KInv s) (hproc : Manager.getCurrentProc s.tm = .ok (pid, proc))
    (hw : proc'.waiting = proc.waiting) : KInv ⟨Manager.setProc s.tm pid proc', s.usedPids, s.usedTids⟩ := by
  obtain ⟨t, hc, ht, hp⟩ := getCurrentProc_ok hproc
  exact h.update hp (hw ▸ List.Perm.refl _)

theorem semaphoreCreate_spec {resCount : Nat} {r : Int} {tm : Manager} (h : KInv s)
    (hok : Manager.semaphoreCreate s.tm resCount = .ok (r, tm)) :
    KInv ⟨tm, s.usedPids, s.usedTids⟩ ∧ tm.current = s.tm.current := by
  obtain ⟨⟨pid, proc⟩, hproc, hok⟩ := bind_eq_ok.mp hok
  rcases hplace : place proc.semaphoreList (some (.new resCount)) with ⟨id, l⟩
  simp only [hplace, Except.ok.injEq, Prod.mk.injEq] at hok
  obtain ⟨-, rfl⟩ := hok
  have hq : queued Semaphore.waitQueue l = queued Semaphore.waitQueue proc.semaphoreList := queued_place hplace rfl
  exact ⟨create_spec h hproc (by simp only [Process.waiting, hq]), rfl⟩

theorem mutexCreate_spec {blocking : Bool} {r : Int} {tm : Manager} (h : KInv s)
    (hok : Manager.mutexCreate s.tm blocking = .ok (r, tm)) :
    KInv ⟨tm, s.usedPids, s.usedTids⟩ ∧ tm.current = s.tm.current := by
  obtain ⟨⟨pid, proc⟩, hproc, hok⟩ := bind_eq_ok.mp hok
  rcases hplace : place proc.mutexList (if blocking then some .new else none) with ⟨id, l⟩
  simp only [hplace, Except.ok.injEq, Prod.mk.injEq] at hok
  obtain ⟨-, rfl⟩ := hok
  have hnew : ((if blocking then some MutexBlocking.new else none).map MutexBlocking.waitQueue).getD [] = [] := by
    cases blocking with
    | true => rfl
    | false => rfl
  have hq : queued MutexBlocking.waitQueue l = queued MutexBlocking.waitQueue proc.mutexList := queued_place hplace hnew
  exact ⟨create_spec h hproc (by simp only [Process.waiting, hq]), rfl⟩

theorem condvarCreate_spec {r : Int} {tm : Manager} (h : KInv s) (hok : Manager.condvarCreate s.tm = .ok (r, tm)) :
    KInv ⟨tm, s.usedPids, s.usedTids⟩ ∧ tm.current = s.tm.current := by
  obtain ⟨⟨pid, proc⟩, hproc, hok⟩ := bind_eq_ok.mp hok
  rcases hplace : place proc.condvarList (some .new) with ⟨id, l⟩
  simp only [hplace, Except.ok.injEq, Prod.mk.injEq] at hok
  obtain ⟨-, rfl⟩ := hok
  have hq : queued Condvar.waitQueue l = queued Condvar.waitQueue proc.condvarList := queued_place hplace rfl
  exact ⟨create_spec h hproc (by simp only [Process.waiting, hq]), rfl⟩

/-- A new thread of the current process. -/
theorem threadCreate_spec {tid : Nat} {context : LocalContext} {r : Int} {tm : Manager} (h : KInv s)
    (hf : tid ∉ s.usedTids) (hok : Manager.threadCreate s.tm tid context = .ok (r, tm)) :
    KInv ⟨tm, s.usedPids, tid :: s.usedTids⟩ ∧ tm.current = s.tm.current := by
  obtain ⟨⟨pid, proc⟩, hproc, hok⟩ := bind_eq_ok.mp hok
  obtain ⟨tm', hadd, hok⟩ := bind_eq_ok.mp hok
  cases hok
  obtain ⟨t, hc, ht, hp⟩ := getCurrentProc_ok hproc
  have hcp : Threads.currentPid s.tm = some pid := by
    rw [Threads.currentPid, hc]
    exact ht
  have hi := h.inv.step (Threads.Step.newThread hf hcp hadd)
  obtain ⟨rel, hrel⟩ := h.inv.currentPid_some hcp
  rw [Threads.add_eq hrel, Except.ok.injEq] at hadd
  subst hadd
  exact ⟨⟨⟨hi, h.queues.add (h.inv.fresh hf) h.inv.current⟩, h.awake⟩, rfl⟩

theorem waitsOf_addProc {tm : Manager} {pid parent : ProcId} {proc : Process} :
    waitsOf (tm.addProc pid proc parent) = (waitsOf tm).insert pid proc.waiting := by
  funext q
  simp only [waitsOf, PThreadManager.addProc, ProcStore.insert, BTreeMap.insert_apply]
  split
  · rfl
  · rfl

/-- A new process with its first thread. -/
theorem KInv.addProc {pid parent : ProcId} {tid : Nat} {proc : Process} {context : LocalContext} {tm : Manager}
    (h : KInv s) (hp : pid ∉ s.usedPids) (hlt : pid < 2 ^ 64 - 2) (ht : tid ∉ s.usedTids)
    (hparent : parent = usizeMax ∨ Threads.currentPid s.tm = some parent) (hw : proc.waiting = [])
    (hadd : (s.tm.addProc pid proc parent).add tid context pid = .ok tm) :
    KInv ⟨tm, pid :: s.usedPids, tid :: s.usedTids⟩ ∧ tm.current = s.tm.current := by
  have hi := h.inv.step (Threads.Step.newProc hp hlt ht hparent hadd)
  have hr : (s.tm.addProc pid proc parent).relMap pid = some (.new parent) := by
    simp [PThreadManager.addProc]
  rw [Threads.add_eq hr, Except.ok.injEq] at hadd
  subst hadd
  obtain ⟨hq, ha⟩ := h.queues.newProc (p := pid) h.awake
  rw [← hw, ← @waitsOf_addProc s.tm pid parent proc] at hq ha
  exact ⟨⟨⟨hi, hq.add (h.inv.fresh ht) h.inv.current⟩, ha⟩, rfl⟩

theorem fork_spec {pid : ProcId} {tid : Nat} {r : Int} {tm : Manager} (h : KInv s)
    (hf : Fresh s (.fork pid tid)) (hok : Manager.fork s.tm pid tid = .ok (r, tm)) :
    KInv ⟨tm, pid :: s.usedPids, tid :: s.usedTids⟩ ∧ tm.current = s.tm.current := by
  obtain ⟨⟨parentPid, proc⟩, hproc, hok⟩ := bind_eq_ok.mp hok
  obtain ⟨t, hc, ht, hp⟩ := getCurrentProc_ok hproc
  have hcp : Threads.currentPid s.tm = some parentPid := by
    rw [Threads.currentPid, hc]
    exact ht
  dsimp only at hok
  split at hok
  · cases hok
  · split at hok
    · cases hok
    · split at hok
      · cases hok
      · obtain ⟨tm', hadd, hok⟩ := bind_eq_ok.mp hok
        cases hok
        exact h.addProc hf.1 hf.2.1 hf.2.2 (.inr hcp) rfl hadd

theorem exec_spec {context : LocalContext} {r : Int} {tm : Manager} (h : KInv s)
    (hok : Manager.exec s.tm context = .ok (r, tm)) :
    KInv ⟨tm, s.usedPids, s.usedTids⟩ ∧ tm.current = s.tm.current := by
  obtain ⟨⟨pid, proc⟩, hproc, hok⟩ := bind_eq_ok.mp hok
  dsimp only at hok
  split at hok
  · cases hok
  · split at hok
    · cases hok
    · cases hok
      exact ⟨h.setContext context, rfl⟩

theorem wait_spec {c : ProcId} {r : Int} {tm : Manager} (h : KInv s) (hok : Manager.wait s.tm c = .ok (r, tm)) :
    KInv ⟨tm, s.usedPids, s.usedTids⟩ ∧ tm.current = s.tm.current := by
  obtain ⟨⟨ret, tm'⟩, hw, hok⟩ := bind_eq_ok.mp hok
  have hi := h.inv.step (Threads.Step.wait hw)
  obtain ⟨⟨pid, rel⟩, -, hw⟩ := bind_eq_ok.mp hw
  simp only [Except.ok.injEq, Prod.mk.injEq] at hw
  obtain ⟨-, rfl⟩ := hw
  dsimp only at hok
  split at hok
  · cases hok
    exact ⟨⟨⟨hi, h.queues⟩, h.awake⟩, rfl⟩
  · cases hok
    exact ⟨⟨⟨hi, h.queues⟩, h.awake⟩, rfl⟩

theorem waittid_spec {tid : Nat} {r : Int} {tm : Manager} (h : KInv s)
    (hok : Manager.waittid s.tm tid = .ok (r, tm)) :
    KInv ⟨tm, s.usedPids, s.usedTids⟩ ∧ tm.current = s.tm.current := by
  obtain ⟨⟨current, context⟩, hcur, hok⟩ := bind_eq_ok.mp hok
  dsimp only at hok
  split at hok
  · cases hok
    exact ⟨h, rfl⟩
  · obtain ⟨⟨ret, tm'⟩, hw, hok⟩ := bind_eq_ok.mp hok
    have hi := h.inv.step (Threads.Step.waittid hw)
    obtain ⟨⟨pid, rel⟩, -, hw⟩ := bind_eq_ok.mp hw
    simp only [Except.ok.injEq, Prod.mk.injEq] at hw
    obtain ⟨-, rfl⟩ := hw
    cases hok
    exact ⟨⟨⟨hi, h.queues⟩, h.awake⟩, rfl⟩

theorem kill_spec (h : KInv s) (pid : ProcId) (signum : Nat) :
    KInv ⟨(Manager.kill s.tm pid signum).2, s.usedPids, s.usedTids⟩ ∧
      (Manager.kill s.tm pid signum).2.current = s.tm.current := by
  unfold Manager.kill
  split
  · exact ⟨h, rfl⟩
  · rename_i target hp
    split
    · exact ⟨h, rfl⟩
    · split
      · exact ⟨h.update hp (List.Perm.refl _), rfl⟩
      · exact ⟨h, rfl⟩

theorem sigaction_spec {signum : Nat} {action : Option (Option SignalAction)} {oldAction : Option Bool} {r : Int}
    {tm : Manager} (h : KInv s) (hok : Manager.sigaction s.tm signum action oldAction = .ok (r, tm)) :
    KInv ⟨tm, s.usedPids, s.usedTids⟩ ∧ tm.current = s.tm.current := by
  rcases Manager.sigaction_cases hok with rfl | ⟨pid, proc, signal, hproc, -, rfl⟩
  · exact ⟨h, rfl⟩
  · exact ⟨create_spec h hproc rfl, rfl⟩

theorem sigreturn_spec {r : Int} {tm : Manager} (h : KInv s) (hok : Manager.sigreturn s.tm = .ok (r, tm)) :
    KInv ⟨tm, s.usedPids, s.usedTids⟩ ∧ tm.current = s.tm.current := by
  obtain ⟨⟨pid, proc⟩, hproc, hok⟩ := bind_eq_ok.mp hok
  obtain ⟨⟨tid, context⟩, hcur, hok⟩ := bind_eq_ok.mp hok
  rcases hret : proc.signal.sigReturn context with ⟨done, signal, context'⟩
  simp only [hret, Except.ok.injEq, Prod.mk.injEq] at hok
  obtain ⟨-, rfl⟩ := hok
  have hk : KInv ⟨Manager.setProc s.tm pid { proc with signal := signal }, s.usedPids, s.usedTids⟩ :=
    create_spec h hproc rfl
  exact ⟨hk.setContext context', rfl⟩

theorem handle_spec {call : Syscall} {ret : Option Int} {tm : Manager} (h : KInv s) (hf : Fresh s call)
    (hok : Manager.handle s.tm call = .ok (ret, tm)) : Served s call ret tm := by
  have hquiet : ∀ {tm : Manager}, KInv ⟨tm, s.usedPids, s.usedTids⟩ ∧ tm.current = s.tm.current →
      mark s tm call = ⟨tm, s.usedPids, s.usedTids⟩ → Served s call ret tm := by
    intro tm hk hm
    exact KInv.served (hm ▸ hk.1) hk.2
  cases call with
  | exit exitCode =>
    cases hok
    exact hquiet ⟨h, rfl⟩ rfl
  | fork pid tid =>
    obtain ⟨r, hx, rfl⟩ := done_ok hok
    obtain ⟨hk, hc⟩ := fork_spec h hf hx
    exact KInv.served hk hc
  | exec context =>
    obtain ⟨r, hx, rfl⟩ := done_ok hok
    exact hquiet (exec_spec h hx) rfl
  | wait pid =>
    obtain ⟨r, hx, rfl⟩ := done_ok hok
    exact hquiet (wait_spec h hx) rfl
  | threadCreate tid context =>
    obtain ⟨r, hx, rfl⟩ := done_ok hok
    obtain ⟨hk, hc⟩ := threadCreate_spec h hf hx
    exact KInv.served hk hc
  | waittid tid =>
    obtain ⟨r, hx, rfl⟩ := done_ok hok
    exact hquiet (waittid_spec h hx) rfl
  | semaphoreCreate resCount =>
    obtain ⟨r, hx, rfl⟩ := done_ok hok
    exact hquiet (semaphoreCreate_spec h hx) rfl
  | semaphoreUp semId =>
    obtain ⟨r, hx, rfl⟩ := done_ok hok
    exact hquiet (semaphoreUp_spec h hx) rfl
  | semaphoreDown semId =>
    obtain ⟨r, hx, rfl⟩ := done_ok hok
    exact semaphoreDown_spec h hx
  | mutexCreate blocking =>
    obtain ⟨r, hx, rfl⟩ := done_ok hok
    exact hquiet (mutexCreate_spec h hx) rfl
  | mutexLock mutexId =>
    obtain ⟨r, hx, rfl⟩ := done_ok hok
    exact mutexLock_spec h hx
  | mutexUnlock mutexId =>
    obtain ⟨r, hx, rfl⟩ := done_ok hok
    exact hquiet (mutexUnlock_spec h hx) rfl
  | condvarCreate =>
    obtain ⟨r, hx, rfl⟩ := done_ok hok
    exact hquiet (condvarCreate_spec h hx) rfl
  | condvarSignal condvarId =>
    obtain ⟨r, hx, rfl⟩ := done_ok hok
    exact hquiet (condvarSignal_spec h hx) rfl
  | condvarWait condvarId mutexId =>
    obtain ⟨r, hx, rfl⟩ := done_ok hok
    exact condvarWait_spec h hx
  | kill pid signum =>
    obtain ⟨r, hx, rfl⟩ := done_ok hok
    rw [Except.ok.injEq] at hx
    have hk := kill_spec h pid signum
    rw [hx] at hk
    exact hquiet hk rfl
  | sigaction signum action oldAction =>
    obtain ⟨r, hx, rfl⟩ := done_ok hok
    exact hquiet (sigaction_spec h hx) rfl
  | sigprocmask mask =>
    obtain ⟨r, hx, rfl⟩ := done_ok hok
    obtain ⟨⟨pid, proc⟩, hproc, hx⟩ := bind_eq_ok.mp hx
    cases hx
    exact hquiet ⟨create_spec h hproc rfl, rfl⟩ rfl
  | sigreturn =>
    obtain ⟨r, hx, rfl⟩ := done_ok hok
    exact hquiet (sigreturn_spec h hx) rfl
  | other r =>
    cases hok
    exact hquiet ⟨h, rfl⟩ rfl
  | unsupported =>
    cases hok
    exact hquiet ⟨h, rfl⟩ rfl

/-! ## The trap -/

theorem KInv.exit {code : Int} {tm : Manager} (h : KInv s) (hc : s.tm.current = some t)
    (hexit : s.tm.makeCurrentExited code = .ok tm) : KInv ⟨tm, s.usedPids, s.usedTids⟩ := by
  have hi := h.inv.step (Threads.Step.exit hexit)
  obtain ⟨pid, r, ht, hr, -⟩ := h.inv.exit_current hc
  rcases (Threads.exited_eq_ok hc ht hr).mp hexit with ⟨-, rfl⟩ | ⟨-, relMap, -, rfl⟩
  · exact ⟨⟨hi, h.queues.exit h.awake hc fun hq => hq⟩, by simp [Awake]⟩
  · refine ⟨⟨hi, h.queues.exit h.awake hc ?_⟩, by simp [Awake]⟩
    intro q k hq
    simp only [waitsOf, ProcStore.delete, BTreeMap.remove_apply] at hq
    split at hq
    · cases hq
    · exact hq

theorem KInv.suspend {tm : Manager} (h : KInv s) (hc : s.tm.current = some t)
    (hsus : s.tm.makeCurrentSuspend = .ok tm) : KInv ⟨tm, s.usedPids, s.usedTids⟩ := by
  have hi := h.inv.step (Threads.Step.suspend hsus)
  simp only [PThreadManager.makeCurrentSuspend, hc] at hsus
  cases hsus
  exact ⟨⟨hi, h.queues.suspend h.awake hc (h.inv.current hc)⟩, by simp [Awake]⟩

theorem Mid.block (h : Mid s) : KInv ⟨s.tm.makeCurrentBlocked, s.usedPids, s.usedTids⟩ :=
  ⟨⟨h.inv.step .block, h.queues.block⟩, by simp [Awake, PThreadManager.makeCurrentBlocked]⟩

theorem setRet_ok {tm tm' : Manager} {ret : Int} (h : Manager.setRet tm ret = .ok tm') :
    ∃ t context, tm' = Manager.setContext tm t context := by
  obtain ⟨⟨t, context⟩, -, h⟩ := bind_eq_ok.mp h
  cases h
  exact ⟨t, _, rfl⟩

/-- The end of a trap whose thread waits nowhere, or whose call blocks and was not followed by a
    fatal signal. -/
theorem finish_spec {call : Syscall} {ret : Option Int} {result : SignalResult} {tm : Manager} (h : Mid s)
    (hc : s.tm.current = some t)
    (ha : Awake s.tm.current (waitsOf s.tm) ∨
      (∃ tm, Blocks tm call) ∧ ret = some (-1) ∧ ∀ code, result ≠ .processKilled code)
    (hok : Manager.finish s.tm call ret result = .ok tm) : KInv ⟨tm, s.usedPids, s.usedTids⟩ := by
  have hsuspend : ∀ {ret tm'}, Awake s.tm.current (waitsOf s.tm) → Manager.setRet s.tm ret = .ok tm' →
      tm'.makeCurrentSuspend = .ok tm → KInv ⟨tm, s.usedPids, s.usedTids⟩ := by
    intro ret tm' ha hset hsus
    obtain ⟨u, context, rfl⟩ := setRet_ok hset
    have hk : KInv s := ⟨h, ha⟩
    have hk' : KInv ⟨Manager.setContext s.tm u context, s.usedPids, s.usedTids⟩ := hk.setContext context
    exact hk'.suspend hc hsus
  have hblock : ∀ {ret tm'}, Manager.setRet s.tm ret = .ok tm' → tm'.makeCurrentBlocked = tm →
      KInv ⟨tm, s.usedPids, s.usedTids⟩ := by
    intro ret tm' hset hb
    obtain ⟨u, context, rfl⟩ := setRet_ok hset
    subst hb
    exact (h.setContext context).block
  unfold Manager.finish at hok
  rcases ha with ha | ⟨⟨tm0, hb⟩, rfl, hres⟩
  · have hk : KInv s := ⟨h, ha⟩
    split at hok
    · exact hk.exit hc hok
    · split at hok
      · exact hk.exit hc hok
      · split at hok
        · exact hk.exit hc hok
        all_goals
          obtain ⟨tm', hset, hok⟩ := bind_eq_ok.mp hok
          first
            | exact hsuspend ha hset hok
            | split at hok
              · cases hok
                exact hblock hset rfl
              · exact hsuspend ha hset hok
  · split at hok
    · rename_i code
      exact absurd rfl (hres code)
    · cases call with
      | semaphoreDown semId =>
        obtain ⟨tm', hset, hok⟩ := bind_eq_ok.mp hok
        cases hok
        exact hblock hset rfl
      | mutexLock mutexId =>
        obtain ⟨tm', hset, hok⟩ := bind_eq_ok.mp hok
        cases hok
        exact hblock hset rfl
      | condvarWait condvarId mutexId =>
        obtain ⟨tm', hset, hok⟩ := bind_eq_ok.mp hok
        cases hok
        exact hblock hset rfl
      | _ => exact absurd hb (by simp [Blocks])

theorem mark_eq (s : State) (call : Syscall) : ∃ usedPids usedTids, ∀ tm, mark s tm call = ⟨tm, usedPids, usedTids⟩ := by
  cases call <;> exact ⟨_, _, fun _ => rfl⟩

/-- The call of the current thread blocks, and a signal is due that ends the thread. -/
def Doomed (s : State) : Event → Prop
  | .trap call => Blocks s.tm call ∧
      ∃ pid proc, Manager.getCurrentProc s.tm = .ok (pid, proc) ∧ proc.signal.Fatal
  | _ => False

theorem trap_spec {call : Syscall} {tm : Manager} (h : KInv s) (hf : Fresh s call) (hd : ¬ Doomed s (.trap call))
    (hok : Manager.trap s.tm call = .ok tm) : KInv (mark s tm call) := by
  obtain ⟨⟨tid, context⟩, hcur, hok⟩ := bind_eq_ok.mp hok
  obtain ⟨⟨ret, tm1⟩, hhandle, hok⟩ := bind_eq_ok.mp hok
  obtain ⟨⟨pid, proc⟩, hproc, hok⟩ := bind_eq_ok.mp hok
  obtain ⟨⟨tid', context'⟩, hcur', hok⟩ := bind_eq_ok.mp hok
  obtain ⟨⟨result, signal, context''⟩, hsig, hok⟩ := bind_eq_ok.mp hok
  have hk : KInv ⟨Manager.setContext s.tm tid context.moveNext, s.usedPids, s.usedTids⟩ := h.setContext _
  have hserved := handle_spec hk hf hhandle
  have hmid : Mid (mark s tm1 call) := hserved.mid
  obtain ⟨usedPids, usedTids, hm⟩ := mark_eq s call
  rw [hm] at hmid ⊢
  obtain ⟨t, hc, ht, hp⟩ := getCurrentProc_ok hproc
  have hmid' : Mid ⟨Manager.setProc tm1 pid { proc with signal := signal }, usedPids, usedTids⟩ :=
    hmid.update hp (List.Perm.refl _)
  refine finish_spec (hmid'.setContext context'') hc ?_ hok
  rcases hserved.awake with ha | ⟨hb, hret, pid0, proc0, proc1, hproc0, hproc1, hsame⟩
  · left
    show Awake tm1.current (waitsOf (Manager.setProc tm1 pid { proc with signal := signal }))
    rw [waitsOf_setProc]
    exact ha.perm (waitsOf_some hp) (List.Perm.refl _)
  · refine .inr ⟨⟨_, hb⟩, hret, ?_⟩
    intro code hkilled
    rw [hkilled] at hsig
    have he : (pid, proc) = (pid0, proc1) := Except.ok.inj (hproc.symm.trans hproc1)
    rw [Prod.mk.injEq] at he
    -- Neither the move of the pc nor the call touched the signals.
    have hfatal : proc0.signal.Fatal := by
      rw [← hsame, ← he.2]
      exact SignalImpl.handleSignals_killed hsig
    exact hd ⟨hb, pid0, proc0, hproc0, hfatal⟩

/-! ## Runs -/

theorem kInv_new : KInv (Threads.World.new : State) := by
  refine ⟨⟨Threads.tInv_new, List.nodup_nil, ?_, ?_, ?_, ?_⟩, ?_⟩
  · intro t ht
    cases ht
  · intro t hc
    cases hc
  · intro p l hl
    cases hl
  · intro p l t hl
    cases hl
  · intro t p l hc
    cases hc

theorem dispatch_spec {context : LocalContext} {tm : Manager} (h : KInv s) (hc : s.tm.current = none)
    (hok : s.tm.findNext = .ok (some context, tm)) : KInv ⟨tm, s.usedPids, s.usedTids⟩ := by
  have hi := h.inv.step (Threads.Step.findNext hok)
  obtain ⟨queue, ⟨-, hnone⟩ | ⟨id, task, hq, -, -, rfl⟩⟩ := Threads.findNext_ok hok
  · cases hnone
  · have hqueues := h.queues
    rw [hq, hc] at hqueues
    obtain ⟨hqueues', ha⟩ := hqueues.dispatch
    exact ⟨⟨hi, hqueues'⟩, ha⟩

/-- The first ready thread is live, so `find_next` returns it. -/
theorem findNext_none {tm : Manager} (h : KInv s) (hok : s.tm.findNext = .ok (none, tm)) :
    s.tm.manager.readyQueue = [] := by
  cases hq : s.tm.manager.readyQueue with
  | nil => rfl
  | cons id queue =>
    have hlive : (s.tm.manager.tasks id).isSome = true := by
      rw [h.inv.tasks]
      exact h.queues.live (by rw [hq]; exact List.mem_cons_self)
    obtain ⟨task, ht⟩ := Option.isSome_iff_exists.mp hlive
    simp only [PThreadManager.findNext, FifoManager.fetch, FifoManager.getMut, hq, List.head?_cons, bind, Except.bind,
      ht, Except.ok.injEq, Prod.mk.injEq, reduceCtorEq, false_and] at hok

theorem KInv.step {e : Event} {s' : State} (h : KInv s) (hs : Step s e s') (hd : ¬ Doomed s e) : KInv s' := by
  cases hs with
  | boot hadd => exact (kInv_new.addProc List.not_mem_nil (by decide) List.not_mem_nil (.inl rfl) rfl hadd).1
  | dispatch hc hf => exact dispatch_spec h hc hf
  | trap hf hok => exact trap_spec h hf hd hok
  | fault hc hexit =>
    obtain ⟨t, hc⟩ := Option.isSome_iff_exists.mp hc
    exact h.exit hc hexit

theorem kInv_run {es : List Event} (h : Exec (fun s e s' => Step s e s' ∧ ¬ Doomed s e) Threads.World.new es s) :
    KInv s :=
  h.inv (P := fun _ s => KInv s) kInv_new fun h hs => h.step hs.1 hs.2

end

/-- In every run of the kernel in which no thread is ended by a signal in the trap of a call
    of its own that blocks: ready threads are live, ready once, not running and not waiting,
    waiting threads are live, and the kernel stops only when no thread is ready. -/
theorem ready_queue_sound {es : List Event} {s : State}
    (h : Exec (fun s e s' => Step s e s' ∧ ¬ Doomed s e) Threads.World.new es s) :
    s.tm.manager.readyQueue.Nodup ∧
    (∀ t ∈ s.tm.manager.readyQueue, (s.tm.manager.tasks t).isSome = true ∧ s.tm.current ≠ some t ∧
      ∀ pid proc, s.tm.procManager.procs pid = some proc → t ∉ proc.waiting) ∧
    (∀ pid proc t, s.tm.procManager.procs pid = some proc → t ∈ proc.waiting →
      (s.tm.manager.tasks t).isSome = true) ∧
    ∀ tm, s.tm.findNext = .ok (none, tm) → s.tm.manager.readyQueue = [] := by
  have hk := kInv_run h
  refine ⟨hk.queues.nodup, ?_, ?_, fun tm hf => findNext_none hk hf⟩
  · intro t ht
    refine ⟨(hk.inv.tasks t).mpr (hk.queues.live ht), fun hc => hk.queues.apart hc ht, ?_⟩
    intro pid proc hp hw
    exact (hk.queues.mine (waitsOf_some hp) hw).2 ht
  · intro pid proc t hp hw
    rw [hk.inv.tasks, (hk.queues.mine (waitsOf_some hp) hw).1]
    rfl

/-- No signal is pending in the process of the current thread. -/
def calm (s : State) : Bool :=
  match Manager.getCurrentProc s.tm with
  | .ok (_, proc) => (proc.signal.received.findFirstOne proc.signal.mask).isNone
  | .error _ => true

theorem not_doomed_of_calm {s : State} {call : Syscall} (h : calm s = true) : ¬ Doomed s (.trap call) := by
  rintro ⟨_, pid, proc, hproc, _, signal, hsignal, _⟩
  simp [calm, hproc, hsignal] at h

/-- Thread 1 waits for the mutex that thread 0 holds. -/
theorem ready_queue_sound_waiting : ∃ es s,
    Exec (fun s e s' => Step s e s' ∧ ¬ Doomed s e) Threads.World.new es s ∧
    s.tm.manager.readyQueue = [0] ∧ (s.tm.procManager.procs 0).map Process.waiting = some [1] ∧
    (s.tm.manager.tasks 0).isSome = true ∧ (s.tm.manager.tasks 1).isSome = true := by
  have hplay : (play (fun s call => decide (Fresh s call) && calm s)
      [.mutexCreate true, .mutexLock 0, .threadCreate 1 (.user 0), .mutexLock 0]).map
      (fun s => (s.tm.manager.readyQueue, (s.tm.procManager.procs 0).map Process.waiting)) = .ok ([0], some [1]) := by
    rfl
  obtain ⟨s, hplay, hs⟩ := map_eq_ok hplay
  simp only [Prod.mk.injEq] at hs
  obtain ⟨hready, hwaits⟩ := hs
  have hrun : ∃ es, Exec (fun s e s' => Step s e s' ∧ ¬ Doomed s e) Threads.World.new es s := by
    refine play_exec (by simp [Doomed]) (by simp [Doomed]) ?_ hplay
    intro s call hcheck
    rw [Bool.and_eq_true, decide_eq_true_eq] at hcheck
    exact ⟨hcheck.1, not_doomed_of_calm hcheck.2⟩
  obtain ⟨es, hrun⟩ := hrun
  obtain ⟨-, hlive, hwaiting, -⟩ := ready_queue_sound hrun
  obtain ⟨proc, hp, hw⟩ := Option.map_eq_some_iff.mp hwaits
  refine ⟨es, s, hrun, hready, hwaits, (hlive 0 (by rw [hready]; decide)).1, ?_⟩
  exact hwaiting 0 proc 1 hp (by rw [hw]; decide)

/-- Process 0 makes process 1 and kills it while thread 1 holds a mutex that thread 2 is about
    to lock. Thread 2 ends in the trap of its lock, still queued; the unlock of thread 1 makes
    it ready. `find_next` meets it and gives up, while threads 1 and 0 are ready. -/
theorem dead_thread_ready : ∃ es s, Exec Step Threads.World.new es s ∧
    s.tm.manager.readyQueue = [2, 1, 0] ∧ (s.tm.manager.tasks 2).isSome = false ∧
    (s.tm.manager.tasks 1).isSome = true ∧ (s.tm.manager.tasks 0).isSome = true ∧
    ∃ tm, s.tm.findNext = .ok (none, tm) := by
  have hplay : (play (fun s call => decide (Fresh s call)) [.fork 1 1, .mutexCreate true, .other 0, .mutexLock 0,
      .other 0, .threadCreate 2 (.user 0), .kill 1 9, .mutexLock 0, .mutexUnlock 0, .other 0]).map
      (fun s => (s.tm.manager.readyQueue, (s.tm.manager.tasks 2).isSome, (s.tm.manager.tasks 1).isSome,
        (s.tm.manager.tasks 0).isSome, s.tm.findNext.map fun x => x.1.isSome)) =
      .ok ([2, 1, 0], false, true, true, .ok false) := by
    rfl
  obtain ⟨s, hplay, hs⟩ := map_eq_ok hplay
  simp only [Prod.mk.injEq] at hs
  obtain ⟨hready, h2, h1, h0, hnext⟩ := hs
  have hrun : ∃ es, Exec (fun s e s' => Step s e s' ∧ True) Threads.World.new es s :=
    play_exec (P := fun _ _ => True) trivial (fun _ => trivial) (fun h => ⟨of_decide_eq_true h, trivial⟩) hplay
  obtain ⟨es, hrun⟩ := hrun
  simp only [and_true] at hrun
  obtain ⟨⟨next, tm⟩, hnext, hnone⟩ := map_eq_ok hnext
  have hnone : next = none := by simpa using hnone
  exact ⟨es, s, hrun, hready, h2, h1, h0, tm, by rw [hnext, hnone]⟩

end TgRcore.Kernel
