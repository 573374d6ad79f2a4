/-
  TgRcore.Sync.Condvar — condition variables (`condvar.rs`) as `condvar_wait` and
  `condvar_signal` use them.

  `wait_with_mutex` is a simplification: it hands the mutex to the first thread queued on it
  and queues the caller on the mutex again; the queue of the condition variable is not used.
  - `condvar_hand_off`: what the calls do over every run of the threads of a process.
  - `condvar_wait_simplified`: a waiter is made ready without a signal, and without a thread
    to hand the mutex to the call panics.
-/

import TgRcore.Sync.Mutex

namespace TgRcore.Sync

open TgRcore.BlockProg

structure Condvar where
  waitQueue : List ThreadId
  deriving DecidableEq, Repr

namespace Condvar

def new : Condvar := ⟨[]⟩

def signal (c : Condvar) : Option ThreadId × Condvar := (c.waitQueue.head?, ⟨c.waitQueue.tail⟩)

def waitNoSched (c : Condvar) (tid : ThreadId) : Bool × Condvar := (false, ⟨c.waitQueue ++ [tid]⟩)

/-- Whether the caller has the mutex again, and the thread to wake. -/
def waitWithMutex (_ : Condvar) (tid : ThreadId) (mutex : MutexBlocking) :
    Except Halt ((Bool × ThreadId) × MutexBlocking) := do
  let (waking, mutex) ← mutex.unlock
  match waking with
  | none => .error .panic
  | some wakingTid =>
    let (flag, mutex) := mutex.lock tid
    .ok ((flag, wakingTid), mutex)

/-! ## The threads of a process -/

/-- Mutexes and condition variables by number, the threads that hold each mutex, and the
    threads that are blocked. -/
structure World where
  mutex : Nat → MutexBlocking
  condvar : Nat → Condvar
  holders : Nat → List ThreadId
  blocked : List ThreadId

def World.new : World := ⟨fun _ => .new, fun _ => .new, fun _ => [], []⟩

inductive Event where
  | lock (mutexId : Nat) (tid : ThreadId) (ret : Bool)
  | unlock (mutexId : Nat) (tid : ThreadId) (woken : Option ThreadId)
  | wait (condvarId mutexId : Nat) (tid : ThreadId) (flag : Bool) (waking : ThreadId)
  | signal (condvarId : Nat) (tid : ThreadId) (woken : Option ThreadId)

/-- Blocked threads make no call; `unlock` and `wait` are called by a holder. A call that
    returns -1 blocks its thread, a thread that is returned is made ready. -/
inductive Step : World → Event → World → Prop
  | lock {w : World} {n : Nat} {tid : ThreadId} {ret : Bool} {m : MutexBlocking} : tid ∉ w.blocked →
      (w.mutex n).lock tid = (ret, m) →
      Step w (.lock n tid ret) { w with
        mutex := Function.update w.mutex n m
        holders := Function.update w.holders n (if ret then tid :: w.holders n else w.holders n)
        blocked := if ret then w.blocked else tid :: w.blocked }
  | unlock {w : World} {n : Nat} {tid : ThreadId} {woken : Option ThreadId} {m : MutexBlocking} : tid ∈ w.holders n →
      tid ∉ w.blocked → (w.mutex n).unlock = .ok (woken, m) →
      Step w (.unlock n tid woken) { w with
        mutex := Function.update w.mutex n m
        holders := Function.update w.holders n (woken.toList ++ (w.holders n).erase tid)
        blocked := w.blocked.filter fun t => some t != woken }
  | wait {w : World} {c n : Nat} {tid waking : ThreadId} {flag : Bool} {m : MutexBlocking} : tid ∈ w.holders n →
      tid ∉ w.blocked → (w.condvar c).waitWithMutex tid (w.mutex n) = .ok ((flag, waking), m) →
      Step w (.wait c n tid flag waking) { w with
        mutex := Function.update w.mutex n m
        holders := Function.update w.holders n
          (if flag then tid :: waking :: (w.holders n).erase tid else waking :: (w.holders n).erase tid)
        blocked := (if flag then w.blocked else tid :: w.blocked).filter fun t => t != waking }
  | signal {w : World} {c : Nat} {tid : ThreadId} : tid ∉ w.blocked →
      Step w (.signal c tid (w.condvar c).signal.1) { w with
        condvar := Function.update w.condvar c (w.condvar c).signal.2
        blocked := w.blocked.filter fun t => some t != (w.condvar c).signal.1 }

/-- What the calls were for mutex `n`. -/
def forMutex (n : Nat) (es : List Event) : List Sync.Event :=
  es.flatMap fun
    | .lock k tid ret => if k = n then [.lock tid ret] else []
    | .unlock k tid woken => if k = n then [.unlock tid woken] else []
    | .wait _ k tid flag waking => if k = n then [.unlock tid (some waking), .lock tid flag] else []
    | .signal _ _ _ => []

/-! ## The invariant -/

/-- Every mutex as alone; a blocked thread is queued on one mutex; no thread is queued on a
    condition variable. -/
structure CondInv (es : List Event) (w : World) : Prop where
  mutex : ∀ n, MutexInv (forMutex n es) ⟨w.mutex n, w.holders n, (w.mutex n).waitQueue⟩
  blocked : ∀ t, t ∈ w.blocked ↔ ∃ n, t ∈ (w.mutex n).waitQueue
  unique : ∀ {n k t}, t ∈ (w.mutex n).waitQueue → t ∈ (w.mutex k).waitQueue → n = k
  unused : ∀ c, (w.condvar c).waitQueue = []

theorem condInv_new : CondInv [] World.new := by
  refine ⟨fun n => mutexInv_new, ?_, ?_, fun c => rfl⟩
  · intro t
    simp [World.new, MutexBlocking.new]
  · intro n k t h
    cases h

section

variable {es : List Event} {w w' : World} {e : Event} {m : MutexBlocking} {n c : Nat} {tid next : ThreadId}

/-- The queue says who waits for a mutex. -/
theorem requeue {es : List Sync.Event} {w : Sync.World} (h : MutexInv es w) :
    MutexInv es ⟨w.mutex, w.holders, w.mutex.waitQueue⟩ :=
  ⟨h.one, h.locked, h.idle, h.nodup, fun _ => Iff.rfl, h.nodup, h.fifo⟩

theorem forMutex_snoc : forMutex n (es ++ [e]) = forMutex n es ++ forMutex n [e] := by
  simp [forMutex]

/-- One mutex changes: it is fine by itself, and its queue has no thread of another queue. -/
theorem CondInv.update (h : CondInv es w) {hs b : List ThreadId}
    (hm : MutexInv (forMutex n es ++ forMutex n [e]) ⟨m, hs, m.waitQueue⟩)
    (hother : ∀ k ≠ n, forMutex k [e] = []) (hnew : ∀ t ∈ m.waitQueue, ∀ k ≠ n, t ∉ (w.mutex k).waitQueue)
    (hb : ∀ t, t ∈ b ↔ t ∈ m.waitQueue ∨ ∃ k ≠ n, t ∈ (w.mutex k).waitQueue) :
    CondInv (es ++ [e]) { w with
      mutex := Function.update w.mutex n m, holders := Function.update w.holders n hs, blocked := b } := by
  refine ⟨?_, ?_, ?_, h.unused⟩
  · intro k
    rw [forMutex_snoc]
    by_cases hk : k = n
    · subst hk
      simpa using hm
    · rw [hother k hk, List.append_nil]
      simpa [Function.update_of_ne hk] using h.mutex k
  · intro t
    rw [hb t]
    constructor
    · intro ht
      rcases ht with ht | ⟨k, hk, ht⟩
      · exact ⟨n, by simpa using ht⟩
      · exact ⟨k, by simpa [Function.update_of_ne hk] using ht⟩
    · rintro ⟨k, ht⟩
      by_cases hk : k = n
      · subst hk
        exact .inl (by simpa using ht)
      · exact .inr ⟨k, hk, by simpa [Function.update_of_ne hk] using ht⟩
  · intro i j t hi hj
    by_cases hin : i = n
    · by_cases hjn : j = n
      · rw [hin, hjn]
      · subst hin
        simp only [Function.update_self] at hi
        simp only [Function.update_of_ne hjn] at hj
        exact absurd hj (hnew t hi j hjn)
    · by_cases hjn : j = n
      · subst hjn
        simp only [Function.update_self] at hj
        simp only [Function.update_of_ne hin] at hi
        exact absurd hi (hnew t hj i hin)
      · simp only [Function.update_of_ne hin] at hi
        simp only [Function.update_of_ne hjn] at hj
        exact h.unique hi hj

/-- The threads blocked before, by the mutex they wait for. -/
theorem CondInv.blocked_iff (h : CondInv es w) (n : Nat) (t : ThreadId) :
    t ∈ w.blocked ↔ t ∈ (w.mutex n).waitQueue ∨ ∃ k ≠ n, t ∈ (w.mutex k).waitQueue := by
  rw [h.blocked t]
  constructor
  · rintro ⟨k, hk⟩
    by_cases e : k = n
    · exact .inl (e ▸ hk)
    · exact .inr ⟨k, e, hk⟩
  · intro ht
    rcases ht with ht | ⟨k, -, ht⟩
    · exact ⟨n, ht⟩
    · exact ⟨k, ht⟩

/-- A thread that runs is queued nowhere. -/
theorem CondInv.not_queued (h : CondInv es w) (ht : tid ∉ w.blocked) (n : Nat) : tid ∉ (w.mutex n).waitQueue :=
  fun hq => ht ((h.blocked tid).mpr ⟨n, hq⟩)

theorem mem_of_unlock {t : ThreadId} {m m' : MutexBlocking} (hu : m.unlock = .ok (some next, m'))
    (ht : t ∈ m'.waitQueue) : t ∈ m.waitQueue := by
  rw [(unlock_eq_some hu).2.1]
  exact List.mem_cons_of_mem _ ht

/-- The thread that is handed mutex `n` waits for no mutex any more. -/
theorem CondInv.unblocked (h : CondInv es w) (hu : (w.mutex n).unlock = .ok (some next, m)) (t : ThreadId) :
    t ∈ w.blocked ∧ t ≠ next ↔ t ∈ m.waitQueue ∨ ∃ k ≠ n, t ∈ (w.mutex k).waitQueue := by
  have hq := (unlock_eq_some hu).2.1
  have hnext : next ∈ (w.mutex n).waitQueue := by
    rw [hq]
    exact List.mem_cons_self
  have hnodup := (h.mutex n).nodup
  simp only [hq, List.nodup_cons] at hnodup
  rw [h.blocked_iff n t, hq, List.mem_cons]
  constructor
  · rintro ⟨ht, hne⟩
    exact ht.imp_left fun hm => hm.resolve_left hne
  · intro ht
    rcases ht with ht | ⟨k, hk, ht⟩
    · refine ⟨.inl (.inr ht), fun e => ?_⟩
      exact hnodup.1 (e ▸ ht)
    · refine ⟨.inr ⟨k, hk, ht⟩, fun e => ?_⟩
      exact hk (h.unique ht (e ▸ hnext))

/-- What `condvar_wait` did when it returned. -/
theorem waitWithMutex_eq {cv : Condvar} {m m' : MutexBlocking} {flag : Bool}
    (h : cv.waitWithMutex tid m = .ok ((flag, next), m')) :
    ∃ m1, m.unlock = .ok (some next, m1) ∧ m1.lock tid = (false, m') ∧ flag = false := by
  unfold waitWithMutex at h
  cases hu : m.unlock with
  | error err =>
    rw [hu] at h
    cases h
  | ok r =>
    obtain ⟨woken, m1⟩ := r
    rw [hu] at h
    cases woken with
    | none => cases h
    | some x =>
      have hl : m1.locked = true := (unlock_eq_some hu).2.2
      have hlock : m1.lock tid = (false, { m1 with waitQueue := m1.waitQueue ++ [tid] }) := by
        unfold MutexBlocking.lock
        rw [if_pos hl]
      simp only [Bind.bind, Except.bind, hlock, Except.ok.injEq, Prod.mk.injEq] at h
      obtain ⟨⟨rfl, rfl⟩, rfl⟩ := h
      exact ⟨m1, rfl, hlock, rfl⟩

theorem CondInv.step (h : CondInv es w) (hs : Step w e w') : CondInv (es ++ [e]) w' := by
  cases hs with
  | @lock n tid ret m hb hl =>
    have hq := h.not_queued hb
    cases ret with
    | true =>
      have hm := requeue ((h.mutex n).step (Sync.Step.acquire (hq n) hl))
      obtain ⟨-, rfl⟩ := lock_eq_true hl
      refine h.update (by simpa [forMutex] using hm) ?_ ?_ (h.blocked_iff n)
      · intro k hk
        simp [forMutex, Ne.symm hk]
      · intro t ht k hk hk'
        exact hk (h.unique hk' ht)
    | false =>
      have hm := requeue ((h.mutex n).step (Sync.Step.wait (hq n) hl))
      obtain ⟨-, rfl⟩ := lock_eq_false hl
      refine h.update (by simpa [forMutex] using hm) ?_ ?_ ?_
      · intro k hk
        simp [forMutex, Ne.symm hk]
      · intro t ht k hk hk'
        rcases List.mem_append.mp ht with ht | ht
        · exact hk (h.unique hk' ht)
        · rw [List.mem_singleton.mp ht] at hk'
          exact hq k hk'
      · intro t
        have := h.blocked_iff n t
        simp only [Bool.false_eq_true, if_false, List.mem_cons, List.mem_append, List.not_mem_nil, or_false, this]
        tauto
  | @unlock n tid woken m ht hb hu =>
    have hq := h.not_queued hb
    cases woken with
    | none =>
      have hm := requeue ((h.mutex n).step (Sync.Step.release ht (hq n) hu))
      obtain ⟨-, -, rfl⟩ := unlock_eq_none hu
      refine h.update (by simpa [forMutex] using hm) ?_ ?_ ?_
      · intro k hk
        simp [forMutex, Ne.symm hk]
      · intro t ht k hk hk'
        exact hk (h.unique hk' ht)
      · intro t
        simpa using h.blocked_iff n t
    | some next =>
      have hm := requeue ((h.mutex n).step (Sync.Step.handOff ht (hq n) hu))
      refine h.update (by simpa [forMutex] using hm) ?_ ?_ ?_
      · intro k hk
        simp [forMutex, Ne.symm hk]
      · intro t ht k hk hk'
        exact hk (h.unique hk' (mem_of_unlock hu ht))
      · intro t
        rw [← h.unblocked hu t]
        simp
  | @wait c n tid next flag m ht hb hw =>
    have hq := h.not_queued hb
    obtain ⟨m1, hu, hl, rfl⟩ := waitWithMutex_eq hw
    have hm1 := requeue ((h.mutex n).step (Sync.Step.handOff ht (hq n) hu))
    have htm : tid ∉ m1.waitQueue := fun hmem => hq n (mem_of_unlock hu hmem)
    have hm := requeue (hm1.step (Sync.Step.wait htm hl))
    obtain ⟨-, rfl⟩ := lock_eq_false hl
    have hne : tid ≠ next := by
      intro e
      exact hq n (e ▸ (unlock_eq_some hu).2.1 ▸ List.mem_cons_self)
    refine h.update (by simpa [forMutex] using hm) ?_ ?_ ?_
    · intro k hk
      simp [forMutex, Ne.symm hk]
    · intro t ht k hk hk'
      rcases List.mem_append.mp ht with ht | ht
      · exact hk (h.unique hk' (mem_of_unlock hu ht))
      · rw [List.mem_singleton.mp ht] at hk'
        exact hq k hk'
    · intro t
      have := h.unblocked hu t
      simp only [Bool.false_eq_true, if_false, List.mem_filter, List.mem_cons, List.mem_append, List.not_mem_nil,
        or_false, bne_iff_ne]
      constructor
      · rintro ⟨hmem, htn⟩
        rcases hmem with rfl | hmem
        · exact .inl (.inr rfl)
        · exact (this.mp ⟨hmem, htn⟩).imp_left .inl
      · intro hmem
        rcases hmem with (hmem | rfl) | hmem
        · exact ⟨.inr (this.mpr (.inl hmem)).1, (this.mpr (.inl hmem)).2⟩
        · exact ⟨.inl rfl, hne⟩
        · exact ⟨.inr (this.mpr (.inr hmem)).1, (this.mpr (.inr hmem)).2⟩
  | @signal c tid hb =>
    have hnone : (w.condvar c).signal = (none, ⟨[]⟩) := by
      simp [signal, h.unused c]
    have hmutex : ∀ n, forMutex n (es ++ [.signal c tid (w.condvar c).signal.1]) = forMutex n es := by
      intro n
      simp [forMutex]
    refine ⟨fun n => hmutex n ▸ h.mutex n, fun t => ?_, h.unique, fun k => ?_⟩
    · simpa [hnone] using h.blocked t
    · by_cases hk : k = c
      · subst hk
        simp [hnone]
      · simpa [Function.update_of_ne hk] using h.unused k

/-- With a thread queued on the mutex, `condvar_wait` returns. -/
theorem waitWithMutex_ok {cv : Condvar} {q : List ThreadId} (hl : m.locked = true) (hq : m.waitQueue = next :: q) :
    cv.waitWithMutex tid m = .ok ((false, next), ⟨true, q ++ [tid]⟩) := by
  obtain ⟨l, wq⟩ := m
  cases hl
  cases hq
  rfl

/-- The call hands mutex `n` to `t`. -/
def Hands : Event → Nat → ThreadId → Prop
  | .unlock k _ woken, n, t => k = n ∧ woken = some t
  | .wait _ k _ _ waking, n, t => k = n ∧ waking = t
  | _, _, _ => False

/-- A queued thread stays queued on its mutex until the mutex is handed to it. -/
theorem CondInv.queued_step (h : CondInv es w) (hs : Step w e w') {t : ThreadId} (ht : t ∈ (w.mutex n).waitQueue) :
    t ∈ (w'.mutex n).waitQueue ∨ Hands e n t ∧ t ∉ w'.blocked ∧ w'.holders n = [t] := by
  have hi := h.step hs
  have hhold : t ∈ w'.holders n → w'.holders n = [t] := (hi.mutex n).holders_eq
  cases hs with
  | @lock k tid ret m hb hl =>
    left
    by_cases hk : n = k
    · subst hk
      cases ret with
      | true =>
        obtain ⟨-, rfl⟩ := lock_eq_true hl
        simpa using ht
      | false =>
        obtain ⟨-, rfl⟩ := lock_eq_false hl
        simp [ht]
    · simpa [Function.update_of_ne hk] using ht
  | @unlock k tid woken m hold hb hu =>
    by_cases hk : n = k
    · subst hk
      cases woken with
      | none =>
        rw [(unlock_eq_none hu).2.1] at ht
        cases ht
      | some next =>
        rw [(unlock_eq_some hu).2.1] at ht
        rcases List.mem_cons.mp ht with rfl | ht
        · exact .inr ⟨⟨rfl, rfl⟩, by simp, hhold (by simp)⟩
        · exact .inl (by simpa using ht)
    · exact .inl (by simpa [Function.update_of_ne hk] using ht)
  | @wait c k tid next flag m hold hb hw =>
    by_cases hk : n = k
    · subst hk
      obtain ⟨m1, hu, hl, rfl⟩ := waitWithMutex_eq hw
      obtain ⟨-, rfl⟩ := lock_eq_false hl
      rw [(unlock_eq_some hu).2.1] at ht
      rcases List.mem_cons.mp ht with rfl | ht
      · exact .inr ⟨⟨rfl, rfl⟩, by simp, hhold (by simp)⟩
      · exact .inl (by simp [ht])
    · exact .inl (by simpa [Function.update_of_ne hk] using ht)
  | signal hb => exact .inl ht

end

/-- `condvar_wait` over every run: the mutex goes to the first thread queued on it and the
    caller waits for the mutex; a thread that waits is made ready by the call that hands the
    mutex to it, in the order of the calls; `condvar_signal` wakes no thread. -/
theorem condvar_hand_off {es : List Event} {w : World} (h : Exec Step World.new es w) :
    (∀ n, (w.holders n).length ≤ 1 ∧ ((w.mutex n).locked = true ↔ w.holders n ≠ []) ∧
      waits (forMutex n es) = wakes (forMutex n es) ++ (w.mutex n).waitQueue) ∧
    (∀ t, t ∈ w.blocked ↔ ∃ n, t ∈ (w.mutex n).waitQueue) ∧
    (∀ c n tid next q, tid ∈ w.holders n → tid ∉ w.blocked → (w.mutex n).waitQueue = next :: q →
      ∃ w', Step w (.wait c n tid false next) w' ∧ w'.holders n = [next] ∧ next ∉ w'.blocked ∧
        (w'.mutex n).waitQueue = q ++ [tid] ∧ tid ∈ w'.blocked) ∧
    (∀ e w' n t, Step w e w' → t ∈ (w.mutex n).waitQueue →
      t ∈ (w'.mutex n).waitQueue ∨ Hands e n t ∧ t ∉ w'.blocked ∧ w'.holders n = [t]) ∧
    ∀ c, (w.condvar c).signal.1 = none := by
  have hi : CondInv es w := h.inv condInv_new CondInv.step
  refine ⟨?_, hi.blocked, ?_, fun e w' n t hs ht => hi.queued_step hs ht, ?_⟩
  · intro n
    exact ⟨(hi.mutex n).one, (hi.mutex n).locked, (hi.mutex n).fifo⟩
  · intro c n tid next q hold hb hq
    have hl : (w.mutex n).locked = true := (hi.mutex n).locked.mpr (List.ne_nil_of_mem hold)
    have hw : (w.condvar c).waitWithMutex tid (w.mutex n) = _ := waitWithMutex_ok hl hq
    have hs := Step.wait hold hb hw
    have hne : tid ≠ next := by
      intro e
      exact hi.not_queued hb n (e ▸ hq ▸ List.mem_cons_self)
    refine ⟨_, hs, ?_, ?_, ?_, ?_⟩
    · exact ((hi.step hs).mutex n).holders_eq (by simp)
    · simp
    · simp
    · simpa using hne
  · intro c
    simp [signal, hi.unused c]

/-- Thread 1 has mutex 0 and thread 2 is queued on it. -/
theorem locked_run : ∃ w, Exec Step World.new [.lock 0 1 true, .lock 0 2 false] w ∧ w.holders 0 = [1] ∧
    w.blocked = [2] ∧ w.mutex 0 = ⟨true, [2]⟩ := by
  have h1 : Exec Step World.new [.lock 0 1 true] _ := .single (.lock (by decide) rfl)
  have h2 : Exec Step World.new [.lock 0 1 true, .lock 0 2 false] _ := h1.snoc (.lock (by decide) rfl)
  exact ⟨_, h2, rfl, rfl, rfl⟩

theorem condvar_hand_off_two : ∃ w, Exec Step World.new [.lock 0 1 true, .lock 0 2 false] w ∧
    ∃ w', Step w (.wait 0 0 1 false 2) w' ∧ w'.holders 0 = [2] ∧ (w'.mutex 0).waitQueue = [1] := by
  obtain ⟨w, hrun, hold, hb, hm⟩ := locked_run
  obtain ⟨-, -, hwait, -⟩ := condvar_hand_off hrun
  obtain ⟨w', hs, hh, -, hq, -⟩ := hwait 0 0 1 2 [] (by simp [hold]) (by simp [hb]) (by simp [hm])
  exact ⟨w, hrun, w', hs, hh, hq⟩

/-- A holder's `condvar_wait` panics when no thread is queued on the mutex; and thread 1, which
    waits on condition variable 0, is made ready in a run without a signal. -/
theorem condvar_wait_simplified :
    (∃ w, Exec Step World.new [.lock 0 1 true] w ∧ 1 ∈ w.holders 0 ∧ 1 ∉ w.blocked ∧
      (w.condvar 0).waitWithMutex 1 (w.mutex 0) = .error .panic) ∧
    ∃ w w', Exec Step World.new [.lock 0 1 true, .lock 0 2 false, .wait 0 0 1 false 2] w ∧ 1 ∈ w.blocked ∧
      Step w (.unlock 0 2 (some 1)) w' ∧ 1 ∉ w'.blocked := by
  have h1 : Exec Step World.new [.lock 0 1 true] _ := .single (.lock (by decide) rfl)
  refine ⟨⟨_, h1, by decide, by decide, rfl⟩, ?_⟩
  obtain ⟨w, hrun, hold, hb, hm⟩ := locked_run
  have hw : (w.condvar 0).waitWithMutex 1 (w.mutex 0) = .ok ((false, 2), ⟨true, [1]⟩) := by
    rw [hm]
    rfl
  have hs := Step.wait (by simp [hold]) (by simp [hb]) hw
  refine ⟨_, _, hrun.snoc hs, by simp, .unlock (by simp) ?_ (by simp [MutexBlocking.unlock]; rfl), by simp⟩
  simp [hb]

end Condvar

end TgRcore.Sync
