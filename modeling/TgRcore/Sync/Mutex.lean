/-
  TgRcore.Sync.Mutex — the blocking mutex (`mutex.rs`).

  `unlock` leaves `locked` set when it hands the lock to a waiter. Who holds the lock is
  not in the mutex: it is kept beside it (`World.holders`), as the calls and what they
  returned say.
  - `MutexInv`: the lock state against its holders; every allowed call keeps it.
  - `mutex_exclusion`: over every run there is at most one holder, the queue has every
    waiter once, waiters get the lock in the order of their calls, and `unlock` does not
    fail.
-/

import Mathlib.Data.List.Nodup
import TgRcore.Lib.BlockProg
import TgRcore.Lib.Exec

namespace TgRcore.Sync

open TgRcore.BlockProg

abbrev ThreadId := Nat

structure MutexBlocking where
  locked : Bool
  waitQueue : List ThreadId
  deriving DecidableEq, Repr

namespace MutexBlocking

def new : MutexBlocking := ⟨false, []⟩

/-- `false`: the thread is queued and has to be blocked. -/
def lock (m : MutexBlocking) (tid : ThreadId) : Bool × MutexBlocking :=
  if m.locked then (false, { m with waitQueue := m.waitQueue ++ [tid] })
  else (true, { m with locked := true })

/-- The thread to wake, which has the lock now. -/
def unlock (m : MutexBlocking) : Except Halt (Option ThreadId × MutexBlocking) :=
  if m.locked then
    match m.waitQueue with
    | wakingTask :: queue => .ok (some wakingTask, { m with waitQueue := queue })
    | [] => .ok (none, { m with locked := false })
  else .error .panic

end MutexBlocking

section

variable {m m' : MutexBlocking} {tid next : ThreadId}

theorem lock_eq_true (h : m.lock tid = (true, m')) : m.locked = false ∧ m' = { m with locked := true } := by
  unfold MutexBlocking.lock at h
  split at h
  · cases h
  · rename_i hl
    cases h
    exact ⟨by simpa using hl, rfl⟩

theorem lock_eq_false (h : m.lock tid = (false, m')) :
    m.locked = true ∧ m' = { m with waitQueue := m.waitQueue ++ [tid] } := by
  unfold MutexBlocking.lock at h
  split at h
  · rename_i hl
    cases h
    exact ⟨hl, rfl⟩
  · cases h

theorem unlock_eq_none (h : m.unlock = .ok (none, m')) :
    m.locked = true ∧ m.waitQueue = [] ∧ m' = { m with locked := false } := by
  unfold MutexBlocking.unlock at h
  split at h
  · rename_i hl
    split at h
    · cases h
    · rename_i hq
      cases h
      exact ⟨hl, hq, rfl⟩
  · cases h

theorem unlock_eq_some (h : m.unlock = .ok (some next, m')) :
    m.locked = true ∧ m.waitQueue = next :: m'.waitQueue ∧ m'.locked = true := by
  unfold MutexBlocking.unlock at h
  split at h
  · rename_i hl
    split at h
    · rename_i hq
      cases h
      exact ⟨hl, hq, hl⟩
    · cases h
  · cases h

/-- A locked mutex can be unlocked. -/
theorem unlock_of_locked (h : m.locked = true) : ∃ r, m.unlock = .ok r := by
  unfold MutexBlocking.unlock
  rw [if_pos h]
  split
  · exact ⟨_, rfl⟩
  · exact ⟨_, rfl⟩

end

/-! ## Who holds the lock -/

/-- The mutex, the threads that hold it, and the threads whose `lock` returned `false` and
    that have not been woken. -/
structure World where
  mutex : MutexBlocking
  holders : List ThreadId
  blocked : List ThreadId

inductive Event where
  | lock (tid : ThreadId) (ret : Bool)
  | unlock (tid : ThreadId) (woken : Option ThreadId)

/-- A thread that waits makes no call, and only a holder unlocks. -/
inductive Step : World → Event → World → Prop
  | acquire {w : World} {tid : ThreadId} {m : MutexBlocking} : tid ∉ w.blocked → w.mutex.lock tid = (true, m) →
      Step w (.lock tid true) ⟨m, tid :: w.holders, w.blocked⟩
  | wait {w : World} {tid : ThreadId} {m : MutexBlocking} : tid ∉ w.blocked → w.mutex.lock tid = (false, m) →
      Step w (.lock tid false) ⟨m, w.holders, tid :: w.blocked⟩
  | release {w : World} {tid : ThreadId} {m : MutexBlocking} : tid ∈ w.holders → tid ∉ w.blocked →
      w.mutex.unlock = .ok (none, m) → Step w (.unlock tid none) ⟨m, w.holders.erase tid, w.blocked⟩
  | handOff {w : World} {tid next : ThreadId} {m : MutexBlocking} : tid ∈ w.holders → tid ∉ w.blocked →
      w.mutex.unlock = .ok (some next, m) →
      Step w (.unlock tid (some next)) ⟨m, next :: w.holders.erase tid, w.blocked.erase next⟩

def World.new : World := ⟨.new, [], []⟩

/-- The threads that had to wait, in the order of their calls. -/
def waits (es : List Event) : List ThreadId :=
  es.filterMap fun
    | .lock tid false => some tid
    | _ => none

/-- The threads that were handed the lock, in order. -/
def wakes (es : List Event) : List ThreadId :=
  es.filterMap fun
    | .unlock _ woken => woken
    | _ => none

/-! ## The invariant -/

structure MutexInv (es : List Event) (w : World) : Prop where
  one : w.holders.length ≤ 1
  locked : w.mutex.locked = true ↔ w.holders ≠ []
  idle : w.mutex.locked = false → w.mutex.waitQueue = []
  nodup : w.mutex.waitQueue.Nodup
  queued : ∀ t, t ∈ w.mutex.waitQueue ↔ t ∈ w.blocked
  once : w.blocked.Nodup
  fifo : waits es = wakes es ++ w.mutex.waitQueue

theorem mutexInv_new : MutexInv [] World.new := by
  refine ⟨by decide, ?_, fun _ => rfl, List.nodup_nil, ?_, List.nodup_nil, rfl⟩
  · simp [World.new, MutexBlocking.new]
  · simp [World.new, MutexBlocking.new]

section

variable {es : List Event} {w w' : World} {e : Event} {tid : ThreadId}

/-- A holder is the only one. -/
theorem MutexInv.holders_eq (h : MutexInv es w) (ht : tid ∈ w.holders) : w.holders = [tid] := by
  have h1 := h.one
  rcases hh : w.holders with _ | ⟨a, l⟩
  · rw [hh] at ht
    cases ht
  · rw [hh] at ht h1
    have hl : l = [] := List.eq_nil_of_length_eq_zero (by rw [List.length_cons] at h1; omega)
    subst hl
    rw [List.mem_singleton.mp ht]

theorem MutexInv.step (h : MutexInv es w) (hs : Step w e w') : MutexInv (es ++ [e]) w' := by
  cases hs with
  | acquire hb hl =>
    obtain ⟨hfree, rfl⟩ := lock_eq_true hl
    have hnone : w.holders = [] := by
      by_contra hne
      rw [h.locked.mpr hne] at hfree
      cases hfree
    refine ⟨by simp [hnone], by simp, by simp, h.nodup, h.queued, h.once, ?_⟩
    simpa [waits, wakes] using h.fifo
  | @wait tid _ hb hl =>
    obtain ⟨hlocked, rfl⟩ := lock_eq_false hl
    have hq : tid ∉ w.mutex.waitQueue := fun hm => hb ((h.queued tid).mp hm)
    refine ⟨h.one, h.locked, fun hf => ?_, ?_, ?_, List.nodup_cons.mpr ⟨hb, h.once⟩, ?_⟩
    · rw [show w.mutex.locked = false from hf] at hlocked
      cases hlocked
    · exact List.nodup_append.mpr ⟨h.nodup, List.nodup_singleton tid, by
        intro a ha b hb' e
        rw [List.mem_singleton.mp hb'] at e
        exact hq (e ▸ ha)⟩
    · intro t
      simp [h.queued t, or_comm]
    · have := h.fifo
      simp only [waits, wakes] at this
      simp [waits, wakes, this]
  | release ht hb hu =>
    obtain ⟨hlocked, hq, rfl⟩ := unlock_eq_none hu
    have hone := h.holders_eq ht
    refine ⟨by simp [hone], by simp [hone], fun _ => hq, h.nodup, h.queued, h.once, ?_⟩
    simpa [waits, wakes] using h.fifo
  | @handOff tid next m ht hb hu =>
    obtain ⟨hlocked, hq, hm⟩ := unlock_eq_some hu
    have hone := h.holders_eq ht
    have hn := h.nodup
    rw [hq, List.nodup_cons] at hn
    refine ⟨by simp [hone], by simp [hm], fun hf => ?_, hn.2, ?_, h.once.erase next, ?_⟩
    · rw [show m.locked = false from hf] at hm
      cases hm
    · intro t
      have hin := h.queued t
      rw [hq, List.mem_cons] at hin
      constructor
      · intro htm
        have hne : t ≠ next := by
          intro e
          exact hn.1 (e ▸ htm)
        exact (List.mem_erase_of_ne hne).mpr (hin.mp (.inr htm))
      · intro hte
        obtain ⟨hne, hmem⟩ := (h.once.mem_erase_iff).mp hte
        exact (hin.mpr hmem).resolve_left hne
    · have := h.fifo
      rw [hq] at this
      simp only [waits, wakes] at this
      simp [waits, wakes, this]

end

/-- Mutual exclusion and hand-off over every run. -/
theorem mutex_exclusion {es : List Event} {w : World} (h : Exec Step World.new es w) :
    w.holders.length ≤ 1 ∧ (w.mutex.locked = true ↔ w.holders ≠ []) ∧
      (w.mutex.waitQueue ≠ [] → w.mutex.locked = true) ∧
      (w.mutex.waitQueue.Nodup ∧ ∀ t, t ∈ w.mutex.waitQueue ↔ t ∈ w.blocked) ∧
      waits es = wakes es ++ w.mutex.waitQueue ∧
      ∀ t ∈ w.holders, t ∉ w.blocked → ∃ r, w.mutex.unlock = .ok r := by
  have hi : MutexInv es w := h.inv mutexInv_new MutexInv.step
  refine ⟨hi.one, hi.locked, ?_, ⟨hi.nodup, hi.queued⟩, hi.fifo, ?_⟩
  · intro hq
    by_contra hl
    exact hq (hi.idle (by simpa using hl))
  · intro t ht _
    exact unlock_of_locked (hi.locked.mpr (List.ne_nil_of_mem ht))

/-- Thread 1 locks, thread 2 waits, and gets the lock when 1 unlocks. -/
theorem mutex_exclusion_two : ∃ w, Exec Step World.new [.lock 1 true, .lock 2 false, .unlock 1 (some 2)] w ∧
    w.holders = [2] ∧ w.holders.length ≤ 1 ∧ w.mutex.locked = true := by
  have h1 : Exec Step World.new [.lock 1 true] _ := .single (.acquire (by decide) rfl)
  have h2 := h1.snoc (Step.wait (show 2 ∉ [] by decide) rfl)
  have h3 := h2.snoc (Step.handOff (show 1 ∈ [1] by decide) (by decide) rfl)
  obtain ⟨hone, hl, -⟩ := mutex_exclusion h3
  exact ⟨_, h3, rfl, hone, hl.mpr (by decide)⟩

end TgRcore.Sync
