/-
  TgRcore.Lib.BlockProg — programs that work on a device of blocks through locked
  handles, and their meaning over a flat array of blocks.

  A program (`Prog`) locks a block (and sees its contents), drops the lock, leaving
  the block as it was or with new contents, takes and leaves one outer mutex, and asks
  for a write-back of everything. A lock that the program holds itself is never
  granted (`Halt.deadlock`); a block past the end of the device, a failed assertion or
  more locks than the store can pin stop the program (`Halt.panic`).

  `run` is the flat meaning: no cache, no write-back, one current contents a block.
  - `run_bind`, `run_bind_ok`: programs compose; what a sequence did is what its parts
    did.
  - `run_readBlock`, `run_modifyBlock`: the meaning of a scoped access from the meaning
    of its body.
  - `run_grow`: a program that returned does the same on a larger device.
  - `ReadOnly.run_eq`: a program made of reads leaves the store as it was.
-/

import Mathlib.Tactic

namespace TgRcore.BlockProg

/-- Why a program does not return: an assertion, a lock that it holds itself, or an allocation
    that failed. -/
inductive Halt where
  | panic
  | deadlock
  | memory
  deriving DecidableEq, Repr

inductive Prog (B α : Type) where
  | ret (a : α)
  | panic
  /-- Lock block `b` and go on with its contents. -/
  | lock (b : Nat) (k : B → Prog B α)
  /-- Drop the lock of `b`; `some x`: its contents were borrowed mutably and are now `x`. -/
  | unlock (b : Nat) (w : Option B) (k : Prog B α)
  /-- Take the outer mutex. -/
  | enter (k : Prog B α)
  | leave (k : Prog B α)
  /-- Write every block back. -/
  | syncAll (k : Prog B α)

namespace Prog

variable {B α β γ : Type}

def bind : Prog B α → (α → Prog B β) → Prog B β
  | ret a, f => f a
  | panic, _ => panic
  | lock b k, f => lock b fun x => (k x).bind f
  | unlock b w k, f => unlock b w (k.bind f)
  | enter k, f => enter (k.bind f)
  | leave k, f => leave (k.bind f)
  | syncAll k, f => syncAll (k.bind f)

instance : Monad (Prog B) where
  pure := ret
  bind := bind

@[simp] theorem pure_eq_ret (a : α) : (pure a : Prog B α) = ret a := rfl
@[simp] theorem ret_bind (a : α) (f : α → Prog B β) : (ret a >>= f : Prog B β) = f a := rfl
@[simp] theorem panic_bind (f : α → Prog B β) : (panic >>= f : Prog B β) = panic := rfl

/-- A failed assertion stops the program. -/
def assert (c : Prop) [Decidable c] : Prog B Unit := if c then ret () else panic

def unwrap : Option α → Prog B α
  | some a => ret a
  | none => panic

/-- `f` runs on the contents of `b`, with `b` locked. -/
def readBlock (b : Nat) (f : B → Prog B α) : Prog B α :=
  lock b fun x => (f x).bind fun v => unlock b none (ret v)

/-- `f` runs on the contents of `b`, with `b` locked, and leaves new contents. -/
def modifyBlock (b : Nat) (f : B → Prog B (α × B)) : Prog B α :=
  lock b fun x => (f x).bind fun r => unlock b (some r.2) (ret r.1)

/-- The outer mutex is held while `p` runs. -/
def withMutex (p : Prog B α) : Prog B α := enter (p.bind fun v => leave (ret v))

def sync : Prog B Unit := syncAll (ret ())

end Prog

/-! ## The flat store -/

structure Store (B : Type) where
  /-- Blocks of the device. -/
  size : Nat
  /-- Blocks that can be pinned at one time. -/
  cap : Nat
  blk : Nat → B
  /-- Blocks locked by the running program. -/
  held : List Nat
  /-- The outer mutex is taken. -/
  busy : Bool

namespace Store

variable {B : Type}

def pin (s : Store B) (b : Nat) : Store B := { s with held := b :: s.held }

/-- The same store with contents `f`. -/
def withBlk (s : Store B) (f : Nat → B) : Store B := { s with blk := f }

def unpin (s : Store B) (b : Nat) (w : Option B) : Store B :=
  if b ∈ s.held then
    { s with
      held := s.held.erase b
      blk := match w with
        | some x => Function.update s.blk b x
        | none => s.blk }
  else s

/-- Block `b` can be locked now. -/
structure Free (s : Store B) (b : Nat) : Prop where
  notHeld : b ∉ s.held
  room : s.held.length < s.cap
  onDevice : b < s.size

@[simp] theorem pin_size (s : Store B) (b : Nat) : (s.pin b).size = s.size := rfl
@[simp] theorem pin_cap (s : Store B) (b : Nat) : (s.pin b).cap = s.cap := rfl
@[simp] theorem pin_blk (s : Store B) (b : Nat) : (s.pin b).blk = s.blk := rfl
@[simp] theorem pin_held (s : Store B) (b : Nat) : (s.pin b).held = b :: s.held := rfl
@[simp] theorem pin_busy (s : Store B) (b : Nat) : (s.pin b).busy = s.busy := rfl
@[simp] theorem withBlk_size (s : Store B) (f : Nat → B) : (s.withBlk f).size = s.size := rfl
@[simp] theorem withBlk_cap (s : Store B) (f : Nat → B) : (s.withBlk f).cap = s.cap := rfl
@[simp] theorem withBlk_blk (s : Store B) (f : Nat → B) : (s.withBlk f).blk = f := rfl
@[simp] theorem withBlk_held (s : Store B) (f : Nat → B) : (s.withBlk f).held = s.held := rfl
@[simp] theorem withBlk_busy (s : Store B) (f : Nat → B) : (s.withBlk f).busy = s.busy := rfl
@[simp] theorem withBlk_withBlk (s : Store B) (f g : Nat → B) : (s.withBlk f).withBlk g = s.withBlk g := rfl
@[simp] theorem withBlk_self (s : Store B) : s.withBlk s.blk = s := rfl

@[simp] theorem unpin_size (s : Store B) (b : Nat) (w : Option B) : (s.unpin b w).size = s.size := by
  unfold unpin; split <;> rfl

@[simp] theorem unpin_cap (s : Store B) (b : Nat) (w : Option B) : (s.unpin b w).cap = s.cap := by
  unfold unpin; split <;> rfl

@[simp] theorem unpin_none_blk (s : Store B) (b : Nat) : (s.unpin b none).blk = s.blk := by
  unfold unpin; split <;> rfl

theorem unpin_resize (s : Store B) (b n : Nat) (w : Option B) :
    ({ s with size := n } : Store B).unpin b w = { s.unpin b w with size := n } := by
  simp only [unpin]
  split <;> rfl

@[simp] theorem unpin_pin_withBlk_none (s : Store B) (b : Nat) (f : Nat → B) :
    ((s.pin b).withBlk f).unpin b none = s.withBlk f := by
  simp [unpin, pin, withBlk]

@[simp] theorem unpin_pin_withBlk_some (s : Store B) (b : Nat) (f : Nat → B) (x : B) :
    ((s.pin b).withBlk f).unpin b (some x) = s.withBlk (Function.update f b x) := by
  simp [unpin, pin, withBlk]

theorem Free.withBlk {s : Store B} {b : Nat} (h : s.Free b) (f : Nat → B) : (s.withBlk f).Free b := ⟨h.1, h.2, h.3⟩

theorem Free.pin {s : Store B} {b c : Nat} (h : s.Free b) (hc : b ≠ c) (hr : s.held.length + 1 < s.cap) :
    (s.pin c).Free b :=
  ⟨by simp [hc, h.notHeld], by simpa using hr, h.onDevice⟩

end Store

/-! ## Running -/

namespace Prog

variable {B α β γ : Type}

def run : Prog B α → Store B → Except Halt (α × Store B)
  | ret a, s => .ok (a, s)
  | panic, _ => .error .panic
  | lock b k, s =>
    if b ∈ s.held then .error .deadlock
    else if s.cap ≤ s.held.length then .error .panic
    else if s.size ≤ b then .error .panic
    else run (k (s.blk b)) (s.pin b)
  | unlock b w k, s => run k (s.unpin b w)
  | enter k, s => if s.busy then .error .deadlock else run k { s with busy := true }
  | leave k, s => run k { s with busy := false }
  | syncAll k, s => if s.held = [] then run k s else .error .deadlock

section

-- one place makes the equations of `run`, which most proofs below rewrite with
attribute [local simp] run

@[simp] theorem run_ret (a : α) (s : Store B) : (ret a : Prog B α).run s = .ok (a, s) := rfl
@[simp] theorem run_panic (s : Store B) : (panic : Prog B α).run s = .error .panic := rfl
@[simp] theorem run_unlock (b : Nat) (w : Option B) (k : Prog B α) (s : Store B) :
    (unlock b w k).run s = k.run (s.unpin b w) := rfl

theorem run_bind (p : Prog B α) (f : α → Prog B β) (s : Store B) :
    (p.bind f).run s = match p.run s with
      | .ok (a, s') => (f a).run s'
      | .error e => .error e := by
  induction p generalizing s with
  | ret a => rfl
  | panic => rfl
  | lock b k ih =>
    simp only [bind, run]
    split
    · rfl
    · split
      · rfl
      · split
        · rfl
        · exact ih _ _
  | unlock b w k ih => exact ih _
  | enter k ih =>
    simp only [bind, run]
    split
    · rfl
    · exact ih _
  | leave k ih => exact ih _
  | syncAll k ih =>
    simp only [bind, run]
    split
    · exact ih _
    · rfl

end

theorem run_do (p : Prog B α) (f : α → Prog B β) (s : Store B) :
    (p >>= f).run s = match p.run s with
      | .ok (a, s') => (f a).run s'
      | .error e => .error e :=
  run_bind p f s

/-- A sequence runs on once its first part has. -/
theorem run_bind_of {p : Prog B α} {f : α → Prog B β} {s s' : Store B} {a : α} (h : p.run s = .ok (a, s')) :
    (p >>= f).run s = (f a).run s' := by
  rw [run_do, h]

/-- What a sequence that returned did, in parts. -/
theorem run_bind_ok {p : Prog B α} {f : α → Prog B β} {s : Store B} {r : β × Store B} :
    (p >>= f).run s = .ok r ↔ ∃ a s', p.run s = .ok (a, s') ∧ (f a).run s' = .ok r := by
  rw [run_do]
  constructor
  · intro h
    split at h
    · rename_i a s' hp
      exact ⟨a, s', hp, h⟩
    · cases h
  · rintro ⟨a, s', hp, hf⟩
    rw [hp]
    exact hf

theorem run_assert_ok {c : Prop} [Decidable c] {s : Store B} {r : Unit × Store B} :
    (assert c : Prog B Unit).run s = .ok r ↔ c ∧ r = ((), s) := by
  unfold assert
  split <;> rename_i h
  · simp [h, eq_comm]
  · simp [h]

theorem run_assert_bind_ok {c : Prop} [Decidable c] {f : Unit → Prog B α} {s : Store B} {r : α × Store B} :
    (assert c >>= f).run s = .ok r ↔ c ∧ (f ()).run s = .ok r := by
  rw [run_bind_ok]
  constructor
  · rintro ⟨u, s', h, hf⟩
    obtain ⟨hc, e⟩ := run_assert_ok.mp h
    cases e
    exact ⟨hc, hf⟩
  · rintro ⟨hc, hf⟩
    exact ⟨(), s, run_assert_ok.mpr ⟨hc, rfl⟩, hf⟩

@[simp] theorem assert_true {c : Prop} [Decidable c] (h : c) : (assert c : Prog B Unit) = ret () := if_pos h

theorem run_lock {b : Nat} {s : Store B} (h : s.Free b) (k : B → Prog B α) :
    (lock b k).run s = (k (s.blk b)).run (s.pin b) := by
  rw [run, if_neg h.notHeld, if_neg (Nat.not_le.mpr h.room), if_neg (Nat.not_le.mpr h.onDevice)]

theorem run_lock_ok {b : Nat} {s : Store B} {k : B → Prog B α} {r : α × Store B} :
    (lock b k).run s = .ok r ↔ s.Free b ∧ (k (s.blk b)).run (s.pin b) = .ok r := by
  constructor
  · intro h
    rw [run] at h
    split at h
    · cases h
    · split at h
      · cases h
      · split at h
        · cases h
        · exact ⟨⟨‹_›, by omega, by omega⟩, h⟩
  · rintro ⟨hf, h⟩
    rw [run_lock hf, h]

/-! ## Scoped accesses -/

theorem run_readBlock {b : Nat} {f : B → Prog B α} {s : Store B} {v : α} {g : Nat → B} (hf : s.Free b)
    (h : (f (s.blk b)).run (s.pin b) = .ok (v, (s.pin b).withBlk g)) :
    (readBlock b f).run s = .ok (v, s.withBlk g) := by
  rw [readBlock, run_lock hf, run_bind, h]
  simp

theorem run_modifyBlock {b : Nat} {f : B → Prog B (α × B)} {s : Store B} {v : α} {x : B} {g : Nat → B}
    (hf : s.Free b) (h : (f (s.blk b)).run (s.pin b) = .ok ((v, x), (s.pin b).withBlk g)) :
    (modifyBlock b f).run s = .ok (v, s.withBlk (Function.update g b x)) := by
  rw [modifyBlock, run_lock hf, run_bind, h]
  simp

/-- Reading a block with a pure body. -/
theorem run_readBlock_ret {b : Nat} (f : B → α) {s : Store B} (hf : s.Free b) :
    (readBlock b fun x => ret (f x)).run s = .ok (f (s.blk b), s) :=
  run_readBlock (g := s.blk) hf rfl

theorem run_modifyBlock_ret {b : Nat} (f : B → α × B) {s : Store B} (hf : s.Free b) :
    (modifyBlock b fun x => ret (f x)).run s =
      .ok ((f (s.blk b)).1, s.withBlk (Function.update s.blk b (f (s.blk b)).2)) :=
  run_modifyBlock (g := s.blk) hf rfl

/-- A body that puts the contents back. -/
theorem run_modifyBlock_same {b : Nat} {f : B → Prog B (α × B)} {s : Store B} {v : α} (hf : s.Free b)
    (h : (f (s.blk b)).run (s.pin b) = .ok ((v, s.blk b), s.pin b)) : (modifyBlock b f).run s = .ok (v, s) := by
  rw [run_modifyBlock (g := s.blk) hf h, Function.update_eq_self]
  rfl

theorem run_readBlock_ok {b : Nat} {f : B → Prog B α} {s : Store B} {r : α × Store B} :
    (readBlock b f).run s = .ok r ↔ s.Free b ∧ ∃ s', (f (s.blk b)).run (s.pin b) = .ok (r.1, s') ∧
      r.2 = s'.unpin b none := by
  rw [readBlock, run_lock_ok]
  refine and_congr_right fun _ => ?_
  rw [show (f (s.blk b)).bind _ = (f (s.blk b)) >>= _ from rfl, run_bind_ok]
  rcases r with ⟨v, t⟩
  constructor
  · rintro ⟨a, s', h1, h2⟩
    simp only [run_unlock, run_ret, Except.ok.injEq, Prod.mk.injEq] at h2
    exact ⟨s', by rw [h1, h2.1], h2.2.symm⟩
  · rintro ⟨s', h1, h2⟩
    exact ⟨v, s', h1, by simp only at h2; simp [h2]⟩

theorem run_modifyBlock_ok {b : Nat} {f : B → Prog B (α × B)} {s : Store B} {r : α × Store B} :
    (modifyBlock b f).run s = .ok r ↔ s.Free b ∧ ∃ x s', (f (s.blk b)).run (s.pin b) = .ok ((r.1, x), s') ∧
      r.2 = s'.unpin b (some x) := by
  rw [modifyBlock, run_lock_ok]
  refine and_congr_right fun _ => ?_
  rw [show (f (s.blk b)).bind _ = (f (s.blk b)) >>= _ from rfl, run_bind_ok]
  rcases r with ⟨v, t⟩
  constructor
  · rintro ⟨⟨a, x⟩, s', h1, h2⟩
    simp only [run_unlock, run_ret, Except.ok.injEq, Prod.mk.injEq] at h2
    exact ⟨x, s', by rw [h1, h2.1], h2.2.symm⟩
  · rintro ⟨x, s', h1, h2⟩
    exact ⟨(v, x), s', h1, by simp only at h2; simp [h2]⟩

theorem run_withMutex {p : Prog B α} {s : Store B} {v : α} {g : Nat → B} (hb : s.busy = false)
    (h : p.run { s with busy := true } = .ok (v, { s with busy := true, blk := g })) :
    (withMutex p).run s = .ok (v, s.withBlk g) := by
  rw [withMutex, run, if_neg (by simp [hb]), run_bind, h]
  simp [run, Store.withBlk, hb]

theorem run_withMutex_ok {p : Prog B α} {s : Store B} {r : α × Store B} :
    (withMutex p).run s = .ok r ↔ s.busy = false ∧ ∃ s', p.run { s with busy := true } = .ok (r.1, s') ∧
      r.2 = { s' with busy := false } := by
  rw [withMutex, run]
  cases hb : s.busy with
  | true => simp
  | false =>
    simp only [Bool.false_eq_true, if_false, true_and]
    rw [show p.bind _ = p >>= _ from rfl, run_bind_ok]
    rcases r with ⟨v, t⟩
    constructor
    · rintro ⟨a, s', h1, h2⟩
      simp only [run, Except.ok.injEq, Prod.mk.injEq] at h2
      exact ⟨s', by rw [h1, h2.1], h2.2.symm⟩
    · rintro ⟨s', h1, h2⟩
      exact ⟨v, s', h1, by simp only at h2; simp [run, h2]⟩

theorem run_sync {s : Store B} (h : s.held = []) : (sync : Prog B Unit).run s = .ok ((), s) := by
  simp [sync, run, h]

theorem run_sync_ok {s : Store B} {r : Unit × Store B} : (sync : Prog B Unit).run s = .ok r ↔ s.held = [] ∧ r = ((), s) := by
  simp only [sync, run]
  split <;> rename_i h
  · simp [h, eq_comm]
  · simp [h]

/-! ## Any program -/

/-- The size of the device and the number of pins never change. -/
theorem run_size {p : Prog B α} {s s' : Store B} {a : α} (h : p.run s = .ok (a, s')) :
    s'.size = s.size ∧ s'.cap = s.cap := by
  induction p generalizing s with
  | ret x => cases h; exact ⟨rfl, rfl⟩
  | panic => cases h
  | lock b k ih => exact ih _ (s := s.pin b) (run_lock_ok.mp h).2
  | unlock b w k ih => simpa using ih (s := s.unpin b w) h
  | enter k ih =>
    rw [run] at h
    split at h
    · cases h
    · exact ih (s := { s with busy := true }) h
  | leave k ih => exact ih (s := { s with busy := false }) h
  | syncAll k ih =>
    rw [run] at h
    split at h
    · exact ih h
    · cases h

/-- A program that returned does the same on a larger device. -/
theorem run_grow {p : Prog B α} {s s' : Store B} {a : α} {n : Nat} (h : p.run s = .ok (a, s')) (hn : s.size ≤ n) :
    p.run { s with size := n } = .ok (a, { s' with size := n }) := by
  induction p generalizing s with
  | ret x => cases h; rfl
  | panic => cases h
  | lock b k ih =>
    obtain ⟨hf, hk⟩ := run_lock_ok.mp h
    exact run_lock_ok.mpr ⟨⟨hf.1, hf.2, Nat.lt_of_lt_of_le hf.3 hn⟩, ih _ (s := s.pin b) hk hn⟩
  | unlock b w k ih =>
    rw [run_unlock, Store.unpin_resize]
    exact ih (s := s.unpin b w) h (by simpa using hn)
  | enter k ih =>
    rw [run] at h ⊢
    split at h
    · cases h
    · rename_i hb
      rw [if_neg hb]
      exact ih (s := { s with busy := true }) h hn
  | leave k ih => exact ih (s := { s with busy := false }) h hn
  | syncAll k ih =>
    rw [run] at h ⊢
    split at h
    · rename_i hh
      rw [if_pos hh]
      exact ih h hn
    · cases h

/-- What a program that returned did is what it does on a larger device. -/
theorem run_of_grow {p : Prog B α} {s s' : Store B} {a a' : α} {n : Nat} {g : Nat → B} (h : p.run s = .ok (a, s'))
    (hn : s.size ≤ n) (h' : p.run { s with size := n } = .ok (a', ({ s with size := n } : Store B).withBlk g)) :
    a = a' ∧ s' = s.withBlk g := by
  have hsz := run_size h
  rw [run_grow h hn] at h'
  simp only [Except.ok.injEq, Prod.mk.injEq] at h'
  refine ⟨h'.1, ?_⟩
  cases s'
  simp only [Store.withBlk, Store.mk.injEq] at h' hsz ⊢
  exact ⟨hsz.1, h'.2.2⟩

/-- The program is made of reads. -/
inductive ReadOnly : {α : Type} → Prog B α → Prop
  | ret {α : Type} (a : α) : ReadOnly (ret a)
  | panic {α : Type} : ReadOnly (panic : Prog B α)
  | bind {α β : Type} {p : Prog B α} {f : α → Prog B β} : ReadOnly p → (∀ a, ReadOnly (f a)) → ReadOnly (p.bind f)
  | readBlock {α : Type} (b : Nat) {f : B → Prog B α} : (∀ x, ReadOnly (f x)) → ReadOnly (readBlock b f)
  | withMutex {α : Type} {p : Prog B α} : ReadOnly p → ReadOnly (withMutex p)

theorem ReadOnly.assert (c : Prop) [Decidable c] : ReadOnly (Prog.assert c : Prog B Unit) := by
  unfold Prog.assert
  split
  · exact .ret ()
  · exact .panic

/-- When it returns, nothing has changed. -/
theorem ReadOnly.run_eq {p : Prog B α} (hp : ReadOnly p) {s s' : Store B} {a : α} (h : p.run s = .ok (a, s')) :
    s' = s := by
  induction hp generalizing s s' with
  | ret x =>
    cases h
    rfl
  | panic => cases h
  | bind _ _ ih ih' =>
    obtain ⟨x, s₁, h1, h2⟩ := run_bind_ok.mp h
    rw [ih' x h2, ih h1]
  | readBlock b _ ih =>
    obtain ⟨-, s₁, h1, h2⟩ := run_readBlock_ok.mp h
    rw [ih _ h1] at h2
    simpa [Store.unpin, Store.pin] using h2
  | withMutex _ ih =>
    obtain ⟨hb, s₁, h1, h2⟩ := run_withMutex_ok.mp h
    rw [ih h1] at h2
    simpa [← hb] using h2

/-- Started with everything written back (if the first flag says so), the program ends with
    everything written back (if the second does): after its last store comes a `syncAll`. -/
inductive Settles : Bool → Bool → Prog B α → Prop
  | ret {c c' : Bool} (a : α) : (c' = true → c = true) → Settles c c' (ret a)
  | panic {c c' : Bool} : Settles c c' panic
  | lock {c c' : Bool} (b : Nat) {k : B → Prog B α} : (∀ x, Settles c c' (k x)) → Settles c c' (lock b k)
  | unlock {c c' : Bool} (b : Nat) {k : Prog B α} : Settles c c' k → Settles c c' (unlock b none k)
  | store {c c' : Bool} (b : Nat) (x : B) {k : Prog B α} : Settles false c' k → Settles c c' (unlock b (some x) k)
  | enter {c c' : Bool} {k : Prog B α} : Settles c c' k → Settles c c' (enter k)
  | leave {c c' : Bool} {k : Prog B α} : Settles c c' k → Settles c c' (leave k)
  | syncAll {c c' : Bool} {k : Prog B α} : Settles true c' k → Settles c c' (syncAll k)

theorem Settles.bind {c c' c'' : Bool} {p : Prog B α} {f : α → Prog B β} (hp : Settles c c' p)
    (hf : ∀ a, Settles c' c'' (f a)) : Settles c c'' (p.bind f) := by
  induction hp with
  | ret a h =>
    -- a weaker start is no harm
    have weaken : ∀ {β : Type} {q : Prog B β} {c₁ c₂ c₃ : Bool}, Settles c₁ c₃ q → (c₁ = true → c₂ = true) →
        Settles c₂ c₃ q := by
      intro β q c₁ c₂ c₃ hq
      induction hq with
      | ret a h => exact fun h' => .ret a fun e => h' (h e)
      | panic => exact fun _ => .panic
      | lock b _ ih => exact fun h' => .lock b fun x => ih x h'
      | unlock b _ ih => exact fun h' => .unlock b (ih h')
      | store b x hk _ => exact fun _ => .store b x hk
      | enter _ ih => exact fun h' => .enter (ih h')
      | leave _ ih => exact fun h' => .leave (ih h')
      | syncAll hk _ => exact fun _ => .syncAll hk
    exact weaken (hf a) h
  | panic => exact .panic
  | lock b _ ih => exact .lock b fun x => ih x hf
  | unlock b _ ih => exact .unlock b (ih hf)
  | store b x _ ih => exact .store b x (ih hf)
  | enter _ ih => exact .enter (ih hf)
  | leave _ ih => exact .leave (ih hf)
  | syncAll _ ih => exact .syncAll (ih hf)

theorem Settles.any {c : Bool} (p : Prog B α) : Settles c false p := by
  induction p generalizing c with
  | ret a => exact .ret a (by simp)
  | panic => exact .panic
  | lock b k ih => exact .lock b fun x => ih x
  | unlock b w k ih =>
    cases w with
    | none => exact .unlock b ih
    | some x => exact .store b x ih
  | enter k ih => exact .enter ih
  | leave k ih => exact .leave ih
  | syncAll k ih => exact .syncAll ih

theorem Settles.withMutex {c c' : Bool} {p : Prog B α} (hp : Settles c c' p) : Settles c c' (withMutex p) :=
  .enter (hp.bind fun v => .leave (.ret v id))

theorem ReadOnly.settles {p : Prog B α} (hp : ReadOnly p) : Settles true true p := by
  induction hp with
  | ret a => exact .ret a id
  | panic => exact .panic
  | bind _ _ ih ih' => exact ih.bind ih'
  | readBlock b _ ih => exact .lock b fun x => (ih x).bind fun v => .unlock b (.ret v id)
  | withMutex _ ih => exact ih.withMutex

/-- Whatever came before, a `sync` at the end settles it. -/
theorem Settles.sync_then {c : Bool} (p : Prog B α) (f : α → β) :
    Settles c true (p >>= fun a => sync >>= fun _ => Prog.ret (f a)) :=
  .bind (.any p) fun _ => .syncAll (.ret _ id)

end Prog

end TgRcore.BlockProg

namespace TgRcore

open TgRcore.BlockProg

/-- A computation in two parts returns when both do. -/
theorem bind_eq_ok {α β : Type} {x : Except Halt α} {f : α → Except Halt β} {b : β} :
    (x >>= f) = .ok b ↔ ∃ a, x = .ok a ∧ f a = .ok b := by
  cases x with
  | error e => simp [bind, Except.bind]
  | ok a => simp [bind, Except.bind]

theorem map_eq_ok {α β : Type} {x : Except Halt α} {f : α → β} {b : β} (h : x.map f = .ok b) :
    ∃ a, x = .ok a ∧ f a = b := by
  cases x with
  | error e => cases h
  | ok a => exact ⟨a, rfl, Except.ok.inj h⟩

end TgRcore
