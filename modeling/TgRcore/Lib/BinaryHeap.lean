/-
  TgRcore.Lib.BinaryHeap — what the priority queue `BinaryHeap` promises.

  The items stand in an order of the heap's own (`WF`); `pop` gives a greatest one, and which
  of several greatest ones is left open.
-/

import Mathlib.Data.List.Sort

namespace TgRcore

structure BinaryHeap (α : Type) (le : α → α → Prop) where
  WF : List α → Prop
  push : List α → α → List α
  pop : List α → Option (α × List α)
  wf_nil : WF []
  wf_push : ∀ {h a}, WF h → WF (push h a)
  wf_pop : ∀ {h a h'}, WF h → pop h = some (a, h') → WF h'
  push_perm : ∀ {h a}, (push h a).Perm (a :: h)
  pop_none : ∀ {h}, pop h = none ↔ h = []
  pop_perm : ∀ {h a h'}, pop h = some (a, h') → h.Perm (a :: h')
  pop_greatest : ∀ {h a h'}, WF h → pop h = some (a, h') → ∀ b ∈ h', le b a

namespace BinaryHeap

/-- A queue of the kind: the list kept in order, the greatest item first. -/
def sorted (α : Type) (key : α → Nat) : BinaryHeap α fun a b => key b ≤ key a where
  WF h := h.Pairwise fun a b => key a ≤ key b
  push h a := h.orderedInsert (fun a b => key a ≤ key b) a
  pop
    | [] => none
    | a :: h => some (a, h)
  wf_nil := List.Pairwise.nil
  wf_push := by
    intro h a hw
    have : Std.Total fun a b : α => key a ≤ key b := ⟨fun a b => Nat.le_total _ _⟩
    have : IsTrans α fun a b => key a ≤ key b := ⟨fun _ _ _ => Nat.le_trans⟩
    exact hw.orderedInsert a h
  wf_pop := by
    intro h a h' hw hp
    cases h with
    | nil => cases hp
    | cons b l =>
      cases hp
      exact hw.of_cons
  push_perm := List.perm_orderedInsert _ _ _
  pop_none := by
    intro h
    cases h with
    | nil => simp
    | cons b l => simp
  pop_perm := by
    intro h a h' hp
    cases h with
    | nil => cases hp
    | cons b l =>
      cases hp
      exact List.Perm.refl _
  pop_greatest := by
    intro h a h' hw hp
    cases h with
    | nil => cases hp
    | cons b l =>
      cases hp
      exact fun b hb => List.rel_of_pairwise_cons hw hb

end BinaryHeap

end TgRcore
