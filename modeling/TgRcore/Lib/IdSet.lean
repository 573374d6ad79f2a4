/-
  TgRcore.Lib.IdSet — an allocator as a finite set: `alloc` inserts the least absent number
  below a bound, `dealloc` removes a number that is in the set.

  - `leastAbsent_eq_some`, `leastAbsent_eq_none`: what `alloc` takes, and when it fails.
  - `run_sim`: a concrete allocator whose operations follow the set's, one by one, follows
    every sequence of them.
-/

import Mathlib.Data.Finset.Insert
import Mathlib.Data.Finset.Range
import Mathlib.Data.Finset.Erase
import Mathlib.Data.List.Basic

namespace TgRcore.IdSet

inductive Op where
  | alloc
  | dealloc (id : Nat)
  deriving DecidableEq, Repr

def leastAbsent (max : Nat) (S : Finset Nat) : Option Nat := (List.range max).find? fun i => i ∉ S

variable {max : Nat} {S T : Finset Nat}

theorem leastAbsent_eq_some {i : Nat} : leastAbsent max S = some i ↔ i < max ∧ i ∉ S ∧ ∀ j < i, j ∈ S := by
  unfold leastAbsent
  rw [List.find?_range_eq_some]
  constructor
  · intro h
    refine ⟨List.mem_range.1 h.2.1, by simpa using h.1, fun j hj => ?_⟩
    simpa using h.2.2 j hj
  · intro h
    refine ⟨by simpa using h.2.1, List.mem_range.2 h.1, fun j hj => ?_⟩
    simpa using h.2.2 j hj

theorem leastAbsent_eq_none : leastAbsent max S = none ↔ ∀ j < max, j ∈ S := by
  unfold leastAbsent
  simp [List.find?_eq_none]

/-- `none`: the operation is not allowed, the number is not in the set. -/
def step (max : Nat) : Op → Finset Nat → Option (Option Nat × Finset Nat)
  | .alloc, S =>
    match leastAbsent max S with
    | some i => some (some i, insert i S)
    | none => some (none, S)
  | .dealloc id, S => if id ∈ S then some (none, S.erase id) else none

/-- A sequence of operations, each allowed where it is made, and what each of them returns. -/
def run (max : Nat) : List Op → Finset Nat → Option (List (Option Nat) × Finset Nat)
  | [], S => some ([], S)
  | op :: ops, S => (step max op S).bind fun (r, T) => (run max ops T).map fun (rs, U) => (r :: rs, U)

theorem run_cons {op : Op} {ops : List Op} {rs : List (Option Nat)} (h : run max (op :: ops) S = some (rs, T)) :
    ∃ r U rest, step max op S = some (r, U) ∧ run max ops U = some (rest, T) ∧ rs = r :: rest := by
  obtain ⟨⟨r, U⟩, h1, h2⟩ := Option.bind_eq_some_iff.1 h
  obtain ⟨⟨rest, V⟩, h3, h4⟩ := Option.map_eq_some_iff.1 h2
  cases h4
  exact ⟨r, U, rest, h1, h3, rfl⟩

/-- `Does op r x y`: in state `x` the concrete `op` returns `r` and leaves `y`. -/
inductive Runs {σ : Type*} (Does : Op → Option Nat → σ → σ → Prop) : List Op → List (Option Nat) → σ → σ → Prop where
  | nil {x : σ} : Runs Does [] [] x x
  | cons {op : Op} {ops : List Op} {r : Option Nat} {rs : List (Option Nat)} {x y z : σ} :
      Does op r x y → Runs Does ops rs y z → Runs Does (op :: ops) (r :: rs) x z

theorem run_sim {σ : Type*} {Does : Op → Option Nat → σ → σ → Prop} {members : σ → Finset Nat}
    (hstep : ∀ op r x T, step max op (members x) = some (r, T) → ∃ y, Does op r x y ∧ members y = T) :
    ∀ (ops : List Op) (rs : List (Option Nat)) (x : σ) (T : Finset Nat),
      run max ops (members x) = some (rs, T) → ∃ y, Runs Does ops rs x y ∧ members y = T := by
  intro ops
  induction ops with
  | nil =>
    intro rs x T h
    cases h
    exact ⟨x, .nil, rfl⟩
  | cons op ops ih =>
    intro rs x T h
    obtain ⟨r, U, rest, h1, h2, rfl⟩ := run_cons h
    obtain ⟨y, hy, rfl⟩ := hstep op r x U h1
    obtain ⟨z, hz, hT⟩ := ih rest y T h2
    exact ⟨z, .cons hy hz, hT⟩

end TgRcore.IdSet
