/-
  TgRcore.Lib.BTreeMap — maps by key, as the partial functions they are.

  `adjust` is `if let Some(v) = map.get_mut(&k) { .. }`, `modify` is
  `map.get_mut(&k).unwrap()` with an update.
-/

import Mathlib.Logic.Function.Basic
import TgRcore.Lib.BlockProg

namespace TgRcore

open TgRcore.BlockProg

abbrev BTreeMap (κ ν : Type) := κ → Option ν

namespace BTreeMap

variable {κ ν : Type} [DecidableEq κ]

def empty : BTreeMap κ ν := fun _ => none

def insert (m : BTreeMap κ ν) (k : κ) (v : ν) : BTreeMap κ ν := fun q => if q = k then some v else m q

def remove (m : BTreeMap κ ν) (k : κ) : BTreeMap κ ν := fun q => if q = k then none else m q

def adjust (m : BTreeMap κ ν) (k : κ) (f : ν → ν) : BTreeMap κ ν := fun q => if q = k then (m q).map f else m q

def modify (m : BTreeMap κ ν) (k : κ) (f : ν → ν) : Except Halt (BTreeMap κ ν) :=
  if (m k).isSome then .ok (m.adjust k f) else .error .panic

/-- There are as many entries as a leaf has room for. With fewer, an entry that is inserted behind
    the others moves none of them in memory. -/
def Crowded (m : BTreeMap κ ν) : Prop := ∃ keys : List κ, keys.Nodup ∧ keys.length = 11 ∧ ∀ k ∈ keys, (m k).isSome = true

@[simp] theorem insert_apply (m : BTreeMap κ ν) (k q : κ) (v : ν) :
    m.insert k v q = if q = k then some v else m q := rfl

@[simp] theorem remove_apply (m : BTreeMap κ ν) (k q : κ) : m.remove k q = if q = k then none else m q := rfl

@[simp] theorem adjust_apply (m : BTreeMap κ ν) (k q : κ) (f : ν → ν) :
    m.adjust k f q = if q = k then (m q).map f else m q := rfl

theorem insert_insert (m : BTreeMap κ ν) (k : κ) (v w : ν) : (m.insert k v).insert k w = m.insert k w := by
  funext q
  simp only [insert_apply]
  split
  · rfl
  · rfl

theorem insert_self {m : BTreeMap κ ν} {k : κ} {v : ν} (h : m k = some v) : m.insert k v = m := by
  funext q
  rw [insert_apply]
  split
  · rename_i e
    rw [e, h]
  · rfl

theorem remove_insert (m : BTreeMap κ ν) (k : κ) (v : ν) : (m.insert k v).remove k = m.remove k := by
  funext q
  simp only [remove_apply, insert_apply]
  split
  · rfl
  · rfl

/-- An update keeps the keys. -/
theorem isSome_adjust (m : BTreeMap κ ν) (k q : κ) (f : ν → ν) : (m.adjust k f q).isSome = (m q).isSome := by
  rw [adjust_apply]
  split
  · rw [Option.isSome_map]
  · rfl

theorem isSome_insert (m : BTreeMap κ ν) (k q : κ) (v : ν) :
    (m.insert k v q).isSome = true ↔ q = k ∨ (m q).isSome = true := by
  rw [insert_apply]
  split
  · rename_i e
    simp [e]
  · rename_i e
    simp [e]

theorem isSome_remove (m : BTreeMap κ ν) (k q : κ) :
    (m.remove k q).isSome = true ↔ q ≠ k ∧ (m q).isSome = true := by
  rw [remove_apply]
  split
  · rename_i e
    simp [e]
  · rename_i e
    simp [e]

theorem modify_eq_ok {m m' : BTreeMap κ ν} {k : κ} {f : ν → ν} :
    m.modify k f = .ok m' ↔ (m k).isSome = true ∧ m' = m.adjust k f := by
  unfold modify
  split
  · rename_i h
    simp [h, eq_comm]
  · rename_i h
    simp [h]

end BTreeMap

end TgRcore
