/-
  TgRcore.EasyFs.BitmapSet — a bitmap as a finite set of numbers (`bitmap.rs`).

  - `decomposition_index`, `index_decomposition`: `dealloc`'s divisions and the index
    `alloc` computes are inverse to each other.
  - `alloc_members`, `call_sim`: one call, on any contents of the blocks.
  - `bitmap_is_set`: any sequence of calls is the same sequence on the set, with the same
    results, and touches the blocks of the bitmap only.
-/

import TgRcore.EasyFs.Bitmap
import TgRcore.Lib.IdSet
import Mathlib.Data.Finset.Filter

namespace TgRcore.EasyFs

open TgRcore.Bytes TgRcore.BlockProg TgRcore.BlockProg.Prog

/-! ## The index -/

theorem decomposition_index {blockId word inner : Nat} (hw : word < 64) (hi : inner < 64) :
    decomposition (blockId * 4096 + word * 64 + inner) = (blockId, word, inner) := by
  unfold decomposition
  ext <;> simp only <;> omega

theorem index_decomposition (bit : Nat) :
    (decomposition bit).1 * 4096 + (decomposition bit).2.1 * 64 + (decomposition bit).2.2 = bit ∧
      (decomposition bit).2.1 < 64 ∧ (decomposition bit).2.2 < 64 := by
  unfold decomposition
  simp only
  omega

namespace Bitmap

/-- The numbers that are taken. -/
def members (bm : Bitmap) (blk : Nat → Block) : Finset Nat := (Finset.range bm.maximum).filter fun i => bm.bit blk i = true

variable {bm : Bitmap} {s : Store Block} {blk blk' : Nat → Block}

@[simp] theorem mem_members {i : Nat} : i ∈ bm.members blk ↔ i < bm.maximum ∧ bm.bit blk i = true := by
  simp [members]

theorem members_setBit {i : Nat} (hi : i < bm.maximum) : bm.members (bm.setBit blk i) = insert i (bm.members blk) := by
  ext j
  rw [mem_members, Finset.mem_insert, mem_members, bit_setBit]
  by_cases hj : j = i
  · subst hj
    simp [hi]
  · simp [hj]

theorem members_clearBit {i : Nat} (hb : bm.bit blk i = true) : bm.members (bm.clearBit blk i) = (bm.members blk).erase i := by
  ext j
  rw [mem_members, Finset.mem_erase, mem_members, bit_clearBit hb]
  by_cases hj : j = i <;> simp [hj]

theorem inBlocks {i : Nat} (hi : i < bm.maximum) : i / 4096 < bm.blocks := by
  unfold maximum at hi
  omega

/-- The bit of a number below `maximum` lies in the blocks of the bitmap. -/
theorem updWord_outside {i b : Nat} {f : Nat → Nat} (hi : i < bm.maximum)
    (hb : ¬ (bm.startBlockId ≤ b ∧ b < bm.startBlockId + bm.blocks)) : bm.updWord blk i f b = blk b := by
  apply updWord_frame
  have := inBlocks hi
  omega

/-! ## One call -/

/-- `alloc` takes the least clear bit, and sets that bit alone. -/
theorem alloc_members (hf : ∀ k < bm.blocks, s.Free (k + bm.startBlockId)) {i : Nat} (hi : i < bm.maximum)
    (hclear : bm.bit s.blk i = false) (hleast : ∀ j < i, bm.bit s.blk j = true) :
    bm.alloc.run s = .ok (some i, s.withBlk (bm.setBit s.blk i)) := by
  apply Or.elim (alloc_run bm hf)
  · rintro ⟨k, hk, hrun, hk0, hk1⟩
    have : k = i := by
      by_contra hne
      apply Or.elim (Nat.lt_or_gt_of_ne hne)
      · intro hlt
        simp [hleast k hlt] at hk0
      · intro hgt
        simp [hk1 i hgt] at hclear
    rw [hrun, this]
  · intro h
    simp [h.2 i hi] at hclear

theorem alloc_none_iff (hf : ∀ k < bm.blocks, s.Free (k + bm.startBlockId)) :
    bm.alloc.run s = .ok (none, s) ↔ ∀ j < bm.maximum, bm.bit s.blk j = true := by
  apply Or.elim (alloc_run bm hf)
  · rintro ⟨i, hi, hrun, hclear, -⟩
    constructor
    · intro h
      rw [hrun] at h
      cases h
    · intro h
      simp [h i hi] at hclear
  · intro h
    exact iff_of_true h.1 h.2

/-! ## Sequences of calls -/

def call (bm : Bitmap) : IdSet.Op → Fs (Option Nat)
  | .alloc => bm.alloc
  | .dealloc id => do
    bm.dealloc id
    return none

def calls (bm : Bitmap) : List IdSet.Op → Fs (List (Option Nat))
  | [] => ret []
  | op :: ops => do
    let r ← bm.call op
    let rs ← calls bm ops
    return r :: rs

/-- One call on the blocks `blk` of the device of `s`. -/
def Does (bm : Bitmap) (s : Store Block) (op : IdSet.Op) (r : Option Nat) (blk blk' : Nat → Block) : Prop :=
  (bm.call op).run (s.withBlk blk) = .ok (r, s.withBlk blk') ∧
    ∀ b, ¬ (bm.startBlockId ≤ b ∧ b < bm.startBlockId + bm.blocks) → blk' b = blk b

theorem call_sim (hf : ∀ k < bm.blocks, s.Free (k + bm.startBlockId)) (op : IdSet.Op) (r : Option Nat)
    (blk : Nat → Block) (T : Finset Nat) (h : IdSet.step bm.maximum op (bm.members blk) = some (r, T)) :
    ∃ blk', bm.Does s op r blk blk' ∧ bm.members blk' = T := by
  have hf' : ∀ k < bm.blocks, (s.withBlk blk).Free (k + bm.startBlockId) :=
    fun k hk => (hf k hk).withBlk blk
  cases op with
  | alloc =>
    cases hl : IdSet.leastAbsent bm.maximum (bm.members blk) with
    | none =>
      simp only [IdSet.step, hl] at h
      cases h
      have hfull : ∀ j < bm.maximum, bm.bit blk j = true :=
        fun j hj => (mem_members.1 (IdSet.leastAbsent_eq_none.1 hl j hj)).2
      exact ⟨blk, ⟨(alloc_none_iff hf').2 hfull, fun _ _ => rfl⟩, rfl⟩
    | some i =>
      simp only [IdSet.step, hl] at h
      cases h
      obtain ⟨hi, habsent, hleast⟩ := IdSet.leastAbsent_eq_some.1 hl
      have hclear : bm.bit blk i = false := by
        by_contra hb
        exact habsent (mem_members.2 ⟨hi, by simpa using hb⟩)
      have hrun := alloc_members hf' hi hclear fun j hj => (mem_members.1 (hleast j hj)).2
      exact ⟨bm.setBit blk i, ⟨hrun, fun b hb => updWord_outside hi hb⟩, members_setBit hi⟩
  | dealloc id =>
    simp only [IdSet.step] at h
    by_cases hid : id ∈ bm.members blk
    · rw [if_pos hid] at h
      cases h
      obtain ⟨hlt, hb⟩ := mem_members.1 hid
      have hrun := dealloc_run (hf' _ (inBlocks hlt)) hb
      refine ⟨bm.clearBit blk id, ⟨?_, fun b hb => updWord_outside hlt hb⟩, members_clearBit hb⟩
      unfold call
      rw [run_bind_of hrun]
      rfl
    · rw [if_neg hid] at h
      cases h

/-- The calls one after the other, as one program. -/
theorem calls_run {ops : List IdSet.Op} {rs : List (Option Nat)}
    (h : IdSet.Runs (bm.Does s) ops rs blk blk') :
    (bm.calls ops).run (s.withBlk blk) = .ok (rs, s.withBlk blk') ∧
      ∀ b, ¬ (bm.startBlockId ≤ b ∧ b < bm.startBlockId + bm.blocks) → blk' b = blk b := by
  induction h with
  | nil => exact ⟨rfl, fun _ _ => rfl⟩
  | cons hd _ ih =>
    constructor
    · rw [calls, run_bind_of hd.1, run_bind_of ih.1]
      rfl
    · intro b hb
      rw [ih.2 b hb, hd.2 b hb]

end Bitmap

open Bitmap

theorem bitmap_is_set (bm : Bitmap) (s : Store Block) (hf : ∀ k < bm.blocks, s.Free (k + bm.startBlockId)) :
    -- one call, on any contents
    (∀ i < bm.maximum, bm.bit s.blk i = false → (∀ j < i, bm.bit s.blk j = true) →
      ∃ blk, bm.alloc.run s = .ok (some i, s.withBlk blk) ∧ ∀ j, bm.bit blk j = (j == i || bm.bit s.blk j)) ∧
    (bm.alloc.run s = .ok (none, s) ↔ ∀ j < bm.maximum, bm.bit s.blk j = true) ∧
    (∀ i < bm.maximum, bm.bit s.blk i = true →
      ∃ blk, (bm.dealloc i).run s = .ok ((), s.withBlk blk) ∧ ∀ j, bm.bit blk j = (j != i && bm.bit s.blk j)) ∧
    -- any sequence of calls
    (∀ (ops : List IdSet.Op) (rs : List (Option Nat)) (T : Finset Nat),
      IdSet.run bm.maximum ops (bm.members s.blk) = some (rs, T) →
      ∃ blk, (bm.calls ops).run s = .ok (rs, s.withBlk blk) ∧ bm.members blk = T ∧
        ∀ b, ¬ (bm.startBlockId ≤ b ∧ b < bm.startBlockId + bm.blocks) → blk b = s.blk b) ∧
    -- the two computations of the index
    (∀ blockId word inner, word < 64 → inner < 64 →
      decomposition (blockId * 4096 + word * 64 + inner) = (blockId, word, inner)) ∧
    ∀ bit, (decomposition bit).1 * 4096 + (decomposition bit).2.1 * 64 + (decomposition bit).2.2 = bit := by
  refine ⟨fun i hi hclear hleast => ?_, alloc_none_iff hf, fun i hi hb => ?_, fun ops rs T h => ?_,
    fun _ _ _ => decomposition_index, fun bit => (index_decomposition bit).1⟩
  · exact ⟨_, alloc_members hf hi hclear hleast, bit_setBit s.blk i⟩
  · exact ⟨_, dealloc_run (hf _ (inBlocks hi)) hb, bit_clearBit hb⟩
  · obtain ⟨blk, hruns, hT⟩ := IdSet.run_sim (call_sim hf) ops rs s.blk T h
    obtain ⟨hrun, hframe⟩ := calls_run hruns
    exact ⟨blk, hrun, hT, hframe⟩

/-- One zeroed block: the number given back is the one taken next. -/
theorem bitmap_is_set_zeroed :
    let s : Store Block := ⟨2, 16, fun _ => Blk.zero 512, [], false⟩
    ∃ blk, (Bitmap.calls ⟨1, 1⟩ [.alloc, .dealloc 0, .alloc]).run s = .ok ([some 0, none, some 0], s.withBlk blk) := by
  intro s
  have hzero : ∀ j, (⟨1, 1⟩ : Bitmap).bit s.blk j = false := fun _ => Bitmap.bit_zero rfl
  have hmem : (⟨1, 1⟩ : Bitmap).members s.blk = ∅ := by
    ext j
    simp [hzero]
  have h0 : IdSet.leastAbsent 4096 ∅ = some 0 := IdSet.leastAbsent_eq_some.2 (by simp)
  have hrun : IdSet.run (Bitmap.maximum ⟨1, 1⟩) [.alloc, .dealloc 0, .alloc] ((⟨1, 1⟩ : Bitmap).members s.blk) =
      some ([some 0, none, some 0], {0}) := by
    rw [hmem]
    simp [IdSet.run, IdSet.step, Bitmap.maximum, h0]
  have hf : ∀ k < 1, s.Free (k + 1) := fun k hk => ⟨by simp [s], by simp [s], by simp only [s]; omega⟩
  obtain ⟨blk, h, -⟩ := (bitmap_is_set ⟨1, 1⟩ s hf).2.2.2.1 _ _ _ hrun
  exact ⟨blk, h⟩

end TgRcore.EasyFs
