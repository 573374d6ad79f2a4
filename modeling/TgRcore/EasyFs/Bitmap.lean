/-
  TgRcore.EasyFs.Bitmap — the allocation bitmaps (`bitmap.rs`).

  A bitmap is read as a set of numbers (`bit`), over the blocks it lies on.
  - `alloc_run`: `alloc` takes the least number that is not in the set, and fails,
    changing nothing, when there is none below `maximum`.
  - `dealloc_run`, `dealloc_ok`: `dealloc` removes a number that is in the set, and
    panics on one that is not.
  - `bit_setBit`, `bit_clearBit`: each changes that one number.
-/

import TgRcore.EasyFs.Layout

namespace TgRcore.EasyFs

open TgRcore.Bytes TgRcore.BlockProg TgRcore.BlockProg.Prog

structure Bitmap where
  startBlockId : Nat
  blocks : Nat
  deriving DecidableEq, Repr

/-- A bit's block, its word in the block and its place in the word. -/
def decomposition (bit : Nat) : Nat × Nat × Nat := (bit / 4096, bit % 4096 / 64, bit % 4096 % 64)

/-- `u64::trailing_ones` -/
def trailingOnes (x : Nat) : Nat := ((List.range 64).find? fun i => !x.testBit i).getD 64

/-- Word `i` of a `BitmapBlock = [u64; 64]`. -/
def bitmapWord (b : Block) (i : Nat) : Nat := b.word 8 (8 * i)

/-- `u64::MAX` -/
def u64Max : Nat := 2 ^ 64 - 1

/-- Take the first clear bit of one bitmap block. -/
def allocIn (b : Block) : Option (Nat × Nat) × Block :=
  match (List.range 64).find? fun i => bitmapWord b i != u64Max with
  | some i =>
    let inner := trailingOnes (bitmapWord b i)
    (some (i, inner), b.setWord 8 (8 * i) (bitmapWord b i ||| 2 ^ inner))
  | none => (none, b)

namespace Bitmap

/-- The scan of `alloc` from block `blockId` on, with `n` blocks left. -/
def allocLoop (bm : Bitmap) : Nat → Nat → Fs (Option Nat)
  | 0, _ => ret none
  | n + 1, blockId => do
    let pos ← modifyBlock (blockId + bm.startBlockId) fun b =>
      let r := allocIn b
      ret (r.1.map fun p => blockId * 4096 + p.1 * 64 + p.2, r.2)
    match pos with
    | some p => ret (some p)
    | none => allocLoop bm n (blockId + 1)

def alloc (bm : Bitmap) : Fs (Option Nat) := bm.allocLoop bm.blocks 0

def dealloc (bm : Bitmap) (bit : Nat) : Fs Unit :=
  let (blockPos, bits64Pos, innerPos) := decomposition bit
  modifyBlock (blockPos + bm.startBlockId) fun b => do
    assert (bitmapWord b bits64Pos &&& 2 ^ innerPos > 0)
    return ((), b.setWord 8 (8 * bits64Pos) (bitmapWord b bits64Pos - 2 ^ innerPos))

def maximum (bm : Bitmap) : Nat := bm.blocks * 4096

end Bitmap

/-! ## Bits -/

theorem bitmapWord_lt (b : Block) (i : Nat) : bitmapWord b i < 2 ^ 64 := by
  have := Blk.word_lt 8 b (8 * i)
  unfold bitmapWord
  norm_num at this ⊢
  exact this

theorem bitmapWord_setWord {b : Block} {i j v : Nat} (hi : i < 64) (hv : v < 2 ^ 64) :
    bitmapWord (b.setWord 8 (8 * i) v) j = if j = i then v else bitmapWord b j := by
  unfold bitmapWord
  split
  · rename_i h
    subst h
    exact Blk.word_setWord_same b (by omega) (by norm_num at hv ⊢; exact hv)
  · exact Blk.word_setWord_of_disjoint b (by omega)

theorem eq_max_iff {x : Nat} (hx : x < 2 ^ 64) : x = u64Max ↔ ∀ i < 64, x.testBit i = true := by
  unfold u64Max
  constructor
  · rintro rfl i hi
    rw [Nat.testBit_two_pow_sub_one]
    simpa using hi
  · intro h
    apply Nat.eq_of_testBit_eq
    intro i
    rw [Nat.testBit_two_pow_sub_one]
    by_cases hi : i < 64
    · simp [h i hi, hi]
    · have hlt : x < 2 ^ i := Nat.lt_of_lt_of_le hx (Nat.pow_le_pow_right (by decide) (by omega))
      simp [Nat.testBit_lt_two_pow hlt, hi]

theorem trailingOnes_spec {x : Nat} (hx : x < 2 ^ 64) (hm : x ≠ u64Max) :
    trailingOnes x < 64 ∧ x.testBit (trailingOnes x) = false ∧ ∀ i < trailingOnes x, x.testBit i = true := by
  unfold trailingOnes
  cases hf : (List.range 64).find? fun i => !x.testBit i with
  | none =>
    refine absurd ((eq_max_iff hx).mpr fun i hi => ?_) hm
    have := List.find?_eq_none.mp hf i (List.mem_range.mpr hi)
    simpa using this
  | some t =>
    obtain ⟨h1, h2, h3⟩ := List.find?_range_eq_some.mp hf
    exact ⟨List.mem_range.mp h2, by simpa using h1, fun i hi => by simpa using h3 i hi⟩

/-- Bit `j` of one bitmap block. -/
def blockBit (b : Block) (j : Nat) : Bool := (bitmapWord b (j / 64)).testBit (j % 64)

/-- Subtracting a bit that is set clears it. -/
theorem testBit_sub_two_pow {x i : Nat} (h : x.testBit i = true) (j : Nat) :
    (x - 2 ^ i).testBit j = (x.testBit j && j != i) := by
  have hodd : x / 2 ^ i % 2 = 1 := by simpa [Nat.testBit_eq_decide_div_mod_eq] using h
  obtain ⟨q, hq⟩ : ∃ q, x / 2 ^ i = 2 * q + 1 := ⟨x / 2 ^ i / 2, by omega⟩
  have hr : x % 2 ^ i < 2 ^ i := Nat.mod_lt _ (by positivity)
  have hx : x = 2 ^ i * (2 * q + 1) + x % 2 ^ i := by rw [← hq, Nat.div_add_mod]
  have hs : x - 2 ^ i = 2 ^ i * (2 * q) + x % 2 ^ i := by
    rw [Nat.mul_add, Nat.mul_one] at hx
    omega
  have hxj : x.testBit j = if j < i then (x % 2 ^ i).testBit j else (2 * q + 1).testBit (j - i) := by
    conv_lhs => rw [hx]
    exact Nat.testBit_two_pow_mul_add _ hr _
  rw [hs, Nat.testBit_two_pow_mul_add _ hr, hxj]
  by_cases hj : j < i
  · have hne : j ≠ i := by omega
    simp [hj, hne]
  · rw [if_neg hj, if_neg hj]
    by_cases e : j = i
    · subst e; simp
    · obtain ⟨k, hk⟩ : ∃ k, j - i = k + 1 := ⟨j - i - 1, by omega⟩
      rw [hk, Nat.testBit_succ, Nat.testBit_succ]
      have h2 : (2 * q + 1) / 2 = q := by omega
      simp [h2, e]

theorem allocIn_spec (b : Block) :
    (∃ i k, i < 64 ∧ k < 64 ∧ allocIn b = (some (i, k), b.setWord 8 (8 * i) (bitmapWord b i ||| 2 ^ k)) ∧
      blockBit b (i * 64 + k) = false ∧ ∀ j < i * 64 + k, blockBit b j = true) ∨
    (allocIn b = (none, b) ∧ ∀ j < 4096, blockBit b j = true) := by
  cases hf : (List.range 64).find? fun i => bitmapWord b i != u64Max with
  | none =>
    right
    refine ⟨by rw [allocIn, hf], fun j hj => ?_⟩
    have := List.find?_eq_none.mp hf (j / 64) (List.mem_range.mpr (by omega))
    exact (eq_max_iff (bitmapWord_lt b _)).mp (by simpa only [bne_iff_ne, not_not] using this) _
      (Nat.mod_lt _ (by decide))
  | some i =>
    left
    obtain ⟨h1, h2, h3⟩ := List.find?_range_eq_some.mp hf
    have hi := List.mem_range.mp h2
    obtain ⟨t1, t2, t3⟩ := trailingOnes_spec (bitmapWord_lt b _) (bne_iff_ne.mp h1)
    refine ⟨i, trailingOnes (bitmapWord b i), hi, t1, by rw [allocIn, hf], ?_, fun j hj => ?_⟩
    · unfold blockBit
      rw [show (i * 64 + trailingOnes (bitmapWord b i)) / 64 = i by omega,
        show (i * 64 + trailingOnes (bitmapWord b i)) % 64 = trailingOnes (bitmapWord b i) by omega]
      exact t2
    · unfold blockBit
      by_cases e : j / 64 = i
      · rw [e]
        exact t3 _ (by omega)
      · have := h3 (j / 64) (by omega)
        exact (eq_max_iff (bitmapWord_lt b _)).mp (by simpa only [Bool.not_eq_true', bne_eq_false_iff_eq] using this) _
          (Nat.mod_lt _ (by decide))

namespace Bitmap

variable (bm : Bitmap)

/-- Is `i` in the set? -/
def bit (blk : Nat → Block) (i : Nat) : Bool := blockBit (blk (i / 4096 + bm.startBlockId)) (i % 4096)

/-- Change the word that bit `i` is in. -/
def updWord (blk : Nat → Block) (i : Nat) (f : Nat → Nat) : Nat → Block :=
  Function.update blk (i / 4096 + bm.startBlockId) ((blk (i / 4096 + bm.startBlockId)).setWord 8 (8 * (i % 4096 / 64))
    (f (bitmapWord (blk (i / 4096 + bm.startBlockId)) (i % 4096 / 64))))

def setBit (blk : Nat → Block) (i : Nat) : Nat → Block := bm.updWord blk i fun x => x ||| 2 ^ (i % 64)

def clearBit (blk : Nat → Block) (i : Nat) : Nat → Block := bm.updWord blk i fun x => x - 2 ^ (i % 64)

variable {bm}

theorem bit_updWord {blk : Nat → Block} {i j : Nat} {f : Nat → Nat} (hf : ∀ x < 2 ^ 64, f x < 2 ^ 64) :
    bm.bit (bm.updWord blk i f) j = if j / 64 = i / 64
      then (f (bitmapWord (blk (i / 4096 + bm.startBlockId)) (i % 4096 / 64))).testBit (j % 64)
      else bm.bit blk j := by
  unfold bit updWord blockBit
  by_cases hb : j / 4096 = i / 4096
  · rw [hb, Function.update_self, bitmapWord_setWord (by omega) (hf _ (bitmapWord_lt _ _))]
    by_cases hw : j % 4096 / 64 = i % 4096 / 64
    · rw [if_pos hw, if_pos (by omega), show j % 4096 % 64 = j % 64 by omega]
    · rw [if_neg hw, if_neg (by omega)]
  · rw [Function.update_of_ne (by omega), if_neg (by omega)]

theorem or_two_pow_lt {x k : Nat} (hx : x < 2 ^ 64) (hk : k < 64) : x ||| 2 ^ k < 2 ^ 64 :=
  Nat.or_lt_two_pow hx (Nat.pow_lt_pow_right (by decide) hk)

theorem bit_setBit (blk : Nat → Block) (i j : Nat) : bm.bit (bm.setBit blk i) j = (j == i || bm.bit blk j) := by
  rw [setBit, bit_updWord fun x hx => or_two_pow_lt hx (Nat.mod_lt _ (by decide))]
  by_cases hw : j / 64 = i / 64
  · have hb : bm.bit blk j =
        (bitmapWord (blk (i / 4096 + bm.startBlockId)) (i % 4096 / 64)).testBit (j % 64) := by
      unfold bit blockBit
      rw [show j / 4096 = i / 4096 by omega, show j % 4096 / 64 = i % 4096 / 64 by omega,
        show j % 4096 % 64 = j % 64 by omega]
    rw [if_pos hw, Nat.testBit_or, Nat.testBit_two_pow, hb, Bool.or_comm]
    congr 1
    by_cases e : j = i
    · simp [e]
    · have : i % 64 ≠ j % 64 := by omega
      simp [e, this]
  · have : j ≠ i := by rintro rfl; exact hw rfl
    simp [hw, this]

theorem bit_clearBit {blk : Nat → Block} {i : Nat} (h : bm.bit blk i = true) (j : Nat) :
    bm.bit (bm.clearBit blk i) j = (j != i && bm.bit blk j) := by
  rw [clearBit, bit_updWord fun x hx => Nat.lt_of_le_of_lt (Nat.sub_le _ _) hx]
  have hset : (bitmapWord (blk (i / 4096 + bm.startBlockId)) (i % 4096 / 64)).testBit (i % 64) = true := by
    unfold bit blockBit at h
    rwa [show i % 4096 % 64 = i % 64 by omega] at h
  by_cases hw : j / 64 = i / 64
  · have hb : bm.bit blk j =
        (bitmapWord (blk (i / 4096 + bm.startBlockId)) (i % 4096 / 64)).testBit (j % 64) := by
      unfold bit blockBit
      rw [show j / 4096 = i / 4096 by omega, show j % 4096 / 64 = i % 4096 / 64 by omega,
        show j % 4096 % 64 = j % 64 by omega]
    have hne : (j % 64 != i % 64) = (j != i) := by
      by_cases e : j = i
      · simp [e]
      · have : j % 64 ≠ i % 64 := by omega
        rw [bne_iff_ne.mpr e, bne_iff_ne.mpr this]
    rw [if_pos hw, testBit_sub_two_pow hset, hb, hne, Bool.and_comm]
  · have : j ≠ i := by rintro rfl; exact hw rfl
    simp [hw, this]

/-- Only the bitmap block of `i` changes. -/
theorem updWord_frame {blk : Nat → Block} {i b : Nat} {f : Nat → Nat} (h : b ≠ i / 4096 + bm.startBlockId) :
    bm.updWord blk i f b = blk b := Function.update_of_ne h _ _

theorem bit_congr {blk blk' : Nat → Block} {i : Nat} (hi : i < bm.maximum)
    (h : ∀ b, bm.startBlockId ≤ b → b < bm.startBlockId + bm.blocks → blk' b = blk b) : bm.bit blk' i = bm.bit blk i := by
  unfold maximum at hi
  unfold bit
  rw [h _ (by omega) (by omega)]

theorem bit_zero {blk : Nat → Block} {i : Nat} (h : blk (i / 4096 + bm.startBlockId) = Blk.zero 512) :
    bm.bit blk i = false := by
  unfold bit blockBit bitmapWord
  rw [h, Blk.word_zero]
  exact Nat.zero_testBit _

/-! ## Allocation -/

theorem allocLoop_run (bm : Bitmap) (s : Store Block) : ∀ (n blockId : Nat),
    (∀ k, blockId ≤ k → k < blockId + n → s.Free (k + bm.startBlockId)) →
    (∀ j < blockId * 4096, bm.bit s.blk j = true) →
    (∃ i < (blockId + n) * 4096, (bm.allocLoop n blockId).run s = .ok (some i, s.withBlk (bm.setBit s.blk i)) ∧
      bm.bit s.blk i = false ∧ ∀ j < i, bm.bit s.blk j = true) ∨
    ((bm.allocLoop n blockId).run s = .ok (none, s) ∧ ∀ j < (blockId + n) * 4096, bm.bit s.blk j = true) := by
  intro n
  induction n with
  | zero => intro blockId _ hb; exact Or.inr ⟨rfl, by simpa using hb⟩
  | succ n ih =>
    intro blockId hfree hbelow
    have hf := hfree blockId (by omega) (by omega)
    have hmod := run_modifyBlock_ret (fun b : Block =>
      ((allocIn b).1.map fun p => blockId * 4096 + p.1 * 64 + p.2, (allocIn b).2)) hf
    -- the bits of this block, as bits of the bitmap
    have hbit : ∀ j < 4096, bm.bit s.blk (blockId * 4096 + j) = blockBit (s.blk (blockId + bm.startBlockId)) j := by
      intro j hj
      unfold bit
      rw [show (blockId * 4096 + j) / 4096 = blockId by omega, show (blockId * 4096 + j) % 4096 = j by omega]
    have hupto : ∀ m, (∀ j < m, blockBit (s.blk (blockId + bm.startBlockId)) j = true) → m ≤ 4096 →
        ∀ j < blockId * 4096 + m, bm.bit s.blk j = true := by
      intro m hm hle j hj
      by_cases hlt : j < blockId * 4096
      · exact hbelow j hlt
      · obtain ⟨r, rfl⟩ : ∃ r, j = blockId * 4096 + r := ⟨j - blockId * 4096, by omega⟩
        rw [hbit r (by omega)]
        exact hm r (by omega)
    rcases allocIn_spec (s.blk (blockId + bm.startBlockId)) with ⟨i, k, hi, hk, ha, hclear, hset⟩ | ⟨ha, hset⟩
    · left
      refine ⟨blockId * 4096 + (i * 64 + k), by omega, ?_, by rw [hbit _ (by omega)]; exact hclear,
        hupto _ hset (by omega)⟩
      rw [ha] at hmod
      rw [allocLoop, run_bind_of hmod]
      simp only [Option.map_some, run_ret]
      have hsum : blockId * 4096 + i * 64 + k = blockId * 4096 + (i * 64 + k) := by omega
      rw [hsum]
      · unfold setBit updWord
        rw [show (blockId * 4096 + (i * 64 + k)) / 4096 = blockId by omega,
          show (blockId * 4096 + (i * 64 + k)) % 4096 / 64 = i by omega,
          show (blockId * 4096 + (i * 64 + k)) % 64 = k by omega]
    · rw [ha] at hmod
      simp only [Option.map_none, Function.update_eq_self, Store.withBlk_self] at hmod
      have hnext := ih (blockId + 1) (fun k h1 h2 => hfree k (by omega) (by omega)) (by
        have := hupto 4096 hset (by omega)
        intro j hj
        exact this j (by omega))
      rw [allocLoop, run_bind_of hmod, show blockId + (n + 1) = blockId + 1 + n by omega]
      exact hnext

/-- `alloc` takes the least clear bit, or leaves a full bitmap alone. -/
theorem alloc_run (bm : Bitmap) {s : Store Block} (hf : ∀ k < bm.blocks, s.Free (k + bm.startBlockId)) :
    (∃ i < bm.maximum, bm.alloc.run s = .ok (some i, s.withBlk (bm.setBit s.blk i)) ∧
      bm.bit s.blk i = false ∧ ∀ j < i, bm.bit s.blk j = true) ∨
    (bm.alloc.run s = .ok (none, s) ∧ ∀ j < bm.maximum, bm.bit s.blk j = true) := by
  have := allocLoop_run bm s bm.blocks 0 (fun k _ hk => hf k (by omega)) (by intro j hj; omega)
  simpa [alloc, maximum] using this

theorem and_two_pow_pos {x k : Nat} : x &&& 2 ^ k > 0 ↔ x.testBit k = true := by
  constructor
  · intro h
    by_contra hn
    have : x &&& 2 ^ k = 0 := by
      apply Nat.eq_of_testBit_eq
      intro i
      rw [Nat.testBit_and, Nat.testBit_two_pow, Nat.zero_testBit]
      by_cases e : k = i
      · subst e; simp at hn; simp [hn]
      · simp [e]
    omega
  · intro h
    apply Nat.pos_of_ne_zero
    intro h0
    have := congrArg (·.testBit k) h0
    simp [Nat.testBit_and, h] at this

/-- `dealloc` of a set bit clears it. -/
theorem dealloc_run {s : Store Block} {i : Nat} (hf : s.Free (i / 4096 + bm.startBlockId)) (hb : bm.bit s.blk i = true) :
    (bm.dealloc i).run s = .ok ((), s.withBlk (bm.clearBit s.blk i)) := by
  have ht : bitmapWord (s.blk (i / 4096 + bm.startBlockId)) (i % 4096 / 64) &&& 2 ^ (i % 4096 % 64) > 0 :=
    and_two_pow_pos.mpr (by unfold bit blockBit at hb; exact hb)
  unfold dealloc decomposition
  refine run_modifyBlock (g := s.blk) hf ?_
  rw [assert_true ht, ret_bind]
  simp only [pure_eq_ret, run_ret]
  rw [show i % 4096 % 64 = i % 64 by omega]
  rfl

/-- A `dealloc` that returned was of a set bit. -/
theorem dealloc_ok {s : Store Block} {i : Nat} {r : Unit × Store Block} (h : (bm.dealloc i).run s = .ok r) :
    s.Free (i / 4096 + bm.startBlockId) ∧ bm.bit s.blk i = true := by
  unfold dealloc decomposition at h
  obtain ⟨hf, x, s', h1, -⟩ := run_modifyBlock_ok.mp h
  obtain ⟨_, _, ha, -⟩ := run_bind_ok.mp h1
  have := (run_assert_ok.mp ha).1
  exact ⟨hf, and_two_pow_pos.mp this⟩

end Bitmap

end TgRcore.EasyFs
