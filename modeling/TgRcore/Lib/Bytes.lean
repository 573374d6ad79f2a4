/-
  TgRcore.Lib.Bytes — fixed-size blocks of bytes and the little-endian words in them.

  A block is a `Vector` of bytes read through `byte` (0 past its end) and built by
  `tab`, so that every update is a description of the new bytes. A `w`-byte word at an
  offset is `word`, its update `setWord`.

  - `byte_tab`, `ext_byte`: a block is its bytes.
  - `le_leByte`, `leByte_le`: `w` bytes and a number below `256 ^ w` are the same thing.
  - `word_setWord_same`, `word_setWord_of_disjoint`: a word is read back as it was
    stored, and storing a word leaves the words beside it alone.
-/

import Mathlib.Tactic

namespace TgRcore.Bytes

/-- A block of `n` bytes. -/
abbrev Blk (n : Nat) := Vector UInt8 n

namespace Blk

variable {n : Nat}

def byte (b : Blk n) (i : Nat) : UInt8 := if h : i < n then b.get ⟨i, h⟩ else 0

def tab (n : Nat) (f : Nat → UInt8) : Blk n := Vector.ofFn fun i : Fin n => f i

/-- The block of zero bytes. -/
def zero (n : Nat) : Blk n := tab n fun _ => 0

theorem byte_of_le (b : Blk n) {i : Nat} (h : n ≤ i) : b.byte i = 0 := by
  simp [byte, Nat.not_lt.mpr h]

theorem byte_tab (f : Nat → UInt8) {i : Nat} (h : i < n) : (tab n f).byte i = f i := by
  simp only [byte, tab, h, Vector.get, Vector.ofFn, dif_pos]
  simp
  rfl

@[simp] theorem byte_zero (i : Nat) : (zero n).byte i = 0 := by
  by_cases h : i < n
  · exact byte_tab _ h
  · exact byte_of_le _ (Nat.not_lt.mp h)

theorem ext_byte {a b : Blk n} (h : ∀ i < n, a.byte i = b.byte i) : a = b := by
  apply Vector.ext
  intro i hi
  have := h i hi
  simpa [byte, hi, Vector.get] using this

end Blk

/-! ## Little-endian words -/

/-- The `k`-th byte of `v`, least significant first. -/
def leByte (v k : Nat) : UInt8 := UInt8.ofNat (v / 256 ^ k % 256)

/-- The number whose `w` little-endian bytes are `f 0, …, f (w - 1)`. -/
def le (f : Nat → UInt8) : Nat → Nat
  | 0 => 0
  | w + 1 => (f 0).toNat + 256 * le (fun k => f (k + 1)) w

theorem le_congr {f g : Nat → UInt8} {w : Nat} (h : ∀ k < w, f k = g k) : le f w = le g w := by
  induction w generalizing f g with
  | zero => rfl
  | succ w ih => rw [le, le, h 0 (by omega), ih fun k hk => h (k + 1) (by omega)]

theorem le_add (f : Nat → UInt8) (w v : Nat) : le f (w + v) = le f w + 256 ^ w * le (fun k => f (w + k)) v := by
  induction w generalizing f with
  | zero => simp [le]
  | succ w ih =>
    have hshift : (fun k => f (w + 1 + k)) = fun k => f (w + k + 1) := funext fun k => by rw [Nat.add_right_comm]
    rw [Nat.add_right_comm, le, le, ih, hshift, Nat.pow_succ']
    ring

theorem le_lt (f : Nat → UInt8) (w : Nat) : le f w < 256 ^ w := by
  induction w generalizing f with
  | zero => simp [le]
  | succ w ih =>
    have hb : (f 0).toNat < 256 := (f 0).toNat_lt
    have := ih fun k => f (k + 1)
    rw [le, Nat.pow_succ']
    omega

@[simp] theorem leByte_toNat (v k : Nat) : (leByte v k).toNat = v / 256 ^ k % 256 := by
  have : v / 256 ^ k % 256 < 256 := Nat.mod_lt _ (by decide)
  simp [leByte, UInt8.toNat_ofNat']

theorem leByte_succ (v k : Nat) : leByte v (k + 1) = leByte (v / 256) k := by
  unfold leByte
  rw [Nat.pow_succ', Nat.div_div_eq_div_mul]

theorem le_leByte_mod (v w : Nat) : le (leByte v) w = v % 256 ^ w := by
  induction w generalizing v with
  | zero => simp [le, Nat.mod_one]
  | succ w ih =>
    simp only [le, leByte_succ]
    rw [ih, leByte_toNat, Nat.pow_zero, Nat.div_one, Nat.pow_succ', Nat.mod_mul]

theorem le_leByte {v w : Nat} (h : v < 256 ^ w) : le (leByte v) w = v := by
  rw [le_leByte_mod, Nat.mod_eq_of_lt h]

theorem le_leByte4 {v : Nat} (h : v < 2 ^ 32) : le (leByte v) 4 = v :=
  le_leByte (by norm_num at h ⊢; exact h)

theorem leByte_le {f : Nat → UInt8} {w k : Nat} (h : k < w) : leByte (le f w) k = f k := by
  induction w generalizing f k with
  | zero => omega
  | succ w ih =>
    have hb : (f 0).toNat < 256 := (f 0).toNat_lt
    rw [le]
    cases k with
    | zero =>
      apply UInt8.toNat_inj.mp
      rw [leByte_toNat, Nat.pow_zero, Nat.div_one]
      omega
    | succ k =>
      rw [leByte_succ, Nat.add_mul_div_left _ _ (by decide), Nat.div_eq_of_lt hb, Nat.zero_add]
      exact ih (f := fun k => f (k + 1)) (by omega)

namespace Blk

variable {n : Nat}

/-- The `w`-byte word at offset `off`. -/
def word (w : Nat) (b : Blk n) (off : Nat) : Nat := le (fun k => b.byte (off + k)) w

def setWord (w : Nat) (b : Blk n) (off v : Nat) : Blk n :=
  tab n fun i => if off ≤ i ∧ i < off + w then leByte v (i - off) else b.byte i

theorem word_lt (w : Nat) (b : Blk n) (off : Nat) : b.word w off < 256 ^ w := le_lt _ _

theorem word4_lt (b : Blk n) (off : Nat) : b.word 4 off < 2 ^ 32 := by
  have := word_lt 4 b off
  norm_num at this ⊢
  exact this

theorem byte_setWord (w : Nat) (b : Blk n) (off v : Nat) {i : Nat} (h : i < n) :
    (b.setWord w off v).byte i = if off ≤ i ∧ i < off + w then leByte v (i - off) else b.byte i :=
  byte_tab _ h

theorem word_setWord_same {w : Nat} (b : Blk n) {off v : Nat} (h : off + w ≤ n) (hv : v < 256 ^ w) :
    (b.setWord w off v).word w off = v := by
  rw [word, ← le_leByte hv]
  apply le_congr
  intro k hk
  rw [byte_setWord _ _ _ _ (by omega), if_pos (by omega)]
  congr 1
  · exact le_leByte hv
  · omega

theorem word_congr {w : Nat} {a b : Blk n} {off : Nat} (h : ∀ i, off ≤ i → i < off + w → a.byte i = b.byte i) :
    a.word w off = b.word w off :=
  le_congr fun k hk => h (off + k) (by omega) (by omega)

theorem word_setWord_of_disjoint {w w' : Nat} (b : Blk n) {off off' v : Nat}
    (h : off' + w' ≤ off ∨ off + w ≤ off') : (b.setWord w off v).word w' off' = b.word w' off' := by
  apply word_congr
  intro i h1 h2
  by_cases hi : i < n
  · rw [byte_setWord _ _ _ _ hi, if_neg (by omega)]
  · rw [byte_of_le _ (by omega), byte_of_le _ (by omega)]

@[simp] theorem word_zero (w off : Nat) : (zero n).word w off = 0 := by
  have : le (fun _ => 0) w = 0 := by
    induction w with
    | zero => rfl
    | succ w ih => simp [le, ih]
  simpa [word] using this

end Blk

end TgRcore.Bytes
