/-
  TgRcore.EasyFs.Layout — the on-disk structures of easy-fs (`layout.rs`).

  Two copies of the crate are modelled: the base crate and the one of chapter 6, whose
  `DiskInode` has one more field, `link_num`, and so takes 132 bytes and not 128. What
  differs between them is a function of `Crate`; the rest of the text is the same.

  Every structure is an overlay on a 512-byte block: `load` reads its fields, `store`
  writes them and leaves the other bytes (padding included) alone. Sizes of the source:
  `BLOCK_SZ` 512, `INODE_DIRECT_COUNT` 28, `INODE_INDIRECT1_COUNT` 128,
  `INDIRECT1_BOUND` 156, `INODE_INDIRECT2_COUNT` 16384, `DIRENT_SZ` 32,
  `NAME_LENGTH_LIMIT` 27. Arithmetic that can overflow is checked, as in the profile the
  kernels are run with.

  - `load_store`, `load_store_of_disjoint`: an inode is read back as it was stored, and
    storing it leaves the other slots of its block alone.
-/

import TgRcore.Lib.Bytes
import TgRcore.Lib.BlockProg

namespace TgRcore.EasyFs

open TgRcore.Bytes TgRcore.BlockProg TgRcore.BlockProg.Prog

abbrev Block := Blk 512

/-- Calls of the file system: programs over its blocks. -/
abbrev Fs := Prog Block

/-- The base easy-fs, and chapter 6's copy with hard links. -/
inductive Crate where
  | base
  | ch6
  deriving DecidableEq, Repr

/-- `size_of::<DiskInode>()` -/
def Crate.inodeSize : Crate → Nat
  | .base => 128
  | .ch6 => 132

/-- `BLOCK_SZ / size_of::<DiskInode>()` -/
def Crate.inodesPerBlock (c : Crate) : Nat := 512 / c.inodeSize

/-! ## SuperBlock -/

def efsMagic : Nat := 0x3b800001

structure SuperBlock where
  magic : Nat
  totalBlocks : Nat
  inodeBitmapBlocks : Nat
  inodeAreaBlocks : Nat
  dataBitmapBlocks : Nat
  dataAreaBlocks : Nat
  deriving DecidableEq, Repr

namespace SuperBlock

def load (b : Block) : SuperBlock where
  magic := b.word 4 0
  totalBlocks := b.word 4 4
  inodeBitmapBlocks := b.word 4 8
  inodeAreaBlocks := b.word 4 12
  dataBitmapBlocks := b.word 4 16
  dataAreaBlocks := b.word 4 20

def store (b : Block) (s : SuperBlock) : Block :=
  (((((b.setWord 4 0 s.magic).setWord 4 4 s.totalBlocks).setWord 4 8 s.inodeBitmapBlocks).setWord 4 12
    s.inodeAreaBlocks).setWord 4 16 s.dataBitmapBlocks).setWord 4 20 s.dataAreaBlocks

def init (totalBlocks inodeBitmapBlocks inodeAreaBlocks dataBitmapBlocks dataAreaBlocks : Nat) : SuperBlock :=
  ⟨efsMagic, totalBlocks, inodeBitmapBlocks, inodeAreaBlocks, dataBitmapBlocks, dataAreaBlocks⟩

def isValid (s : SuperBlock) : Bool := s.magic == efsMagic

end SuperBlock

/-! ## DiskInode -/

inductive DiskInodeType where
  | file
  | directory
  deriving DecidableEq, Repr

/-- The byte that holds the type. -/
def DiskInodeType.discr : DiskInodeType → UInt8
  | .file => 0
  | .directory => 1

/-- `link_num` is a field of chapter 6's inode only: the base crate neither reads nor
    writes it, and it stays 0 there. `type_` is the byte on disk. -/
structure DiskInode where
  size : Nat
  direct : Fin 28 → Nat
  indirect1 : Nat
  indirect2 : Nat
  type_ : UInt8
  linkNum : Nat

attribute [ext] DiskInode

namespace DiskInode

/-- `direct[i]` -/
def directAt (d : DiskInode) (i : Nat) : Nat := if h : i < 28 then d.direct ⟨i, h⟩ else 0

/-- `direct[i] = x` -/
def setDirect (d : DiskInode) (i x : Nat) : DiskInode :=
  { d with direct := fun j => if j.val = i then x else d.direct j }

def load (c : Crate) (b : Block) (off : Nat) : DiskInode where
  size := b.word 4 off
  direct := fun i => b.word 4 (off + 4 + 4 * i)
  indirect1 := b.word 4 (off + 116)
  indirect2 := b.word 4 (off + 120)
  type_ := b.byte (off + 124)
  linkNum := match c with
    | .base => 0
    | .ch6 => b.word 4 (off + 128)

/-- The `k`-th byte of the inode; `none` for padding. -/
def byteAt (d : DiskInode) (c : Crate) (k : Nat) : Option UInt8 :=
  if k < 4 then some (leByte d.size k)
  else if k < 116 then some (leByte (d.directAt ((k - 4) / 4)) ((k - 4) % 4))
  else if k < 120 then some (leByte d.indirect1 (k - 116))
  else if k < 124 then some (leByte d.indirect2 (k - 120))
  else if k = 124 then some d.type_
  else if c = .ch6 ∧ 128 ≤ k ∧ k < 132 then some (leByte d.linkNum (k - 128))
  else none

def store (c : Crate) (b : Block) (off : Nat) (d : DiskInode) : Block :=
  Blk.tab 512 fun i => if off ≤ i then (d.byteAt c (i - off)).getD (b.byte i) else b.byte i

/-! ### Loading and storing -/

/-- The values of `d` are u32 values, and the base crate's has no link count. -/
structure Fits (c : Crate) (d : DiskInode) : Prop where
  size : d.size < 2 ^ 32
  direct : ∀ i, d.directAt i < 2 ^ 32
  indirect1 : d.indirect1 < 2 ^ 32
  indirect2 : d.indirect2 < 2 ^ 32
  linkNum : d.linkNum < 2 ^ 32
  noLink : c = .base → d.linkNum = 0

theorem directAt_of_le (d : DiskInode) {i : Nat} (h : 28 ≤ i) : d.directAt i = 0 := by
  rw [directAt, dif_neg (by omega)]

theorem directAt_load (c : Crate) (b : Block) (off : Nat) {i : Nat} (hi : i < 28) :
    (load c b off).directAt i = b.word 4 (off + 4 + 4 * i) := dif_pos hi

theorem directAt_setDirect (d : DiskInode) (i x : Nat) {j : Nat} (hj : j < 28) :
    (d.setDirect i x).directAt j = if j = i then x else d.directAt j := by
  rw [directAt, dif_pos hj, directAt, dif_pos hj]
  rfl

theorem load_fits (c : Crate) (b : Block) (off : Nat) : (load c b off).Fits c := by
  refine ⟨Blk.word4_lt b _, fun i => ?_, Blk.word4_lt b _, Blk.word4_lt b _, ?_, ?_⟩
  · by_cases hi : i < 28
    · rw [directAt_load c b off hi]; exact Blk.word4_lt b _
    · rw [directAt_of_le _ (by omega)]; decide
  · cases c
    · simp [load]
    · exact Blk.word4_lt b _
  · rintro rfl; rfl

theorem byte_store {c : Crate} (b : Block) (off : Nat) (d : DiskInode) {k : Nat} (h : off + k < 512) :
    (store c b off d).byte (off + k) = (d.byteAt c k).getD (b.byte (off + k)) := by
  rw [store, Blk.byte_tab _ h, if_pos (by omega), Nat.add_sub_cancel_left]

/-- A word of the inode that `byteAt` spells out is read back. -/
theorem word_store {c : Crate} (b : Block) {off j v : Nat} (d : DiskInode) (h : off + j + 4 ≤ 512) (hv : v < 2 ^ 32)
    (hb : ∀ k < 4, d.byteAt c (j + k) = some (leByte v k)) : (store c b off d).word 4 (off + j) = v := by
  have : (store c b off d).word 4 (off + j) = le (leByte v) 4 := by
    apply le_congr
    intro k hk
    rw [Nat.add_assoc, byte_store b off d (by omega), hb k hk]
    rfl
  rw [this, le_leByte4 hv]

theorem load_store {c : Crate} (b : Block) {off : Nat} {d : DiskInode} (h : off + c.inodeSize ≤ 512)
    (hd : d.Fits c) : load c (store c b off d) off = d := by
  have hsz : 128 ≤ c.inodeSize := by cases c <;> decide
  have hsize : (store c b off d).word 4 off = d.size := by
    refine word_store (j := 0) b d (by omega) hd.size fun k hk => ?_
    rw [byteAt, if_pos (by omega), Nat.zero_add]
  have hdir : ∀ i < 28, (store c b off d).word 4 (off + 4 + 4 * i) = d.directAt i := by
    intro i hi
    rw [Nat.add_assoc]
    refine word_store (j := 4 + 4 * i) b d (by omega) (hd.direct i) ?_
    intro k hk
    rw [byteAt, if_neg (by omega), if_pos (by omega), show (4 + 4 * i + k - 4) / 4 = i by omega,
      show (4 + 4 * i + k - 4) % 4 = k by omega]
  have hi1 : (store c b off d).word 4 (off + 116) = d.indirect1 := by
    refine word_store (j := 116) b d (by omega) hd.indirect1 fun k hk => ?_
    rw [byteAt, if_neg (by omega), if_neg (by omega), if_pos (by omega), Nat.add_sub_cancel_left]
  have hi2 : (store c b off d).word 4 (off + 120) = d.indirect2 := by
    refine word_store (j := 120) b d (by omega) hd.indirect2 fun k hk => ?_
    rw [byteAt, if_neg (by omega), if_neg (by omega), if_neg (by omega), if_pos (by omega), Nat.add_sub_cancel_left]
  have hty : (store c b off d).byte (off + 124) = d.type_ := by
    rw [byte_store (k := 124) b off d (by omega), byteAt, if_neg (by omega), if_neg (by omega), if_neg (by omega),
      if_neg (by omega), if_pos rfl]
    rfl
  have hlink : (load c (store c b off d) off).linkNum = d.linkNum := by
    cases c with
    | base => exact (hd.noLink rfl).symm
    | ch6 =>
      simp only [Crate.inodeSize] at h
      refine word_store (j := 128) b d (by omega) hd.linkNum fun k hk => ?_
      rw [byteAt, if_neg (by omega), if_neg (by omega), if_neg (by omega), if_neg (by omega), if_neg (by omega),
        if_pos ⟨rfl, by omega, by omega⟩, Nat.add_sub_cancel_left]
  have hvec : (fun i : Fin 28 => (store c b off d).word 4 (off + 4 + 4 * i)) = d.direct := by
    funext i
    rw [hdir i i.isLt, directAt, dif_pos i.isLt]
  exact DiskInode.ext hsize hvec hi1 hi2 hty hlink

theorem load_congr {c : Crate} {a b : Block} {off : Nat}
    (h : ∀ i, off ≤ i → i < off + c.inodeSize → a.byte i = b.byte i) : load c a off = load c b off := by
  have hsz : 128 ≤ c.inodeSize := by cases c <;> decide
  have hw : ∀ j, j + 4 ≤ 128 → a.word 4 (off + j) = b.word 4 (off + j) := fun j hj =>
    Blk.word_congr fun i h1 h2 => h i (by omega) (by omega)
  have hsize := hw 0 (by omega)
  have hvec : (load c a off).direct = (load c b off).direct := by
    funext i
    simp only [load, Nat.add_assoc]
    exact hw _ (by omega)
  have hlink : (load c a off).linkNum = (load c b off).linkNum := by
    cases c with
    | base => rfl
    | ch6 => exact Blk.word_congr fun i h1 h2 => h i (by omega) (by simp only [Crate.inodeSize]; omega)
  exact DiskInode.ext hsize hvec (hw 116 (by omega)) (hw 120 (by omega)) (h (off + 124) (by omega) (by omega)) hlink

theorem byteAt_none {d : DiskInode} {c : Crate} {k : Nat} (h : c.inodeSize ≤ k) : d.byteAt c k = none := by
  cases c
  · simp only [Crate.inodeSize] at h
    rw [byteAt, if_neg (by omega), if_neg (by omega), if_neg (by omega), if_neg (by omega), if_neg (by omega),
      if_neg (by simp)]
  · simp only [Crate.inodeSize] at h
    rw [byteAt, if_neg (by omega), if_neg (by omega), if_neg (by omega), if_neg (by omega), if_neg (by omega),
      if_neg (by omega)]

/-- Bytes outside the slot stay. -/
theorem byte_store_of_disjoint {c : Crate} (b : Block) {off i : Nat} (d : DiskInode)
    (h : i < off ∨ off + c.inodeSize ≤ i) : (store c b off d).byte i = b.byte i := by
  by_cases hi : i < 512
  · rw [store, Blk.byte_tab _ hi]
    rcases h with h | h
    · rw [if_neg (by omega)]
    · rw [if_pos (by omega), byteAt_none (by omega)]; rfl
  · rw [Blk.byte_of_le _ (by omega), Blk.byte_of_le _ (by omega)]

theorem load_store_of_disjoint {c : Crate} (b : Block) {off off' : Nat} (d : DiskInode)
    (h : off' + c.inodeSize ≤ off ∨ off + c.inodeSize ≤ off') : load c (store c b off d) off' = load c b off' :=
  load_congr fun i h1 h2 => byte_store_of_disjoint b d (by omega)

theorem load_zero (c : Crate) (off : Nat) :
    load c (Blk.zero 512) off = ⟨0, fun _ => 0, 0, 0, 0, 0⟩ := by
  cases c <;> simp [load]

def init (c : Crate) (d : DiskInode) (t : DiskInodeType) : DiskInode where
  size := 0
  direct := fun _ => 0
  indirect1 := 0
  indirect2 := 0
  type_ := t.discr
  linkNum := match c with
    | .base => d.linkNum
    | .ch6 => 1

def isDir (d : DiskInode) : Bool := d.type_ == DiskInodeType.directory.discr

/-- `size.div_ceil(BLOCK_SZ)` -/
def dataBlocksOf (size : Nat) : Nat := (size + 511) / 512

def dataBlocks (d : DiskInode) : Nat := dataBlocksOf d.size

/-- Blocks needed for `size` bytes, index blocks included. -/
def totalBlocks (size : Nat) : Nat :=
  let dataBlocks := dataBlocksOf size
  dataBlocks + (if dataBlocks > 28 then 1 else 0) +
    (if dataBlocks > 156 then 1 + (dataBlocks - 156 + 127) / 128 else 0)

def blocksNumNeeded (d : DiskInode) (newSize : Nat) : Fs Nat := do
  assert (newSize ≥ d.size)
  return totalBlocks newSize - totalBlocks d.size

end DiskInode

/-! ## Index blocks -/

/-- `indirect[i]` for an `IndirectBlock = [u32; 128]`. -/
def getIndirect (b : Block) (i : Nat) : Fs Nat := if i < 128 then ret (b.word 4 (4 * i)) else .panic

/-- `indirect[i] = v` -/
def setIndirect (b : Block) (i v : Nat) : Fs Block := if i < 128 then ret (b.setWord 4 (4 * i) v) else .panic

/-- `new_blocks.next().unwrap()` -/
def nextBlock : List Nat → Fs (Nat × List Nat)
  | x :: l => ret (x, l)
  | [] => .panic

namespace DiskInode

def getBlockId (d : DiskInode) (innerId : Nat) : Fs Nat :=
  if innerId < 28 then ret (d.directAt innerId)
  else if innerId < 156 then readBlock d.indirect1 fun b => getIndirect b (innerId - 28)
  else do
    let last := innerId - 156
    let indirect1 ← readBlock d.indirect2 fun b => getIndirect b (last / 128)
    readBlock indirect1 fun b => getIndirect b (last % 128)

/-- `while current_blocks < bound`: fill the direct pointers. -/
def fillDirect (d : DiskInode) (current bound : Nat) (newBlocks : List Nat) : Fs (DiskInode × Nat × List Nat) :=
  if current < bound then do
    let (x, newBlocks) ← nextBlock newBlocks
    fillDirect (d.setDirect current x) (current + 1) bound newBlocks
  else ret (d, current, newBlocks)
termination_by bound - current

/-- `while current_blocks < bound`: fill the first-level index block. -/
def fillIndirect1 (b : Block) (current bound : Nat) (newBlocks : List Nat) : Fs ((Nat × List Nat) × Block) :=
  if current < bound then do
    let (x, newBlocks) ← nextBlock newBlocks
    let b ← setIndirect b current x
    fillIndirect1 b (current + 1) bound newBlocks
  else ret ((current, newBlocks), b)
termination_by bound - current

/-- Fill the second-level index from `(a0, b0)` to `(a1, b1)`: a new index block at
    every `b0 = 0`, then the block itself. -/
def fillIndirect2 (b : Block) (a0 b0 a1 b1 : Nat) (newBlocks : List Nat) : Fs (List Nat × Block) :=
  if _h : a0 < a1 ∨ (a0 = a1 ∧ b0 < b1) then
    -- `indirect1[b0]` is in bounds
    if _hb : b0 < 128 then do
      let (b, newBlocks) ← if b0 = 0 then do
          let (x, newBlocks) ← nextBlock newBlocks
          let b ← setIndirect b a0 x
          pure (b, newBlocks)
        else pure (b, newBlocks)
      let sub ← getIndirect b a0
      let newBlocks ← modifyBlock sub fun indirect1 => do
        let (x, newBlocks) ← nextBlock newBlocks
        let indirect1 ← setIndirect indirect1 b0 x
        pure (newBlocks, indirect1)
      if b0 + 1 = 128 then fillIndirect2 b (a0 + 1) 0 a1 b1 newBlocks
      else fillIndirect2 b a0 (b0 + 1) a1 b1 newBlocks
    else .panic
  else ret (newBlocks, b)
termination_by (a1 + 1 - a0, 128 - b0)

/-- `if current_blocks == INODE_DIRECT_COUNT`: the first-level index block itself. -/
def takeIndirect1 (d : DiskInode) (current : Nat) (newBlocks : List Nat) : Fs (DiskInode × List Nat) :=
  if current = 28 then do
    let (x, newBlocks) ← nextBlock newBlocks
    pure ({ d with indirect1 := x }, newBlocks)
  else pure (d, newBlocks)

/-- `if current_blocks == INODE_INDIRECT1_COUNT`: the second-level index block itself. -/
def takeIndirect2 (d : DiskInode) (current : Nat) (newBlocks : List Nat) : Fs (DiskInode × List Nat) :=
  if current = 128 then do
    let (x, newBlocks) ← nextBlock newBlocks
    pure ({ d with indirect2 := x }, newBlocks)
  else pure (d, newBlocks)

def increaseSize (d : DiskInode) (newSize : Nat) (newBlocks : List Nat) : Fs DiskInode := do
  let current := d.dataBlocks
  let d := { d with size := newSize }
  let total := d.dataBlocks
  -- stage 1: the direct pointers
  let (d, current, newBlocks) ← fillDirect d current (min total 28) newBlocks
  if total > 28 then
    -- stage 2: the first-level index block
    let (d, newBlocks) ← d.takeIndirect1 current newBlocks
    let current := current - 28
    let total := total - 28
    let (current, newBlocks) ← modifyBlock d.indirect1 fun indirect1 =>
      fillIndirect1 indirect1 current (min total 128) newBlocks
    if total > 128 then
      -- stage 3: the second-level index
      let (d, newBlocks) ← d.takeIndirect2 current newBlocks
      let current := current - 128
      let total := total - 128
      let _ ← modifyBlock d.indirect2 fun indirect2 =>
        fillIndirect2 indirect2 (current / 128) (current % 128) (total / 128) (total % 128) newBlocks
      pure d
    else pure d
  else pure d

/-- `while current_blocks < bound`: collect and zero the direct pointers. -/
def clearDirect (d : DiskInode) (current bound : Nat) (v : List Nat) : List Nat × DiskInode :=
  if current < bound then
    clearDirect (d.setDirect current 0) (current + 1) bound
      (v ++ [d.directAt current])
  else (v, d)
termination_by bound - current

/-- The first `n` entries of an index block. -/
def indirectEntries (b : Block) (n : Nat) : List Nat := (List.range n).map fun i => b.word 4 (4 * i)

/-- `for entry in indirect2.iter_mut().take(a1)`: each full index block and its entries. -/
def clearSubs : List Nat → Fs (List Nat)
  | [] => ret []
  | entry :: rest => do
    let entries ← modifyBlock entry fun indirect1 => ret (indirectEntries indirect1 128, indirect1)
    let v ← clearSubs rest
    return entry :: entries ++ v

def clearSize (d : DiskInode) : Fs (List Nat × DiskInode) := do
  let dataBlocks := d.dataBlocks
  let d := { d with size := 0 }
  let (v, d) := clearDirect d 0 (min dataBlocks 28) []
  if dataBlocks > 28 then
    let v := v ++ [d.indirect1]
    let dataBlocks := dataBlocks - 28
    let entries ← modifyBlock d.indirect1 fun indirect1 =>
      ret (indirectEntries indirect1 (min dataBlocks 128), indirect1)
    let v := v ++ entries
    let d := { d with indirect1 := 0 }
    if dataBlocks > 128 then
      let v := v ++ [d.indirect2]
      let dataBlocks := dataBlocks - 128
      assert (dataBlocks ≤ 16384)
      let a1 := dataBlocks / 128
      let b1 := dataBlocks % 128
      let subs ← modifyBlock d.indirect2 fun indirect2 => do
        let full ← clearSubs (indirectEntries indirect2 (min a1 128))
        if b1 > 0 then
          let last ← getIndirect indirect2 a1
          let entries ← modifyBlock last fun indirect1 => ret (indirectEntries indirect1 b1, indirect1)
          pure (full ++ last :: entries, indirect2)
        else pure (full, indirect2)
      return (v ++ subs, { d with indirect2 := 0 })
    else return (v, d)
  else return (v, d)

end DiskInode

/-! ## Reading and writing -/

/-- `block[off..off + n]` -/
def Block.slice (b : Block) (off n : Nat) : List UInt8 := (List.range n).map fun i => b.byte (off + i)

/-- `block[off..off + l.len()].copy_from_slice(l)` -/
def Block.patch (b : Block) (off : Nat) (l : List UInt8) : Block :=
  Blk.tab 512 fun i => if off ≤ i ∧ i < off + l.length then l.getD (i - off) 0 else b.byte i

namespace DiskInode

/-- The loop of `read_at`; `acc` are the bytes read so far. -/
def readLoop (d : DiskInode) (startBlock start fin : Nat) (acc : List UInt8) : Fs (List UInt8) := do
  let endCurrent := min ((start / 512 + 1) * 512) fin
  let n := endCurrent - start
  let id ← d.getBlockId startBlock
  let src ← readBlock id fun b => ret (Block.slice b (start % 512) n)
  if _h : endCurrent = fin then ret (acc ++ src)
  else readLoop d (startBlock + 1) endCurrent fin (acc ++ src)
termination_by fin - start
decreasing_by omega

/-- Returns the number of bytes read and the buffer, filled from its front. -/
def readAt (d : DiskInode) (offset : Nat) (buf : List UInt8) : Fs (Nat × List UInt8) := do
  assert (offset + buf.length < 2 ^ 64)
  let fin := min (offset + buf.length) d.size
  if offset ≥ fin then ret (0, buf)
  else
    let bytes ← d.readLoop (offset / 512) offset fin []
    return (bytes.length, bytes ++ buf.drop bytes.length)

/-- The loop of `write_at`; `written` bytes of `buf` are written already. -/
def writeLoop (d : DiskInode) (buf : List UInt8) (startBlock start fin written : Nat) : Fs Nat := do
  let endCurrent := min ((start / 512 + 1) * 512) fin
  let n := endCurrent - start
  let id ← d.getBlockId startBlock
  modifyBlock id fun b => ret ((), Block.patch b (start % 512) ((buf.drop written).take n))
  if _h : endCurrent = fin then ret (written + n)
  else writeLoop d buf (startBlock + 1) endCurrent fin (written + n)
termination_by fin - start
decreasing_by omega

/-- Returns the number of bytes written. -/
def writeAt (d : DiskInode) (offset : Nat) (buf : List UInt8) : Fs Nat := do
  assert (offset + buf.length < 2 ^ 64)
  let fin := min (offset + buf.length) d.size
  assert (offset ≤ fin)
  d.writeLoop buf (offset / 512) offset fin 0

end DiskInode

/-! ## DirEntry -/

def strBytes (s : String) : List UInt8 := s.toByteArray.data.toList

/-- A NUL-padded name and an inode number. -/
structure DirEntry where
  name : Blk 28
  inodeNumber : Nat

namespace DirEntry

def empty : DirEntry := ⟨Blk.zero 28, 0⟩

/-- `bytes[..name.len()]` panics for names of more than 28 bytes. -/
def new (name : String) (inodeNumber : Nat) : Fs DirEntry := do
  assert ((strBytes name).length ≤ 28)
  return ⟨Blk.tab 28 fun i => (strBytes name).getD i 0, inodeNumber⟩

def asBytes (e : DirEntry) : List UInt8 :=
  (List.range 28).map e.name.byte ++ (List.range 4).map (leByte e.inodeNumber)

def ofBytes (l : List UInt8) : DirEntry :=
  ⟨Blk.tab 28 fun i => l.getD i 0, le (fun k => l.getD (28 + k) 0) 4⟩

/-- The bytes before the first NUL, as a string: a name without NUL runs off the array,
    a name that is not UTF-8 fails to decode. -/
def getName (e : DirEntry) : Fs String := do
  let len ← unwrap ((List.range 28).find? fun i => e.name.byte i == 0)
  unwrap (String.fromUTF8? ((List.range len).map e.name.byte).toByteArray)

end DirEntry

end TgRcore.EasyFs
