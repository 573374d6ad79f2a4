/-
  TgRcore.EasyFs.Ownership — who uses which block of the disk.

  `Wf efs blk k` reads the first `k` inodes of the disk as block trees (`tree`): every
  block in use is in the data area, its bit is set, and it is in use at one place of one
  inode only. `Full` adds the converse: every set bit is accounted for, and the blocks
  that are not in use are zero.

  A call on one inode is a `TreeStep`: it touches the tree it starts with, the tree it
  ends with and the data bitmap. `Wf.step` and `Full.step` say that storing the inode
  back after such a step keeps the invariants and every other inode as it was.
-/

import TgRcore.EasyFs.Vfs
import TgRcore.EasyFs.IndexRun

namespace TgRcore.EasyFs

open TgRcore.Bytes TgRcore.BlockProg TgRcore.BlockProg.Prog

/-! ## Where things are -/

namespace EasyFileSystem

variable (efs : EasyFileSystem)

def inodeBlock (id : Nat) : Nat := efs.inodeAreaStartBlock + id / efs.crate.inodesPerBlock

def inodeOff (id : Nat) : Nat := id % efs.crate.inodesPerBlock * efs.crate.inodeSize

def inodeAreaBlocks : Nat := efs.dataBitmap.startBlockId - efs.inodeAreaStartBlock

/-- Whole inode slots of the inode area. -/
def slots : Nat := efs.crate.inodesPerBlock * efs.inodeAreaBlocks

/-- Inode `id` as it stands on the disk. -/
def inodeAt (blk : Nat → Block) (id : Nat) : DiskInode :=
  DiskInode.load efs.crate (blk (efs.inodeBlock id)) (efs.inodeOff id)

/-- The blocks in use by inode `id`. -/
def treeAt (blk : Nat → Block) (id : Nat) : List Nat := tree (efs.inodeAt blk id) blk

/-- Is data block `b` allocated? -/
def dataBit (blk : Nat → Block) (b : Nat) : Bool := efs.dataBitmap.bit blk (b - efs.dataAreaStartBlock)

/-- A block that has a bit in the data bitmap. -/
structure InData (b : Nat) : Prop where
  le : efs.dataAreaStartBlock ≤ b
  lt : b < efs.dataAreaStartBlock + efs.dataBitmap.maximum

/-- The order of the areas on the disk. -/
structure Geometry : Prop where
  inodeBitmap : efs.inodeBitmap.startBlockId = 1
  inodeArea : efs.inodeAreaStartBlock = 1 + efs.inodeBitmap.blocks
  dataBitmap : efs.inodeAreaStartBlock ≤ efs.dataBitmap.startBlockId
  dataArea : efs.dataAreaStartBlock = efs.dataBitmap.startBlockId + efs.dataBitmap.blocks
  bits : efs.dataBitmap.maximum < 2 ^ 32
  lt : efs.dataAreaStartBlock < 2 ^ 32

variable {efs}

theorem inodesPerBlock_pos (c : Crate) : 0 < c.inodesPerBlock := by cases c <;> decide

theorem inodesPerBlock_mul_le (c : Crate) : c.inodesPerBlock * c.inodeSize ≤ 512 := by cases c <;> decide

theorem inodeOff_add_le (id : Nat) : efs.inodeOff id + efs.crate.inodeSize ≤ 512 := by
  have h1 : id % efs.crate.inodesPerBlock < efs.crate.inodesPerBlock := Nat.mod_lt _ (inodesPerBlock_pos _)
  have h2 := inodesPerBlock_mul_le efs.crate
  unfold inodeOff
  calc id % efs.crate.inodesPerBlock * efs.crate.inodeSize + efs.crate.inodeSize
      = (id % efs.crate.inodesPerBlock + 1) * efs.crate.inodeSize := by ring
    _ ≤ efs.crate.inodesPerBlock * efs.crate.inodeSize := Nat.mul_le_mul_right _ h1
    _ ≤ 512 := h2

/-- Slots of one block do not overlap. -/
theorem inodeOff_disjoint {id id' : Nat} (hne : id ≠ id') (hb : efs.inodeBlock id = efs.inodeBlock id') :
    efs.inodeOff id' + efs.crate.inodeSize ≤ efs.inodeOff id ∨
      efs.inodeOff id + efs.crate.inodeSize ≤ efs.inodeOff id' := by
  unfold inodeBlock at hb
  have hdiv : id / efs.crate.inodesPerBlock = id' / efs.crate.inodesPerBlock := by omega
  have hmod : id % efs.crate.inodesPerBlock ≠ id' % efs.crate.inodesPerBlock := by
    intro e
    apply hne
    rw [← Nat.div_add_mod id efs.crate.inodesPerBlock, ← Nat.div_add_mod id' efs.crate.inodesPerBlock, hdiv, e]
  unfold inodeOff
  rcases Nat.lt_or_gt_of_ne hmod with h | h
  · right
    rw [← Nat.succ_mul]
    exact Nat.mul_le_mul_right _ h
  · left
    rw [← Nat.succ_mul]
    exact Nat.mul_le_mul_right _ h

theorem Geometry.inodeBlock_lt (hg : efs.Geometry) {id : Nat} (h : id < efs.slots) :
    efs.inodeBlock id < efs.dataBitmap.startBlockId := by
  have h1 := hg.dataBitmap
  have h2 : id / efs.crate.inodesPerBlock < efs.inodeAreaBlocks :=
    Nat.div_lt_of_lt_mul (by unfold slots at h; exact h)
  unfold inodeBlock
  unfold inodeAreaBlocks at h2
  omega

theorem Geometry.inodeBlock_lt_area (hg : efs.Geometry) {id : Nat} (h : id < efs.slots) :
    efs.inodeBlock id < efs.dataAreaStartBlock := by
  have h1 := hg.inodeBlock_lt h
  have h2 := hg.dataArea
  omega

theorem le_inodeBlock (id : Nat) : efs.inodeAreaStartBlock ≤ efs.inodeBlock id := Nat.le_add_right _ _

end EasyFileSystem

/-! ## The invariants -/

/-- The first `k` inodes use blocks of the data area, each at one place. -/
structure Wf (efs : EasyFileSystem) (blk : Nat → Block) (k : Nat) : Prop where
  geo : efs.Geometry
  slots : k ≤ efs.slots
  small : ∀ id < k, (efs.inodeAt blk id).dataBlocks ≤ 16540
  nodup : ∀ id < k, (efs.treeAt blk id).Nodup
  disjoint : ∀ id < k, ∀ id' < k, id ≠ id' → ∀ b ∈ efs.treeAt blk id, b ∉ efs.treeAt blk id'
  inData : ∀ id < k, ∀ b ∈ efs.treeAt blk id, efs.InData b
  u32 : ∀ id < k, ∀ b ∈ efs.treeAt blk id, b < 2 ^ 32
  marked : ∀ id < k, ∀ b ∈ efs.treeAt blk id, efs.dataBit blk b = true

/-- On a device of `size` blocks: the set bits are the blocks in use, the rest is zero,
    and the inode bitmap says which inodes there are. -/
structure Full (efs : EasyFileSystem) (size : Nat) (blk : Nat → Block) (k : Nat) : Prop extends Wf efs blk k where
  used : ∀ b, efs.InData b → efs.dataBit blk b = true → ∃ id < k, b ∈ efs.treeAt blk id
  zero : ∀ b, efs.InData b → b < size → efs.dataBit blk b = false → blk b = Blk.zero 512
  inodeBits : ∀ i < efs.inodeBitmap.maximum, efs.inodeBitmap.bit blk i = decide (i < k)

/-- A call on the inode `d` of the disk `blk` that leaves the inode `d'` (not stored yet)
    and the disk `blk'`. -/
structure TreeStep (efs : EasyFileSystem) (d : DiskInode) (blk : Nat → Block) (d' : DiskInode) (blk' : Nat → Block) :
    Prop where
  fits : d'.Fits efs.crate
  small : d'.dataBlocks ≤ 16540
  nodup : (tree d' blk').Nodup
  fresh : ∀ b ∈ tree d' blk', b ∈ tree d blk ∨ (efs.InData b ∧ b < 2 ^ 32 ∧ efs.dataBit blk b = false)
  frame : ∀ b, b ∉ tree d blk → b ∉ tree d' blk' → (b < efs.dataBitmap.startBlockId ∨ efs.dataAreaStartBlock ≤ b) →
    blk' b = blk b
  bits : ∀ b, efs.InData b →
    (efs.dataBit blk' b = true ↔ b ∈ tree d' blk' ∨ (efs.dataBit blk b = true ∧ b ∉ tree d blk))
  freed : ∀ b ∈ tree d blk, b ∉ tree d' blk' → blk' b = Blk.zero 512

/-- What storing one inode leaves alone. -/
structure InodeStep (efs : EasyFileSystem) (blk blk' : Nat → Block) (k id : Nat) : Prop where
  others : ∀ id' < efs.slots, id' ≠ id → efs.inodeAt blk' id' = efs.inodeAt blk id'
  low : ∀ b < efs.inodeAreaStartBlock, blk' b = blk b
  kept : ∀ id' < k, id' ≠ id → ∀ b ∈ efs.treeAt blk id', blk' b = blk b

/-- The disk with inode `id` stored back, the rest of its block being that of `blk`. -/
def storeInode (efs : EasyFileSystem) (blk blk₁ : Nat → Block) (id : Nat) (d : DiskInode) : Nat → Block :=
  Function.update blk₁ (efs.inodeBlock id) (DiskInode.store efs.crate (blk (efs.inodeBlock id)) (efs.inodeOff id) d)

theorem tree_congr {d : DiskInode} {blk blk' : Nat → Block} (hs : d.dataBlocks ≤ 16540)
    (h : ∀ b ∈ tree d blk, blk' b = blk b) : tree d blk' = tree d blk :=
  List.map_congr_left fun _ hσ => ptr_congr (slotsOf_ordered hs)
    (fun _ hτ _ => h _ (List.mem_map_of_mem hτ)) hσ

section Step

variable {efs : EasyFileSystem} {blk blk₁ : Nat → Block} {k id size : Nat} {d : DiskInode}

theorem inodeAt_storeInode_self (hd : d.Fits efs.crate) : efs.inodeAt (storeInode efs blk blk₁ id d) id = d := by
  unfold storeInode EasyFileSystem.inodeAt
  rw [Function.update_self]
  exact DiskInode.load_store _ (EasyFileSystem.inodeOff_add_le id) hd

theorem inodeAt_storeInode_of_ne {id' : Nat} (hne : id' ≠ id)
    (h : blk₁ (efs.inodeBlock id') = blk (efs.inodeBlock id')) :
    efs.inodeAt (storeInode efs blk blk₁ id d) id' = efs.inodeAt blk id' := by
  unfold storeInode EasyFileSystem.inodeAt
  by_cases hb : efs.inodeBlock id' = efs.inodeBlock id
  · rw [hb, Function.update_self]
    exact DiskInode.load_store_of_disjoint _ _ ((EasyFileSystem.inodeOff_disjoint hne hb).symm)
  · rw [Function.update_of_ne hb, h]

theorem storeInode_of_ne {b : Nat} (h : b ≠ efs.inodeBlock id) : storeInode efs blk blk₁ id d b = blk₁ b :=
  Function.update_of_ne h _ _

/-- Blocks of the data area are not inode blocks. -/
theorem EasyFileSystem.Geometry.ne_inodeBlock (hg : efs.Geometry) (hid : id < efs.slots) {b : Nat}
    (hb : efs.dataBitmap.startBlockId ≤ b) : b ≠ efs.inodeBlock id := by
  have := hg.inodeBlock_lt hid
  omega

namespace TreeStep

variable (hw : Wf efs blk k) (hid : id < k) (hs : TreeStep efs (efs.inodeAt blk id) blk d blk₁)

include hw hid hs

theorem inData {b : Nat} (hb : b ∈ tree d blk₁) : efs.InData b := by
  rcases hs.fresh b hb with h | h
  · exact hw.inData id hid b h
  · exact h.1

theorem low {b : Nat} (hb : b < efs.dataBitmap.startBlockId) : blk₁ b = blk b := by
  have hg := hw.geo.dataArea
  refine hs.frame b (fun h => ?_) (fun h => ?_) (.inl hb)
  · have := (hw.inData id hid b h).le
    omega
  · have := (hs.inData hw hid h).le
    omega

/-- A block of another inode is not touched. -/
theorem other {id' : Nat} (hid' : id' < k) (hne : id' ≠ id) {b : Nat} (hb : b ∈ efs.treeAt blk id') :
    b ∉ tree d blk₁ ∧ blk₁ b = blk b := by
  have hold : b ∉ efs.treeAt blk id := hw.disjoint id' hid' id hid hne b hb
  have hnew : b ∉ tree d blk₁ := by
    intro h
    rcases hs.fresh b h with h | ⟨-, -, h⟩
    · exact hold h
    · rw [hw.marked id' hid' b hb] at h
      cases h
  exact ⟨hnew, hs.frame b hold hnew (.inr (hw.inData id' hid' b hb).le)⟩

theorem tree_store : tree d (storeInode efs blk blk₁ id d) = tree d blk₁ := by
  refine tree_congr hs.small fun b hb => storeInode_of_ne ?_
  have h1 := (hs.inData hw hid hb).le
  have h2 := hw.geo.dataArea
  exact hw.geo.ne_inodeBlock (Nat.lt_of_lt_of_le hid hw.slots) (by omega)

theorem inodeStep : InodeStep efs blk (storeInode efs blk blk₁ id d) k id where
  others id' hid' hne := inodeAt_storeInode_of_ne hne (hs.low hw hid (hw.geo.inodeBlock_lt hid'))
  low b hb := by
    rw [storeInode_of_ne (by have := efs.le_inodeBlock id; omega)]
    exact hs.low hw hid (by have := hw.geo.dataBitmap; omega)
  kept id' hid' hne b hb := by
    have h1 := (hw.inData id' hid' b hb).le
    have h2 := hw.geo.dataArea
    rw [storeInode_of_ne (hw.geo.ne_inodeBlock (Nat.lt_of_lt_of_le hid hw.slots) (by omega))]
    exact (hs.other hw hid hid' hne hb).2

end TreeStep

theorem InodeStep.treeAt {blk' : Nat → Block} (hw : Wf efs blk k) (h : InodeStep efs blk blk' k id) {id' : Nat}
    (hid' : id' < k) (hne : id' ≠ id) : efs.treeAt blk' id' = efs.treeAt blk id' := by
  unfold EasyFileSystem.treeAt
  rw [h.others id' (Nat.lt_of_lt_of_le hid' hw.slots) hne]
  exact tree_congr (hw.small id' hid') (h.kept id' hid' hne)

/-- The data bits do not lie in the inode area. -/
theorem dataBit_storeInode (hg : efs.Geometry) (hid : id < efs.slots) {b : Nat} (hb : efs.InData b) :
    efs.dataBit (storeInode efs blk blk₁ id d) b = efs.dataBit blk₁ b := by
  refine Bitmap.bit_congr ?_ fun c h1 _ => storeInode_of_ne (hg.ne_inodeBlock hid h1)
  have h1 := hb.le
  have h2 := hb.lt
  omega

section

variable (hw : Wf efs blk k) (hid : id < k) (hs : TreeStep efs (efs.inodeAt blk id) blk d blk₁)

include hw hid hs

theorem TreeStep.treeAt_self : efs.treeAt (storeInode efs blk blk₁ id d) id = tree d blk₁ := by
  unfold EasyFileSystem.treeAt
  rw [inodeAt_storeInode_self hs.fits, hs.tree_store hw hid]

theorem Wf.step : Wf efs (storeInode efs blk blk₁ id d) k := by
  have hst := hs.inodeStep hw hid
  have hself := hs.treeAt_self hw hid
  have hslot := Nat.lt_of_lt_of_le hid hw.slots
  refine ⟨hw.geo, hw.slots, fun i hi => ?_, fun i hi => ?_, fun i hi j hj hne b hb => ?_, fun i hi b hb => ?_,
    fun i hi b hb => ?_, fun i hi b hb => ?_⟩
  · by_cases e : i = id
    · subst e
      rw [inodeAt_storeInode_self hs.fits]
      exact hs.small
    · rw [hst.others i (Nat.lt_of_lt_of_le hi hw.slots) e]
      exact hw.small i hi
  · by_cases e : i = id
    · subst e
      rw [hself]
      exact hs.nodup
    · rw [hst.treeAt hw hi e]
      exact hw.nodup i hi
  · by_cases e : i = id
    · subst e
      rw [hself] at hb
      rw [hst.treeAt hw hj hne.symm]
      exact fun h => (hs.other hw hid hj hne.symm h).1 hb
    · rw [hst.treeAt hw hi e] at hb
      by_cases e' : j = id
      · subst e'
        rw [hself]
        exact (hs.other hw hid hi e hb).1
      · rw [hst.treeAt hw hj e']
        exact hw.disjoint i hi j hj hne b hb
  · by_cases e : i = id
    · subst e
      rw [hself] at hb
      exact hs.inData hw hid hb
    · rw [hst.treeAt hw hi e] at hb
      exact hw.inData i hi b hb
  · by_cases e : i = id
    · subst e
      rw [hself] at hb
      rcases hs.fresh b hb with h | h
      · exact hw.u32 i hid b h
      · exact h.2.1
    · rw [hst.treeAt hw hi e] at hb
      exact hw.u32 i hi b hb
  · by_cases e : i = id
    · subst e
      rw [hself] at hb
      have hin := hs.inData hw hid hb
      rw [dataBit_storeInode hw.geo hslot hin]
      exact (hs.bits b hin).mpr (.inl hb)
    · rw [hst.treeAt hw hi e] at hb
      have hin := hw.inData i hi b hb
      rw [dataBit_storeInode hw.geo hslot hin]
      exact (hs.bits b hin).mpr (.inr ⟨hw.marked i hi b hb, hw.disjoint i hi id hid e b hb⟩)

end

/-- Free blocks are zero. -/
def FreeZero (efs : EasyFileSystem) (size : Nat) (blk : Nat → Block) : Prop :=
  ∀ b, efs.InData b → b < size → efs.dataBit blk b = false → blk b = Blk.zero 512

theorem FreeZero.step (hz : FreeZero efs size blk) (hw : Wf efs blk k) (hid : id < k)
    (hs : TreeStep efs (efs.inodeAt blk id) blk d blk₁) : FreeZero efs size (storeInode efs blk blk₁ id d) := by
  intro b hin hlt hb
  have hslot := Nat.lt_of_lt_of_le hid hw.slots
  rw [dataBit_storeInode hw.geo hslot hin] at hb
  have hnew : b ∉ tree d blk₁ := by
    intro h
    rw [(hs.bits b hin).mpr (.inl h)] at hb
    cases hb
  have hle := hin.le
  have hg := hw.geo.dataArea
  rw [storeInode_of_ne (hw.geo.ne_inodeBlock hslot (by omega))]
  by_cases hold : b ∈ efs.treeAt blk id
  · exact hs.freed b hold hnew
  · rw [hs.frame b hold hnew (.inr hle)]
    refine hz b hin hlt ?_
    by_contra hc
    rw [(hs.bits b hin).mpr (.inr ⟨by simpa using hc, hold⟩)] at hb
    cases hb

theorem Full.step (hf : Full efs size blk k) (hid : id < k) (hs : TreeStep efs (efs.inodeAt blk id) blk d blk₁) :
    Full efs size (storeInode efs blk blk₁ id d) k := by
  have hw := hf.toWf
  have hst := hs.inodeStep hw hid
  have hself := hs.treeAt_self hw hid
  have hslot := Nat.lt_of_lt_of_le hid hw.slots
  refine ⟨hw.step hid hs, fun b hin hb => ?_, FreeZero.step hf.zero hw hid hs, fun i hi => ?_⟩
  · rw [dataBit_storeInode hw.geo hslot hin] at hb
    rcases (hs.bits b hin).mp hb with h | ⟨h, hold⟩
    · exact ⟨id, hid, by rw [hself]; exact h⟩
    · obtain ⟨j, hj, hm⟩ := hf.used b hin h
      have hne : j ≠ id := by rintro rfl; exact hold hm
      exact ⟨j, hj, by rw [hst.treeAt hw hj hne]; exact hm⟩
  · rw [← hf.inodeBits i hi]
    refine Bitmap.bit_congr hi fun c h1 h2 => hst.low c ?_
    have h3 := hw.geo.inodeBitmap
    have h4 := hw.geo.inodeArea
    omega

/-- Inodes may be emptied, and empty ones may come in, while the data part stays. -/
theorem Wf.of_emptied {blk' : Nat → Block} {k' : Nat} (hw : Wf efs blk k) (hk : k' ≤ efs.slots)
    (hdata : ∀ b, efs.dataBitmap.startBlockId ≤ b → blk' b = blk b)
    (hin : ∀ i < k', (efs.inodeAt blk' i).size = 0 ∨ (i < k ∧ efs.inodeAt blk' i = efs.inodeAt blk i)) :
    Wf efs blk' k' := by
  have hda := hw.geo.dataArea
  have htree : ∀ i < k', efs.treeAt blk' i = [] ∨ (i < k ∧ efs.treeAt blk' i = efs.treeAt blk i) := by
    intro i hi
    unfold EasyFileSystem.treeAt
    rcases hin i hi with h | ⟨h, e⟩
    · left
      unfold tree DiskInode.dataBlocks
      rw [h]
      rfl
    · right
      rw [e]
      refine ⟨h, tree_congr (hw.small i h) fun b hb => hdata b ?_⟩
      have := (hw.inData i h b hb).le
      omega
  have hmem : ∀ i < k', ∀ b ∈ efs.treeAt blk' i, i < k ∧ b ∈ efs.treeAt blk i := by
    intro i hi b hb
    rcases htree i hi with h | ⟨h, e⟩
    · rw [h] at hb
      cases hb
    · exact ⟨h, e ▸ hb⟩
  refine ⟨hw.geo, hk, fun i hi => ?_, fun i hi => ?_, fun i hi j hj hne b hb hb' => ?_, fun i hi b hb => ?_,
    fun i hi b hb => ?_, fun i hi b hb => ?_⟩
  · rcases hin i hi with h | ⟨h, e⟩
    · unfold DiskInode.dataBlocks
      rw [h]
      decide
    · rw [e]
      exact hw.small i h
  · rcases htree i hi with h | ⟨h, e⟩
    · rw [h]
      exact List.nodup_nil
    · rw [e]
      exact hw.nodup i h
  · obtain ⟨h1, h2⟩ := hmem i hi b hb
    obtain ⟨h3, h4⟩ := hmem j hj b hb'
    exact hw.disjoint i h1 j h3 hne b h2 h4
  · obtain ⟨h1, h2⟩ := hmem i hi b hb
    exact hw.inData i h1 b h2
  · obtain ⟨h1, h2⟩ := hmem i hi b hb
    exact hw.u32 i h1 b h2
  · obtain ⟨h1, h2⟩ := hmem i hi b hb
    have hb' := hw.inData i h1 b h2
    rw [← hw.marked i h1 b h2]
    exact Bitmap.bit_congr (by have := hb'.le; have := hb'.lt; omega) fun c h3 _ => hdata c h3

end Step

end TgRcore.EasyFs
