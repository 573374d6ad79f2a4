/-
  TgRcore.EasyFs.InodeSlots — where the inodes of chapter 6's easy-fs lie (`create`,
  `get_disk_inode_pos`, `get_inode_id`).

  `create` sizes the inode area by bytes (inodes times 132, rounded up to blocks), but a
  block holds three whole inodes only: 12 of its bytes are left over.
  - `slot_inside_iff`: the slot of an inode is in the inode area, and leads back to the
    inode, exactly for the numbers below three times the blocks of the area.
  - `slots_apart`: slots of different inodes never overlap.
  - `inode_in_data_bitmap`: with one inode bitmap block, inode 3168 lies in the data bitmap.
-/

import TgRcore.EasyFs.Format

namespace TgRcore.EasyFs

open TgRcore.Bytes TgRcore.BlockProg TgRcore.BlockProg.Prog

/-- `get_disk_inode_pos` names a slot that lies in one block of the inode area, which has
    `areaBlocks` blocks, and `get_inode_id` gives the number back. -/
def SlotInside (efs : EasyFileSystem) (areaBlocks id : Nat) : Prop :=
  ∃ b off, efs.getDiskInodePos id = ret (b, off) ∧ off + efs.crate.inodeSize ≤ 512 ∧ efs.inodeAreaStartBlock ≤ b ∧
    b < efs.inodeAreaStartBlock + areaBlocks ∧ efs.getInodeId b off = ret id

/-- The slots of two inodes have no byte in common. -/
def SlotsApart (efs : EasyFileSystem) (id id' : Nat) : Prop :=
  ∀ p q, efs.getDiskInodePos id = ret p → efs.getDiskInodePos id' = ret q →
    p.1 ≠ q.1 ∨ p.2 + efs.crate.inodeSize ≤ q.2 ∨ q.2 + efs.crate.inodeSize ≤ p.2

section Slots

variable {efs : EasyFileSystem} {id id' : Nat}

theorem getDiskInodePos_eq {p : Nat × Nat} (h : efs.getDiskInodePos id = ret p) :
    p = (efs.inodeBlock id, efs.inodeOff id) := by
  unfold EasyFileSystem.getDiskInodePos addU32 at h
  split at h
  · cases h
    rfl
  · cases h

theorem slots_apart (h : id ≠ id') : SlotsApart efs id id' := by
  intro p q hp hq
  rw [getDiskInodePos_eq hp, getDiskInodePos_eq hq]
  by_cases hb : efs.inodeBlock id = efs.inodeBlock id'
  · exact .inr (EasyFileSystem.inodeOff_disjoint h hb).symm
  · exact .inl hb

/-- The way back, as long as nothing overflows. -/
theorem getInodeId_handle (hb : efs.inodeBlock id < 2 ^ 32) (hid : id < 2 ^ 32) :
    efs.getInodeId (efs.inodeBlock id) (efs.inodeOff id) = ret id := by
  have hsz : 0 < efs.crate.inodeSize := by cases efs.crate <;> decide
  have hsmall : efs.crate.inodesPerBlock ≤ 512 := by cases efs.crate <;> decide
  have hmod : id % efs.crate.inodesPerBlock < efs.crate.inodesPerBlock :=
    Nat.mod_lt _ (EasyFileSystem.inodesPerBlock_pos _)
  have hdiv := Nat.div_add_mod id efs.crate.inodesPerBlock
  have hsub : efs.inodeBlock id - efs.inodeAreaStartBlock = id / efs.crate.inodesPerBlock := by
    unfold EasyFileSystem.inodeBlock
    exact Nat.add_sub_cancel_left _ _
  have hoff : efs.inodeOff id / efs.crate.inodeSize = id % efs.crate.inodesPerBlock := Nat.mul_div_cancel _ hsz
  have hle := efs.le_inodeBlock id
  rw [Nat.mul_comm] at hdiv
  have hprod : id / efs.crate.inodesPerBlock * efs.crate.inodesPerBlock < 2 ^ 32 := by omega
  have hu1 : asU32 (efs.inodeBlock id) = efs.inodeBlock id := Nat.mod_eq_of_lt hb
  have hu2 : asU32 (id % efs.crate.inodesPerBlock) = id % efs.crate.inodesPerBlock := Nat.mod_eq_of_lt (by omega)
  unfold EasyFileSystem.getInodeId
  rw [hu1, subU32_eq hle, ret_bind, hsub, mulU32, if_pos hprod, ret_bind, hoff, hu2, addU32_eq (by omega), hdiv]

end Slots

section Geometry

variable {total ibb id : Nat}

/-- For a geometry that `create` accepts and an inode number: its slot is in the inode area
    exactly below the number of whole slots of the area; it is apart from all others anyway. -/
theorem slot_inside_iff (ha : Accepts .ch6 total ibb) (hu : id < 2 ^ 32) :
    SlotInside (layout .ch6 total ibb) (areaBlocks .ch6 ibb) id ∧ (∀ id' ≠ id, SlotsApart (layout .ch6 total ibb) id id') ↔
      id < 3 * areaBlocks .ch6 ibb := by
  have hper : (layout .ch6 total ibb).crate.inodesPerBlock = 3 := show Crate.ch6.inodesPerBlock = 3 by decide
  have hstart : (layout .ch6 total ibb).inodeAreaStartBlock = 1 + ibb := rfl
  have hblock : (layout .ch6 total ibb).inodeBlock id = 1 + ibb + id / 3 := by
    unfold EasyFileSystem.inodeBlock
    rw [hper, hstart]
  have h1 := ha.u32
  have h2 := ha.fits
  constructor
  · intro h
    obtain ⟨⟨b, off, hpos, -, -, hlt, -⟩, -⟩ := h
    have hb : b = 1 + ibb + id / 3 := (congrArg Prod.fst (getDiskInodePos_eq hpos)).trans hblock
    rw [hb, hstart] at hlt
    omega
  · intro hlt
    have hb : (layout .ch6 total ibb).inodeBlock id < 2 ^ 32 := by
      rw [hblock]
      omega
    refine ⟨⟨_, _, ?_, EasyFileSystem.inodeOff_add_le id, (layout .ch6 total ibb).le_inodeBlock id, ?_,
      getInodeId_handle hb hu⟩, fun id' hne => slots_apart hne.symm⟩
    · unfold EasyFileSystem.getDiskInodePos
      rw [hper, hstart, addU32_eq (by omega), ret_bind, hblock]
      unfold EasyFileSystem.inodeOff
      rw [hper]
      rfl
    · rw [hblock, hstart]
      omega

/-- Inode 5 of the small geometry. -/
theorem slot_inside_five : SlotInside (layout .ch6 1200 1) (areaBlocks .ch6 1) 5 ∧
    ∀ id' ≠ 5, SlotsApart (layout .ch6 1200 1) 5 id' :=
  (slot_inside_iff ⟨by norm_num, by decide, by decide⟩ (by norm_num)).mpr (by decide)

/-- With one inode bitmap block there are 4096 inode numbers, and room for 3168 inodes. -/
theorem inode_in_data_bitmap : ¬ ∀ total ibb id, Accepts .ch6 total ibb → 0 < ibb →
    id < (layout .ch6 total ibb).inodeBitmap.maximum → id < 2 ^ 32 →
    SlotInside (layout .ch6 total ibb) (areaBlocks .ch6 ibb) id ∧ ∀ id' ≠ id, SlotsApart (layout .ch6 total ibb) id id' := by
  intro h
  obtain ⟨⟨b, off, hpos, -, -, hlt, -⟩, -⟩ :=
    h 1200 1 3168 ⟨by norm_num, by decide, by decide⟩ (by decide) (by decide) (by norm_num)
  have hb : b = 1058 := congrArg Prod.fst (getDiskInodePos_eq hpos)
  have harea : (layout .ch6 1200 1).inodeAreaStartBlock + areaBlocks .ch6 1 = 1058 := rfl
  omega

end Geometry

end TgRcore.EasyFs
