/-
  TgRcore.EasyFs.Partition — the areas of a new file system, and the geometry that `open`
  finds again (`create`, `open` of `efs.rs`, the base easy-fs).

  `create` computes the areas from its arguments, `open` from the fields of the super block.
  The data bitmap has one bit for each of 4096 blocks it brings with it, so one block in
  4097 is a bitmap block.
  - `layout_partition`: the areas follow each other and fill the device.
  - `layout_bits`: every data block has a bit, at most 4096 bits have no block.
  - `geometry_partition`: both, of a device that `create` was run on, and `open` there, with
    the caches as they are or empty, finds the same geometry.
-/

import TgRcore.EasyFs.BlockOwners
import TgRcore.EasyFs.Durability

namespace TgRcore.EasyFs

open TgRcore.Bytes TgRcore.BlockProg TgRcore.BlockProg.Prog

/-- The areas, in the order in which they lie on the device. -/
inductive Area where
  | superBlock
  | inodeBitmap
  | inodeArea
  | dataBitmap
  | dataArea
  deriving DecidableEq, Repr

namespace Area

def pos : Area → Nat
  | superBlock => 0
  | inodeBitmap => 1
  | inodeArea => 2
  | dataBitmap => 3
  | dataArea => 4

/-- First block of an area. -/
def start (efs : EasyFileSystem) : Area → Nat
  | superBlock => 0
  | inodeBitmap => efs.inodeBitmap.startBlockId
  | inodeArea => efs.inodeAreaStartBlock
  | dataBitmap => efs.dataBitmap.startBlockId
  | dataArea => efs.dataAreaStartBlock

/-- Blocks of an area, as the super block has them. -/
def blocks (sb : SuperBlock) : Area → Nat
  | superBlock => 1
  | inodeBitmap => sb.inodeBitmapBlocks
  | inodeArea => sb.inodeAreaBlocks
  | dataBitmap => sb.dataBitmapBlocks
  | dataArea => sb.dataAreaBlocks

/-- Block `b` is in the area. -/
def Has (efs : EasyFileSystem) (sb : SuperBlock) (a : Area) (b : Nat) : Prop :=
  a.start efs ≤ b ∧ b < a.start efs + a.blocks sb

end Area

/-- The areas lie in order and have the blocks below `total` between them. -/
structure Partition (efs : EasyFileSystem) (sb : SuperBlock) (total : Nat) : Prop where
  covers : ∀ b, (∃ a, Area.Has efs sb a b) ↔ b < total
  ordered : ∀ (a a' : Area) (b b' : Nat), a.pos < a'.pos → Area.Has efs sb a b → Area.Has efs sb a' b' → b < b'

section

variable {total ibb : Nat}

/-- What `create` is given in the claim is what its arithmetic accepts. -/
theorem accepts_of_lt (h32 : total < 2 ^ 32) (hfit : 1 + 1025 * ibb < total) : Accepts .base total ibb := by
  have harea := areaBlocks_base (show 1025 * ibb < 2 ^ 32 by omega)
  exact ⟨h32, by omega, by omega⟩

/-- Block `b` is in area `a` of a new file system. -/
def InLayout (total ibb : Nat) (a : Area) (b : Nat) : Prop :=
  Area.Has (layout .base total ibb) (superBlock .base total ibb) a b

theorem inLayout_superBlock (b : Nat) : InLayout total ibb .superBlock b ↔ 0 ≤ b ∧ b < 0 + 1 := Iff.rfl

theorem inLayout_inodeBitmap (b : Nat) : InLayout total ibb .inodeBitmap b ↔ 1 ≤ b ∧ b < 1 + ibb := Iff.rfl

theorem inLayout_inodeArea (b : Nat) : InLayout total ibb .inodeArea b ↔
    1 + ibb ≤ b ∧ b < 1 + ibb + areaBlocks .base ibb := Iff.rfl

theorem inLayout_dataBitmap (b : Nat) : InLayout total ibb .dataBitmap b ↔
    1 + ibb + areaBlocks .base ibb ≤ b ∧ b < 1 + ibb + areaBlocks .base ibb + bitmapBlocks .base total ibb := Iff.rfl

theorem inLayout_dataArea (b : Nat) : InLayout total ibb .dataArea b ↔
    1 + (ibb + areaBlocks .base ibb) + bitmapBlocks .base total ibb ≤ b ∧
      b < 1 + (ibb + areaBlocks .base ibb) + bitmapBlocks .base total ibb +
        (total - 1 - (ibb + areaBlocks .base ibb) - bitmapBlocks .base total ibb) := Iff.rfl

theorem layout_covers (h : Accepts .base total ibb) (b : Nat) : (∃ a, InLayout total ibb a b) ↔ b < total := by
  have hle := bitmapBlocks_le h
  constructor
  · rintro ⟨a, ha⟩
    cases a with
    | superBlock => rw [inLayout_superBlock] at ha; omega
    | inodeBitmap => rw [inLayout_inodeBitmap] at ha; omega
    | inodeArea => rw [inLayout_inodeArea] at ha; omega
    | dataBitmap => rw [inLayout_dataBitmap] at ha; omega
    | dataArea => rw [inLayout_dataArea] at ha; omega
  · intro hb
    by_cases h1 : b < 1
    · exact ⟨.superBlock, (inLayout_superBlock b).2 (by omega)⟩
    by_cases h2 : b < 1 + ibb
    · exact ⟨.inodeBitmap, (inLayout_inodeBitmap b).2 (by omega)⟩
    by_cases h3 : b < 1 + ibb + areaBlocks .base ibb
    · exact ⟨.inodeArea, (inLayout_inodeArea b).2 (by omega)⟩
    by_cases h4 : b < 1 + ibb + areaBlocks .base ibb + bitmapBlocks .base total ibb
    · exact ⟨.dataBitmap, (inLayout_dataBitmap b).2 (by omega)⟩
    · exact ⟨.dataArea, (inLayout_dataArea b).2 (by omega)⟩

/-- Where an area ends, the next one begins. -/
theorem layout_ordered {a a' : Area} {b b' : Nat} (hlt : a.pos < a'.pos) (h1 : InLayout total ibb a b)
    (h2 : InLayout total ibb a' b') : b < b' := by
  have hstart : a.start (layout .base total ibb) + a.blocks (superBlock .base total ibb) ≤ a'.start (layout .base total ibb) := by
    cases a <;> cases a' <;> simp [Area.pos] at hlt <;>
      simp [Area.start, Area.blocks, layout, superBlock, SuperBlock.init] <;> omega
  have h3 := h1.2
  have h4 := h2.1
  omega

theorem layout_partition (h : Accepts .base total ibb) :
    Partition (layout .base total ibb) (superBlock .base total ibb) total :=
  ⟨layout_covers h, fun _ _ _ _ => layout_ordered⟩

/-- One bitmap block for 4096 data blocks and itself. -/
theorem layout_bits (h : Accepts .base total ibb) :
    (superBlock .base total ibb).dataAreaBlocks ≤ (layout .base total ibb).dataBitmap.maximum ∧
      (layout .base total ibb).dataBitmap.maximum ≤ (superBlock .base total ibb).dataAreaBlocks + 4096 := by
  have hfits := h.fits
  show total - 1 - (ibb + areaBlocks .base ibb) - bitmapBlocks .base total ibb ≤ bitmapBlocks .base total ibb * 4096 ∧
    bitmapBlocks .base total ibb * 4096 ≤ total - 1 - (ibb + areaBlocks .base ibb) - bitmapBlocks .base total ibb + 4096
  unfold bitmapBlocks
  omega

end

/-- The super block of a device that `create` was run on. -/
theorem super_created {dev : BlockDevice Block} {m : Cached Block} {total ibb : Nat} (ha : Accepts .base total ibb)
    (hi : 0 < ibb) (hat : At (layout .base total ibb) dev m ((flat dev).withBlk (formatted .base total ibb dev.data))) :
    SuperBlock.load (m.w.dev.data 0) = superBlock .base total ibb := by
  have hsuper : ((flat dev).withBlk (formatted .base total ibb dev.data)).blk 0 =
      SuperBlock.store (Blk.zero 512) (superBlock .base total ibb) := formatted_super hi
  rw [hat.dev_eq, hsuper]
  exact SuperBlock.load_store (superBlock_fits ha) _

theorem geometry_partition (dev : BlockDevice Block) {total ibb : Nat} (hi : 1 ≤ ibb) (h32 : total < 2 ^ 32)
    (hfit : 1 + 1025 * ibb < total) (hdev : total ≤ dev.size) :
    ∃ efs m sb, runCached (EasyFileSystem.create .base total ibb) (boot dev) = .ok (efs, m) ∧
      sb = SuperBlock.load (m.w.dev.data 0) ∧ sb.isValid = true ∧ sb.totalBlocks = total ∧
      Partition efs sb total ∧
      sb.dataAreaBlocks ≤ efs.dataBitmap.maximum ∧ efs.dataBitmap.maximum ≤ sb.dataAreaBlocks + 4096 ∧
      (∃ m', runCached (EasyFileSystem.openFs .base) m = .ok (efs, m')) ∧
      ∃ m', runCached (EasyFileSystem.openFs .base) (boot m.w.dev) = .ok (efs, m') := by
  have ha := accepts_of_lt h32 hfit
  have hstart : ∃ m, runCached (EasyFileSystem.create .base total ibb) (boot dev) =
      .ok (layout .base total ibb, m) := start_returns ha hi hdev (by omega)
  obtain ⟨m, hrun⟩ := hstart
  obtain ⟨-, -, -, -, -, hat⟩ := At.start h32 hrun
  have hsuper : ((flat dev).withBlk (formatted .base total ibb dev.data)).blk 0 =
      SuperBlock.store (Blk.zero 512) (superBlock .base total ibb) := formatted_super hi
  have hsb := super_created ha hi hat
  have hfree : ((flat dev).withBlk (formatted .base total ibb dev.data)).Free 0 :=
    ⟨by simp [flat], by simp [flat, blockCacheSize], by show 0 < dev.size; omega⟩
  -- the device is the flat store of the cache
  have hopen := openFs_run ha hfree hsuper
  obtain ⟨m₁, hopen₁, -⟩ := runCached_of_run hat.quiet.sim hopen
  have hboot := hat.quiet.flat_eq
  rw [← hboot] at hopen
  obtain ⟨m₂, hopen₂, -⟩ := runCached_of_run (quiet_boot m.w.dev).sim hopen
  exact ⟨_, m, _, hrun, hsb.symm, beq_self_eq_true efsMagic, rfl, layout_partition ha, (layout_bits ha).1, (layout_bits ha).2,
    ⟨m₁, hopen₁⟩, m₂, hopen₂⟩

/-- A file system with 73 data blocks. -/
theorem geometry_partition_small : ∃ efs m sb,
    runCached (EasyFileSystem.create .base 1100 1) (boot ⟨1100, fun _ => Blk.zero 512⟩) = .ok (efs, m) ∧
      sb = SuperBlock.load (m.w.dev.data 0) ∧ sb.dataAreaBlocks = 73 ∧ Partition efs sb 1100 := by
  obtain ⟨efs, m, sb, h1, h2, -, -, h3, -⟩ := geometry_partition ⟨1100, fun _ => Blk.zero 512⟩ (Nat.le_refl 1) (by norm_num)
    (by norm_num) (Nat.le_refl 1100)
  obtain ⟨ha, hi, -, -, rfl, hat⟩ := At.start (by norm_num) h1
  have hsb := super_created ha hi hat
  refine ⟨_, m, sb, h1, h2, ?_, h3⟩
  rw [h2, hsb]
  rfl

end TgRcore.EasyFs
