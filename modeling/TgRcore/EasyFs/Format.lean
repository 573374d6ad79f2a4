/-
  TgRcore.EasyFs.Format — making a file system on a device (`EasyFileSystem::create`) and
  finding it again (`open`).

  `layout` is the geometry that `create` computes, `Accepts` the condition under which its
  u32 arithmetic goes through.
  - `create_run`, `create_ok`: `create` returns exactly on an accepted geometry with at
    least one inode-bitmap block that fits the device, and leaves the disk `formatted`.
  - `formatted_full`: a formatted device has one inode, the root, and every data block is
    free and zero.
  - `openFs_run`: `open` reads the geometry back from the super block.
-/

import TgRcore.EasyFs.Ops

namespace TgRcore.EasyFs

open TgRcore.Bytes TgRcore.BlockProg TgRcore.BlockProg.Prog

/-! ## The geometry -/

/-- Blocks of the inode area, as `create` computes them. -/
def areaBlocks (c : Crate) (ibb : Nat) : Nat := asU32 ((ibb * 4096 * c.inodeSize + 511) / 512)

/-- Blocks of the data bitmap, as `create` computes them. -/
def bitmapBlocks (c : Crate) (total ibb : Nat) : Nat := (total - 1 - (ibb + areaBlocks c ibb) + 4096) / 4097

def layout (c : Crate) (total ibb : Nat) : EasyFileSystem :=
  ⟨c, ⟨1, ibb⟩, ⟨1 + ibb + areaBlocks c ibb, bitmapBlocks c total ibb⟩, 1 + ibb,
    1 + (ibb + areaBlocks c ibb) + bitmapBlocks c total ibb⟩

/-- No step of the u32 arithmetic of `create` overflows. -/
structure Accepts (c : Crate) (total ibb : Nat) : Prop where
  u32 : total < 2 ^ 32
  area : ibb + areaBlocks c ibb < 2 ^ 32
  fits : 1 + (ibb + areaBlocks c ibb) ≤ total

theorem bitmapBlocks_le {c : Crate} {total ibb : Nat} (h : Accepts c total ibb) :
    1 + (ibb + areaBlocks c ibb) + bitmapBlocks c total ibb ≤ total := by
  have := h.fits
  unfold bitmapBlocks
  omega

theorem layout_geometry {c : Crate} {total ibb : Nat} (h : Accepts c total ibb) : (layout c total ibb).Geometry := by
  have h1 := h.u32
  have h2 := bitmapBlocks_le h
  refine ⟨rfl, rfl, ?_, ?_, ?_, ?_⟩
  · show 1 + ibb ≤ 1 + ibb + areaBlocks c ibb
    omega
  · show 1 + (ibb + areaBlocks c ibb) + bitmapBlocks c total ibb = 1 + ibb + areaBlocks c ibb + bitmapBlocks c total ibb
    omega
  · show bitmapBlocks c total ibb * 4096 < 2 ^ 32
    unfold bitmapBlocks
    omega
  · show 1 + (ibb + areaBlocks c ibb) + bitmapBlocks c total ibb < 2 ^ 32
    omega

theorem layout_inodeAreaBlocks (c : Crate) (total ibb : Nat) :
    (layout c total ibb).inodeAreaBlocks = areaBlocks c ibb := by
  show 1 + ibb + areaBlocks c ibb - (1 + ibb) = _
  omega

theorem layout_slots (c : Crate) (total ibb : Nat) :
    (layout c total ibb).slots = c.inodesPerBlock * areaBlocks c ibb := by
  unfold EasyFileSystem.slots
  rw [layout_inodeAreaBlocks]
  rfl

/-- The block of the root inode is before the end. -/
theorem Accepts.root_lt {c : Crate} {total ibb : Nat} (h : Accepts c total ibb) (hs : 0 < (layout c total ibb).slots) :
    1 + ibb < total := by
  have hle := h.fits
  rw [layout_slots] at hs
  rcases Nat.eq_zero_or_pos (areaBlocks c ibb) with h0 | h0
  · simp [h0] at hs
  · omega

/-! ## Creating -/

def superBlock (c : Crate) (total ibb : Nat) : SuperBlock :=
  SuperBlock.init total ibb (areaBlocks c ibb) (bitmapBlocks c total ibb)
    (total - 1 - (ibb + areaBlocks c ibb) - bitmapBlocks c total ibb)

/-- `create` once the geometry is known. -/
def formatDisk (c : Crate) (total ibb : Nat) : Fs EasyFileSystem := do
  zeroBlocks total 0
  modifyBlock 0 fun b => ret ((), SuperBlock.store b (superBlock c total ibb))
  let rootId ← (layout c total ibb).allocInode
  assert (rootId = 0)
  let (blockId, off) ← (layout c total ibb).getDiskInodePos 0
  modifyInode c blockId off fun d => ret ((), d.init c .directory)
  sync
  return layout c total ibb

theorem addU32_eq {a b : Nat} (h : a + b < 2 ^ 32) : addU32 a b = ret (a + b) := if_pos h
theorem subU32_eq {a b : Nat} (h : b ≤ a) : subU32 a b = ret (a - b) := if_pos h

theorem create_eq {c : Crate} {total ibb : Nat} (h : Accepts c total ibb) :
    EasyFileSystem.create c total ibb = formatDisk c total ibb := by
  have h1 := h.u32
  have h2 := h.area
  have h3 := h.fits
  have h4 := bitmapBlocks_le h
  have hb : bitmapBlocks c total ibb = (total - 1 - (ibb + areaBlocks c ibb) + 4096) / 4097 := rfl
  unfold EasyFileSystem.create
  simp only [Bitmap.maximum]
  rw [show asU32 ((ibb * 4096 * c.inodeSize + 511) / 512) = areaBlocks c ibb from rfl, addU32_eq h2, ret_bind,
    subU32_eq (by omega), ret_bind, subU32_eq (by omega), ret_bind, ← hb, subU32_eq (by omega), ret_bind,
    addU32_eq (by omega), ret_bind, addU32_eq (by omega), ret_bind, addU32_eq (by omega), ret_bind,
    addU32_eq (by omega), ret_bind]
  rfl

theorem accepts_of_create {c : Crate} {total ibb : Nat} (ht : total < 2 ^ 32) {s : Store Block}
    {r : EasyFileSystem × Store Block} (h : (EasyFileSystem.create c total ibb).run s = .ok r) : Accepts c total ibb := by
  unfold EasyFileSystem.create at h
  simp only [Bitmap.maximum] at h
  rw [show asU32 ((ibb * 4096 * c.inodeSize + 511) / 512) = areaBlocks c ibb from rfl] at h
  unfold addU32 subU32 at h
  by_cases h2 : ibb + areaBlocks c ibb < 2 ^ 32
  · rw [if_pos h2, ret_bind] at h
    by_cases h3 : 1 ≤ total
    · rw [if_pos h3, ret_bind] at h
      by_cases h4 : ibb + areaBlocks c ibb ≤ total - 1
      · exact ⟨ht, h2, by omega⟩
      · rw [if_neg h4] at h
        cases h
    · rw [if_neg h3] at h
      cases h
  · rw [if_neg h2] at h
    cases h

/-- The first `n` blocks zeroed. -/
def zeroed (blk : Nat → Block) (n : Nat) : Nat → Block := fun b => if b < n then Blk.zero 512 else blk b

theorem zeroBlocks_run {s : Store Block} (hh : s.held = []) (hc : 0 < s.cap) (n i : Nat) (h : i + n ≤ s.size)
    (hi : zeroed s.blk i = s.blk) : (zeroBlocks n i).run s = .ok ((), s.withBlk (zeroed s.blk (i + n))) := by
  induction n generalizing s i with
  | zero =>
    rw [Nat.add_zero, hi]
    rfl
  | succ n ih =>
    have hf : s.Free i := ⟨by rw [hh]; simp, by rw [hh]; exact hc, by omega⟩
    have hupd : Function.update s.blk i (Blk.zero 512) = zeroed s.blk (i + 1) := by
      funext b
      unfold zeroed
      by_cases e : b = i
      · subst e
        simp
      · rw [Function.update_of_ne e]
        have := congrFun hi b
        unfold zeroed at this
        by_cases hb : b < i
        · rw [if_pos (by omega), ← this, if_pos hb]
        · rw [if_neg (by omega)]
    have hz : ∀ m k, m ≤ k → zeroed (zeroed s.blk m) k = zeroed s.blk k := by
      intro m k hmk
      funext b
      unfold zeroed
      split
      · rfl
      · rw [if_neg (by omega)]
    rw [zeroBlocks, run_bind_of (run_modifyBlock_ret (fun _ : Block => ((), Blk.zero 512)) hf)]
    simp only [hupd]
    rw [ih (s := s.withBlk (zeroed s.blk (i + 1))) hh hc (i + 1) (by simp; omega) (by
      rw [Store.withBlk_blk, hz _ _ (Nat.le_refl _)]), Store.withBlk_blk, hz _ _ (by omega),
      show i + 1 + n = i + (n + 1) by omega]
    rfl

theorem zeroBlocks_ok {s : Store Block} {n i : Nat} {r : Unit × Store Block} (h : (zeroBlocks n i).run s = .ok r)
    (hi : i ≤ s.size) : i + n ≤ s.size := by
  induction n generalizing s i with
  | zero => exact hi
  | succ n ih =>
    obtain ⟨u, s₁, h1, h⟩ := run_bind_ok.mp h
    obtain ⟨hf, hs⟩ := modifyRet_ok h1
    simp only at hs
    have := hf.onDevice
    have := ih h (by rw [hs]; show i + 1 ≤ s.size; omega)
    rw [hs] at this
    have : i + 1 + n ≤ s.size := this
    omega

section Formatting

variable {c : Crate} {total ibb : Nat} {s : Store Block}

/-- The disk just before the first inode is taken. -/
def blankDisk (c : Crate) (total ibb : Nat) (blk : Nat → Block) : Nat → Block :=
  Function.update (zeroed blk total) 0 (SuperBlock.store (Blk.zero 512) (superBlock c total ibb))

/-- The disk after `create`: all zero but the super block, the first inode bit and the root inode. -/
def formatted (c : Crate) (total ibb : Nat) (blk : Nat → Block) : Nat → Block :=
  let blkB := (layout c total ibb).inodeBitmap.setBit (blankDisk c total ibb blk) 0
  storeInode (layout c total ibb) blkB blkB 0 (((layout c total ibb).inodeAt blkB 0).init c .directory)

theorem blankDisk_zero {blk : Nat → Block} {b : Nat} (h0 : b ≠ 0) (h : b < total) :
    blankDisk c total ibb blk b = Blk.zero 512 := by
  unfold blankDisk zeroed
  rw [Function.update_of_ne h0, if_pos h]

theorem blankDisk_next (ha : Accepts c total ibb) (hi : 0 < ibb) (blk : Nat → Block) :
    NextInode (layout c total ibb) (blankDisk c total ibb blk) 0 := by
  have h1 := ha.fits
  refine ⟨?_, Bitmap.bit_zero (blankDisk_zero ?_ ?_), by simp⟩
  · show 0 < ibb * 4096
    omega
  · show 0 / 4096 + 1 ≠ 0
    omega
  · show 0 / 4096 + 1 < total
    omega

theorem initRoot_run {blkB : Nat → Block} (hf : (s.withBlk blkB).Free ((layout c total ibb).inodeBlock 0)) :
    (modifyInode c ((layout c total ibb).inodeBlock 0) ((layout c total ibb).inodeOff 0) fun d =>
      ret ((), d.init c .directory)).run (s.withBlk blkB) = .ok ((), s.withBlk (storeInode (layout c total ibb) blkB blkB 0
        (((layout c total ibb).inodeAt blkB 0).init c .directory))) :=
  modifyDiskInode_run (layout c total ibb) 0 (f := fun d => ret ((), d.init c .directory)) (v := ())
    (d := ((layout c total ibb).inodeAt blkB 0).init c .directory) hf rfl

theorem create_run (ha : Accepts c total ibb) (hi : 0 < ibb) (hh : s.held = []) (hc : s.cap = 16) (hs : total ≤ s.size)
    (hroot : 1 + ibb < s.size) :
    (EasyFileSystem.create c total ibb).run s = .ok (layout c total ibb, s.withBlk (formatted c total ibb s.blk)) := by
  have h1 := ha.u32
  have h2 := ha.fits
  have h3 := bitmapBlocks_le ha
  have hg := layout_geometry ha
  have hzero := zeroBlocks_run (s := s) hh (by rw [hc]; decide) total 0 (by omega) (by funext b; simp [zeroed])
  rw [Nat.zero_add] at hzero
  have hl : Locked (layout c total ibb) (s.withBlk (blankDisk c total ibb s.blk)) :=
    ⟨hg, hh, hc, by show 1 + (ibb + areaBlocks c ibb) + bitmapBlocks c total ibb ≤ s.size; omega⟩
  have hf0 : (s.withBlk (zeroed s.blk total)).Free 0 := ⟨by simp [hh], by simp [hh, hc], by simp; omega⟩
  have hsuper := run_modifyBlock_ret (fun b : Block => ((), SuperBlock.store b (superBlock c total ibb))) hf0
  have hz0 : zeroed s.blk total 0 = Blk.zero 512 := if_pos (by omega)
  simp only [Store.withBlk_blk, Store.withBlk_withBlk, hz0] at hsuper
  rw [← blankDisk] at hsuper
  have halloc := allocInode_run hl (blankDisk_next ha hi s.blk)
  have hpos : (layout c total ibb).getDiskInodePos 0 = ret ((layout c total ibb).inodeBlock 0, (layout c total ibb).inodeOff 0) := by
    have hdiv : 0 / (layout c total ibb).crate.inodesPerBlock = 0 := Nat.zero_div _
    have hlt : (layout c total ibb).inodeAreaStartBlock + 0 < 2 ^ 32 := by
      show 1 + ibb + 0 < 2 ^ 32
      omega
    unfold EasyFileSystem.getDiskInodePos EasyFileSystem.inodeBlock EasyFileSystem.inodeOff
    rw [hdiv, addU32, if_pos hlt]
    rfl
  have hib : (layout c total ibb).inodeBlock 0 = 1 + ibb := by
    unfold EasyFileSystem.inodeBlock
    rw [Nat.zero_div]
    rfl
  rw [create_eq ha, formatDisk, run_bind_of hzero, run_bind_of hsuper, run_bind_of halloc,
    assert_true (show asU32 0 = 0 from rfl), ret_bind, hpos, ret_bind]
  simp only [Store.withBlk_blk, Store.withBlk_withBlk]
  generalize hblk : (layout c total ibb).inodeBitmap.setBit (blankDisk c total ibb s.blk) 0 = blkB
  have hfree : (s.withBlk blkB).Free ((layout c total ibb).inodeBlock 0) :=
    ⟨by simp [hh], by simp [hh, hc], by rw [hib]; exact hroot⟩
  have hmod := initRoot_run (c := c) hfree
  have hform : storeInode (layout c total ibb) blkB blkB 0 (((layout c total ibb).inodeAt blkB 0).init c .directory) =
      formatted c total ibb s.blk := by rw [formatted, hblk]
  rw [hform] at hmod
  have hsync := run_sync (s := s.withBlk (formatted c total ibb s.blk)) hh
  rw [run_bind_of hmod, run_bind_of hsync]
  rfl

/-- What a `create` that returned was given, and what it did. -/
theorem create_ok (ht : total < 2 ^ 32) (hh : s.held = []) (hc : s.cap = 16) {r : EasyFileSystem × Store Block}
    (h : (EasyFileSystem.create c total ibb).run s = .ok r) :
    Accepts c total ibb ∧ 0 < ibb ∧ total ≤ s.size ∧ 1 + ibb < s.size ∧
      r = (layout c total ibb, s.withBlk (formatted c total ibb s.blk)) := by
  have ha := accepts_of_create ht h
  have h1 := ha.u32
  have h2 := ha.fits
  have h3 := bitmapBlocks_le ha
  have hg := layout_geometry ha
  have key : 0 < ibb ∧ total ≤ s.size ∧ 1 + ibb < s.size := by
    rw [create_eq ha, formatDisk] at h
    obtain ⟨u, s₁, h4, h⟩ := run_bind_ok.mp h
    have hsz := zeroBlocks_ok h4 (Nat.zero_le _)
    rw [Nat.zero_add] at hsz
    rw [zeroBlocks_run hh (by rw [hc]; decide) total 0 (by omega) (by funext b; simp [zeroed])] at h4
    cases h4
    obtain ⟨u', s₂, h5, h⟩ := run_bind_ok.mp h
    obtain ⟨hf, rfl⟩ := modifyRet_ok h5
    obtain ⟨n, s₃, h6, h⟩ := run_bind_ok.mp h
    have hl : Locked (layout c total ibb) s :=
      ⟨hg, hh, hc, by show 1 + (ibb + areaBlocks c ibb) + bitmapBlocks c total ibb ≤ s.size; omega⟩
    obtain ⟨i, hnext, -, rfl⟩ := allocInode_ok ((hl.withBlk _).withBlk _) h6
    have hi : 0 < ibb := by
      have : i < ibb * 4096 := hnext.lt
      omega
    obtain ⟨-, h⟩ := run_assert_bind_ok.mp h
    obtain ⟨p, s₄, h7, h⟩ := run_bind_ok.mp h
    cases getDiskInodePos_ok h7
    obtain ⟨u'', s₅, h8, h⟩ := run_bind_ok.mp h
    have hfree := (modifyDiskInode_ok (layout c total ibb) 0 h8).1.onDevice
    have hib : (layout c total ibb).inodeBlock 0 = 1 + ibb := by
      unfold EasyFileSystem.inodeBlock
      rw [Nat.zero_div]
      rfl
    rw [hib] at hfree
    exact ⟨hi, hsz, hfree⟩
  refine ⟨ha, key.1, key.2.1, key.2.2, ?_⟩
  rw [create_run ha key.1 hh hc key.2.1 key.2.2] at h
  cases h
  rfl

/-! ## The formatted disk -/

variable {blk : Nat → Block}

theorem inodeBlock_root : (layout c total ibb).inodeBlock 0 = 1 + ibb := by
  unfold EasyFileSystem.inodeBlock
  rw [Nat.zero_div]
  rfl

theorem setBit_zero_of_ne {b : Nat} (f : Nat → Block) (h : b ≠ 1) : (layout c total ibb).inodeBitmap.setBit f 0 b = f b :=
  Bitmap.updWord_frame (by show b ≠ 0 / 4096 + 1; omega)

/-- Past the inode bitmap, all is zero but the root inode. -/
theorem formatted_zero {b : Nat} (h0 : b ≠ 0) (h1 : b ≠ 1) (h2 : b ≠ 1 + ibb) (ht : b < total) :
    formatted c total ibb blk b = Blk.zero 512 := by
  unfold formatted
  rw [storeInode_of_ne (by rw [inodeBlock_root]; exact h2), setBit_zero_of_ne _ h1, blankDisk_zero h0 ht]

theorem formatted_super (hi : 0 < ibb) :
    formatted c total ibb blk 0 = SuperBlock.store (Blk.zero 512) (superBlock c total ibb) := by
  unfold formatted
  rw [storeInode_of_ne (by rw [inodeBlock_root]; omega), setBit_zero_of_ne _ (by omega), blankDisk, Function.update_self]

theorem inodeAt_zero {efs : EasyFileSystem} {f : Nat → Block} {id : Nat} (h : f (efs.inodeBlock id) = Blk.zero 512) :
    efs.inodeAt f id = ⟨0, fun _ => 0, 0, 0, 0, 0⟩ := by
  unfold EasyFileSystem.inodeAt
  rw [h]
  exact DiskInode.load_zero _ _

theorem inodeAt_formatted_root (hi : 0 < ibb) (hr : 1 + ibb < total) :
    (layout c total ibb).inodeAt (formatted c total ibb blk) 0 =
      DiskInode.init c ⟨0, fun _ => 0, 0, 0, 0, 0⟩ .directory := by
  unfold formatted
  dsimp only
  have hz : (layout c total ibb).inodeAt ((layout c total ibb).inodeBitmap.setBit (blankDisk c total ibb blk) 0) 0 =
      ⟨0, fun _ => 0, 0, 0, 0, 0⟩ := by
    refine inodeAt_zero ?_
    rw [inodeBlock_root, setBit_zero_of_ne _ (by omega), blankDisk_zero (by omega) hr]
  have hfits : (((layout c total ibb).inodeAt ((layout c total ibb).inodeBitmap.setBit (blankDisk c total ibb blk) 0)
      0).init c .directory).Fits (layout c total ibb).crate := init_fits (c := c) (DiskInode.load_fits ..) _
  rw [inodeAt_storeInode_self hfits, hz]

theorem inodeAt_formatted_of_ne (ha : Accepts c total ibb) {id : Nat} (h0 : id ≠ 0) (hid : id < (layout c total ibb).slots)
    (hi : 0 < ibb) :
    (layout c total ibb).inodeAt (formatted c total ibb blk) id = ⟨0, fun _ => 0, 0, 0, 0, 0⟩ := by
  have hlt := (layout_geometry ha).inodeBlock_lt hid
  have hle : 1 + ibb ≤ (layout c total ibb).inodeBlock id := (layout c total ibb).le_inodeBlock id
  have h3 := bitmapBlocks_le ha
  have hst : (layout c total ibb).dataBitmap.startBlockId = 1 + ibb + areaBlocks c ibb := rfl
  unfold formatted
  dsimp only
  rw [inodeAt_storeInode_of_ne h0 rfl]
  refine inodeAt_zero ?_
  rw [setBit_zero_of_ne _ (by omega), blankDisk_zero (by omega) (by omega)]

theorem dataBit_formatted (ha : Accepts c total ibb) (hslot : 0 < (layout c total ibb).slots) (hi : 0 < ibb) {b : Nat}
    (hb : (layout c total ibb).InData b) : (layout c total ibb).dataBit (formatted c total ibb blk) b = false := by
  have h1 := hb.le
  have h2 := hb.lt
  have h3 := bitmapBlocks_le ha
  have hlt := (layout_geometry ha).inodeBlock_lt hslot
  rw [inodeBlock_root] at hlt
  have hst : (layout c total ibb).dataBitmap.startBlockId = 1 + ibb + areaBlocks c ibb := rfl
  have hds : (layout c total ibb).dataAreaStartBlock = 1 + (ibb + areaBlocks c ibb) + bitmapBlocks c total ibb := rfl
  have hbb : (layout c total ibb).dataBitmap.maximum = bitmapBlocks c total ibb * 4096 := rfl
  exact Bitmap.bit_zero (formatted_zero (by omega) (by omega) (by omega) (by omega))

theorem wf_of_empty {efs : EasyFileSystem} {f : Nat → Block} {k : Nat} (hg : efs.Geometry) (hk : k ≤ efs.slots)
    (h : ∀ id < k, (efs.inodeAt f id).size = 0) : Wf efs f k := by
  have hnil : ∀ id < k, efs.treeAt f id = [] := fun id hid => tree_of_size_zero (h id hid) f
  refine ⟨hg, hk, fun id hid => ?_, fun id hid => ?_, fun id hid _ _ _ b hb => ?_, fun id hid b hb => ?_,
    fun id hid b hb => ?_, fun id hid b hb => ?_⟩
  · unfold DiskInode.dataBlocks
    rw [h id hid]
    decide
  · rw [hnil id hid]
    exact List.nodup_nil
  all_goals
    rw [hnil id hid] at hb
    cases hb

/-- All inodes of a new file system are empty. -/
theorem formatted_size_zero (blk : Nat → Block) (ha : Accepts c total ibb) (hi : 0 < ibb) {id : Nat}
    (hid : id < (layout c total ibb).slots) :
    ((layout c total ibb).inodeAt (formatted c total ibb blk) id).size = 0 := by
  have hlt := (layout_geometry ha).inodeBlock_lt (Nat.lt_of_le_of_lt (Nat.zero_le _) hid)
  rw [inodeBlock_root] at hlt
  have hst : (layout c total ibb).dataBitmap.startBlockId = 1 + ibb + areaBlocks c ibb := rfl
  have h3 := bitmapBlocks_le ha
  by_cases e : id = 0
  · subst e
    rw [inodeAt_formatted_root hi (by omega)]
    rfl
  · rw [inodeAt_formatted_of_ne ha e hid hi]

theorem formatted_wf (blk : Nat → Block) (ha : Accepts c total ibb) (hi : 0 < ibb) :
    Wf (layout c total ibb) (formatted c total ibb blk) (layout c total ibb).slots :=
  wf_of_empty (layout_geometry ha) (Nat.le_refl _) fun _ hid => formatted_size_zero blk ha hi hid

/-- On a device of just `total` blocks. -/
theorem formatted_full (blk : Nat → Block) (ha : Accepts c total ibb) (hi : 0 < ibb) (hslot : 0 < (layout c total ibb).slots) :
    Full (layout c total ibb) total (formatted c total ibb blk) 1 := by
  have hwf := formatted_wf blk ha hi
  have hlt := (layout_geometry ha).inodeBlock_lt hslot
  rw [inodeBlock_root] at hlt
  have hst : (layout c total ibb).dataBitmap.startBlockId = 1 + ibb + areaBlocks c ibb := rfl
  have hds : (layout c total ibb).dataAreaStartBlock = 1 + (ibb + areaBlocks c ibb) + bitmapBlocks c total ibb := rfl
  have h3 := bitmapBlocks_le ha
  refine ⟨wf_of_empty hwf.geo (by omega) fun id hid => ?_, fun b hb h => ?_, fun b hb hd _ => ?_, fun i hmax => ?_⟩
  · obtain rfl : id = 0 := by omega
    rw [inodeAt_formatted_root hi (by omega)]
    rfl
  · rw [dataBit_formatted ha hslot hi hb] at h
    cases h
  · have := hb.le
    exact formatted_zero (by omega) (by omega) (by omega) hd
  · have hi' : i < ibb * 4096 := hmax
    have hne : ∀ b, 1 ≤ b → b < 1 + ibb → formatted c total ibb blk b =
        (layout c total ibb).inodeBitmap.setBit (blankDisk c total ibb blk) 0 b := fun b _ h2 => by
      unfold formatted
      exact storeInode_of_ne (by rw [inodeBlock_root]; omega)
    have hset : (layout c total ibb).inodeBitmap.bit (formatted c total ibb blk) i = (layout c total ibb).inodeBitmap.bit
        ((layout c total ibb).inodeBitmap.setBit (blankDisk c total ibb blk) 0) i := Bitmap.bit_congr hmax hne
    rw [hset, Bitmap.bit_setBit,
      Bitmap.bit_zero (blankDisk_zero _ _), Bool.or_false]
    · rw [Bool.eq_iff_iff, beq_iff_eq, decide_eq_true_eq]
      omega
    · show i / 4096 + 1 ≠ 0
      omega
    · show i / 4096 + 1 < total
      omega

/-! ## Opening -/

/-- All fields are u32 values. -/
structure SuperBlock.Fits (sb : SuperBlock) : Prop where
  magic : sb.magic < 2 ^ 32
  totalBlocks : sb.totalBlocks < 2 ^ 32
  inodeBitmapBlocks : sb.inodeBitmapBlocks < 2 ^ 32
  inodeAreaBlocks : sb.inodeAreaBlocks < 2 ^ 32
  dataBitmapBlocks : sb.dataBitmapBlocks < 2 ^ 32
  dataAreaBlocks : sb.dataAreaBlocks < 2 ^ 32

theorem SuperBlock.load_store {sb : SuperBlock} (h : sb.Fits) (b : Block) : load (store b sb) = sb := by
  have hself : ∀ (b : Block) {o v : Nat}, o + 4 ≤ 512 → v < 2 ^ 32 → (b.setWord 4 o v).word 4 o = v := fun b _ _ ho hv =>
    Blk.word_setWord_same b ho (by norm_num at hv ⊢; exact hv)
  have hother : ∀ (b : Block) {o o' : Nat} (v : Nat), (o' + 4 ≤ o ∨ o + 4 ≤ o') → (b.setWord 4 o v).word 4 o' = b.word 4 o' :=
    fun b _ _ _ ho => Blk.word_setWord_of_disjoint b (by omega)
  unfold load store
  rw [hother _ _ (by omega), hother _ _ (by omega), hother _ _ (by omega), hother _ _ (by omega), hother _ _ (by omega),
    hself _ (by omega) h.magic]
  rw [hother _ _ (by omega), hother _ _ (by omega), hother _ _ (by omega), hother _ _ (by omega),
    hself _ (by omega) h.totalBlocks]
  rw [hother _ _ (by omega), hother _ _ (by omega), hother _ _ (by omega), hself _ (by omega) h.inodeBitmapBlocks]
  rw [hother _ _ (by omega), hother _ _ (by omega), hself _ (by omega) h.inodeAreaBlocks]
  rw [hother _ _ (by omega), hself _ (by omega) h.dataBitmapBlocks, hself _ (by omega) h.dataAreaBlocks]

theorem superBlock_fits (ha : Accepts c total ibb) : (superBlock c total ibb).Fits := by
  have h1 := ha.u32
  have h2 := ha.fits
  have h3 := bitmapBlocks_le ha
  refine ⟨?_, h1, ?_, ?_, ?_, ?_⟩
  · show efsMagic < 2 ^ 32
    decide
  · show ibb < 2 ^ 32
    omega
  · show areaBlocks c ibb < 2 ^ 32
    omega
  · show bitmapBlocks c total ibb < 2 ^ 32
    omega
  · show total - 1 - (ibb + areaBlocks c ibb) - bitmapBlocks c total ibb < 2 ^ 32
    omega

theorem openFs_run (ha : Accepts c total ibb) (hf : s.Free 0)
    (h0 : s.blk 0 = SuperBlock.store (Blk.zero 512) (superBlock c total ibb)) :
    (EasyFileSystem.openFs c).run s = .ok (layout c total ibb, s) := by
  have h1 := ha.u32
  have h2 := ha.fits
  have h3 := bitmapBlocks_le ha
  have hfits := superBlock_fits ha
  refine run_readBlock (g := s.blk) hf ?_
  rw [h0]
  dsimp only
  rw [SuperBlock.load_store hfits, assert_true (show (superBlock c total ibb).isValid = true from beq_self_eq_true efsMagic),
    ret_bind]
  have e1 : (superBlock c total ibb).inodeBitmapBlocks = ibb := rfl
  have e2 : (superBlock c total ibb).inodeAreaBlocks = areaBlocks c ibb := rfl
  have e3 : (superBlock c total ibb).dataBitmapBlocks = bitmapBlocks c total ibb := rfl
  rw [e1, e2, e3, addU32_eq (by omega), ret_bind, addU32_eq (by omega), ret_bind, addU32_eq (by omega), ret_bind,
    addU32_eq (by omega), ret_bind, ← Nat.add_assoc 1 ibb]
  unfold layout
  rw [← Nat.add_assoc 1 ibb]
  rfl

end Formatting

end TgRcore.EasyFs
