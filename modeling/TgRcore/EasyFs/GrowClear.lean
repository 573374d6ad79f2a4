/-
  TgRcore.EasyFs.GrowClear — growing an empty file and clearing it again (`write_at`,
  `increase_size`, `clear` of `vfs.rs`).

  - `Regrown.clear`: from any state that growing an empty inode can leave, `clear` gives
    back the data bitmap and the inode.
  - `clear_size_restores`: so clearing collects each block of a file once, and undoes its
    growth, by `increase_size` alone or by a write.
-/

import TgRcore.EasyFs.IndexLaws
import TgRcore.EasyFs.Room

namespace TgRcore.EasyFs

open TgRcore.Bytes TgRcore.BlockProg TgRcore.BlockProg.Prog

/-! ## An inode that grew from nothing -/

/-- `increase_size` alone, inside the closure that `write_at` runs on the inode. -/
def Inode.grow (efs : EasyFileSystem) (self : Inode) (newSize : Nat) : Fs Unit :=
  withMutex (do
    Inode.modifyDiskInode efs self fun d => do
      let d ← Inode.increaseSize efs newSize d
      return ((), d)
    sync)

/-- All pointers are zero, as `initialize` leaves them. -/
structure DiskInode.NoPointers (d : DiskInode) : Prop where
  direct : ∀ j, d.direct j = 0
  indirect1 : d.indirect1 = 0
  indirect2 : d.indirect2 = 0

/-- Storing into other slots keeps a pointer of the inode. -/
theorem ptr_assignAll_root {σ : Slot} (hσ : σ.parent = none) (blk : Nat → Block) (σs : List Slot) :
    ∀ (t : DiskInode × (Nat → Block)) (xs : List Nat), σ ∉ σs → ptr (assignAll t σs xs).1 blk σ = ptr t.1 blk σ := by
  induction σs with
  | nil => intro t xs _; rfl
  | cons τ σs ih =>
    intro t xs hnot
    cases xs with
    | nil => rfl
    | cons x xs =>
      rw [assignAll, ih _ xs fun h => hnot (List.mem_cons_of_mem _ h)]
      cases hτ : τ.parent with
      | none => rw [ptr_assign_root hτ hσ, if_neg fun (e : σ = τ) => hnot (e ▸ List.mem_cons_self)]
      | some υ => rw [assign_fst_of_parent hτ]

section

variable {d : DiskInode}

/-- Clearing zeroes the pointers that growing set. -/
theorem emptied_grownBy (newSize : Nat) (blk : Nat → Block) (v : List Nat) (h0 : d.size = 0) (hp : d.NoPointers) :
    (grownBy d newSize blk v).1.emptied = d := by
  have hsame := assignAll_same ({ d with size := newSize }, blk)
    (slotsFrom d.dataBlocks (DiskInode.dataBlocksOf newSize - d.dataBlocks)) v
  have hn : d.dataBlocks = 0 := by rw [DiskInode.dataBlocks, h0]; rfl
  have hroot : ∀ σ : Slot, σ.parent = none → σ ∉ slotsOf (DiskInode.dataBlocksOf newSize) →
      ptr (grownBy d newSize blk v).1 blk σ = ptr d blk σ := by
    intro σ hσ hnot
    unfold grownBy
    rw [hn, ptr_assignAll_root hσ _ _ _ _ (by rwa [Nat.sub_zero]), ptr_size]
  unfold grownBy at hroot ⊢
  generalize assignAll ({ d with size := newSize }, blk)
    (slotsFrom d.dataBlocks (DiskInode.dataBlocksOf newSize - d.dataBlocks)) v = t at *
  have hblocks : t.1.dataBlocks = DiskInode.dataBlocksOf newSize := by
    unfold DiskInode.dataBlocks
    rw [hsame.size]
  have hdirect : t.1.emptied.direct = d.direct := by
    funext j
    unfold DiskInode.emptied DiskInode.blank
    rw [hblocks]
    by_cases hj : j.val < DiskInode.dataBlocksOf newSize
    · simp only
      rw [if_pos ⟨Nat.zero_le _, by omega⟩, hp.direct]
    · simp only
      rw [if_neg (by omega)]
      have := hroot (.data j.val) (if_pos j.isLt) (by rw [mem_slotsOf]; exact hj)
      simpa [ptr, DiskInode.directAt, j.isLt] using this
  have hfirst : t.1.emptied.indirect1 = d.indirect1 := by
    unfold DiskInode.emptied DiskInode.blank
    rw [hblocks]
    by_cases h28 : DiskInode.dataBlocksOf newSize > 28
    · simp only
      rw [if_pos h28, hp.indirect1]
    · simp only
      rw [if_neg h28]
      exact hroot .ind1 rfl (by rw [mem_slotsOf]; exact h28)
  have hsecond : t.1.emptied.indirect2 = d.indirect2 := by
    unfold DiskInode.emptied DiskInode.blank
    rw [hblocks]
    by_cases h156 : DiskInode.dataBlocksOf newSize > 156
    · simp only
      rw [if_pos h156, hp.indirect2]
    · simp only
      rw [if_neg h156]
      exact hroot .ind2 rfl (by rw [mem_slotsOf]; exact h156)
  have htype : t.1.emptied.type_ = d.type_ := hsame.type_
  have hlink : t.1.emptied.linkNum = d.linkNum := hsame.linkNum
  have hsize : t.1.emptied.size = d.size := h0.symm
  generalize t.1.emptied = e at *
  cases e
  cases d
  simp only at hdirect hfirst hsecond htype hlink hsize
  subst hdirect hfirst hsecond htype hlink hsize
  rfl

end

/-- On the disk `blk'` inode `id`, empty on the disk `blk`, has grown, and its blocks are on the device. -/
structure Regrown (efs : EasyFileSystem) (size : Nat) (blk blk' : Nat → Block) (id newSize : Nat) : Prop where
  step : ∃ blk₁ blkA v, blk' = storeInode efs blk blk₁ id (grownBy (efs.inodeAt blk id) newSize blkA v).1 ∧
    TreeStep efs (efs.inodeAt blk id) blk (grownBy (efs.inodeAt blk id) newSize blkA v).1 blk₁
  onDevice : ∀ b ∈ efs.treeAt blk' id, b < size

/-- What `clear` gives back: `v` are the blocks the inode had. -/
structure Restored (efs : EasyFileSystem) (blk blk' : Nat → Block) (id : Nat) (v : List Nat) : Prop where
  empty : (efs.inodeAt blk' id).size = 0 ∧ (efs.inodeAt blk' id).type_ = (efs.inodeAt blk id).type_ ∧
    (efs.inodeAt blk' id).linkNum = (efs.inodeAt blk id).linkNum
  inode : (efs.inodeAt blk id).NoPointers → efs.inodeAt blk' id = efs.inodeAt blk id
  others : ∀ id' < efs.slots, id' ≠ id → efs.inodeAt blk' id' = efs.inodeAt blk id'
  bitmap : ∀ b, efs.dataBitmap.startBlockId ≤ b → b < efs.dataAreaStartBlock → blk' b = blk b
  freed : ∀ b ∈ v, blk' b = Blk.zero 512
  kept : ∀ b, b ∉ v → efs.dataAreaStartBlock ≤ b → blk' b = blk b

theorem eq_of_blockBit {a b : Block} (h : ∀ j < 4096, blockBit a j = blockBit b j) : a = b := by
  have hword : ∀ i < 64, bitmapWord a i = bitmapWord b i := by
    intro i hi
    apply Nat.eq_of_testBit_eq
    intro k
    by_cases hk : k < 64
    · have := h (i * 64 + k) (by omega)
      unfold blockBit at this
      rwa [show (i * 64 + k) / 64 = i by omega, show (i * 64 + k) % 64 = k by omega] at this
    · have hle : (2 : Nat) ^ 64 ≤ 2 ^ k := Nat.pow_le_pow_right (by decide) (by omega)
      rw [Nat.testBit_lt_two_pow (Nat.lt_of_lt_of_le (bitmapWord_lt a i) hle),
        Nat.testBit_lt_two_pow (Nat.lt_of_lt_of_le (bitmapWord_lt b i) hle)]
  refine Blk.ext_byte fun i hi => ?_
  have hbyte : ∀ x : Block, x.byte i = leByte (bitmapWord x (i / 8)) (i % 8) := by
    intro x
    unfold bitmapWord Blk.word
    rw [leByte_le (by omega), show 8 * (i / 8) + i % 8 = i by omega]
  rw [hbyte a, hbyte b, hword (i / 8) (by omega)]

section

variable {efs : EasyFileSystem} {s : Store Block} {blk blk' : Nat → Block} {id k newSize : Nat}

/-- Two data bitmaps with the same bits are the same blocks. -/
theorem bitmap_eq (hg : efs.Geometry) (h : ∀ b, efs.InData b → efs.dataBit blk' b = efs.dataBit blk b) {b : Nat}
    (h1 : efs.dataBitmap.startBlockId ≤ b) (h2 : b < efs.dataAreaStartBlock) : blk' b = blk b := by
  have h3 := hg.dataArea
  refine eq_of_blockBit fun j hj => ?_
  have hin : (b - efs.dataBitmap.startBlockId) * 4096 + j < efs.dataBitmap.maximum := by
    unfold Bitmap.maximum
    omega
  have := h _ (inData_add hin)
  unfold EasyFileSystem.dataBit Bitmap.bit at this
  rwa [Nat.add_sub_cancel_left, show ((b - efs.dataBitmap.startBlockId) * 4096 + j) / 4096 = b - efs.dataBitmap.startBlockId
    by omega, show ((b - efs.dataBitmap.startBlockId) * 4096 + j) % 4096 = j by omega, Nat.sub_add_cancel h1] at this

theorem Regrown.clear (hi : Idle efs s) (hw : Wf efs s.blk k) (hid : id < k) (hempty : (efs.inodeAt s.blk id).size = 0)
    (hr : Regrown efs s.size s.blk blk' id newSize) :
    ∃ blk'', (Inode.clear efs (efs.handle id)).run (s.withBlk blk') = .ok ((), s.withBlk blk'') ∧
      Restored efs s.blk blk'' id (efs.treeAt blk' id) := by
  obtain ⟨⟨blk₁, blkA, v, hblk', hs⟩, hdev⟩ := hr
  have hslot := Nat.lt_of_lt_of_le hid hw.slots
  have hsame := assignAll_same ({ efs.inodeAt s.blk id with size := newSize }, blkA)
    (slotsFrom (efs.inodeAt s.blk id).dataBlocks (DiskInode.dataBlocksOf newSize - (efs.inodeAt s.blk id).dataBlocks)) v
  have hback := emptied_grownBy newSize blkA v hempty
  have hnil := tree_of_size_zero hempty s.blk
  unfold grownBy at hback hblk' hs
  generalize (assignAll ({ efs.inodeAt s.blk id with size := newSize }, blkA)
    (slotsFrom (efs.inodeAt s.blk id).dataBlocks
      (DiskInode.dataBlocksOf newSize - (efs.inodeAt s.blk id).dataBlocks)) v).1 = d at *
  have hw' : Wf efs blk' k := hblk' ▸ hw.step hid hs
  have hst : InodeStep efs s.blk blk' k id := hblk' ▸ hs.inodeStep hw hid
  have hself : efs.treeAt blk' id = tree d blk₁ := hblk' ▸ hs.treeAt_self hw hid
  have hino : efs.inodeAt blk' id = d := hblk' ▸ inodeAt_storeInode_self hs.fits
  have hdata : ∀ b, efs.InData b → efs.dataBit blk' b = efs.dataBit blk₁ b := fun b hb =>
    hblk' ▸ dataBit_storeInode hw.geo hslot hb
  have hframe : ∀ b, efs.dataAreaStartBlock ≤ b → blk' b = blk₁ b := fun b hb => by
    have hda := hw.geo.dataArea
    rw [hblk', storeInode_of_ne (hw.geo.ne_inodeBlock hslot (by omega))]
  obtain ⟨blk₂, hrun, hg⟩ := clear_run (s := s.withBlk blk') (hi.withBlk _) hw' hid hdev
  simp only [Store.withBlk_blk, Store.withBlk_withBlk] at hrun hg
  rw [hino] at hrun
  have hfits := hs.fits.emptied
  have hstep : TreeStep efs (efs.inodeAt blk' id) blk' d.emptied blk₂ := by
    refine Cleared.treeStep ⟨rfl, ?_, ?_, hfits, hg⟩
    · rw [hino]
      rfl
    · rw [hino]
      rfl
  have hst' := hstep.inodeStep hw' hid
  -- a block of the grown inode was free before, any other block kept its bit
  have hbits : ∀ b, efs.InData b → efs.dataBit (storeInode efs blk' blk₂ id d.emptied) b = efs.dataBit s.blk b := by
    intro b hb
    rw [dataBit_storeInode hw.geo hslot hb, hg.bits b hb, hdata b hb, hself, Bool.eq_iff_iff, Bool.and_eq_true,
      hs.bits b hb, hnil, decide_eq_true_eq]
    constructor
    · intro h
      exact (h.1.resolve_left h.2).1
    · intro h
      refine ⟨.inr ⟨h, List.not_mem_nil⟩, fun hm => ?_⟩
      have hfresh := hs.fresh b hm
      rw [hnil, h] at hfresh
      simp at hfresh
  refine ⟨_, hrun, ?_, ?_, ?_, fun b h1 h2 => bitmap_eq hw.geo hbits h1 h2, fun b hb => ?_, fun b hb hle => ?_⟩
  · rw [inodeAt_storeInode_self hfits]
    exact ⟨rfl, hsame.type_, hsame.linkNum⟩
  · intro hp
    rw [inodeAt_storeInode_self hfits, hback hp]
  · intro id' hid' hne
    rw [hst'.others id' hid' hne, hst.others id' hid' hne]
  · have hin := (hw'.inData id hid b hb).le
    have hda := hw.geo.dataArea
    rw [storeInode_of_ne (hw.geo.ne_inodeBlock hslot (by omega)), hg.zero b hb]
  · have hda := hw.geo.dataArea
    rw [storeInode_of_ne (hw.geo.ne_inodeBlock hslot (by omega)), hg.frame b hb (.inr hle), hframe b hle]
    refine hs.frame b (by rw [hnil]; exact List.not_mem_nil) (fun h => hb ?_) (.inr hle)
    rw [hself]
    exact h

/-! ## The two ways to grow -/

/-- `increase_size` alone, when there are blocks for it. -/
theorem grow_regrown (hi : Idle efs s) (hw : Wf efs s.blk k) (hid : id < k) (hempty : (efs.inodeAt s.blk id).size = 0)
    (hm : DiskInode.dataBlocksOf newSize ≤ 16540)
    (hroom : DiskInode.totalBlocks newSize ≤ (efs.freeOn s.size s.blk).card) :
    ∃ blk', (Inode.grow efs (efs.handle id) newSize).run s = .ok ((), s.withBlk blk') ∧
      (efs.inodeAt blk' id).size = newSize ∧ Regrown efs s.size s.blk blk' id newSize := by
  have hslot := Nat.lt_of_lt_of_le hid hw.slots
  have ho := hi.lock.open_inode hslot
  have ht := hw.treeOk hid
  have hnil := tree_of_size_zero hempty s.blk
  have hdev : ∀ b ∈ tree (efs.inodeAt s.blk id) s.blk, b < s.size := by
    rw [hnil]
    simp
  have hsz : (efs.inodeAt s.blk id).size ≤ newSize := by omega
  have hns : newSize < 2 ^ 32 := by
    unfold DiskInode.dataBlocksOf at hm
    omega
  have hzero : DiskInode.totalBlocks (efs.inodeAt s.blk id).size = 0 := by rw [hempty]; rfl
  have hcount := length_slotsFrom hsz
  rw [hzero, Nat.sub_zero] at hcount
  obtain ⟨v, blkA, halloc, hvdev⟩ := allocBlocks_returns ho
    (show DiskInode.totalBlocks newSize ≤ (efs.freeOn s.size s.blk).card from hroom)
  obtain ⟨hlen, blkA', e, hv⟩ := allocBlocks_ok ho halloc
  obtain rfl : blkA = blkA' := congrArg Store.blk e
  have hinc := increaseSize_taken_run ho ht hdev hsz hm (by rw [hcount, hlen]) hv hvdev
  have hg := grown_of_taken hw.geo ht hsz hns hm (by rw [hcount, hlen]) hv
  have hs := hg.treeStep ht
  have hbody : (do
      let d ← Inode.increaseSize efs newSize (efs.inodeAt s.blk id)
      return ((), d) : Fs (Unit × DiskInode)).run (({ s with busy := true } : Store Block).pin (efs.inodeBlock id)) =
      .ok (((), (grownBy (efs.inodeAt s.blk id) newSize blkA v).1),
        (({ s with busy := true } : Store Block).pin (efs.inodeBlock id)).withBlk
          (grownBy (efs.inodeAt s.blk id) newSize blkA v).2) := by
    rw [Inode.increaseSize, if_neg (by omega), blocksNumNeeded_eq hsz, ret_bind, hcount]
    rw [run_bind_of ((run_bind_of halloc).trans hinc)]
    rfl
  have hmod := modifyDiskInode_run efs id (f := fun d => do
      let d ← Inode.increaseSize efs newSize d
      return ((), d)) (hi.lock.inodeFree hslot) hbody
  refine ⟨_, run_withMutex hi.busy (g := storeInode efs s.blk _ id _) ((run_bind_of hmod).trans (run_sync hi.held)), ?_,
    ⟨⟨_, _, _, rfl, hs⟩, ?_⟩⟩
  · exact (congrArg DiskInode.size (inodeAt_storeInode_self hs.fits)).trans hg.size
  · have hself := hs.treeAt_self hw hid
    intro b hb
    refine hvdev b ?_
    have htree := hg.tree
    rw [hnil, List.nil_append] at htree
    rw [← htree]
    exact hself ▸ hb

/-- A write that returned has all its blocks on the device. -/
theorem write_regrown {off n : Nat} {buf : List UInt8} {s' : Store Block} (hi : Idle efs s) (hw : Wf efs s.blk k) (hid : id < k)
    (hempty : (efs.inodeAt s.blk id).size = 0) (hbuf : buf ≠ []) (h32 : off + buf.length < 2 ^ 32)
    (h : (Inode.writeAt efs (efs.handle id) off buf).run s = .ok (n, s')) :
    ∃ blk', s' = s.withBlk blk' ∧ (efs.inodeAt blk' id).size = off + buf.length ∧
      Regrown efs s.size s.blk blk' id (off + buf.length) := by
  have hslot := Nat.lt_of_lt_of_le hid hw.slots
  have ho := hi.lock.open_inode hslot
  have ht := hw.treeOk hid
  have hdev : ∀ b ∈ tree (efs.inodeAt s.blk id) s.blk, b < s.size := by
    rw [tree_of_size_zero hempty s.blk]
    simp
  obtain ⟨d', s₁, s₂, h1, h2, -, hs'⟩ := writeAt_parts h
  rw [asU32, Nat.mod_eq_of_lt h32] at h1
  obtain ⟨-, blkg, blk₁, rfl, hgw⟩ := growWrite_ok ho ht h32 h1 h2
  have hpos := List.length_pos_of_ne_nil hbuf
  apply (increaseSize_ok_taken ho ht h1).elim
  · intro hcut
    omega
  · rintro ⟨-, -, v, blkA, -, -, rfl, -⟩
    have hself := hgw.step.treeAt_self hw hid
    refine ⟨_, hs' _ rfl, ?_, ⟨⟨blk₁, blkA, v, rfl, hgw.step⟩, ?_⟩⟩
    · rw [inodeAt_storeInode_self hgw.step.fits, hgw.size_eq]
      exact Nat.max_eq_right (by omega)
    · rw [hself]
      exact hgw.tree_lt hbuf ht hdev

end

theorem clear_size_restores :
    -- what `clear_size` collects
    (∀ (s : Store Block) (d : DiskInode), Whole s d → s.held.length + 1 < s.cap →
      ∃ v ids : List Nat, d.clearSize.run s = .ok ((v, d.emptied), s) ∧
        ids.length = d.dataBlocks ∧ (∀ (j : Nat) (hj : j < ids.length), (d.getBlockId j).run s = .ok (ids.get ⟨j, hj⟩, s)) ∧
        (ids ++ indexPointers d s.blk 0 d.dataBlocks).Perm v ∧ v.Nodup ∧ v.length = DiskInode.totalBlocks d.size) ∧
    -- growing to any size there are blocks for, then clearing
    (∀ (efs : EasyFileSystem) (s : Store Block) (id k newSize : Nat), Idle efs s → Wf efs s.blk k → id < k →
      (efs.inodeAt s.blk id).size = 0 → DiskInode.dataBlocksOf newSize ≤ 28 + 128 + 128 * 128 →
      DiskInode.totalBlocks newSize ≤ (efs.freeOn s.size s.blk).card →
      ∃ blk' blk'', (Inode.grow efs (efs.handle id) newSize).run s = .ok ((), s.withBlk blk') ∧
        (efs.inodeAt blk' id).size = newSize ∧
        (Inode.clear efs (efs.handle id)).run (s.withBlk blk') = .ok ((), s.withBlk blk'') ∧
        Restored efs s.blk blk'' id (efs.treeAt blk' id)) ∧
    -- the same for a write that grows the file
    ∀ (efs : EasyFileSystem) (s s' : Store Block) (id k off n : Nat) (buf : List UInt8), Idle efs s → Wf efs s.blk k →
      id < k → (efs.inodeAt s.blk id).size = 0 → buf ≠ [] → off + buf.length < 2 ^ 32 →
      (Inode.writeAt efs (efs.handle id) off buf).run s = .ok (n, s') →
      (efs.inodeAt s'.blk id).size = off + buf.length ∧
        ∃ blk'', (Inode.clear efs (efs.handle id)).run s' = .ok ((), s.withBlk blk'') ∧
          Restored efs s.blk blk'' id (efs.treeAt s'.blk id) := by
  refine ⟨fun s d hw hroom => clear_size_spec hw hroom, fun efs s id k newSize hi hw hid hempty hm hroom => ?_,
    fun efs s s' id k off n buf hi hw hid hempty hbuf h32 h => ?_⟩
  · obtain ⟨blk', hrun, hsize, hr⟩ := grow_regrown hi hw hid hempty hm hroom
    obtain ⟨blk'', hclear, hres⟩ := hr.clear hi hw hid hempty
    exact ⟨blk', blk'', hrun, hsize, hclear, hres⟩
  · obtain ⟨blk', rfl, hsize, hr⟩ := write_regrown hi hw hid hempty hbuf h32 h
    obtain ⟨blk'', hclear, hres⟩ := hr.clear hi hw hid hempty
    exact ⟨hsize, blk'', hclear, hres⟩

/-- The root directory of a new file system of 1100 blocks, to 40 data blocks and back. -/
theorem clear_size_restores_root :
    let efs := layout .base 1100 1
    let s : Store Block := ⟨1100, 16, formatted .base 1100 1 fun _ => Blk.zero 512, [], false⟩
    ∃ blk' blk'', (Inode.grow efs (efs.handle 0) 20000).run s = .ok ((), s.withBlk blk') ∧
      (Inode.clear efs (efs.handle 0)).run (s.withBlk blk') = .ok ((), s.withBlk blk'') ∧
      Restored efs s.blk blk'' 0 (efs.treeAt blk' 0) := by
  intro efs s
  obtain ⟨ha, hslots, -⟩ := small_geometry
  have hmax : (layout .base 1100 1).inodeBitmap.maximum = 4096 := rfl
  have hpos : 0 < (layout .base 1100 1).slots := by omega
  have hfull := formatted_full (fun _ => Blk.zero 512) ha (by decide) hpos
  have harea : areaBlocks .base 1 = 1024 := areaBlocks_base (by norm_num)
  have hstart : efs.dataAreaStartBlock = 1027 := by
    show 1 + (1 + areaBlocks .base 1) + bitmapBlocks .base 1100 1 = 1027
    rw [bitmapBlocks, harea]
  have hbits : efs.dataBitmap.maximum = 4096 := by
    show bitmapBlocks .base 1100 1 * 4096 = 4096
    rw [bitmapBlocks, harea]
  have hidle : Idle efs s := ⟨hfull.geo, rfl, rfl, rfl, by rw [hstart]; decide⟩
  have hzero : (efs.inodeAt s.blk 0).size = 0 := by
    show ((layout .base 1100 1).inodeAt (formatted .base 1100 1 fun _ => Blk.zero 512) 0).size = 0
    rw [inodeAt_formatted_root (by decide) (by decide)]
    rfl
  -- every block of the data area is free
  have hsub : Finset.Ico 1027 1100 ⊆ efs.freeOn s.size s.blk := by
    intro b hb
    rw [Finset.mem_Ico] at hb
    have hin : efs.InData b := ⟨by omega, by omega⟩
    exact mem_freeOn.2 ⟨hin, hb.2, by omega, dataBit_formatted ha hpos (by decide) hin⟩
  have hroom : DiskInode.totalBlocks 20000 ≤ (efs.freeOn s.size s.blk).card := by
    have hcard := Finset.card_le_card hsub
    rw [Nat.card_Ico] at hcard
    exact Nat.le_trans (by decide) hcard
  obtain ⟨blk', blk'', h1, -, h2, h3⟩ :=
    clear_size_restores.2.1 efs s 0 1 20000 hidle hfull.toWf (by decide) hzero (by decide) hroom
  exact ⟨blk', blk'', h1, h2, h3⟩

end TgRcore.EasyFs
