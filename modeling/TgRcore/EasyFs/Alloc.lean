/-
  TgRcore.EasyFs.Alloc — taking and giving back data blocks, and what that does to the
  inode that grows or is cleared (`alloc_data`, `dealloc_data` of `efs.rs`,
  `increase_size`, `clear` of `vfs.rs`).

  - `allocBlocks_ok`: the blocks handed out were free, are different from each other and
    ascend; only the data bitmap changes.
  - `increaseSize_ok`: growing keeps the blocks in use and appends the new ones.
  - `clearBody_run`, `clearBody_ok`: clearing zeroes the blocks of the file and frees them all.

  Results of the form `_run` say that the call returns, `_ok` what a call that returned
  did. A file may own blocks past the end of the device as long as nothing touches them,
  so the second kind is proved on a larger device (`run_of_grow`).
-/

import TgRcore.EasyFs.Ownership

namespace TgRcore.EasyFs

open TgRcore.Bytes TgRcore.BlockProg TgRcore.BlockProg.Prog

/-- A call is inside the closure of an inode access: what it has locked is not part of
    the bitmap or the data area. -/
structure Open (efs : EasyFileSystem) (s : Store Block) : Prop where
  geo : efs.Geometry
  held : ∀ b ∈ s.held, b < efs.dataBitmap.startBlockId
  room : s.held.length + 2 < s.cap
  device : efs.dataAreaStartBlock ≤ s.size

namespace Open

variable {efs : EasyFileSystem} {s : Store Block}

theorem free (h : Open efs s) {b : Nat} (hb : efs.dataBitmap.startBlockId ≤ b) (hd : b < s.size) : s.Free b :=
  ⟨fun hm => by have := h.held b hm; omega, by have := h.room; omega, hd⟩

theorem withBlk (h : Open efs s) (g : Nat → Block) : Open efs (s.withBlk g) := ⟨h.1, h.2, h.3, h.4⟩

theorem grow (h : Open efs s) {n : Nat} (hn : s.size ≤ n) : Open efs { s with size := n } :=
  ⟨h.1, h.2, h.3, Nat.le_trans h.4 hn⟩

theorem bitmapFree (h : Open efs s) {k : Nat} (hk : k < efs.dataBitmap.blocks) :
    s.Free (k + efs.dataBitmap.startBlockId) :=
  h.free (by omega) (by have := h.device; have := h.geo.dataArea; omega)

theorem dataFree (h : Open efs s) {b : Nat} (hb : efs.InData b) (hd : b < s.size) : s.Free b :=
  h.free (by have := hb.le; have := h.geo.dataArea; omega) hd

end Open

/-! ## Taking blocks -/

section Taking

variable {efs : EasyFileSystem} {s s' : Store Block}

theorem inData_add {i : Nat} (hi : i < efs.dataBitmap.maximum) : efs.InData (efs.dataAreaStartBlock + i) :=
  ⟨by omega, by omega⟩

/-- The data bitmap changes in one bit. -/
theorem dataBit_setBit (blk : Nat → Block) {b c : Nat} (hb : efs.dataAreaStartBlock ≤ b) (hc : efs.dataAreaStartBlock ≤ c) :
    efs.dataBit (efs.dataBitmap.setBit blk (b - efs.dataAreaStartBlock)) c = (c == b || efs.dataBit blk c) := by
  unfold EasyFileSystem.dataBit
  rw [Bitmap.bit_setBit]
  congr 1
  rw [Bool.eq_iff_iff, beq_iff_eq, beq_iff_eq]
  omega

theorem dataBit_clearBit {blk : Nat → Block} {b c : Nat} (h : efs.dataBit blk b = true) (hb : efs.dataAreaStartBlock ≤ b)
    (hc : efs.dataAreaStartBlock ≤ c) :
    efs.dataBit (efs.dataBitmap.clearBit blk (b - efs.dataAreaStartBlock)) c = (c != b && efs.dataBit blk c) := by
  unfold EasyFileSystem.dataBit at h ⊢
  rw [Bitmap.bit_clearBit h]
  congr 1
  rw [Bool.eq_iff_iff, bne_iff_ne, bne_iff_ne]
  omega

theorem updWord_of_not_bitmap (hg : efs.Geometry) (blk : Nat → Block) {b c : Nat} (hb : efs.InData b) (f : Nat → Nat)
    (hc : c < efs.dataBitmap.startBlockId ∨ efs.dataAreaStartBlock ≤ c) :
    efs.dataBitmap.updWord blk (b - efs.dataAreaStartBlock) f c = blk c := by
  refine Bitmap.updWord_frame ?_
  have h1 := hb.le
  have h2 := hb.lt
  have h3 := hg.dataArea
  unfold Bitmap.maximum at h2
  omega

/-- The least free block is handed out. -/
theorem allocData_run (ho : Open efs s) {b : Nat} (hb : efs.InData b) (hlt : b < 2 ^ 32) (hfree : efs.dataBit s.blk b = false)
    (hleast : ∀ c, efs.InData c → c < b → efs.dataBit s.blk c = true) :
    efs.allocData.run s = .ok (b, s.withBlk (efs.dataBitmap.setBit s.blk (b - efs.dataAreaStartBlock))) := by
  have h1 := hb.le
  have h2 := hb.lt
  have hmax := ho.geo.bits
  rcases efs.dataBitmap.alloc_run (s := s) (fun k hk => ho.bitmapFree hk) with
    ⟨i, hi, hrun, hclear, hset⟩ | ⟨-, hall⟩
  · have hi' : i = b - efs.dataAreaStartBlock := by
      rcases Nat.lt_trichotomy i (b - efs.dataAreaStartBlock) with h | h | h
      · have := hleast (efs.dataAreaStartBlock + i) (inData_add hi) (by omega)
        unfold EasyFileSystem.dataBit at this
        rw [Nat.add_sub_cancel_left, hclear] at this
        cases this
      · exact h
      · have := hset _ h
        unfold EasyFileSystem.dataBit at hfree
        rw [this] at hfree
        cases hfree
    subst hi'
    rw [EasyFileSystem.allocData, run_bind_of hrun]
    simp only [unwrap, ret_bind]
    rw [addU32, asU32, Nat.mod_eq_of_lt (by omega), if_pos (by omega), Nat.sub_add_cancel h1]
    rfl
  · unfold EasyFileSystem.dataBit at hfree
    rw [hall _ (by omega)] at hfree
    cases hfree

theorem allocData_ok (ho : Open efs s) {b : Nat} (h : efs.allocData.run s = .ok (b, s')) :
    efs.InData b ∧ b < 2 ^ 32 ∧ efs.dataBit s.blk b = false ∧ (∀ c, efs.InData c → c < b → efs.dataBit s.blk c = true) ∧
      s' = s.withBlk (efs.dataBitmap.setBit s.blk (b - efs.dataAreaStartBlock)) := by
  have hmax := ho.geo.bits
  rw [EasyFileSystem.allocData] at h
  rcases efs.dataBitmap.alloc_run (s := s) (fun k hk => ho.bitmapFree hk) with
    ⟨i, hi, hrun, hclear, hset⟩ | ⟨hrun, -⟩
  · rw [run_bind_of hrun] at h
    simp only [unwrap, ret_bind] at h
    rw [addU32, asU32, Nat.mod_eq_of_lt (by omega)] at h
    split at h
    · rename_i hlt
      cases h
      rw [Nat.add_comm i]
      refine ⟨inData_add hi, by omega, ?_, fun c hc hcb => ?_, by rw [Nat.add_sub_cancel_left]⟩
      · unfold EasyFileSystem.dataBit
        rw [Nat.add_sub_cancel_left]
        exact hclear
      · exact hset _ (by have := hc.le; omega)
    · cases h
  · rw [run_bind_of hrun] at h
    cases h

/-- What `n` allocations did to the disk `blk`. -/
structure Taken (efs : EasyFileSystem) (blk blk' : Nat → Block) (v : List Nat) : Prop where
  fresh : ∀ b ∈ v, efs.InData b ∧ b < 2 ^ 32 ∧ efs.dataBit blk b = false
  sorted : v.Pairwise (· < ·)
  bits : ∀ b, efs.InData b → efs.dataBit blk' b = (decide (b ∈ v) || efs.dataBit blk b)
  frame : ∀ b, (b < efs.dataBitmap.startBlockId ∨ efs.dataAreaStartBlock ≤ b) → blk' b = blk b

theorem allocBlocks_ok (ho : Open efs s) {n : Nat} {v : List Nat} (h : (efs.allocBlocks n).run s = .ok (v, s')) :
    v.length = n ∧ ∃ blk', s' = s.withBlk blk' ∧ Taken efs s.blk blk' v := by
  induction n generalizing s v with
  | zero =>
    cases h
    exact ⟨rfl, s'.blk, rfl, by simp, .nil, by simp, fun _ _ => rfl⟩
  | succ n ih =>
    obtain ⟨b, s1, h1, h⟩ := run_bind_ok.mp h
    obtain ⟨hin, hlt, hfree, hleast, rfl⟩ := allocData_ok ho h1
    obtain ⟨w, s2, h2, h⟩ := run_bind_ok.mp h
    cases h
    obtain ⟨hlen, blk', rfl, ht⟩ := ih (ho.withBlk _) h2
    have hbit : ∀ c, efs.InData c →
        efs.dataBit (efs.dataBitmap.setBit s.blk (b - efs.dataAreaStartBlock)) c = (c == b || efs.dataBit s.blk c) :=
      fun c hc => dataBit_setBit s.blk hin.le hc.le
    -- a later block is neither `b` nor one of the blocks before it, which are all taken
    have hlater : ∀ c ∈ w, b < c ∧ efs.dataBit s.blk c = false := by
      intro c hc
      obtain ⟨hcin, -, hcf⟩ := ht.fresh c hc
      simp only [Store.withBlk_blk] at hcf
      rw [hbit c hcin, Bool.or_eq_false_iff, beq_eq_false_iff_ne] at hcf
      refine ⟨?_, hcf.2⟩
      by_contra hle
      have := hleast c hcin (by omega)
      rw [this] at hcf
      cases hcf.2
    refine ⟨by simp [hlen], blk', rfl, fun c hc => ?_, ?_, fun c hc => ?_, fun c hc => ?_⟩
    · rcases List.mem_cons.mp hc with rfl | hc
      · exact ⟨hin, hlt, hfree⟩
      · obtain ⟨hcin, hclt, -⟩ := ht.fresh c hc
        exact ⟨hcin, hclt, (hlater c hc).2⟩
    · exact List.pairwise_cons.mpr ⟨fun c hc => (hlater c hc).1, ht.sorted⟩
    · rw [ht.bits c hc, Store.withBlk_blk, hbit c hc, ← Bool.or_assoc]
      congr 1
      rw [Bool.eq_iff_iff]
      simp [or_comm]
    · rw [ht.frame c hc, Store.withBlk_blk, Bitmap.setBit]
      exact updWord_of_not_bitmap ho.geo s.blk hin _ hc

end Taking

/-! ## Growing -/

/-- The blocks of an inode are blocks of the data area, all different and marked. -/
structure TreeOk (efs : EasyFileSystem) (d : DiskInode) (blk : Nat → Block) : Prop where
  fits : d.Fits efs.crate
  small : d.dataBlocks ≤ 16540
  nodup : (tree d blk).Nodup
  inData : ∀ b ∈ tree d blk, efs.InData b
  u32 : ∀ b ∈ tree d blk, b < 2 ^ 32
  marked : ∀ b ∈ tree d blk, efs.dataBit blk b = true

theorem Wf.treeOk {efs : EasyFileSystem} {blk : Nat → Block} {k id : Nat} (hw : Wf efs blk k) (hid : id < k) :
    TreeOk efs (efs.inodeAt blk id) blk :=
  ⟨DiskInode.load_fits .., hw.small id hid, hw.nodup id hid, hw.inData id hid, hw.u32 id hid, hw.marked id hid⟩

/-- `d` grew to `newSize` by the blocks `v`. -/
structure Grown (efs : EasyFileSystem) (d : DiskInode) (blk : Nat → Block) (newSize : Nat) (v : List Nat)
    (d' : DiskInode) (blk' : Nat → Block) : Prop where
  size : d'.size = newSize
  type_ : d'.type_ = d.type_
  linkNum : d'.linkNum = d.linkNum
  le : d.size ≤ newSize
  fits : d'.Fits efs.crate
  small : d'.dataBlocks ≤ 16540
  tree : tree d' blk' = tree d blk ++ v
  fresh : ∀ b ∈ v, efs.InData b ∧ b < 2 ^ 32 ∧ efs.dataBit blk b = false
  sorted : v.Pairwise (· < ·)
  bits : ∀ b, efs.InData b → efs.dataBit blk' b = (decide (b ∈ v) || efs.dataBit blk b)
  frame : ∀ b, (b < efs.dataBitmap.startBlockId ∨ efs.dataAreaStartBlock ≤ b) →
    (∀ τ ∈ slotsOf d'.dataBlocks, τ.isIndex = true → ptr d' blk' τ ≠ b) → blk' b = blk b

section Growing

variable {efs : EasyFileSystem} {s s' : Store Block} {d d' : DiskInode} {newSize : Nat}

theorem TreeOk.indexFree (ht : TreeOk efs d s.blk) (ho : Open efs s) (hd : ∀ b ∈ tree d s.blk, b < s.size) :
    IndexFree s d d.dataBlocks := fun _ hτ _ =>
  ho.dataFree (ht.inData _ (List.mem_map_of_mem hτ)) (hd _ (List.mem_map_of_mem hτ))

theorem ptr_size (d : DiskInode) (n : Nat) (blk : Nat → Block) : ptr { d with size := n } blk = ptr d blk := by
  funext σ
  cases σ <;> rfl

/-- The numbers handed out are stored into the new slots, in order. -/
theorem grown_of_taken {blk blk₁ : Nat → Block} {v : List Nat} (hg : efs.Geometry) (ht : TreeOk efs d blk)
    (hsz : d.size ≤ newSize) (hns : newSize < 2 ^ 32) (hm : DiskInode.dataBlocksOf newSize ≤ 16540)
    (hlen : v.length = (slotsFrom d.dataBlocks (DiskInode.dataBlocksOf newSize - d.dataBlocks)).length)
    (hv : Taken efs blk blk₁ v) :
    Grown efs d blk newSize v
      (assignAll ({ d with size := newSize }, blk₁)
        (slotsFrom d.dataBlocks (DiskInode.dataBlocksOf newSize - d.dataBlocks)) v).1
      (assignAll ({ d with size := newSize }, blk₁)
        (slotsFrom d.dataBlocks (DiskInode.dataBlocksOf newSize - d.dataBlocks)) v).2 := by
  have hnm : d.dataBlocks ≤ DiskInode.dataBlocksOf newSize := by
    unfold DiskInode.dataBlocks DiskInode.dataBlocksOf
    omega
  have hda := hg.dataArea
  -- the bitmap is not part of the tree
  have hptr : (slotsOf d.dataBlocks).map (ptr { d with size := newSize } blk₁) = tree d blk := by
    rw [ptr_size]
    exact tree_congr ht.small fun b hb => hv.frame b (.inr (ht.inData b hb).le)
  have hnd : (tree d blk ++ v).Nodup := by
    rw [List.nodup_append]
    refine ⟨ht.nodup, hv.sorted.imp Nat.ne_of_lt, ?_⟩
    rintro b hb c hc rfl
    have h1 := ht.marked b hb
    rw [(hv.fresh b hc).2.2] at h1
    cases h1
  have hslots := slotsOf_append hnm
  obtain ⟨h1, h2⟩ := assignAll_spec (t := ({ d with size := newSize }, blk₁)) hlen.symm
    (by rw [← hslots]; exact slotsOf_ordered hm) (by rw [hptr]; exact hnd) fun x hx => (hv.fresh x hx).2.1
  have hsame := assignAll_same ({ d with size := newSize }, blk₁)
    (slotsFrom d.dataBlocks (DiskInode.dataBlocksOf newSize - d.dataBlocks)) v
  have hfits := assignAll_fits (c := efs.crate) (t := ({ d with size := newSize }, blk₁))
    ⟨hns, ht.fits.direct, ht.fits.indirect1, ht.fits.indirect2, ht.fits.linkNum, ht.fits.noLink⟩
    (slotsFrom d.dataBlocks (DiskInode.dataBlocksOf newSize - d.dataBlocks)) fun x hx => (hv.fresh x hx).2.1
  rw [← hslots, hptr] at h1
  rw [← hslots] at h2
  generalize assignAll ({ d with size := newSize }, blk₁)
    (slotsFrom d.dataBlocks (DiskInode.dataBlocksOf newSize - d.dataBlocks)) v = t at *
  have hblocks : t.1.dataBlocks = DiskInode.dataBlocksOf newSize := by
    unfold DiskInode.dataBlocks
    rw [hsame.size]
  have htree : tree t.1 t.2 = tree d blk ++ v := by
    unfold tree
    rw [hblocks]
    exact h1
  have hin : ∀ b ∈ tree t.1 t.2, efs.InData b := by
    intro b hb
    rw [htree, List.mem_append] at hb
    rcases hb with hb | hb
    · exact ht.inData b hb
    · exact (hv.fresh b hb).1
  refine ⟨hsame.size, hsame.type_, hsame.linkNum, hsz, hfits, by rw [hblocks]; exact hm, htree, hv.fresh, hv.sorted,
    fun b hb => ?_, fun b hb hidx => ?_⟩
  · rw [← hv.bits b hb]
    refine Bitmap.bit_congr (by have := hb.le; have := hb.lt; omega) fun c h3 h4 => h2 c fun τ hτ _ e => ?_
    have := (hin _ (List.mem_map_of_mem (hblocks ▸ hτ))).le
    omega
  · exact (h2 b (by rw [← hblocks]; exact hidx)).trans (hv.frame b hb)

/-- The slots that growing adds are as many as `blocks_num_needed` counts. -/
theorem length_slotsFrom (h : d.size ≤ newSize) :
    (slotsFrom d.dataBlocks (DiskInode.dataBlocksOf newSize - d.dataBlocks)).length =
      DiskInode.totalBlocks newSize - DiskInode.totalBlocks d.size := by
  have hnm : d.dataBlocks ≤ DiskInode.dataBlocksOf newSize := by
    unfold DiskInode.dataBlocks DiskInode.dataBlocksOf
    omega
  have hlen := congrArg List.length (slotsOf_append hnm)
  rw [List.length_append, length_slotsOf_dataBlocksOf, DiskInode.dataBlocks, length_slotsOf_dataBlocksOf] at hlen
  rw [hlen, Nat.add_sub_cancel_left]
  rfl

theorem blocksNumNeeded_eq (h : d.size ≤ newSize) : d.blocksNumNeeded newSize =
    ret (slotsFrom d.dataBlocks (DiskInode.dataBlocksOf newSize - d.dataBlocks)).length := by
  rw [DiskInode.blocksNumNeeded, assert_true h, ret_bind, pure_eq_ret, length_slotsFrom h]

/-- `d` with the blocks `v` stored into its new slots, in order. -/
def grownBy (d : DiskInode) (newSize : Nat) (blk : Nat → Block) (v : List Nat) : DiskInode × (Nat → Block) :=
  assignAll ({ d with size := newSize }, blk) (slotsFrom d.dataBlocks (DiskInode.dataBlocksOf newSize - d.dataBlocks)) v

/-- Growing, once the blocks have been handed out. -/
theorem increaseSize_taken_run (ho : Open efs s) (ht : TreeOk efs d s.blk) (hdev : ∀ b ∈ tree d s.blk, b < s.size)
    (hsz : d.size ≤ newSize) (hm : DiskInode.dataBlocksOf newSize ≤ 16540) {v : List Nat} {blk₁ : Nat → Block}
    (hlen : v.length = (slotsFrom d.dataBlocks (DiskInode.dataBlocksOf newSize - d.dataBlocks)).length)
    (hv : Taken efs s.blk blk₁ v) (hvdev : ∀ b ∈ v, b < s.size) :
    (d.increaseSize newSize v).run (s.withBlk blk₁) =
      .ok ((grownBy d newSize blk₁ v).1, s.withBlk (grownBy d newSize blk₁ v).2) := by
  have htree : tree d blk₁ = tree d s.blk :=
    tree_congr ht.small fun b hb => hv.frame b (.inr (ht.inData b hb).le)
  have hptr : ∀ τ ∈ slotsOf d.dataBlocks, ptr d blk₁ τ = ptr d s.blk τ := fun τ hτ =>
    List.map_inj_left.mp htree τ hτ
  refine increaseSize_run (s := s.withBlk blk₁) hsz hm hlen ?_ ?_ ?_ ?_
  · intro τ hτ hi
    rw [Store.withBlk_blk, hptr τ hτ]
    exact (ht.indexFree ho hdev τ hτ hi).withBlk _
  · intro x hx
    exact ⟨(ho.dataFree (hv.fresh x hx).1 (hvdev x hx)).withBlk _, (hv.fresh x hx).2.1⟩
  · rw [Store.withBlk_blk, htree, List.nodup_append]
    refine ⟨ht.nodup, hv.sorted.imp Nat.ne_of_lt, ?_⟩
    rintro b hb c hc rfl
    have h1 := ht.marked b hb
    rw [(hv.fresh b hc).2.2] at h1
    cases h1
  · have := ho.room
    simp only [Store.withBlk_held, Store.withBlk_cap]
    omega

theorem increaseSize_of_taken (ho : Open efs s) (ht : TreeOk efs d s.blk) (hdev : ∀ b ∈ tree d s.blk, b < s.size)
    (hsz : d.size ≤ newSize) (hns : newSize < 2 ^ 32) (hm : DiskInode.dataBlocksOf newSize ≤ 16540) {v : List Nat}
    {blk₁ : Nat → Block}
    (hlen : v.length = (slotsFrom d.dataBlocks (DiskInode.dataBlocksOf newSize - d.dataBlocks)).length)
    (hv : Taken efs s.blk blk₁ v) (hvdev : ∀ b ∈ v, b < s.size) :
    ∃ d' blk', (d.increaseSize newSize v).run (s.withBlk blk₁) = .ok (d', s.withBlk blk') ∧
      Grown efs d s.blk newSize v d' blk' :=
  ⟨_, _, increaseSize_taken_run ho ht hdev hsz hm hlen hv hvdev, grown_of_taken ho.geo ht hsz hns hm hlen hv⟩

/-- What a call that grew the inode did, block by block. -/
theorem increaseSize_ok_taken (ho : Open efs s) (ht : TreeOk efs d s.blk)
    (h : (Inode.increaseSize efs newSize d).run s = .ok (d', s')) :
    (newSize < d.size ∧ d' = d ∧ s' = s) ∨
      (d.size ≤ newSize ∧ DiskInode.dataBlocksOf newSize ≤ 16540 ∧ ∃ v blk₁, Taken efs s.blk blk₁ v ∧
        v.length = (slotsFrom d.dataBlocks (DiskInode.dataBlocksOf newSize - d.dataBlocks)).length ∧
        d' = (grownBy d newSize blk₁ v).1 ∧ s' = s.withBlk (grownBy d newSize blk₁ v).2) := by
  unfold Inode.increaseSize at h
  split at h
  · rename_i hlt
    cases h
    exact .inl ⟨hlt, rfl, rfl⟩
  · rename_i hge
    right
    have hsz : d.size ≤ newSize := by omega
    rw [blocksNumNeeded_eq hsz, ret_bind] at h
    obtain ⟨v, s1, h1, h2⟩ := run_bind_ok.mp h
    obtain ⟨hlen, blk₁, rfl, hv⟩ := allocBlocks_ok ho h1
    have hm := increaseSize_ok_le ht.small h2
    -- on a larger device every block is there
    have hbig : s.size ≤ max s.size (2 ^ 32) := by omega
    have hrun := increaseSize_taken_run (s := { s with size := max s.size (2 ^ 32) }) (ho.grow hbig) ht
      (fun b hb => by have := ht.u32 b hb; show b < max s.size (2 ^ 32); omega) hsz hm hlen hv
      (fun b hb => by have := (hv.fresh b hb).2.1; show b < max s.size (2 ^ 32); omega)
    obtain ⟨rfl, rfl⟩ := run_of_grow h2 hbig hrun
    exact ⟨hsz, hm, v, blk₁, hv, hlen, rfl, rfl⟩

theorem increaseSize_ok (ho : Open efs s) (ht : TreeOk efs d s.blk) (hns : newSize < 2 ^ 32)
    (h : (Inode.increaseSize efs newSize d).run s = .ok (d', s')) :
    (newSize < d.size ∧ d' = d ∧ s' = s) ∨
      ∃ v blk', s' = s.withBlk blk' ∧ Grown efs d s.blk newSize v d' blk' := by
  refine (increaseSize_ok_taken ho ht h).imp id ?_
  rintro ⟨hsz, hm, v, blk₁, hv, hlen, rfl, rfl⟩
  exact ⟨v, _, rfl, grown_of_taken ho.geo ht hsz hns hm hlen hv⟩

theorem Grown.treeStep {blk blk' : Nat → Block} {v : List Nat} (ht : TreeOk efs d blk)
    (hg : Grown efs d blk newSize v d' blk') : TreeStep efs d blk d' blk' where
  fits := hg.fits
  small := hg.small
  nodup := by
    rw [hg.tree, List.nodup_append]
    refine ⟨ht.nodup, hg.sorted.imp Nat.ne_of_lt, ?_⟩
    rintro b hb c hc rfl
    have h1 := ht.marked b hb
    rw [(hg.fresh b hc).2.2] at h1
    cases h1
  fresh b hb := by
    rw [hg.tree, List.mem_append] at hb
    exact hb.imp id (hg.fresh b)
  frame b _ h2 h3 := hg.frame b h3 fun τ hτ _ e => h2 (e ▸ List.mem_map_of_mem hτ)
  bits b hb := by
    rw [hg.bits b hb, hg.tree, Bool.or_eq_true, decide_eq_true_eq, List.mem_append]
    by_cases h : b ∈ EasyFs.tree d blk
    · simp [h, ht.marked b h]
    · simp [h]
  freed b h1 h2 := by
    rw [hg.tree] at h2
    exact absurd (List.mem_append_left _ h1) h2

theorem TreeStep.treeOk {blk blk' : Nat → Block} (ht : TreeOk efs d blk) (hs : TreeStep efs d blk d' blk') :
    TreeOk efs d' blk' := by
  have hin : ∀ b ∈ EasyFs.tree d' blk', efs.InData b := fun b hb =>
    (hs.fresh b hb).elim (ht.inData b) (·.1)
  exact ⟨hs.fits, hs.small, hs.nodup, hin, fun b hb => (hs.fresh b hb).elim (ht.u32 b) (·.2.1),
    fun b hb => (hs.bits b (hin b hb)).mpr (.inl hb)⟩

end Growing

/-! ## Giving blocks back -/

section Giving

variable {efs : EasyFileSystem} {s s' : Store Block} {d d' : DiskInode}

theorem deallocData_run (ho : Open efs s) {b : Nat} (hb : efs.InData b) (hd : b < s.size)
    (hm : efs.dataBit s.blk b = true) :
    (efs.deallocData b).run s = .ok ((), s.withBlk
      (efs.dataBitmap.clearBit (Function.update s.blk b (Blk.zero 512)) (b - efs.dataAreaStartBlock))) := by
  have h1 := hb.le
  have h2 := hb.lt
  have h3 := ho.geo.dataArea
  unfold Bitmap.maximum at h2
  have hmod := run_modifyBlock_ret (fun _ : Block => ((), Blk.zero 512)) (ho.dataFree hb hd)
  rw [EasyFileSystem.deallocData, run_bind_of hmod, subU32, if_pos h1, ret_bind]
  have hfree := ((ho.withBlk (Function.update s.blk b (Blk.zero 512))).bitmapFree
    (k := (b - efs.dataAreaStartBlock) / 4096) (by omega))
  rw [Bitmap.dealloc_run hfree]
  · rfl
  · rw [Store.withBlk_blk]
    rw [← hm]
    exact Bitmap.bit_congr (by unfold Bitmap.maximum; omega) fun c h4 h5 => Function.update_of_ne (by omega) _ _

/-- What giving back the blocks `v` did to the disk `blk`. -/
structure Given (efs : EasyFileSystem) (blk blk' : Nat → Block) (v : List Nat) : Prop where
  zero : ∀ b ∈ v, blk' b = Blk.zero 512
  bits : ∀ b, efs.InData b → efs.dataBit blk' b = (efs.dataBit blk b && decide (b ∉ v))
  frame : ∀ b, b ∉ v → (b < efs.dataBitmap.startBlockId ∨ efs.dataAreaStartBlock ≤ b) → blk' b = blk b

theorem deallocBlocks_run (ho : Open efs s) {v : List Nat} (hv : ∀ b ∈ v, efs.InData b ∧ b < s.size) (hnd : v.Nodup)
    (hm : ∀ b ∈ v, efs.dataBit s.blk b = true) :
    ∃ blk', (efs.deallocBlocks v).run s = .ok ((), s.withBlk blk') ∧ Given efs s.blk blk' v := by
  induction v generalizing s with
  | nil => exact ⟨s.blk, rfl, by simp, by simp, fun _ _ _ => rfl⟩
  | cons b v ih =>
    obtain ⟨hb, hd⟩ := hv b List.mem_cons_self
    have hbm := hm b List.mem_cons_self
    have hda := ho.geo.dataArea
    have hmax := hb.lt
    unfold Bitmap.maximum at hmax
    have hrun := deallocData_run ho hb hd hbm
    generalize hblk₁ : efs.dataBitmap.clearBit (Function.update s.blk b (Blk.zero 512)) (b - efs.dataAreaStartBlock) =
      blk₁ at hrun
    -- the disk after the first block
    have hupd : ∀ c, efs.InData c → efs.dataBit (Function.update s.blk b (Blk.zero 512)) c = efs.dataBit s.blk c := by
      intro c hc
      have h1 := hc.le
      have h2 := hc.lt
      have h3 := hb.le
      exact Bitmap.bit_congr (by omega) fun c' h4 h5 => Function.update_of_ne (by omega) _ _
    have hbits : ∀ c, efs.InData c → efs.dataBit blk₁ c = (c != b && efs.dataBit s.blk c) := by
      intro c hc
      rw [← hblk₁, dataBit_clearBit (by rw [hupd b hb]; exact hbm) hb.le hc.le, hupd c hc]
    have hframe : ∀ c, (c < efs.dataBitmap.startBlockId ∨ efs.dataAreaStartBlock ≤ c) →
        blk₁ c = Function.update s.blk b (Blk.zero 512) c := by
      intro c hc
      rw [← hblk₁, Bitmap.clearBit]
      exact updWord_of_not_bitmap ho.geo _ hb _ hc
    have hnv := (List.nodup_cons.mp hnd).1
    obtain ⟨blk', hrun', hg⟩ := ih (s := s.withBlk blk₁) (ho.withBlk _)
      (fun c hc => hv c (List.mem_cons_of_mem _ hc)) (List.nodup_cons.mp hnd).2 fun c hc => by
        rw [Store.withBlk_blk, hbits c (hv c (List.mem_cons_of_mem _ hc)).1, hm c (List.mem_cons_of_mem _ hc)]
        have : c ≠ b := by rintro rfl; exact hnv hc
        simp [this]
    refine ⟨blk', ?_, fun c hc => ?_, fun c hc => ?_, fun c hc hout => ?_⟩
    · rw [EasyFileSystem.deallocBlocks, run_bind_of hrun]
      exact hrun'
    · by_cases hcv : c ∈ v
      · exact hg.zero c hcv
      · obtain rfl : c = b := by simpa [hcv] using hc
        rw [hg.frame c hcv (.inr hb.le), Store.withBlk_blk, hframe c (.inr hb.le), Function.update_self]
    · rw [hg.bits c hc, Store.withBlk_blk, hbits c hc]
      by_cases e : c = b
      · subst e; simp
      · have hcb : (c != b) = true := bne_iff_ne.mpr e
        simp [e, hcb]
    · rw [List.mem_cons, not_or] at hc
      rw [hg.frame c hc.2 hout, Store.withBlk_blk, hframe c hout, Function.update_of_ne hc.1]

/-- The closure of `clear`. -/
def clearBody (efs : EasyFileSystem) (d : DiskInode) : Fs (Unit × DiskInode) := do
  let size := d.size
  let (v, d) ← d.clearSize
  assert (v.length = DiskInode.totalBlocks size)
  efs.deallocBlocks v
  return ((), d)

theorem clear_eq (efs : EasyFileSystem) (self : Inode) : Inode.clear efs self = withMutex (do
    Inode.modifyDiskInode efs self (clearBody efs)
    sync) := rfl

/-- The inode `d` of the disk `blk` was cleared. -/
structure Cleared (efs : EasyFileSystem) (d : DiskInode) (blk : Nat → Block) (d' : DiskInode) (blk' : Nat → Block) :
    Prop where
  size : d'.size = 0
  type_ : d'.type_ = d.type_
  linkNum : d'.linkNum = d.linkNum
  fits : d'.Fits efs.crate
  given : Given efs blk blk' (tree d blk)

/-- What `clear_size` leaves of the inode is stored, its blocks are given back. -/
theorem clearBody_eq (ho : Open efs s) (ht : TreeOk efs d s.blk) (hdev : ∀ b ∈ tree d s.blk, b < s.size) :
    ∃ blk', (clearBody efs d).run s = .ok (((), d.emptied), s.withBlk blk') ∧ Given efs s.blk blk' (tree d s.blk) := by
  have hrun := clearSize_eq ht.small (ht.indexFree ho hdev) ht.nodup (by have := ho.room; omega)
  obtain ⟨blk', hrun', hg⟩ := deallocBlocks_run ho (fun b hb => ⟨ht.inData b hb, hdev b hb⟩) ht.nodup ht.marked
  refine ⟨blk', ?_, hg⟩
  have hlen : (tree d s.blk).length = DiskInode.totalBlocks d.size := by
    rw [tree, List.length_map]
    exact length_slotsOf_dataBlocksOf d.size
  unfold clearBody
  simp only
  rw [run_bind_of hrun]
  simp only
  rw [assert_true hlen, ret_bind, run_bind_of hrun']
  rfl

theorem clearBody_run (ho : Open efs s) (ht : TreeOk efs d s.blk) (hdev : ∀ b ∈ tree d s.blk, b < s.size) :
    ∃ d' blk', (clearBody efs d).run s = .ok (((), d'), s.withBlk blk') ∧ Cleared efs d s.blk d' blk' := by
  obtain ⟨blk', hrun, hg⟩ := clearBody_eq ho ht hdev
  exact ⟨d.emptied, blk', hrun, rfl, rfl, rfl, ht.fits.emptied, hg⟩

theorem clearBody_ok (ho : Open efs s) (ht : TreeOk efs d s.blk) (h : (clearBody efs d).run s = .ok (((), d'), s')) :
    ∃ blk', s' = s.withBlk blk' ∧ Cleared efs d s.blk d' blk' := by
  have hbig : s.size ≤ max s.size (2 ^ 32) := by omega
  obtain ⟨d'', blk', hrun, hc⟩ := clearBody_run (s := { s with size := max s.size (2 ^ 32) }) (ho.grow hbig) ht
    (fun b hb => by have := ht.u32 b hb; show b < max s.size (2 ^ 32); omega)
  obtain ⟨he, rfl⟩ := run_of_grow h hbig hrun
  cases he
  exact ⟨blk', rfl, hc⟩

theorem clearBody_ok_emptied (ho : Open efs s) (ht : TreeOk efs d s.blk)
    (h : (clearBody efs d).run s = .ok (((), d'), s')) : d' = d.emptied := by
  have hbig : s.size ≤ max s.size (2 ^ 32) := by omega
  obtain ⟨blk', hrun, -⟩ := clearBody_eq (s := { s with size := max s.size (2 ^ 32) }) (ho.grow hbig) ht
    (fun b hb => by have := ht.u32 b hb; show b < max s.size (2 ^ 32); omega)
  exact congrArg Prod.snd (run_of_grow h hbig hrun).1

theorem tree_of_size_zero {d : DiskInode} (h : d.size = 0) (blk : Nat → Block) : tree d blk = [] := by
  unfold tree DiskInode.dataBlocks
  rw [h]
  rfl

theorem Cleared.treeStep {blk blk' : Nat → Block} (hc : Cleared efs d blk d' blk') :
    TreeStep efs d blk d' blk' := by
  have hnil := tree_of_size_zero hc.size blk'
  refine ⟨hc.fits, ?_, ?_, ?_, fun b h1 _ h3 => hc.given.frame b h1 h3, fun b hb => ?_, fun b hb _ => hc.given.zero b hb⟩
  · unfold DiskInode.dataBlocks
    rw [hc.size]
    decide
  · rw [hnil]
    exact List.nodup_nil
  · rw [hnil]
    simp
  · rw [hc.given.bits b hb, hnil]
    simp

end Giving

end TgRcore.EasyFs
