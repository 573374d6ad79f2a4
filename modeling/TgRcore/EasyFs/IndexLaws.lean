/-
  TgRcore.EasyFs.IndexLaws — growing and clearing an inode against the blocks it can name
  (`increase_size`, `clear_size` of `layout.rs`, `clear` of `vfs.rs`).

  The data blocks of an inode are what `get_block_id` returns; its index blocks are the
  pointers that `indexPointers` reads. Together they are the slots in use, in another order
  (`slotsFrom_perm`).
  - `increase_size_spec`: growing takes exactly the blocks that `blocks_num_needed` counts,
    keeps the old positions and puts each new block in one new place.
  - `clear_size_spec`: clearing collects each block the inode can name once.
-/

import TgRcore.EasyFs.Alloc

namespace TgRcore.EasyFs

open TgRcore.Bytes TgRcore.BlockProg TgRcore.BlockProg.Prog

/-! ## The slots that data blocks `n`, ..., `m - 1` bring into use -/

/-- The index slots among them. -/
def indexSlots (n m : Nat) : List Slot :=
  (if n ≤ 28 ∧ 28 < m then [.ind1] else []) ++ (if n ≤ 156 ∧ 156 < m then [.ind2] else []) ++
    ((List.range 128).filter fun a => n ≤ 156 + 128 * a ∧ 156 + 128 * a < m).map .sub

/-- What they hold: the two index pointers of the inode, and entries of its second-level
index block. -/
def indexPointers (d : DiskInode) (blk : Nat → Block) (n m : Nat) : List Nat :=
  (if n ≤ 28 ∧ 28 < m then [d.indirect1] else []) ++ (if n ≤ 156 ∧ 156 < m then [d.indirect2] else []) ++
    ((List.range 128).filter fun a => n ≤ 156 + 128 * a ∧ 156 + 128 * a < m).map fun a => (blk d.indirect2).word 4 (4 * a)

section

variable {n m : Nat}

theorem map_ptr_indexSlots (d : DiskInode) (blk : Nat → Block) (n m : Nat) :
    (indexSlots n m).map (ptr d blk) = indexPointers d blk n m := by
  unfold indexSlots indexPointers
  rw [List.map_append, List.map_append, List.map_map]
  congr 1
  congr 1 <;> split <;> rfl

theorem mem_slotsFrom {σ : Slot} {k : Nat} : σ ∈ slotsFrom n k ↔ match σ with
    | .data j => n ≤ j ∧ j < n + k
    | .ind1 => n ≤ 28 ∧ 28 < n + k
    | .ind2 => n ≤ 156 ∧ 156 < n + k
    | .sub a => n ≤ 156 + 128 * a ∧ 156 + 128 * a < n + k := by
  unfold slotsFrom
  simp only [List.mem_flatMap, List.mem_range'_1, mem_newSlots]
  cases σ <;> simp

theorem slotsFrom_nodup (n k : Nat) : (slotsFrom n k).Nodup := by
  have := slotsOf_nodup (n + k)
  rw [slotsOf_append (Nat.le_add_right n k), Nat.add_sub_cancel_left] at this
  exact (List.nodup_append.1 this).2.1

theorem indexSlots_nodup (n m : Nat) : (indexSlots n m).Nodup := by
  have hsub : ((List.range 128).filter fun a => n ≤ 156 + 128 * a ∧ 156 + 128 * a < m).Nodup :=
    List.nodup_range.filter _
  have hmap := hsub.map (f := Slot.sub) fun a b h => by cases h; rfl
  refine List.nodup_append.2 ⟨by split <;> split <;> simp, hmap, ?_⟩
  intro σ hσ τ hτ e
  subst e
  obtain ⟨a, -, rfl⟩ := List.mem_map.1 hτ
  split at hσ <;> split at hσ <;> simp at hσ

theorem mem_indexSlots {σ : Slot} (hm : m ≤ 16540) : σ ∈ indexSlots n m ↔ σ.isIndex = true ∧ match σ with
    | .data _ => False
    | .ind1 => n ≤ 28 ∧ 28 < m
    | .ind2 => n ≤ 156 ∧ 156 < m
    | .sub a => n ≤ 156 + 128 * a ∧ 156 + 128 * a < m := by
  unfold indexSlots
  cases σ with
  | data j => simp [Slot.isIndex]
  | ind1 => simp [Slot.isIndex]
  | ind2 => simp [Slot.isIndex]
  | sub a =>
    simp [Slot.isIndex]
    omega

theorem slotsFrom_perm (h : n ≤ m) (hm : m ≤ 16540) :
    (slotsFrom n (m - n)).Perm ((List.range' n (m - n)).map .data ++ indexSlots n m) := by
  refine (List.perm_ext_iff_of_nodup (slotsFrom_nodup n _) ?_).2 fun σ => ?_
  · refine List.nodup_append.2 ⟨(List.nodup_range' 1).map fun a b e => by cases e; rfl, indexSlots_nodup n m, ?_⟩
    intro σ hσ τ hτ e
    subst e
    obtain ⟨j, -, rfl⟩ := List.mem_map.1 hσ
    exact ((mem_indexSlots hm).1 hτ).2
  · rw [List.mem_append, mem_slotsFrom, mem_indexSlots hm, Nat.add_sub_cancel' h]
    cases σ <;> simp [Slot.isIndex, List.mem_range'_1, Nat.add_sub_cancel' h]

end

/-! ## An inode whose blocks can be looked up -/

/-- The blocks of `d` are different from each other, and its index blocks can be locked. -/
structure Whole (s : Store Block) (d : DiskInode) : Prop where
  small : d.dataBlocks ≤ 28 + 128 + 128 * 128
  nodup : (tree d s.blk).Nodup
  free : IndexFree s d d.dataBlocks

/-- The data blocks of `d` from position `n` to position `m - 1`. -/
def dataIds (d : DiskInode) (blk : Nat → Block) (n m : Nat) : List Nat :=
  (List.range' n (m - n)).map fun j => ptr d blk (.data j)

section

variable {s : Store Block} {d : DiskInode} {n m newSize : Nat} {v : List Nat}

theorem map_ptr_perm (d : DiskInode) (blk : Nat → Block) (h : n ≤ m) (hm : m ≤ 16540) :
    (dataIds d blk n m ++ indexPointers d blk n m).Perm ((slotsFrom n (m - n)).map (ptr d blk)) := by
  have := ((slotsFrom_perm h hm).map (ptr d blk)).symm
  rwa [List.map_append, List.map_map, map_ptr_indexSlots] at this

/-- `get_block_id` reads them. -/
theorem Whole.getBlockId_run (hw : Whole s d) {i : Nat} (hm : m ≤ d.dataBlocks) (hi : n + i < m) :
    (d.getBlockId (n + i)).run s = .ok ((dataIds d s.blk n m)[i]?.getD 0, s) := by
  rw [EasyFs.getBlockId_run hw.small (by omega) hw.free]
  have hlen : i < m - n := by omega
  simp [dataIds, List.getElem?_range' hlen]

/-- The blocks that growing is given: new to the inode, and different from each other. -/
structure Fresh (s : Store Block) (d : DiskInode) (v : List Nat) : Prop where
  nodup : v.Nodup
  unused : ∀ b ∈ v, b ∉ tree d s.blk
  free : ∀ b ∈ v, s.Free b
  u32 : ∀ b ∈ v, b < 2 ^ 32

/-- `blocks_num_needed` blocks, stored in slot order. -/
theorem Whole.assignAll (hw : Whole s d) (hsz : d.size ≤ newSize)
    (hm : DiskInode.dataBlocksOf newSize ≤ 16540) (hf : Fresh s d v)
    (hlen : v.length = (slotsFrom d.dataBlocks (DiskInode.dataBlocksOf newSize - d.dataBlocks)).length) :
    ∀ t, t = EasyFs.assignAll ({ d with size := newSize }, s.blk)
        (slotsFrom d.dataBlocks (DiskInode.dataBlocksOf newSize - d.dataBlocks)) v →
      SameFile { d with size := newSize } t.1 ∧ tree t.1 t.2 = tree d s.blk ++ v ∧
        ∀ b, (∀ τ ∈ slotsOf t.1.dataBlocks, τ.isIndex = true → ptr t.1 t.2 τ ≠ b) → t.2 b = s.blk b := by
  intro t ht
  have hnm : d.dataBlocks ≤ DiskInode.dataBlocksOf newSize := by
    unfold DiskInode.dataBlocks DiskInode.dataBlocksOf
    omega
  have hslots := slotsOf_append hnm
  have hptr : (slotsOf d.dataBlocks).map (ptr { d with size := newSize } s.blk) = tree d s.blk := by
    rw [ptr_size]
    rfl
  have hnd : (tree d s.blk ++ v).Nodup := by
    refine List.nodup_append.2 ⟨hw.nodup, hf.nodup, ?_⟩
    intro b hb c hc e
    exact hf.unused c hc (e ▸ hb)
  obtain ⟨h1, h2⟩ := assignAll_spec (t := ({ d with size := newSize }, s.blk)) hlen.symm
    (by rw [← hslots]; exact slotsOf_ordered hm) (by rw [hptr]; exact hnd) hf.u32
  have hsame := assignAll_same ({ d with size := newSize }, s.blk)
    (slotsFrom d.dataBlocks (DiskInode.dataBlocksOf newSize - d.dataBlocks)) v
  rw [← ht] at h1 h2 hsame
  have hblocks : t.1.dataBlocks = DiskInode.dataBlocksOf newSize := by
    unfold DiskInode.dataBlocks
    rw [hsame.size]
  rw [← hslots, hptr] at h1
  rw [← hslots] at h2
  refine ⟨hsame, ?_, fun b hb => h2 b (by rw [← hblocks]; exact hb)⟩
  unfold tree at h1 ⊢
  rw [hblocks]
  exact h1

end

theorem increase_size_spec {s : Store Block} {d : DiskInode} {newSize : Nat} {v : List Nat} (hw : Whole s d)
    (hsz : d.size ≤ newSize) (hm : DiskInode.dataBlocksOf newSize ≤ 28 + 128 + 128 * 128)
    (hneeded : (d.blocksNumNeeded newSize).run s = .ok (v.length, s)) (hf : Fresh s d v)
    (hroom : s.held.length + 1 < s.cap) :
    ∃ d' blk', (d.increaseSize newSize v).run s = .ok (d', s.withBlk blk') ∧ Whole (s.withBlk blk') d' ∧
      SameFile { d with size := newSize } d' ∧
      -- the old positions
      (∀ j < d.dataBlocks, ∃ b, (d.getBlockId j).run s = .ok (b, s) ∧
        (d'.getBlockId j).run (s.withBlk blk') = .ok (b, s.withBlk blk')) ∧
      -- the new positions and index pointers
      (∃ ids : List Nat, ids.length = d'.dataBlocks - d.dataBlocks ∧
        (∀ (i : Nat) (hi : i < ids.length),
          (d'.getBlockId (d.dataBlocks + i)).run (s.withBlk blk') = .ok (ids.get ⟨i, hi⟩, s.withBlk blk')) ∧
        (ids ++ indexPointers d' blk' d.dataBlocks d'.dataBlocks).Perm v) ∧
      -- the other blocks
      ∀ b, b ∉ indexPointers d' blk' 0 d'.dataBlocks → blk' b = s.blk b := by
  have hlen : v.length = (slotsFrom d.dataBlocks (DiskInode.dataBlocksOf newSize - d.dataBlocks)).length := by
    rw [blocksNumNeeded_eq hsz, run_ret] at hneeded
    exact (congrArg Prod.fst (Except.ok.inj hneeded)).symm
  have hnd : (tree d s.blk ++ v).Nodup := by
    refine List.nodup_append.2 ⟨hw.nodup, hf.nodup, ?_⟩
    intro b hb c hc e
    exact hf.unused c hc (e ▸ hb)
  have hrun := increaseSize_run hsz hm hlen hw.free (fun x hx => ⟨hf.free x hx, hf.u32 x hx⟩) hnd hroom
  generalize ht : assignAll ({ d with size := newSize }, s.blk)
    (slotsFrom d.dataBlocks (DiskInode.dataBlocksOf newSize - d.dataBlocks)) v = t at hrun
  obtain ⟨hsame, htree, hframe⟩ := hw.assignAll hsz hm hf hlen t ht.symm
  have hblocks : t.1.dataBlocks = DiskInode.dataBlocksOf newSize := by
    unfold DiskInode.dataBlocks
    rw [hsame.size]
  have hle : d.dataBlocks ≤ t.1.dataBlocks := by
    rw [hblocks]
    unfold DiskInode.dataBlocks DiskInode.dataBlocksOf
    omega
  -- the old slots keep their blocks, the new ones get those of the list
  have hsplit := htree
  unfold tree at hsplit
  rw [slotsOf_append hle, List.map_append] at hsplit
  obtain ⟨hold, hnew⟩ := List.append_inj hsplit (by simp)
  have hmem : ∀ τ ∈ slotsOf t.1.dataBlocks, ptr t.1 t.2 τ ∈ tree d s.blk ++ v := by
    intro τ hτ
    rw [← htree]
    exact List.mem_map_of_mem hτ
  have hwhole : Whole (s.withBlk t.2) t.1 := by
    refine ⟨by rw [hblocks]; exact hm, by rw [Store.withBlk_blk, htree]; exact hnd, fun τ hτ hi => Store.Free.withBlk ?_ _⟩
    have hsplit := hτ
    rw [slotsOf_append hle, List.mem_append] at hsplit
    apply hsplit.elim
    · intro h1
      rw [Store.withBlk_blk, List.map_inj_left.1 hold τ h1]
      exact hw.free τ h1 hi
    · intro h1
      refine hf.free _ ?_
      rw [Store.withBlk_blk, ← hnew]
      exact List.mem_map_of_mem h1
  refine ⟨t.1, t.2, hrun, hwhole, hsame, fun j hj => ?_, ⟨dataIds t.1 t.2 d.dataBlocks t.1.dataBlocks, ?_, ?_, ?_⟩, ?_⟩
  · refine ⟨ptr d s.blk (.data j), getBlockId_run hw.small hj hw.free, ?_⟩
    rw [EasyFs.getBlockId_run hwhole.small (Nat.lt_of_lt_of_le hj hle) hwhole.free, Store.withBlk_blk,
      List.map_inj_left.1 hold _ (mem_slotsOf.2 hj)]
  · simp [dataIds]
  · intro i hi
    have hi' := hi
    simp only [dataIds, List.length_map, List.length_range'] at hi'
    rw [hwhole.getBlockId_run (Nat.le_refl _) (by omega), Store.withBlk_blk, List.getElem?_eq_getElem hi]
    rfl
  · rw [← hnew]
    exact map_ptr_perm _ _ hle hwhole.small
  · intro b hb
    refine hframe b fun τ hτ hi e => hb ?_
    rw [← map_ptr_indexSlots, ← e]
    refine List.mem_map_of_mem ((mem_indexSlots hwhole.small).2 ⟨hi, ?_⟩)
    rw [mem_slotsOf] at hτ
    cases τ with
    | data j => cases hi
    | _ => exact ⟨by omega, hτ⟩

/-- An empty inode that grows to 29 blocks takes 30. -/
theorem increase_size_first_index :
    let s : Store Block := ⟨100, 16, fun _ => Blk.zero 512, [], false⟩
    let d : DiskInode := ⟨0, fun _ => 0, 0, 0, 0, 0⟩
    ∃ d' blk' ids, (d.increaseSize 14848 (List.range' 50 30)).run s = .ok (d', s.withBlk blk') ∧
      (ids ++ indexPointers d' blk' d.dataBlocks d'.dataBlocks).Perm (List.range' 50 30) := by
  intro s d
  have hnil : tree d s.blk = [] := tree_of_size_zero rfl _
  have hw : Whole s d := by
    refine ⟨by decide, by rw [hnil]; exact List.nodup_nil, fun σ hσ _ => ?_⟩
    simp [d, slotsOf, slotsFrom, DiskInode.dataBlocks, DiskInode.dataBlocksOf] at hσ
  have hf : Fresh s d (List.range' 50 30) := by
    refine ⟨by decide, fun b _ => by rw [hnil]; exact List.not_mem_nil, fun b hb => ?_, fun b hb => ?_⟩
    · exact ⟨by simp [s], by simp [s], by rw [List.mem_range'_1] at hb; show b < 100; omega⟩
    · rw [List.mem_range'_1] at hb
      omega
  have hneeded : (d.blocksNumNeeded 14848).run s = .ok ((List.range' 50 30).length, s) := by
    have hcount : DiskInode.totalBlocks 14848 - DiskInode.totalBlocks d.size = 30 := by decide
    rw [DiskInode.blocksNumNeeded, assert_true (Nat.zero_le _), ret_bind, hcount]
    rfl
  obtain ⟨d', blk', hrun, -, -, -, ⟨ids, -, -, hperm⟩, -⟩ :=
    increase_size_spec hw (Nat.zero_le _) (by decide) hneeded hf (by decide)
  exact ⟨d', blk', ids, hrun, hperm⟩

theorem clear_size_spec {s : Store Block} {d : DiskInode} (hw : Whole s d) (hroom : s.held.length + 1 < s.cap) :
    ∃ v ids : List Nat, d.clearSize.run s = .ok ((v, d.emptied), s) ∧
      ids.length = d.dataBlocks ∧ (∀ (j : Nat) (hj : j < ids.length), (d.getBlockId j).run s = .ok (ids.get ⟨j, hj⟩, s)) ∧
      (ids ++ indexPointers d s.blk 0 d.dataBlocks).Perm v ∧ v.Nodup ∧ v.length = DiskInode.totalBlocks d.size := by
  refine ⟨tree d s.blk, dataIds d s.blk 0 d.dataBlocks, clearSize_eq hw.small hw.free hw.nodup hroom, by simp [dataIds],
    fun j hj => ?_, map_ptr_perm d s.blk (Nat.zero_le _) hw.small, hw.nodup, ?_⟩
  · have hj' := hj
    simp only [dataIds, List.length_map, List.length_range'] at hj'
    have := hw.getBlockId_run (n := 0) (Nat.le_refl _) (show 0 + j < d.dataBlocks by omega)
    rw [Nat.zero_add, List.getElem?_eq_getElem hj] at this
    exact this
  · rw [tree, List.length_map]
    exact length_slotsOf_dataBlocksOf d.size

end TgRcore.EasyFs
