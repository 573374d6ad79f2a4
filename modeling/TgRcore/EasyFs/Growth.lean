/-
  TgRcore.EasyFs.Growth — the bytes of a file that grows (`vfs.rs`).

  `overwrite c off buf` is what a write is meant to do to the contents `c` of a file.
  - `GrowWrite.content_eq`: growing a file and writing into it does that, when the blocks
    that come in are zero and so is the rest of the file's last block.
  - `GrowWrite.grown_lt`: a write that returned has touched the block it allocated last, so
    all its blocks are on the device.
-/

import TgRcore.EasyFs.Ops

namespace TgRcore.EasyFs

open TgRcore.Bytes TgRcore.BlockProg TgRcore.BlockProg.Prog

/-! ## Writing into a byte string -/

/-- `buf` written at `off` into `c`, with zeros in between if `c` is shorter. -/
def overwrite (c : List UInt8) (off : Nat) (buf : List UInt8) : List UInt8 :=
  c.take off ++ List.replicate (off - c.length) 0 ++ buf ++ c.drop (off + buf.length)

theorem length_overwrite (c : List UInt8) (off : Nat) (buf : List UInt8) :
    (overwrite c off buf).length = max c.length (off + buf.length) := by
  simp only [overwrite, List.length_append, List.length_take, List.length_replicate, List.length_drop]
  omega

theorem getD_overwrite (c : List UInt8) (off : Nat) (buf : List UInt8) (i : Nat) :
    (overwrite c off buf).getD i 0 = if off ≤ i ∧ i < off + buf.length then buf.getD (i - off) 0 else c.getD i 0 := by
  have h1 : (c.take off ++ List.replicate (off - c.length) 0).length = off := by
    simp only [List.length_append, List.length_take, List.length_replicate]
    omega
  have h2 : (c.take off ++ List.replicate (off - c.length) 0 ++ buf).length = off + buf.length := by
    rw [List.length_append, h1]
  unfold overwrite
  by_cases hlt : i < off + buf.length
  · rw [List.getD_append _ _ _ _ (by omega)]
    by_cases hge : off ≤ i
    · rw [List.getD_append_right _ _ _ _ (by omega), h1, if_pos ⟨hge, hlt⟩]
    · rw [List.getD_append _ _ _ _ (by omega), if_neg (by omega)]
      by_cases hc : i < c.length
      · rw [List.getD_append _ _ _ _ (by rw [List.length_take]; omega)]
        simp only [List.getD_eq_getElem?_getD, List.getElem?_take, if_pos (show i < off by omega)]
      · rw [List.getD_append_right _ _ _ _ (by rw [List.length_take]; omega), List.getD_eq_default c _ (by omega)]
        rw [List.length_take, List.getD_replicate 0 (by omega)]
  · rw [List.getD_append_right _ _ _ _ (by omega), h2, if_neg (by omega)]
    simp only [List.getD_eq_getElem?_getD, List.getElem?_drop]
    rw [show off + buf.length + (i - (off + buf.length)) = i by omega]

theorem eq_of_getD {l l' : List UInt8} (hlen : l.length = l'.length) (h : ∀ i < l.length, l.getD i 0 = l'.getD i 0) :
    l = l' := by
  refine List.ext_getElem hlen fun i h1 h2 => ?_
  have := h i h1
  rwa [List.getD_eq_getElem _ _ h1, List.getD_eq_getElem _ _ h2] at this

/-- Two writes, one behind the other. -/
theorem overwrite_append (c : List UInt8) (off : Nat) (a b : List UInt8) :
    overwrite (overwrite c off a) (off + a.length) b = overwrite c off (a ++ b) := by
  refine eq_of_getD ?_ fun i _ => ?_
  · simp only [length_overwrite, List.length_append]
    omega
  · simp only [getD_overwrite, List.length_append]
    by_cases h1 : off ≤ i
    · by_cases h2 : i < off + a.length
      · rw [if_neg (by omega), if_pos ⟨h1, h2⟩, if_pos (by omega), List.getD_append _ _ _ _ (by omega)]
      · by_cases h3 : i < off + a.length + b.length
        · rw [if_pos (by omega), if_pos (by omega), List.getD_append_right _ _ _ _ (by omega), Nat.sub_sub]
        · rw [if_neg (by omega), if_neg (by omega), if_neg (by omega)]
    · rw [if_neg (by omega), if_neg (by omega), if_neg (by omega)]

theorem getD_content (d : DiskInode) (blk : Nat → Block) (i : Nat) :
    (content d blk).getD i 0 = if i < d.size then fileByte d blk i else 0 := by
  split
  · rename_i h
    rw [List.getD_eq_getElem _ _ (by simpa using h)]
    simp [content]
  · rw [List.getD_eq_default _ _ (by simpa using by omega)]

/-! ## Growing -/

theorem dataBlocksOf_mono {a b : Nat} (h : a ≤ b) : DiskInode.dataBlocksOf a ≤ DiskInode.dataBlocksOf b := by
  unfold DiskInode.dataBlocksOf
  omega

theorem lt_of_pairwise_of_last {l : List Nat} {b size : Nat} (hs : (l ++ [b]).Pairwise (· < ·)) (hb : b < size) :
    ∀ x ∈ l ++ [b], x < size := by
  intro x hx
  rcases List.mem_append.mp hx with h | h
  · have := (List.pairwise_append.mp hs).2.2 x h b (List.mem_singleton_self b)
    omega
  · rw [List.mem_singleton.mp h]
    exact hb

namespace Grown

variable {efs : EasyFileSystem} {d d' : DiskInode} {blk blkg : Nat → Block} {newSize : Nat} {v : List Nat}

theorem blocks_le (h : Grown efs d blk newSize v d' blkg) : d.dataBlocks ≤ d'.dataBlocks := by
  unfold DiskInode.dataBlocks
  rw [h.size]
  exact dataBlocksOf_mono h.le

/-- The old slots keep their blocks, the new ones get the blocks `v`. -/
theorem ptrs (h : Grown efs d blk newSize v d' blkg) :
    (∀ σ ∈ slotsOf d.dataBlocks, ptr d' blkg σ = ptr d blk σ) ∧
      (slotsFrom d.dataBlocks (d'.dataBlocks - d.dataBlocks)).map (ptr d' blkg) = v := by
  have ht := h.tree
  rw [EasyFs.tree, EasyFs.tree, slotsOf_append h.blocks_le, List.map_append] at ht
  obtain ⟨h1, h2⟩ := List.append_inj ht (by simp)
  exact ⟨fun σ hσ => List.map_inj_left.mp h1 σ hσ, h2⟩

/-- Growing writes index blocks only. -/
theorem data_eq (h : Grown efs d blk newSize v d' blkg) (ht : TreeOk efs d blk) {j : Nat} (hj : j < d'.dataBlocks) :
    blkg (ptr d' blkg (.data j)) = blk (ptr d' blkg (.data j)) := by
  have hmem := data_mem_tree hj blkg
  have hn := (h.treeStep ht).nodup
  have hin : efs.InData (ptr d' blkg (.data j)) := by
    rcases (h.treeStep ht).fresh _ hmem with h1 | h1
    · exact ht.inData _ h1
    · exact h1.1
  refine h.frame _ (.inr hin.le) fun τ hτ hi e => ?_
  have := List.inj_on_of_nodup_map hn hτ (mem_slotsOf.mpr hj : Slot.data j ∈ slotsOf d'.dataBlocks) e
  subst this
  cases hi

/-- The bytes the file had stay, the bytes of the new blocks are zero. -/
theorem fileByte_eq (h : Grown efs d blk newSize v d' blkg) (ht : TreeOk efs d blk)
    (hzero : ∀ b ∈ v, blk b = Blk.zero 512) {i : Nat} (hi : i < 512 * d'.dataBlocks) :
    fileByte d' blkg i = if i < 512 * d.dataBlocks then fileByte d blk i else 0 := by
  unfold fileByte
  rw [h.data_eq ht (by omega)]
  split
  · rw [h.ptrs.1 _ (mem_slotsOf.mpr (by show i / 512 < d.dataBlocks; omega))]
  · have hv : ptr d' blkg (.data (i / 512)) ∈ v := by
      rw [← h.ptrs.2]
      refine List.mem_map_of_mem ?_
      have hin : Slot.data (i / 512) ∈ slotsOf d'.dataBlocks := mem_slotsOf.mpr (by show i / 512 < _; omega)
      rw [slotsOf_append h.blocks_le, List.mem_append] at hin
      refine hin.resolve_left fun hold => ?_
      have : i / 512 < d.dataBlocks := mem_slotsOf.mp hold
      omega
    rw [hzero _ hv, Blk.byte_zero]

/-- Blocks are taken in order, and the last one is the file's last data block. -/
theorem v_lt (h : Grown efs d blk newSize v d' blkg) {size : Nat}
    (hlast : 0 < d'.dataBlocks → ptr d' blkg (.data (d'.dataBlocks - 1)) < size) : ∀ b ∈ v, b < size := by
  rcases Nat.eq_zero_or_pos (d'.dataBlocks - d.dataBlocks) with h0 | hpos
  · have := h.ptrs.2
    rw [h0] at this
    rw [← this]
    intro b hb
    cases hb
  · have hv : v = (slotsFrom d.dataBlocks (d'.dataBlocks - d.dataBlocks)).map (ptr d' blkg) := h.ptrs.2.symm
    have hs := h.sorted
    obtain ⟨l, hl⟩ : ∃ l, slotsFrom d.dataBlocks (d'.dataBlocks - d.dataBlocks) = l ++ [.data (d'.dataBlocks - 1)] := by
      refine ⟨slotsFrom d.dataBlocks (d'.dataBlocks - d.dataBlocks - 1) ++ (newSlots (d'.dataBlocks - 1)).dropLast, ?_⟩
      have hsplit := slotsFrom_append d.dataBlocks (d'.dataBlocks - d.dataBlocks - 1) 1
      rw [show d'.dataBlocks - d.dataBlocks - 1 + 1 = d'.dataBlocks - d.dataBlocks by omega] at hsplit
      rw [hsplit, List.append_assoc, show d.dataBlocks + (d'.dataBlocks - d.dataBlocks - 1) = d'.dataBlocks - 1 by omega]
      congr 1
      unfold newSlots slotsFrom
      simp [newSlots]
    rw [hl, List.map_append, List.map_singleton] at hv
    rw [hv] at hs ⊢
    exact lt_of_pairwise_of_last hs (hlast (by omega))

end Grown

/-! ## Growing and writing -/

/-- The bytes after the end of the file, up to the end of its last block, are zero. -/
def SlackZero (d : DiskInode) (blk : Nat → Block) : Prop :=
  ∀ i, d.size ≤ i → i < 512 * d.dataBlocks → fileByte d blk i = 0

theorem size_le_blocks (d : DiskInode) : d.size ≤ 512 * d.dataBlocks := by
  unfold DiskInode.dataBlocks DiskInode.dataBlocksOf
  omega

/-- Writing into the bytes a file has. -/
theorem Written.content_eq {d : DiskInode} {blk blk' : Nat → Block} {off : Nat} {l : List UInt8}
    (h : Written d blk blk' off l) (hle : off + l.length ≤ d.size) : content d blk' = overwrite (content d blk) off l := by
  refine eq_of_getD (by rw [length_content, length_overwrite, length_content]; omega) fun i hi => ?_
  rw [length_content] at hi
  have := size_le_blocks d
  rw [getD_content, if_pos hi, h.bytes i (by omega), getD_overwrite, getD_content, if_pos hi]

namespace GrowWrite

variable {efs : EasyFileSystem} {size off : Nat} {d d' : DiskInode} {blk blkg blk₁ : Nat → Block} {buf : List UInt8}

variable {newSize : Nat}

theorem size_eq (h : GrowWrite efs size d blk newSize off buf d' blkg blk₁) : d'.size = max d.size newSize := by
  rcases h.grow with ⟨h1, rfl, -⟩ | ⟨v, hg⟩
  · omega
  · have := hg.le
    rw [hg.size]
    omega

theorem writtenPart_eq (h : GrowWrite efs size d blk (off + buf.length) off buf d' blkg blk₁) :
    writtenPart d' off buf = buf := by
  rw [writtenPart, h.size_eq, List.take_of_length_le]
  omega

theorem writtenPart_le (h : GrowWrite efs size d blk newSize off buf d' blkg blk₁) :
    off + (writtenPart d' off buf).length ≤ d'.size := by
  have := h.le
  rw [writtenPart, List.length_take]
  omega

theorem nodup (h : GrowWrite efs size d blk newSize off buf d' blkg blk₁) (ht : TreeOk efs d blk) : (tree d' blkg).Nodup := by
  rcases h.grow with ⟨-, rfl, rfl⟩ | ⟨v, hg⟩
  · exact ht.nodup
  · exact (hg.treeStep ht).nodup

/-- All blocks of the file are on the device, if those it had were, and if some bytes of a part
    that came in were written. -/
theorem grown_lt_of_covers (h : GrowWrite efs size d blk newSize off buf d' blkg blk₁)
    (hcov : d.size < newSize → off < newSize) (hle : newSize ≤ off + buf.length) (hdev : ∀ b ∈ tree d blk, b < size) :
    ∀ b ∈ tree d' blkg, b < size := by
  rcases h.grow with ⟨-, rfl, rfl⟩ | ⟨v, hg⟩
  · exact hdev
  · rw [hg.tree]
    intro b hb
    rcases List.mem_append.mp hb with h1 | h1
    · exact hdev b h1
    · have hge := hg.le
      by_cases hlt : d.size < newSize
      · have := hcov hlt
        refine hg.v_lt (fun _ => h.device _ ?_ ?_ ?_) b h1
        · unfold DiskInode.dataBlocks DiskInode.dataBlocksOf
          rw [hg.size]
          omega
        · unfold DiskInode.dataBlocks DiskInode.dataBlocksOf
          rw [hg.size]
          omega
        · rw [hg.size]
          omega
      · -- nothing came in
        have hsame : d'.dataBlocks - d.dataBlocks = 0 := by
          unfold DiskInode.dataBlocks
          rw [hg.size, show newSize = d.size by omega, Nat.sub_self]
        have hv := hg.ptrs.2
        rw [hsame] at hv
        rw [← hv] at h1
        cases h1

theorem grown_lt (h : GrowWrite efs size d blk (off + buf.length) off buf d' blkg blk₁) (hb : buf ≠ [])
    (hdev : ∀ b ∈ tree d blk, b < size) : ∀ b ∈ tree d' blkg, b < size := by
  have hlen : 0 < buf.length := List.length_pos_of_ne_nil hb
  exact h.grown_lt_of_covers (fun _ => by omega) (Nat.le_refl _) hdev

theorem tree_eq (h : GrowWrite efs size d blk newSize off buf d' blkg blk₁) (ht : TreeOk efs d blk) :
    tree d' blk₁ = tree d' blkg :=
  h.written.tree_eq h.step.small (h.nodup ht)

theorem tree_lt (h : GrowWrite efs size d blk (off + buf.length) off buf d' blkg blk₁) (hb : buf ≠ [])
    (ht : TreeOk efs d blk) (hdev : ∀ b ∈ tree d blk, b < size) : ∀ b ∈ tree d' blk₁, b < size := by
  rw [h.tree_eq ht]
  exact h.grown_lt hb hdev

section Bytes

variable (h : GrowWrite efs size d blk newSize off buf d' blkg blk₁) (ht : TreeOk efs d blk)
  (hlt : ∀ b ∈ tree d' blkg, b < size) (hslack : SlackZero d blk)
  (hzero : ∀ b, efs.InData b → b < size → efs.dataBit blk b = false → blk b = Blk.zero 512)

include h ht hlt hslack hzero

/-- Every byte of the file after the call. -/
theorem fileByte_eq {i : Nat} (hi : i < 512 * d'.dataBlocks) :
    fileByte d' blk₁ i = if off ≤ i ∧ i < off + (writtenPart d' off buf).length then (writtenPart d' off buf).getD (i - off) 0
      else if i < d.size then fileByte d blk i else 0 := by
  rw [h.written.bytes i hi]
  refine if_congr Iff.rfl rfl ?_
  -- what was there before the write
  have hgrown : fileByte d' blkg i = if i < 512 * d.dataBlocks then fileByte d blk i else 0 := by
    rcases h.grow with ⟨-, rfl, rfl⟩ | ⟨v, hg⟩
    · rw [if_pos hi]
    · refine hg.fileByte_eq ht (fun b hbv => ?_) hi
      obtain ⟨h1, -, h3⟩ := hg.fresh b hbv
      exact hzero b h1 (hlt b (by rw [hg.tree]; exact List.mem_append_right _ hbv)) h3
  rw [hgrown]
  have := size_le_blocks d
  by_cases h1 : i < d.size
  · rw [if_pos (by omega), if_pos h1]
  · rw [if_neg h1]
    split
    · exact hslack i (by omega) (by omega)
    · rfl

theorem slackZero : SlackZero d' blk₁ := by
  intro i h1 h2
  have hs := h.size_eq
  have hpart := h.writtenPart_le
  rw [h.fileByte_eq ht hlt hslack hzero h2, if_neg (by omega), if_neg (by omega)]

end Bytes

theorem content_eq (h : GrowWrite efs size d blk (off + buf.length) off buf d' blkg blk₁) (hb : buf ≠ [])
    (ht : TreeOk efs d blk) (hdev : ∀ b ∈ tree d blk, b < size) (hslack : SlackZero d blk)
    (hzero : ∀ b, efs.InData b → b < size → efs.dataBit blk b = false → blk b = Blk.zero 512) :
    content d' blk₁ = overwrite (content d blk) off buf := by
  have hs := h.size_eq
  refine eq_of_getD (by rw [length_content, length_overwrite, length_content, hs]) fun i hi => ?_
  rw [length_content] at hi
  have := size_le_blocks d'
  rw [getD_content, if_pos hi, h.fileByte_eq ht (h.grown_lt hb hdev) hslack hzero (by omega), h.writtenPart_eq,
    getD_overwrite, getD_content]

theorem type_eq (h : GrowWrite efs size d blk newSize off buf d' blkg blk₁) : d'.type_ = d.type_ := by
  rcases h.grow with ⟨-, rfl, -⟩ | ⟨v, hg⟩
  · rfl
  · exact hg.type_

theorem linkNum_eq (h : GrowWrite efs size d blk newSize off buf d' blkg blk₁) :
    d'.linkNum = d.linkNum := by
  rcases h.grow with ⟨-, rfl, -⟩ | ⟨v, hg⟩
  · rfl
  · exact hg.linkNum

/-- Writing right behind the end of the file appends to it, whatever the new blocks held. -/
theorem content_append (h : GrowWrite efs size d blk (d.size + buf.length) d.size buf d' blkg blk₁) (ht : TreeOk efs d blk) :
    content d' blk₁ = content d blk ++ buf := by
  have hs : d'.size = d.size + buf.length := by
    rw [h.size_eq]
    omega
  have hold : ∀ i < d.size, fileByte d' blkg i = fileByte d blk i := by
    intro i hi
    rcases h.grow with ⟨-, rfl, rfl⟩ | ⟨v, hg⟩
    · rfl
    · unfold fileByte
      rw [hg.data_eq ht (div_lt_dataBlocks (by omega)), hg.ptrs.1 _ (mem_slotsOf.mpr (div_lt_dataBlocks hi))]
  refine eq_of_getD (by rw [length_content, List.length_append, length_content, hs]) fun i hi => ?_
  rw [length_content] at hi
  have := size_le_blocks d'
  rw [getD_content, if_pos hi, h.written.bytes i (by omega), h.writtenPart_eq]
  by_cases h1 : d.size ≤ i
  · rw [if_pos (by omega), List.getD_append_right _ _ _ _ (by rw [length_content]; exact h1), length_content]
  · rw [if_neg (by omega), hold i (by omega), List.getD_append _ _ _ _ (by rw [length_content]; omega), getD_content,
      if_pos (by omega)]

/-- A directory grows by exactly the entry. -/
theorem of_dirent {name : String} {id : Nat}
    (h : GrowWrite efs size d blk ((d.size / 32 + 1) * 32) (d.size / 32 * 32) (direntBytes name id) d' blkg blk₁) :
    GrowWrite efs size d blk (d.size / 32 * 32 + (direntBytes name id).length) (d.size / 32 * 32) (direntBytes name id) d'
      blkg blk₁ := by
  rwa [direntBytes, length_asBytes, ← Nat.succ_mul]

end GrowWrite

theorem direntBytes_ne_nil (name : String) (id : Nat) : direntBytes name id ≠ [] :=
  List.ne_nil_of_length_pos (by rw [direntBytes, length_asBytes]; decide)

end TgRcore.EasyFs
