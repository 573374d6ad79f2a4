/-
  TgRcore.EasyFs.GrowthFailure — writes that ask for more than there is (`write_at`,
  `increase_size` of `vfs.rs`, the base easy-fs).

  `write_at` reports no error: `increase_size` takes the blocks one by one from
  `alloc_data`, which panics when there is none, the second-level index is indexed
  without a check, and the new size is cut to 32 bits before anything is done with it.
  - `writeAt_iff`: the writes of an inode that return.
  - `writeAt_cut_ok`, `writeAt_cut_returns`: what they do, and when they return, for a new
    size that is, after the cut, not above the file's.
  - `growth_fails_cleanly_iff`: a write past the limits is reported and changes nothing
    exactly when the cut makes it a write of the bytes the file has already.
-/

import TgRcore.EasyFs.Durability

namespace TgRcore.EasyFs

open TgRcore.Bytes TgRcore.BlockProg TgRcore.BlockProg.Prog

/-! ## Looking up a block -/

/-- The slots on the way to data block `j` of a file, the index blocks first. -/
def Slot.path (j : Nat) : List Slot :=
  if j < 28 then [.data j] else if j < 156 then [.ind1, .data j] else [.ind2, .sub ((j - 156) / 128), .data j]

/-- Data block `j` of the file can be looked up and locked. -/
structure Opens (s : Store Block) (d : DiskInode) (j : Nat) : Prop where
  lt : j < 16540
  free : ∀ σ ∈ Slot.path j, s.Free (ptr d s.blk σ)

section Lookup

variable {s s' : Store Block} {d : DiskInode} {j : Nat}

theorem Slot.data_mem_path (j : Nat) : Slot.data j ∈ Slot.path j := by
  unfold Slot.path
  split_ifs <;> simp

theorem Opens.self (h : Opens s d j) : s.Free (ptr d s.blk (.data j)) := h.free _ (Slot.data_mem_path j)

/-- The way to a block of the file is in the file. -/
theorem Slot.path_mem {n : Nat} (hj : j < n) {σ : Slot} (hσ : σ ∈ Slot.path j) : σ ∈ slotsOf n := by
  unfold Slot.path at hσ
  split_ifs at hσ with h1 h2 <;> simp only [List.mem_cons, List.not_mem_nil, or_false] at hσ
  · subst hσ
    exact mem_slotsOf.mpr hj
  · rcases hσ with rfl | rfl
    · exact mem_slotsOf.mpr (by show 28 < n; omega)
    · exact mem_slotsOf.mpr hj
  · rcases hσ with rfl | rfl | rfl
    · exact mem_slotsOf.mpr (by show 156 < n; omega)
    · exact mem_slotsOf.mpr (by show 156 + 128 * ((j - 156) / 128) < n; omega)
    · exact mem_slotsOf.mpr hj

theorem readIndirect_free {b i v : Nat} (h : (readBlock b fun x => getIndirect x i).run s = .ok (v, s')) :
    s.Free b ∧ i < 128 := by
  obtain ⟨hf, s1, h1, -⟩ := run_readBlock_ok.mp h
  refine ⟨hf, ?_⟩
  rw [getIndirect] at h1
  split at h1
  · assumption
  · cases h1

theorem Opens.run (h : Opens s d j) : (d.getBlockId j).run s = .ok (ptr d s.blk (.data j), s) := by
  have hlt := h.lt
  have hf := h.free
  unfold Slot.path at hf
  unfold DiskInode.getBlockId
  by_cases h1 : j < 28
  · simp only [ptr, h1, if_true, run_ret]
  · by_cases h2 : j < 156
    · simp only [h1, h2, if_true, if_false] at hf
      have hi1 : s.Free d.indirect1 := hf .ind1 (by simp)
      simp only [ptr, h1, h2, if_true, if_false]
      exact readIndirect_run hi1 (by omega)
    · simp only [h1, h2, if_false] at hf
      have hi2 : s.Free d.indirect2 := hf .ind2 (by simp)
      have hsub := hf (.sub ((j - 156) / 128)) (by simp)
      simp only [ptr, h1, h2, if_false] at hsub ⊢
      rw [run_bind_of (readIndirect_run hi2 (by omega))]
      exact readIndirect_run hsub (by omega)

theorem opens_of_run {b : Nat} (h : (d.getBlockId j).run s = .ok (b, s')) (hb : s.Free b) : Opens s d j := by
  obtain ⟨rfl, -⟩ := getBlockId_ok h
  unfold DiskInode.getBlockId at h
  by_cases h1 : j < 28
  · exact ⟨by omega, by simpa [Slot.path, h1] using hb⟩
  · by_cases h2 : j < 156
    · simp only [h1, h2, if_true, if_false] at h
      obtain ⟨hi1, -⟩ := readIndirect_free h
      exact ⟨by omega, by simpa [Slot.path, h1, h2] using ⟨hi1, hb⟩⟩
    · simp only [h1, h2, if_false] at h
      obtain ⟨a, s1, ha, h⟩ := run_bind_ok.mp h
      obtain ⟨hi2, hlt⟩ := readIndirect_free ha
      obtain ⟨rfl, rfl⟩ := readIndirect_ok ha
      obtain ⟨hsub, -⟩ := readIndirect_free h
      exact ⟨by omega, by simpa [Slot.path, h1, h2] using ⟨hi2, hsub, hb⟩⟩

/-- Whether a block can be opened depends on the slots on the way only. -/
theorem Opens.congr {g : Nat → Block} (h : ∀ σ ∈ Slot.path j, ptr d g σ = ptr d s.blk σ) :
    Opens (s.withBlk g) d j ↔ Opens s d j := by
  refine ⟨fun ho => ⟨ho.lt, fun σ hσ => ?_⟩, fun ho => ⟨ho.lt, fun σ hσ => ?_⟩⟩
  · have hfree := ho.free σ hσ
    rw [Store.withBlk_blk, h σ hσ] at hfree
    exact ⟨hfree.1, hfree.2, hfree.3⟩
  · rw [Store.withBlk_blk, h σ hσ]
    exact (ho.free σ hσ).withBlk _

end Lookup

/-! ## Writing into a file as it is -/

/-- The blocks that a write of the bytes from `start` to `fin` looks up: one at least. -/
def Touches (start fin j : Nat) : Prop := start / 512 ≤ j ∧ (j = start / 512 ∨ j * 512 < fin)

section Writing

variable {s s' : Store Block} {d : DiskInode}

theorem touches_self (start fin : Nat) : Touches start fin (start / 512) := ⟨Nat.le_refl _, .inl rfl⟩

/-- The loop returns exactly when it can open the blocks it comes to. -/
theorem writeLoop_iff (hs : d.dataBlocks ≤ 16540) (buf : List UInt8) {fin : Nat} (hfin : fin ≤ d.size) (start w : Nat)
    (hle : start ≤ fin) (hw : w + (fin - start) ≤ buf.length) (hn : (tree d s.blk).Nodup) :
    (∃ r, (d.writeLoop buf (start / 512) start fin w).run s = .ok r) ↔ ∀ j, Touches start fin j → Opens s d j := by
  induction hm : fin - start using Nat.strong_induction_on generalizing start w s with
  | _ m ih =>
    by_cases he : min ((start / 512 + 1) * 512) fin = fin
    · -- the last block
      have honly : ∀ j, Touches start fin j → j = start / 512 := by
        rintro j ⟨h1, rfl | h2⟩
        · rfl
        · omega
      constructor
      · rintro ⟨r, h⟩ j hj
        rw [honly j hj]
        rw [DiskInode.writeLoop] at h
        obtain ⟨id, s1, h1, h⟩ := run_bind_ok.mp h
        obtain ⟨rfl, rfl⟩ := getBlockId_ok h1
        obtain ⟨u, s2, h2, h⟩ := run_bind_ok.mp h
        exact opens_of_run h1 (modifyRet_ok h2).1
      · intro ho
        have h0 := ho _ (touches_self start fin)
        rw [DiskInode.writeLoop, run_bind_of h0.run, run_bind_of (run_modifyBlock_ret (fun b : Block => ((), _)) h0.self),
          dif_pos he]
        exact ⟨_, rfl⟩
    · have hnext : min ((start / 512 + 1) * 512) fin = (start / 512 + 1) * 512 := by omega
      have hj : start / 512 < d.dataBlocks := div_lt_dataBlocks (by omega)
      have hstep := written_patch s.blk start ((buf.drop w).take ((start / 512 + 1) * 512 - start)) hs hn hj (by
        rw [List.length_take, List.length_drop]
        omega)
      have htree := hstep.tree_eq hs hn
      -- what is left, after this block
      have hrest := ih (fin - (start / 512 + 1) * 512) (by omega)
        (s := s.withBlk (Function.update s.blk (ptr d s.blk (.data (start / 512)))
          (Block.patch (s.blk (ptr d s.blk (.data (start / 512)))) (start % 512)
            ((buf.drop w).take ((start / 512 + 1) * 512 - start)))))
        ((start / 512 + 1) * 512) (w + ((start / 512 + 1) * 512 - start)) (by omega) (by omega)
        (by rw [Store.withBlk_blk, htree]; exact hn) rfl
      have hsame : ∀ j, Touches ((start / 512 + 1) * 512) fin j → (Opens (s.withBlk (Function.update s.blk
          (ptr d s.blk (.data (start / 512))) (Block.patch (s.blk (ptr d s.blk (.data (start / 512)))) (start % 512)
            ((buf.drop w).take ((start / 512 + 1) * 512 - start))))) d j ↔ Opens s d j) := by
        intro j hj
        have hlt : j < d.dataBlocks := by
          unfold DiskInode.dataBlocks DiskInode.dataBlocksOf
          rcases hj.2 with h | h <;> omega
        exact Opens.congr fun σ hσ => hstep.ptr_eq hs hn (Slot.path_mem hlt hσ)
      rw [show (start / 512 + 1) * 512 / 512 = start / 512 + 1 by omega] at hrest
      constructor
      · rintro ⟨r, h⟩ j hj
        rw [DiskInode.writeLoop] at h
        obtain ⟨id, s1, h1, h⟩ := run_bind_ok.mp h
        obtain ⟨rfl, rfl⟩ := getBlockId_ok h1
        obtain ⟨u, s2, h2, h⟩ := run_bind_ok.mp h
        obtain ⟨hfree, hs2⟩ := modifyRet_ok h2
        rcases hj with ⟨h3, h4⟩
        by_cases e : j = start / 512
        · rw [e]
          exact opens_of_run h1 hfree
        · rw [dif_neg he] at h
          simp only [hnext] at h hs2
          rw [hs2] at h
          have hj' : Touches ((start / 512 + 1) * 512) fin j := ⟨by omega, .inr (h4.resolve_left e)⟩
          exact (hsame j hj').mp (hrest.mp ⟨r, h⟩ j hj')
      · intro ho
        have h0 := ho _ (touches_self start fin)
        rw [DiskInode.writeLoop, run_bind_of h0.run, run_bind_of (run_modifyBlock_ret (fun b : Block => ((), _)) h0.self),
          dif_neg he]
        simp only [hnext]
        refine hrest.mpr fun j hj => (hsame j hj).mpr (ho j ⟨?_, ?_⟩)
        · have := hj.1
          omega
        · rcases hj.2 with h | h
          · right
            omega
          · exact .inr h

/-- The writes into the blocks of a file that return. -/
theorem writeAt_iff (hs : d.dataBlocks ≤ 16540) (hn : (tree d s.blk).Nodup) (off : Nat) (buf : List UInt8) :
    (∃ r, (d.writeAt off buf).run s = .ok r) ↔ off + buf.length < 2 ^ 64 ∧ off ≤ d.size ∧
      ∀ j, Touches off (min (off + buf.length) d.size) j → Opens s d j := by
  constructor
  · rintro ⟨r, h⟩
    rw [DiskInode.writeAt] at h
    obtain ⟨h64, h⟩ := run_assert_bind_ok.mp h
    obtain ⟨hle, h⟩ := run_assert_bind_ok.mp h
    exact ⟨h64, by omega, (writeLoop_iff hs buf (Nat.min_le_right _ _) off 0 hle (by omega) hn).mp ⟨r, h⟩⟩
  · rintro ⟨h64, hle, ho⟩
    rw [DiskInode.writeAt, assert_true h64, ret_bind]
    dsimp only
    rw [assert_true (by omega), ret_bind]
    exact (writeLoop_iff hs buf (Nat.min_le_right _ _) off 0 (by omega) (by omega) hn).mpr ho

/-- The index blocks that growing to the size it has comes to. -/
structure IndexOpens (s : Store Block) (d : DiskInode) : Prop where
  first : 28 < d.dataBlocks → s.Free d.indirect1
  second : 156 < d.dataBlocks → s.Free d.indirect2

theorem run_modifyBlock_same_iff {α : Type} {b : Nat} {f : Block → Fs (α × Block)} {v : α} {r : α × Store Block}
    (h : f (s.blk b) = ret (v, s.blk b)) : (modifyBlock b f).run s = .ok r ↔ s.Free b ∧ r = (v, s) := by
  constructor
  · intro hr
    have hf := (run_modifyBlock_ok.mp hr).1
    rw [run_modifyBlock_same hf (by rw [h]; rfl)] at hr
    cases hr
    exact ⟨hf, rfl⟩
  · rintro ⟨hf, rfl⟩
    exact run_modifyBlock_same hf (by rw [h]; rfl)

/-- No pointer is filled in when the size stays. -/
theorem increaseSize_same_iff {r : DiskInode × Store Block} :
    (d.increaseSize d.size []).run s = .ok r ↔ IndexOpens s d ∧ r = (d, s) := by
  have hdir : d.fillDirect d.dataBlocks (min d.dataBlocks 28) [] = ret (d, d.dataBlocks, []) := by
    rw [DiskInode.fillDirect, if_neg (by omega)]
  have hfst : ∀ b, DiskInode.fillIndirect1 b (d.dataBlocks - 28) (min (d.dataBlocks - 28) 128) [] =
      ret ((d.dataBlocks - 28, []), b) := by
    intro b
    rw [DiskInode.fillIndirect1, if_neg (by omega)]
  have hsnd : ∀ b a c, DiskInode.fillIndirect2 b a c a c [] = ret ([], b) := by
    intro b a c
    rw [DiskInode.fillIndirect2, dif_neg (by omega)]
  unfold DiskInode.increaseSize
  simp only
  rw [show ({ d with size := d.size } : DiskInode) = d from rfl, hdir, ret_bind]
  simp only
  by_cases h1 : 28 < d.dataBlocks
  · have ht1 : d.takeIndirect1 d.dataBlocks [] = ret (d, []) := by
      rw [DiskInode.takeIndirect1, if_neg (by omega)]
      rfl
    rw [if_pos h1, ht1, ret_bind]
    simp only
    by_cases h2 : 156 < d.dataBlocks
    · have ht2 : d.takeIndirect2 (d.dataBlocks - 28) [] = ret (d, []) := by
        rw [DiskInode.takeIndirect2, if_neg (by omega)]
        rfl
      constructor
      · intro h
        obtain ⟨x, s1, h3, h⟩ := run_bind_ok.mp h
        obtain ⟨hf1, e⟩ := (run_modifyBlock_same_iff (hfst _)).mp h3
        cases e
        simp only at h
        rw [if_pos (show d.dataBlocks - 28 > 128 by omega), ht2, ret_bind] at h
        obtain ⟨y, s2, h4, h⟩ := run_bind_ok.mp h
        obtain ⟨hf2, e⟩ := (run_modifyBlock_same_iff (hsnd _ _ _)).mp h4
        cases e
        cases h
        exact ⟨⟨fun _ => hf1, fun _ => hf2⟩, rfl⟩
      · rintro ⟨hi, rfl⟩
        rw [run_bind_of ((run_modifyBlock_same_iff (hfst _)).mpr ⟨hi.first h1, rfl⟩)]
        simp only
        rw [if_pos (show d.dataBlocks - 28 > 128 by omega), ht2, ret_bind]
        simp only
        rw [run_bind_of ((run_modifyBlock_same_iff (hsnd _ _ _)).mpr ⟨hi.second h2, rfl⟩)]
        rfl
    · constructor
      · intro h
        obtain ⟨x, s1, h3, h⟩ := run_bind_ok.mp h
        obtain ⟨hf1, e⟩ := (run_modifyBlock_same_iff (hfst _)).mp h3
        cases e
        simp only at h
        rw [if_neg (show ¬ d.dataBlocks - 28 > 128 by omega)] at h
        cases h
        exact ⟨⟨fun _ => hf1, fun h => absurd h h2⟩, rfl⟩
      · rintro ⟨hi, rfl⟩
        rw [run_bind_of ((run_modifyBlock_same_iff (hfst _)).mpr ⟨hi.first h1, rfl⟩)]
        simp only
        rw [if_neg (show ¬ d.dataBlocks - 28 > 128 by omega)]
        rfl
  · rw [if_neg h1]
    constructor
    · intro h
      cases h
      exact ⟨⟨fun h => absurd h h1, fun h => by omega⟩, rfl⟩
    · rintro ⟨-, rfl⟩
      rfl

end Writing

/-! ## A size that is cut to one the file has -/

section Cut

variable {efs : EasyFileSystem} {s s' : Store Block} {d : DiskInode} {id k off n newSize : Nat} {buf : List UInt8}

/-- Nothing is taken for a size the file has. -/
theorem increaseSize_cut_iff (hle : newSize ≤ d.size) {r : DiskInode × Store Block} :
    (Inode.increaseSize efs newSize d).run s = .ok r ↔ (newSize = d.size → IndexOpens s d) ∧ r = (d, s) := by
  unfold Inode.increaseSize
  by_cases hlt : newSize < d.size
  · rw [if_pos hlt]
    constructor
    · intro h
      cases h
      exact ⟨fun e => by omega, rfl⟩
    · rintro ⟨-, rfl⟩
      rfl
  · obtain rfl : newSize = d.size := by omega
    have hnone : d.blocksNumNeeded d.size = ret 0 := by
      rw [DiskInode.blocksNumNeeded, assert_true (Nat.le_refl _), ret_bind, Nat.sub_self]
      rfl
    rw [if_neg hlt, hnone, ret_bind, EasyFileSystem.allocBlocks, ret_bind, increaseSize_same_iff]
    exact and_congr_left fun _ => ⟨fun h _ => h, fun h => h rfl⟩

/-- What a write looks up when its new size is cut to one the file has. -/
structure CutOpens (s : Store Block) (d : DiskInode) (off newSize : Nat) : Prop where
  le : off ≤ d.size
  index : newSize = d.size → IndexOpens s d
  blocks : ∀ j, Touches off d.size j → Opens s d j

/-- The store inside the closure of an access to inode `id`. -/
def inside (efs : EasyFileSystem) (s : Store Block) (id : Nat) : Store Block :=
  ({ s with busy := true } : Store Block).pin (efs.inodeBlock id)

variable (hi : Idle efs s) (hw : Wf efs s.blk k) (hid : id < k)
  (hcut : asU32 (off + buf.length) ≤ (efs.inodeAt s.blk id).size)
  (hend : (efs.inodeAt s.blk id).size ≤ off + buf.length)

include hw hid hcut hend in
theorem writeAt_cut_ok (h : (Inode.writeAt efs (efs.handle id) off buf).run s = .ok (n, s')) :
    off + buf.length < 2 ^ 64 ∧ CutOpens (inside efs s id) (efs.inodeAt s.blk id) off (asU32 (off + buf.length)) ∧
      n = (writtenPart (efs.inodeAt s.blk id) off buf).length ∧
        ∃ blk₁, s' = s.withBlk (storeInode efs s.blk blk₁ id (efs.inodeAt s.blk id)) ∧
          Written (efs.inodeAt s.blk id) s.blk blk₁ off (writtenPart (efs.inodeAt s.blk id) off buf) := by
  obtain ⟨d', s₁, s₂, h1, h2, h64, hs'⟩ := writeAt_parts h
  obtain ⟨hidx, e⟩ := (increaseSize_cut_iff hcut).mp h1
  cases e
  have ht := hw.treeOk hid
  have hmin : min (off + buf.length) (efs.inodeAt s.blk id).size = (efs.inodeAt s.blk id).size := by omega
  obtain ⟨-, hle, hopen⟩ := (writeAt_iff (s := inside efs s id) ht.small ht.nodup off buf).mp ⟨_, h2⟩
  rw [hmin] at hopen
  obtain ⟨-, hn, ⟨blk₁, rfl, hwr⟩, -⟩ := writeAt_ok (s := inside efs s id) ht.small ht.nodup h2
  exact ⟨h64, ⟨hle, hidx, hopen⟩, hn, blk₁, hs' _ rfl, hwr⟩

include hi hw hid hcut hend in
theorem writeAt_cut_returns (h64 : off + buf.length < 2 ^ 64)
    (ho : CutOpens (inside efs s id) (efs.inodeAt s.blk id) off (asU32 (off + buf.length))) :
    ∃ n blk', (Inode.writeAt efs (efs.handle id) off buf).run s = .ok (n, s.withBlk blk') := by
  have ht := hw.treeOk hid
  have hmin : min (off + buf.length) (efs.inodeAt s.blk id).size = (efs.inodeAt s.blk id).size := by omega
  have hinc : (Inode.increaseSize efs (asU32 (off + buf.length)) (efs.inodeAt s.blk id)).run (inside efs s id) =
      .ok (efs.inodeAt s.blk id, inside efs s id) :=
    (increaseSize_cut_iff hcut).mpr ⟨ho.index, rfl⟩
  obtain ⟨⟨n, s₁⟩, hwr⟩ := (writeAt_iff (s := inside efs s id) ht.small ht.nodup off buf).mpr
    ⟨h64, ho.le, by rw [hmin]; exact ho.blocks⟩
  obtain ⟨-, -, ⟨blk₁, rfl, -⟩, -⟩ := writeAt_ok (s := inside efs s id) ht.small ht.nodup hwr
  exact ⟨n, _, writeAt_of_parts hi (Nat.lt_of_lt_of_le hid hw.slots) h64 hinc hwr⟩

end Cut

/-! ## The property -/

/-- The record of inode `i` on the disk `blk`. -/
def EasyFileSystem.record (efs : EasyFileSystem) (blk : Nat → Block) (i : Inode) : DiskInode :=
  DiskInode.load efs.crate (blk i.blockId) i.blockOffset

/-- The free blocks of the data area, on a disk of `total` blocks. -/
def EasyFileSystem.freeBlocks (efs : EasyFileSystem) (total : Nat) (blk : Nat → Block) : Nat :=
  ((List.range' efs.dataAreaStartBlock (total - efs.dataAreaStartBlock)).filter fun b => !efs.dataBit blk b).length

/-- The write would make the file larger than a file can be, or its end is no u32, or it
    needs more data and index blocks than are free. -/
def ExceedsLimits (efs : EasyFileSystem) (total : Nat) (blk : Nat → Block) (i : Inode) (off : Nat) (buf : List UInt8) : Prop :=
  (28 + 128 + 128 * 128) * 512 < off + buf.length ∨ 2 ^ 32 ≤ off + buf.length ∨
    efs.freeBlocks total blk < DiskInode.totalBlocks (off + buf.length) - DiskInode.totalBlocks (efs.record blk i).size

/-- The call returns a short count, and the inode, its content and the data bitmap are as
    before. -/
def FailsCleanly (efs : EasyFileSystem) (m : Cached Block) (i : Inode) (off : Nat) (buf : List UInt8) : Prop :=
  ∃ n m', runCached ((Call.writeAt i off buf).exec efs) m = .ok (.count n, m') ∧ n < buf.length ∧
    efs.record m'.w.dev.data i = efs.record m.w.dev.data i ∧
    contentAt efs m'.w.dev.data i = contentAt efs m.w.dev.data i ∧
    ∀ b, efs.InData b → efs.dataBit m'.w.dev.data b = efs.dataBit m.w.dev.data b

/-- Block `b` is on the device, and is not the one inode `i` is in. -/
structure Lockable (size : Nat) (i : Inode) (b : Nat) : Prop where
  onDevice : b < size
  ne : b ≠ i.blockId

/-- The new size is cut to one the file has, and what then goes into the file are the
    bytes it has; the blocks looked up on the way can be locked. -/
structure WritesBack (efs : EasyFileSystem) (size : Nat) (blk : Nat → Block) (i : Inode) (off : Nat) (buf : List UInt8) :
    Prop where
  usize : off + buf.length < 2 ^ 64
  cut : asU32 (off + buf.length) ≤ (efs.record blk i).size
  le : off ≤ (efs.record blk i).size
  same : buf.take ((efs.record blk i).size - off) = (contentAt efs blk i).drop off
  index1 : asU32 (off + buf.length) = (efs.record blk i).size → 28 < (efs.record blk i).dataBlocks →
    Lockable size i (efs.record blk i).indirect1
  index2 : asU32 (off + buf.length) = (efs.record blk i).size → 156 < (efs.record blk i).dataBlocks →
    Lockable size i (efs.record blk i).indirect2
  blocks : ∀ j, Touches off (efs.record blk i).size j →
    j < 16540 ∧ ∀ σ ∈ Slot.path j, Lockable size i (ptr (efs.record blk i) blk σ)

/-! ## One call -/

section OneCall

variable {efs : EasyFileSystem} {dev : BlockDevice Block} {m : Cached Block} {s : Store Block} {id k off total : Nat}
  {buf : List UInt8}

theorem totalBlocks_mono {a b : Nat} (h : a ≤ b) : DiskInode.totalBlocks a ≤ DiskInode.totalBlocks b := by
  have := dataBlocksOf_mono h
  unfold DiskInode.totalBlocks
  dsimp only
  split_ifs <;> omega

/-- A write past the limits ends behind the end of the file. -/
theorem ExceedsLimits.size_lt (hw : Wf efs s.blk k) (hid : id < k)
    (h : ExceedsLimits efs total s.blk (efs.handle id) off buf) : (efs.inodeAt s.blk id).size < off + buf.length := by
  have hsmall := hw.small id hid
  unfold DiskInode.dataBlocks DiskInode.dataBlocksOf at hsmall
  by_contra hle
  rcases h with h | h | h
  · omega
  · omega
  · have hmono : DiskInode.totalBlocks (off + buf.length) ≤ DiskInode.totalBlocks (efs.inodeAt s.blk id).size :=
      totalBlocks_mono (by omega)
    have hsame : efs.record s.blk (efs.handle id) = efs.inodeAt s.blk id := rfl
    rw [hsame] at h
    omega

theorem overwrite_tail {c l : List UInt8} (h : off + l.length = c.length) : overwrite c off l = c ↔ l = c.drop off := by
  have hz : off - c.length = 0 := by omega
  have hnil : c.drop (off + l.length) = [] := List.drop_eq_nil_of_le (by omega)
  rw [overwrite, hz, List.replicate_zero, hnil, List.append_nil, List.append_nil]
  constructor
  · intro e
    rw [← List.append_cancel_left_eq (c.take off), e, List.take_append_drop]
  · intro e
    rw [e, List.take_append_drop]

theorem length_writtenPart (d : DiskInode) (hle : off ≤ d.size) (hend : d.size ≤ off + buf.length) :
    off + (writtenPart d off buf).length = d.size := by
  rw [writtenPart, List.length_take]
  omega

theorem writtenPart_cut {d : DiskInode} (hend : d.size ≤ off + buf.length) :
    writtenPart d off buf = buf.take (d.size - off) := by
  rw [writtenPart, Nat.min_eq_right hend]

theorem inside_free {b : Nat} (hi : Idle efs s) : (inside efs s id).Free b ↔ Lockable s.size (efs.handle id) b := by
  constructor
  · intro h
    refine ⟨h.onDevice, fun e => h.1 ?_⟩
    rw [e]
    exact List.mem_cons_self
  · intro h
    refine ⟨?_, ?_, h.onDevice⟩
    · show b ∉ efs.inodeBlock id :: s.held
      rw [hi.held, List.mem_singleton]
      exact h.ne
    · show (efs.inodeBlock id :: s.held).length < s.cap
      rw [hi.held, hi.cap, List.length_singleton]
      decide

/-- What the write looks up, on the device. -/
theorem cutOpens_iff (hi : Idle efs s) (n : Nat) : CutOpens (inside efs s id) (efs.inodeAt s.blk id) off n ↔
    off ≤ (efs.inodeAt s.blk id).size ∧
    (n = (efs.inodeAt s.blk id).size → 28 < (efs.inodeAt s.blk id).dataBlocks →
      Lockable s.size (efs.handle id) (efs.inodeAt s.blk id).indirect1) ∧
    (n = (efs.inodeAt s.blk id).size → 156 < (efs.inodeAt s.blk id).dataBlocks →
      Lockable s.size (efs.handle id) (efs.inodeAt s.blk id).indirect2) ∧
    ∀ j, Touches off (efs.inodeAt s.blk id).size j → j < 16540 ∧ ∀ σ ∈ Slot.path j,
      Lockable s.size (efs.handle id) (ptr (efs.inodeAt s.blk id) s.blk σ) := by
  constructor
  · intro h
    exact ⟨h.le, fun e h1 => (inside_free hi).mp ((h.index e).first h1), fun e h1 => (inside_free hi).mp ((h.index e).second h1),
      fun j hj => ⟨(h.blocks j hj).lt, fun σ hσ => (inside_free hi).mp ((h.blocks j hj).free σ hσ)⟩⟩
  · rintro ⟨h1, h2, h3, h4⟩
    exact ⟨h1, fun e => ⟨fun h => (inside_free hi).mpr (h2 e h), fun h => (inside_free hi).mpr (h3 e h)⟩,
      fun j hj => ⟨(h4 j hj).1, fun σ hσ => (inside_free hi).mpr ((h4 j hj).2 σ hσ)⟩⟩

/-- A file that grows has another size: the failure is not clean. -/
theorem not_failsCleanly_of_grows (hat : At efs dev m s) (hw : Wf efs s.blk k) (hid : id < k)
    (h : (efs.inodeAt s.blk id).size < asU32 (off + buf.length)) : ¬ FailsCleanly efs m (efs.handle id) off buf := by
  rintro ⟨n, m', hr, -, hrec, -⟩
  obtain ⟨s', h1, h2⟩ := hat.call hr
  obtain ⟨n', s₁, h3, h1⟩ := run_bind_ok.mp h1
  cases h1
  obtain ⟨d', blkg, blk₁, rfl, -, hgw⟩ := writeAt_step hat.idle hw hid h3
  have hat' := h2 _ rfl
  have hself : efs.record m'.w.dev.data (efs.handle id) = d' := by
    rw [hat'.dev_eq]
    exact inodeAt_storeInode_self hgw.step.fits
  have hold : efs.record m.w.dev.data (efs.handle id) = efs.inodeAt s.blk id := by
    rw [hat.dev_eq]
    rfl
  rw [hself, hold] at hrec
  rcases hgw.grow with ⟨hlt, -, -⟩ | ⟨v, hg⟩
  · omega
  · have := hg.size
    rw [hrec] at this
    omega

/-- The effect of a write of the bytes the file has: none. -/
theorem failsCleanly_iff (hat : At efs dev m s) (hw : Wf efs s.blk k) (hid : id < k)
    (hover : ExceedsLimits efs total s.blk (efs.handle id) off buf) :
    FailsCleanly efs m (efs.handle id) off buf ↔ WritesBack efs s.size s.blk (efs.handle id) off buf := by
  have hi := hat.idle
  have hend := hover.size_lt hw hid
  have hle := Nat.le_of_lt hend
  have hold : efs.record m.w.dev.data (efs.handle id) = efs.inodeAt s.blk id := by
    rw [hat.dev_eq]
    rfl
  constructor
  · intro hf
    have hcut : asU32 (off + buf.length) ≤ (efs.inodeAt s.blk id).size := by
      by_contra hgt
      exact not_failsCleanly_of_grows hat hw hid (by omega) hf
    obtain ⟨n, m', hr, -, -, hcont, -⟩ := hf
    obtain ⟨s', h1, h2⟩ := hat.call hr
    obtain ⟨n', s₁, h3, h1⟩ := run_bind_ok.mp h1
    cases h1
    obtain ⟨h64, hopen, -, blk₁, rfl, hwr⟩ := writeAt_cut_ok hw hid hcut hle h3
    obtain ⟨hoff, hi1, hi2, hblocks⟩ := (cutOpens_iff hi _).mp hopen
    refine ⟨h64, hcut, hoff, ?_, hi1, hi2, hblocks⟩
    -- the file reads as before, so these bytes were there
    have hat' := h2 _ rfl
    have hlen := length_writtenPart (efs.inodeAt s.blk id) hoff hle
    rw [hat'.dev_eq, hat.dev_eq, Store.withBlk_blk,
      TreeStep.content_self hw hid (hwr.treeStep (hw.treeOk hid) hw.geo), hwr.content_eq (by omega)] at hcont
    have htail := (overwrite_tail (by rw [length_content]; exact hlen)).mp hcont
    rw [writtenPart_cut hle] at htail
    exact htail
  · intro hb
    obtain ⟨n, blk', hrun⟩ := writeAt_cut_returns hi hw hid hb.cut hle hb.usize
      ((cutOpens_iff hi _).mpr ⟨hb.le, hb.index1, hb.index2, hb.blocks⟩)
    obtain ⟨-, -, hn, blk₁, hs', hwr⟩ := writeAt_cut_ok hw hid hb.cut hle hrun
    obtain rfl : blk' = storeInode efs s.blk blk₁ id (efs.inodeAt s.blk id) := congrArg Store.blk hs'
    obtain ⟨m', hm', hat'⟩ := hat.returns (.writeAt (efs.handle id) off buf) (r := .count n)
      ((run_bind_of hrun).trans rfl)
    have ht := hw.treeOk hid
    have hst := hwr.treeStep ht hw.geo
    have hlen := length_writtenPart (efs.inodeAt s.blk id) hb.le hle
    have htree := hwr.tree_eq ht.small ht.nodup
    refine ⟨n, m', hm', ?_, ?_, ?_, fun b hin => ?_⟩
    · omega
    · rw [hat'.dev_eq, hold]
      exact inodeAt_storeInode_self hst.fits
    · rw [hat'.dev_eq, hat.dev_eq, Store.withBlk_blk, hst.content_self hw hid, hwr.content_eq (by omega)]
      refine (overwrite_tail (by rw [length_content]; exact hlen)).mpr ?_
      rw [writtenPart_cut hle]
      exact hb.same
    · rw [hat'.dev_eq, hat.dev_eq, Store.withBlk_blk, dataBit_storeInode hw.geo (Nat.lt_of_lt_of_le hid hw.slots) hin,
        Bool.eq_iff_iff, hst.bits b hin, htree]
      by_cases e : b ∈ tree (efs.inodeAt s.blk id) s.blk
      · simp [e, ht.marked b e]
      · simp [e]

end OneCall

/-! ## Runs -/

/-- The calls of the base easy-fs, with any arguments. An entry that `find` comes to may
    have been written with `write_at` on a directory; it has to be of an inode that exists. -/
def BaseCall (efs : EasyFileSystem) (blk : Nat → Block) : Call → Prop
  | .find i name => FindsInArea efs blk i name
  | .link _ _ _ => False
  | .unlink _ _ => False
  | _ => True

/-- Where a run is: the inodes of all slots are in order, and the handles are of those. -/
structure BaseAt (efs : EasyFileSystem) (dev : BlockDevice Block) (m : Cached Block) (hs : List Inode) (s : Store Block) :
    Prop where
  here : At efs dev m s
  wf : Wf efs s.blk efs.slots
  handles : ∀ h ∈ hs, InArea efs h

section Runs

variable {efs : EasyFileSystem} {dev : BlockDevice Block} {m m' : Cached Block} {hs : List Inode} {s : Store Block}
  {total ibb : Nat}

theorem BaseAt.call (h : BaseAt efs dev m hs s) {call : Call} {r : Ret} (hc : BaseCall efs s.blk call)
    (hslots : efs.slots = efs.inodeBitmap.maximum) (hpos : 0 < efs.slots) (hself : ∀ i, call.self? = some i → i ∈ hs)
    (hr : runCached (call.exec efs) m = .ok (r, m')) : ∃ s', BaseAt efs dev m' (r.handles ++ hs) s' := by
  obtain ⟨s', h1, h2⟩ := h.here.call hr
  have hi := h.here.idle
  have hw := h.wf
  cases call with
  | root =>
    obtain ⟨ino, s₁, h3, h1⟩ := run_bind_ok.mp h1
    cases h1
    rw [root_returns hi hpos] at h3
    cases h3
    exact ⟨_, h2 _ rfl, hw, List.forall_mem_cons.mpr ⟨⟨0, hpos, rfl⟩, h.handles⟩⟩
  | create i name =>
    obtain ⟨ino, s₁, h3, h1⟩ := run_bind_ok.mp h1
    cases h1
    obtain ⟨id, hid, rfl⟩ := h.handles i (hself i rfl)
    -- there is a slot for every number of the bitmap
    have hslot : ∀ j, NextInode efs s.blk j → asU32 j < efs.slots := by
      intro j hn
      have hle : asU32 j ≤ j := Nat.mod_le _ _
      have hlt := hn.lt
      omega
    obtain ⟨j, hn, rfl, -, d', blkg, blk₁, rfl, hgw⟩ := create_step hi efs.slots
      (fun j hn => ⟨hslot j hn, hw.newInode hn.lt (hslot j hn) (Nat.le_refl _) fun _ hid _ => hid⟩) hid h3
    have hnew := hw.newInode hn.lt (hslot j hn) (Nat.le_refl _) fun _ hid _ => hid
    exact ⟨_, h2 _ rfl, hnew.step hid hgw.step, List.forall_mem_cons.mpr ⟨⟨_, hslot j hn, rfl⟩, h.handles⟩⟩
  | readAt i off buf =>
    obtain ⟨x, s₁, h3, h1⟩ := run_bind_ok.mp h1
    cases h1
    obtain rfl := (readOnly_inodeReadAt i off buf).run_eq h3
    exact ⟨_, h2 _ rfl, hw, h.handles⟩
  | writeAt i off buf =>
    obtain ⟨n, s₁, h3, h1⟩ := run_bind_ok.mp h1
    cases h1
    obtain ⟨id, hid, rfl⟩ := h.handles i (hself i rfl)
    obtain ⟨d', blkg, blk₁, rfl, -, hgw⟩ := writeAt_step hi hw hid h3
    exact ⟨_, h2 _ rfl, hw.step hid hgw.step, h.handles⟩
  | clear i =>
    obtain ⟨u, s₁, h3, h1⟩ := run_bind_ok.mp h1
    cases h1
    obtain ⟨id, hid, rfl⟩ := h.handles i (hself i rfl)
    obtain ⟨d', blk₁, rfl, hcl⟩ := clear_step hi hw hid h3
    exact ⟨_, h2 _ rfl, hw.step hid hcl.treeStep, h.handles⟩
  | find i name =>
    obtain ⟨o, s₁, h3, h1⟩ := run_bind_ok.mp h1
    cases h1
    obtain ⟨id, hid, rfl⟩ := h.handles i (hself i rfl)
    obtain rfl := (readOnly_find (efs.handle id) name).run_eq h3
    refine ⟨_, h2 _ rfl, hw, fun x hx => ?_⟩
    cases o with
    | none => exact h.handles x hx
    | some ino =>
      rcases List.mem_cons.mp hx with rfl | hx
      · exact hw.find hi hid hc h3
      · exact h.handles x hx
  | link i name newName => exact hc.elim
  | unlink i name => exact hc.elim

theorem baseAt_run (hibb : 1025 * ibb < 2 ^ 32) (ht : total < 2 ^ 32) (h : FsRun .base total ibb dev BaseCall efs m hs) :
    ∃ s, BaseAt efs dev m hs s ∧ efs.slots = efs.inodeBitmap.maximum ∧ 0 < efs.slots := by
  induction h with
  | start h0 =>
    obtain ⟨ha, hi, -, -, rfl, hat⟩ := At.start ht h0
    have hslots := slots_base total hibb
    have hmax : (layout .base total ibb).inodeBitmap.maximum = ibb * 4096 := rfl
    have hpos : 0 < (layout .base total ibb).slots := by omega
    exact ⟨_, ⟨hat, formatted_wf _ ha hi, by simp⟩, hslots, hpos⟩
  | step _ hself hc hr ih =>
    obtain ⟨s, hb, hslots, hpos⟩ := ih
    rw [hb.here.dev_eq] at hc
    obtain ⟨s', hb'⟩ := hb.call hc hslots hpos hself hr
    exact ⟨s', hb', hslots, hpos⟩

/-- A write past the limits of a file or of the disk is a clean failure exactly when the
    cut of its size to 32 bits makes it a write of the bytes that are there. -/
theorem growth_fails_cleanly_iff (hibb : 1025 * ibb < 2 ^ 32) (ht : total < 2 ^ 32)
    (h : FsRun .base total ibb dev BaseCall efs m hs) {i : Inode} (hi : i ∈ hs) {off : Nat} {buf : List UInt8}
    (hover : ExceedsLimits efs total m.w.dev.data i off buf) :
    FailsCleanly efs m i off buf ↔ WritesBack efs dev.size m.w.dev.data i off buf := by
  obtain ⟨s, hb, -, -⟩ := baseAt_run hibb ht h
  obtain ⟨id, hid, rfl⟩ := hb.handles i hi
  rw [hb.here.dev_eq] at hover ⊢
  rw [← hb.here.size]
  exact failsCleanly_iff hb.here hb.wf hid hover

/-- What a new root directory writes back: any `2 ^ 32` bytes, none of which is written. -/
theorem writesBack_empty {ibb : Nat} {buf : List UInt8} (ha : Accepts .base total ibb) (hi : 0 < ibb)
    (hs : 0 < (layout .base total ibb).slots) (hlen : buf.length = 2 ^ 32) (blk : Nat → Block) :
    WritesBack (layout .base total ibb) total (formatted .base total ibb blk) ((layout .base total ibb).handle 0) 0 buf := by
  have hino : (layout .base total ibb).record (formatted .base total ibb blk) ((layout .base total ibb).handle 0) =
      DiskInode.init .base ⟨0, fun _ => 0, 0, 0, 0, 0⟩ .directory := inodeAt_formatted_root hi (ha.root_lt hs)
  have hcut : asU32 (0 + buf.length) = 0 := by
    rw [hlen]
    rfl
  have hroot := ha.root_lt hs
  refine ⟨by omega, by rw [hcut]; exact Nat.zero_le _, Nat.zero_le _, ?_, ?_, ?_, fun j hj => ?_⟩
  · have hz : (DiskInode.init .base ⟨0, fun _ => 0, 0, 0, 0, 0⟩ .directory).size = 0 := rfl
    have hc : contentAt (layout .base total ibb) (formatted .base total ibb blk) ((layout .base total ibb).handle 0) = [] :=
      content_of_size_zero ((congrArg DiskInode.size hino).trans hz) _
    rw [hino, hz, hc]
    rfl
  · intro _ h
    rw [hino] at h
    exact absurd h (by decide)
  · intro _ h
    rw [hino] at h
    exact absurd h (by decide)
  · rw [hino] at hj ⊢
    obtain rfl : j = 0 := by
      obtain ⟨-, h | h⟩ := hj
      · exact h
      · exact absurd h (Nat.not_lt_zero _)
    refine ⟨by norm_num, fun σ hσ => ?_⟩
    obtain rfl : σ = .data 0 := List.mem_singleton.mp hσ
    exact ⟨show 0 < total by omega, show 0 ≠ (layout .base total ibb).inodeBlock 0 by rw [inodeBlock_root]; omega⟩

/-- On a new file system of 1100 blocks: `2 ^ 32` bytes into the empty root directory fail cleanly, one byte
    behind the largest file there can be does not. -/
theorem growth_fails_cleanly_root : ∃ efs m hs i buf,
    FsRun .base 1100 1 ⟨1100, fun _ => Blk.zero 512⟩ BaseCall efs m hs ∧ i ∈ hs ∧
      buf.length = 2 ^ 32 ∧ ExceedsLimits efs 1100 m.w.dev.data i 0 buf ∧ FailsCleanly efs m i 0 buf ∧
      ExceedsLimits efs 1100 m.w.dev.data i 8468480 [0] ∧
      (FailsCleanly efs m i 8468480 [0] ↔ WritesBack efs 1100 m.w.dev.data i 8468480 [0]) := by
  obtain ⟨ha, hslots, -⟩ := small_geometry
  have hmax : (layout .base 1100 1).inodeBitmap.maximum = 4096 := rfl
  obtain ⟨m, hrun, hat⟩ := formatted_run (G := BaseCall) ⟨1100, fun _ => Blk.zero 512⟩ ha (by norm_num) rfl (by omega)
    fun _ => trivial
  have hlen : (List.replicate (2 ^ 32) (0 : UInt8)).length = 2 ^ 32 := List.length_replicate
  have hlarge : ExceedsLimits (layout .base 1100 1) 1100 m.w.dev.data ((layout .base 1100 1).handle 0) 0
      (List.replicate (2 ^ 32) 0) := .inr (.inl (by omega))
  have hover : ExceedsLimits (layout .base 1100 1) 1100 m.w.dev.data ((layout .base 1100 1).handle 0) 8468480 [0] :=
    .inl (by simp)
  refine ⟨_, m, _, _, _, hrun, List.mem_singleton_self _, hlen, hlarge, ?_, hover,
    growth_fails_cleanly_iff (by norm_num) (by norm_num) hrun (List.mem_singleton_self _) hover⟩
  rw [growth_fails_cleanly_iff (by norm_num) (by norm_num) hrun (List.mem_singleton_self _) hlarge, hat.dev_eq]
  exact writesBack_empty ha (by norm_num) (by omega) hlen _

/-- That write does not return, or the file has grown: there is no error to report. -/
theorem growth_not_clean : ¬ ∀ (total ibb : Nat) (dev : BlockDevice Block) (efs : EasyFileSystem) (m : Cached Block)
    (hs : List Inode) (i : Inode) (off : Nat) (buf : List UInt8), 1 + 1025 * ibb < total → total < 2 ^ 32 →
      dev.size = total → FsRun .base total ibb dev BaseCall efs m hs → i ∈ hs → buf ≠ [] →
      ExceedsLimits efs total m.w.dev.data i off buf → FailsCleanly efs m i off buf := by
  intro hall
  obtain ⟨ha, hslots, -⟩ := small_geometry
  have hmax : (layout .base 1100 1).inodeBitmap.maximum = 4096 := rfl
  obtain ⟨m, s, hrun, hb, hz⟩ := root_run (G := BaseCall) ⟨1100, fun _ => Blk.zero 512⟩ ha (by norm_num) rfl (by omega)
    fun _ => trivial
  have hover : ExceedsLimits (layout .base 1100 1) 1100 m.w.dev.data ((layout .base 1100 1).handle 0) 8468480 [0] :=
    .inl (by simp)
  refine not_failsCleanly_of_grows hb.here hb.full.toWf hb.pos ?_ (hall 1100 1 _ _ m _ _ 8468480 [0] (by norm_num)
    (by norm_num) rfl hrun (List.mem_singleton_self _) (by simp) hover)
  rw [hz]
  decide

end Runs

end TgRcore.EasyFs
