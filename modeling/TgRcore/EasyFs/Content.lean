/-
  TgRcore.EasyFs.Content — the bytes of a file (`read_at`, `write_at` of `layout.rs`).

  `fileByte d blk i` is byte `i` of the blocks of the file, and `content` the bytes below
  its size.
  - `readAt_run`: `read_at` returns the part of the content it was asked for.
  - `writeAt_ok`, `writeAt_returns`: `write_at` replaces the bytes it was given and no others;
    the last block it wrote is on the device.
-/

import Mathlib.Data.List.GetD
import TgRcore.EasyFs.Alloc

namespace TgRcore.EasyFs

open TgRcore.Bytes TgRcore.BlockProg TgRcore.BlockProg.Prog

/-- Byte `i` of the data blocks of `d`. -/
def fileByte (d : DiskInode) (blk : Nat → Block) (i : Nat) : UInt8 :=
  (blk (ptr d blk (.data (i / 512)))).byte (i % 512)

def content (d : DiskInode) (blk : Nat → Block) : List UInt8 := (List.range d.size).map (fileByte d blk)

@[simp] theorem length_content (d : DiskInode) (blk : Nat → Block) : (content d blk).length = d.size := by
  simp [content]

theorem div_lt_dataBlocks {d : DiskInode} {i : Nat} (h : i < d.size) : i / 512 < d.dataBlocks := by
  unfold DiskInode.dataBlocks DiskInode.dataBlocksOf
  omega

theorem data_mem_tree {d : DiskInode} {j : Nat} (h : j < d.dataBlocks) (blk : Nat → Block) :
    ptr d blk (.data j) ∈ tree d blk := List.mem_map_of_mem (mem_slotsOf.mpr h)

theorem fileByte_congr {d : DiskInode} {blk blk' : Nat → Block} (hs : d.dataBlocks ≤ 16540)
    (h : ∀ b ∈ tree d blk, blk' b = blk b) {i : Nat} (hi : i / 512 < d.dataBlocks) :
    fileByte d blk' i = fileByte d blk i := by
  have hp : ptr d blk' (.data (i / 512)) = ptr d blk (.data (i / 512)) :=
    List.map_inj_left.mp (tree_congr hs h) _ (mem_slotsOf.mpr hi)
  unfold fileByte
  rw [hp, h _ (data_mem_tree hi blk)]

theorem content_congr {d : DiskInode} {blk blk' : Nat → Block} (hs : d.dataBlocks ≤ 16540)
    (h : ∀ b ∈ tree d blk, blk' b = blk b) : content d blk' = content d blk :=
  List.map_congr_left fun _ hi => fileByte_congr hs h (div_lt_dataBlocks (List.mem_range.mp hi))

theorem take_drop_content (d : DiskInode) (blk : Nat → Block) (off n : Nat) :
    ((content d blk).drop off).take n = (List.range' off (min (off + n) d.size - off)).map (fileByte d blk) := by
  rw [content, ← List.map_drop, ← List.map_take, List.range_eq_range', List.drop_range', Nat.zero_add, Nat.mul_one]
  by_cases h : n ≤ d.size - off
  · rw [List.take_range'_of_length_ge h, show min (off + n) d.size - off = n by omega]
  · rw [List.take_range'_of_length_le (by omega), show min (off + n) d.size - off = d.size - off by omega]

/-! ## Reading -/

section Reading

variable {s : Store Block} {d : DiskInode}

theorem slice_eq (blk : Nat → Block) {start n : Nat} (hn : start % 512 + n ≤ 512) :
    Block.slice (blk (ptr d blk (.data (start / 512)))) (start % 512) n = (List.range' start n).map (fileByte d blk) := by
  rw [Block.slice, List.range'_eq_map_range, List.map_map]
  refine List.map_congr_left fun i hi => ?_
  have := List.mem_range.mp hi
  simp only [Function.comp, fileByte]
  rw [show (start + i) / 512 = start / 512 by omega, show (start + i) % 512 = start % 512 + i by omega]

theorem readLoop_run (hs : d.dataBlocks ≤ 16540) (hf : ∀ b ∈ tree d s.blk, s.Free b) {fin : Nat} (hfin : fin ≤ d.size)
    (start : Nat) (hlt : start < fin) (acc : List UInt8) :
    (d.readLoop (start / 512) start fin acc).run s =
      .ok (acc ++ (List.range' start (fin - start)).map (fileByte d s.blk), s) := by
  induction hm : fin - start using Nat.strong_induction_on generalizing start acc with
  | _ m ih =>
    have hj : start / 512 < d.dataBlocks := div_lt_dataBlocks (by omega)
    have hid := getBlockId_run hs hj fun τ hτ _ => hf _ (List.mem_map_of_mem hτ)
    have hrd := run_readBlock_ret (fun b : Block => Block.slice b (start % 512) (min ((start / 512 + 1) * 512) fin - start))
      (hf _ (data_mem_tree hj s.blk))
    rw [DiskInode.readLoop, run_bind_of hid, run_bind_of hrd, slice_eq s.blk (by omega)]
    split
    · rename_i he
      rw [he, hm]
      rfl
    · rename_i he
      have hnext : min ((start / 512 + 1) * 512) fin = (start / 512 + 1) * 512 := by omega
      rw [hnext] at he ⊢
      have hrec := ih (fin - (start / 512 + 1) * 512) (by omega) ((start / 512 + 1) * 512) (by omega)
        (acc ++ (List.range' start ((start / 512 + 1) * 512 - start)).map (fileByte d s.blk)) rfl
      rw [show (start / 512 + 1) * 512 / 512 = start / 512 + 1 by omega] at hrec
      rw [hrec, List.append_assoc, ← List.map_append]
      congr 4
      rw [← hm, show fin - start = ((start / 512 + 1) * 512 - start) + (fin - (start / 512 + 1) * 512) by omega,
        ← List.range'_append_1, show start + ((start / 512 + 1) * 512 - start) = (start / 512 + 1) * 512 by omega]

/-- `read_at` of the buffer `buf`: as much of the content as there is. -/
theorem readAt_run (hs : d.dataBlocks ≤ 16540) (hf : ∀ b ∈ tree d s.blk, s.Free b) {off : Nat} {buf : List UInt8}
    (h64 : off + buf.length < 2 ^ 64) :
    (d.readAt off buf).run s = .ok ((min (off + buf.length) d.size - off,
      ((content d s.blk).drop off).take buf.length ++ buf.drop (min (off + buf.length) d.size - off)), s) := by
  rw [DiskInode.readAt, assert_true h64, ret_bind, take_drop_content]
  dsimp only
  by_cases hge : off ≥ min (off + buf.length) d.size
  · rw [if_pos hge, show min (off + buf.length) d.size - off = 0 by omega]
    rfl
  · rw [if_neg hge, run_bind_of (readLoop_run hs hf (Nat.min_le_right _ _) off (by omega) [])]
    simp only [List.nil_append, List.length_map, List.length_range', pure_eq_ret, run_ret]

end Reading

/-! ## Writing -/

/-- The bytes of the file from `off` on are now `l`; nothing else changed. -/
structure Written (d : DiskInode) (blk blk' : Nat → Block) (off : Nat) (l : List UInt8) : Prop where
  frame : ∀ b, (∀ j < d.dataBlocks, ptr d blk (.data j) ≠ b) → blk' b = blk b
  bytes : ∀ i < 512 * d.dataBlocks, fileByte d blk' i =
    if off ≤ i ∧ i < off + l.length then l.getD (i - off) 0 else fileByte d blk i

section Writing

variable {d : DiskInode} {blk blk' blk'' : Nat → Block} {off : Nat} {l l' : List UInt8}

/-- Data blocks are not index blocks. -/
theorem Written.tree_eq (hs : d.dataBlocks ≤ 16540) (hn : (tree d blk).Nodup) (h : Written d blk blk' off l) :
    tree d blk' = tree d blk := by
  refine List.map_congr_left fun σ hσ => ptr_congr (slotsOf_ordered hs) (fun τ hτ hi => h.frame _ fun j hj e => ?_) hσ
  have := List.inj_on_of_nodup_map hn (mem_slotsOf.mpr hj : Slot.data j ∈ slotsOf d.dataBlocks) hτ e
  subst this
  cases hi

theorem Written.ptr_eq (hs : d.dataBlocks ≤ 16540) (hn : (tree d blk).Nodup) (h : Written d blk blk' off l) {σ : Slot}
    (hσ : σ ∈ slotsOf d.dataBlocks) : ptr d blk' σ = ptr d blk σ :=
  List.map_inj_left.mp (h.tree_eq hs hn) σ hσ

theorem Written.refl (d : DiskInode) (blk : Nat → Block) (off : Nat) : Written d blk blk off [] :=
  ⟨fun _ _ => rfl, fun i _ => by rw [if_neg (by simp)]⟩

theorem Written.trans (hs : d.dataBlocks ≤ 16540) (hn : (tree d blk).Nodup) (h : Written d blk blk' off l)
    (h' : Written d blk' blk'' (off + l.length) l') : Written d blk blk'' off (l ++ l') := by
  refine ⟨fun b hb => ?_, fun i hi => ?_⟩
  · rw [h'.frame b fun j hj => ?_, h.frame b hb]
    rw [h.ptr_eq hs hn (mem_slotsOf.mpr hj)]
    exact hb j hj
  · rw [h'.bytes i hi, h.bytes i hi, List.length_append]
    by_cases h1 : off + l.length ≤ i ∧ i < off + l.length + l'.length
    · rw [if_pos h1, if_pos (by omega), List.getD_append_right _ _ _ _ (by omega)]
      congr 1
      omega
    · rw [if_neg h1]
      by_cases h2 : off ≤ i ∧ i < off + l.length
      · rw [if_pos h2, if_pos (by omega), List.getD_append _ _ _ _ (by omega)]
      · rw [if_neg h2, if_neg (by omega)]

theorem byte_patch (b : Block) {o : Nat} (m : List UInt8) {i : Nat} (hi : i < 512) :
    (Block.patch b o m).byte i = if o ≤ i ∧ i < o + m.length then m.getD (i - o) 0 else b.byte i :=
  Blk.byte_tab _ hi

theorem patch_nil (b : Block) (o : Nat) : Block.patch b o [] = b := by
  refine Blk.ext_byte fun i hi => ?_
  rw [byte_patch b [] hi, if_neg (by simp)]

/-- One turn of the loop: bytes of one block. -/
theorem written_patch (blk : Nat → Block) (off : Nat) (l : List UInt8) (hs : d.dataBlocks ≤ 16540)
    (hn : (tree d blk).Nodup) (hj : off / 512 < d.dataBlocks)
    (hl : off % 512 + l.length ≤ 512) :
    Written d blk (Function.update blk (ptr d blk (.data (off / 512)))
      (Block.patch (blk (ptr d blk (.data (off / 512)))) (off % 512) l)) off l := by
  generalize hid : ptr d blk (.data (off / 512)) = id
  have hframe : ∀ b, (∀ j < d.dataBlocks, ptr d blk (.data j) ≠ b) →
      Function.update blk id (Block.patch (blk id) (off % 512) l) b = blk b := fun b hb =>
    Function.update_of_ne (fun e => hb _ hj (hid.trans e.symm)) _ _
  refine ⟨hframe, fun i hi => ?_⟩
  have hp : ptr d (Function.update blk id (Block.patch (blk id) (off % 512) l)) (.data (i / 512)) =
      ptr d blk (.data (i / 512)) := by
    refine ptr_congr (slotsOf_ordered hs) (fun τ hτ hi => hframe _ fun j hj e => ?_)
      (mem_slotsOf.mpr (by show i / 512 < d.dataBlocks; omega))
    have := List.inj_on_of_nodup_map hn (mem_slotsOf.mpr hj : Slot.data j ∈ slotsOf d.dataBlocks) hτ e
    subst this
    cases hi
  unfold fileByte
  rw [hp]
  by_cases e : i / 512 = off / 512
  · rw [e, hid, Function.update_self, byte_patch _ _ (Nat.mod_lt _ (by decide))]
    by_cases h : off ≤ i ∧ i < off + l.length
    · rw [if_pos h, if_pos (by omega)]
      congr 1
      omega
    · rw [if_neg h, if_neg (by omega)]
  · rw [if_neg (by omega), Function.update_of_ne]
    rw [← hid]
    intro h
    have := List.inj_on_of_nodup_map hn (mem_slotsOf.mpr (by show i / 512 < d.dataBlocks; omega) : Slot.data (i / 512) ∈ slotsOf d.dataBlocks)
      (mem_slotsOf.mpr hj) h
    exact e (Slot.data.inj this)

/-! ### The loop -/

variable {s s' : Store Block}

theorem readIndirect_ok {b i v : Nat} (h : (readBlock b fun x => getIndirect x i).run s = .ok (v, s')) :
    v = (s.blk b).word 4 (4 * i) ∧ s' = s := by
  obtain ⟨hf, s1, h1, h2⟩ := run_readBlock_ok.mp h
  rw [getIndirect] at h1
  split at h1
  · simp only [run_ret, Except.ok.injEq, Prod.mk.injEq] at h1
    refine ⟨h1.1.symm, ?_⟩
    rw [← h1.2] at h2
    simpa [Store.unpin, Store.pin] using h2
  · cases h1

theorem getBlockId_ok {j id : Nat} (h : (d.getBlockId j).run s = .ok (id, s')) : id = ptr d s.blk (.data j) ∧ s' = s := by
  unfold DiskInode.getBlockId at h
  by_cases h1 : j < 28
  · simp only [h1, if_true, run_ret, Except.ok.injEq, Prod.mk.injEq] at h
    simp only [ptr, h1, if_true]
    exact ⟨h.1.symm, h.2.symm⟩
  · by_cases h2 : j < 156
    · simp only [h1, h2, if_true, if_false] at h
      simp only [ptr, h1, h2, if_true, if_false]
      exact readIndirect_ok h
    · simp only [h1, h2, if_false] at h
      simp only [ptr, h1, h2, if_false]
      obtain ⟨a, s1, ha, h⟩ := run_bind_ok.mp h
      obtain ⟨rfl, rfl⟩ := readIndirect_ok ha
      exact readIndirect_ok h

/-- A store into one block, by a call that returned. -/
theorem modifyRet_ok {b : Nat} {f : Block → Block} {r : Unit × Store Block}
    (h : (modifyBlock b fun x => ret ((), f x)).run s = .ok r) :
    s.Free b ∧ r.2 = s.withBlk (Function.update s.blk b (f (s.blk b))) := by
  have hf := (run_modifyBlock_ok.mp h).1
  rw [run_modifyBlock_ret (fun x => ((), f x)) hf] at h
  cases h
  exact ⟨hf, rfl⟩

theorem writeLoop_ok (hs : d.dataBlocks ≤ 16540) (buf : List UInt8) {fin : Nat} (hfin : fin ≤ d.size) (start w : Nat)
    (hlt : start < fin) (hw : w + (fin - start) ≤ buf.length) (hn : (tree d s.blk).Nodup) {r : Nat}
    (h : (d.writeLoop buf (start / 512) start fin w).run s = .ok (r, s')) :
    r = w + (fin - start) ∧ (∃ blk', s' = s.withBlk blk' ∧
      Written d s.blk blk' start ((buf.drop w).take (fin - start))) ∧
      ∀ j, start / 512 ≤ j → j * 512 < fin → ptr d s.blk (.data j) < s.size := by
  induction hm : fin - start using Nat.strong_induction_on generalizing start w s with
  | _ m ih =>
    have hj : start / 512 < d.dataBlocks := div_lt_dataBlocks (by omega)
    rw [DiskInode.writeLoop] at h
    obtain ⟨id, s1, h1, h⟩ := run_bind_ok.mp h
    obtain ⟨rfl, rfl⟩ := getBlockId_ok h1
    obtain ⟨u, s2, h2, h⟩ := run_bind_ok.mp h
    obtain ⟨hfree, hs2⟩ := modifyRet_ok h2
    simp only at hs2
    have hlen : ∀ n ≤ fin - start, ((buf.drop w).take n).length = n := by
      intro n hle
      rw [List.length_take, List.length_drop]
      omega
    split at h
    · rename_i he
      cases h
      rw [he, hm] at hs2 ⊢
      refine ⟨rfl, ⟨_, hs2, ?_⟩, fun j h3 h4 => ?_⟩
      · refine written_patch _ _ _ hs hn hj ?_
        rw [hlen m (by omega)]
        omega
      · obtain rfl : j = start / 512 := by omega
        exact hfree.onDevice
    · rename_i he
      have hnext : min ((start / 512 + 1) * 512) fin = (start / 512 + 1) * 512 := by omega
      rw [hnext] at he h hs2
      have hstep := written_patch s1.blk start
        ((buf.drop w).take ((start / 512 + 1) * 512 - start)) hs hn hj (by rw [hlen _ (by omega)]; omega)
      have htree := hstep.tree_eq hs hn
      generalize hnx : (start / 512 + 1) * 512 = next at *
      rw [hs2, show start / 512 + 1 = next / 512 by omega] at h
      obtain ⟨hr, ⟨blk', rfl, hwr⟩, hdev⟩ := ih (fin - next) (by omega) next (w + (next - start)) (by omega)
        (by omega) (by rw [Store.withBlk_blk, htree]; exact hn) h rfl
      refine ⟨by omega, ⟨blk', rfl, ?_⟩, fun j h3 h4 => ?_⟩
      · have hl := hlen (next - start) (by omega)
        have hsum : ((buf.drop w).take m) =
            (buf.drop w).take (next - start) ++ (buf.drop (w + (next - start))).take (fin - next) := by
          rw [show m = (next - start) + (fin - next) by omega, List.take_add, List.drop_drop]
        rw [hsum]
        refine hstep.trans hs hn ?_
        rw [hl, show start + (next - start) = next by omega]
        exact hwr
      · by_cases e : j = start / 512
        · subst e
          exact hfree.onDevice
        · have := hdev j (by omega) h4
          rwa [Store.withBlk_blk, Store.withBlk_size, hstep.ptr_eq hs hn (mem_slotsOf.mpr _)] at this
          show j < d.dataBlocks
          unfold DiskInode.dataBlocks DiskInode.dataBlocksOf
          omega

/-- The loop returns when the blocks of the file can be locked. -/
theorem writeLoop_returns (hs : d.dataBlocks ≤ 16540) (buf : List UInt8) {fin : Nat} (hfin : fin ≤ d.size) (start w : Nat)
    (hlt : start < fin) (hw : w + (fin - start) ≤ buf.length) (hn : (tree d s.blk).Nodup)
    (hf : ∀ b ∈ tree d s.blk, s.Free b) : ∃ r, (d.writeLoop buf (start / 512) start fin w).run s = .ok r := by
  induction hm : fin - start using Nat.strong_induction_on generalizing start w s with
  | _ m ih =>
    have hj : start / 512 < d.dataBlocks := div_lt_dataBlocks (by omega)
    have hid := getBlockId_run hs hj fun τ hτ _ => hf _ (List.mem_map_of_mem hτ)
    have hmod := run_modifyBlock_ret (fun b : Block => ((), Block.patch b (start % 512)
      ((buf.drop w).take (min ((start / 512 + 1) * 512) fin - start)))) (hf _ (data_mem_tree hj s.blk))
    rw [DiskInode.writeLoop, run_bind_of hid, run_bind_of hmod]
    split
    · exact ⟨_, rfl⟩
    · rename_i he
      have hnext : min ((start / 512 + 1) * 512) fin = (start / 512 + 1) * 512 := by omega
      rw [hnext] at he ⊢
      have hstep := written_patch s.blk start
        ((buf.drop w).take ((start / 512 + 1) * 512 - start)) hs hn hj (by
          rw [List.length_take, List.length_drop]
          omega)
      have htree := hstep.tree_eq hs hn
      generalize hnx : (start / 512 + 1) * 512 = next at *
      rw [show start / 512 + 1 = next / 512 by omega]
      refine ih (fin - next) (by omega) next (w + (next - start)) (by omega) (by omega) ?_ ?_ rfl
      · rw [Store.withBlk_blk, htree]
        exact hn
      · intro b hb
        rw [Store.withBlk_blk, htree] at hb
        exact (hf b hb).withBlk _

/-- The part of the buffer that `write_at` writes. -/
def writtenPart (d : DiskInode) (off : Nat) (buf : List UInt8) : List UInt8 :=
  buf.take (min (off + buf.length) d.size - off)

theorem writeAt_ok (hs : d.dataBlocks ≤ 16540) (hn : (tree d s.blk).Nodup) {buf : List UInt8} {r : Nat}
    (h : (d.writeAt off buf).run s = .ok (r, s')) :
    off ≤ d.size ∧ r = (writtenPart d off buf).length ∧
      (∃ blk', s' = s.withBlk blk' ∧ Written d s.blk blk' off (writtenPart d off buf)) ∧
      ∀ j, off / 512 ≤ j → j * 512 < min (off + buf.length) d.size → off < min (off + buf.length) d.size →
        ptr d s.blk (.data j) < s.size := by
  rw [DiskInode.writeAt] at h
  obtain ⟨h64, h⟩ := run_assert_bind_ok.mp h
  obtain ⟨hle, h⟩ := run_assert_bind_ok.mp h
  have hlen : (writtenPart d off buf).length = min (off + buf.length) d.size - off := by
    rw [writtenPart, List.length_take]
    omega
  refine ⟨by omega, ?_⟩
  rcases Nat.lt_or_ge off (min (off + buf.length) d.size) with hlt | hge
  · obtain ⟨hr, hblk, hdev⟩ := writeLoop_ok hs buf (Nat.min_le_right _ _) off 0 hlt (by omega) hn h
    exact ⟨by omega, by simpa [writtenPart] using hblk, fun j h3 h4 _ => hdev j h3 h4⟩
  · -- nothing is left to write: the loop puts some block back as it was
    have hz : min (off + buf.length) d.size - off = 0 := by omega
    have hnil : writtenPart d off buf = [] := by rw [writtenPart, hz, List.take_zero]
    have hmin : min ((off / 512 + 1) * 512) (min (off + buf.length) d.size) = min (off + buf.length) d.size := by omega
    rw [DiskInode.writeLoop] at h
    obtain ⟨id, s1, h3, h⟩ := run_bind_ok.mp h
    obtain ⟨rfl, rfl⟩ := getBlockId_ok h3
    obtain ⟨u, s2, h4, h⟩ := run_bind_ok.mp h
    obtain ⟨hfree, hs2⟩ := modifyRet_ok h4
    simp only [hmin, hz, List.take_zero, patch_nil, Function.update_eq_self, Store.withBlk_self, dite_true] at hs2 h
    cases h
    rw [hnil]
    exact ⟨rfl, ⟨s1.blk, by rw [hs2]; rfl, Written.refl d s1.blk off⟩, fun j _ _ h5 => by omega⟩

theorem writeAt_returns (off : Nat) (buf : List UInt8) (hs : d.dataBlocks ≤ 16540) (hn : (tree d s.blk).Nodup)
    (hf : ∀ b ∈ tree d s.blk, s.Free b) (h64 : off + buf.length < 2 ^ 64) (hlt : off < min (off + buf.length) d.size) :
    ∃ r, (d.writeAt off buf).run s = .ok r := by
  rw [DiskInode.writeAt, assert_true h64, ret_bind]
  dsimp only
  rw [assert_true (Nat.le_of_lt hlt), ret_bind]
  exact writeLoop_returns hs buf (Nat.min_le_right _ _) off 0 hlt (by omega) hn hf

theorem Written.treeStep {efs : EasyFileSystem} (ht : TreeOk efs d blk) (hg : efs.Geometry) (h : Written d blk blk' off l) :
    TreeStep efs d blk d blk' := by
  have htree := h.tree_eq ht.small ht.nodup
  have hframe : ∀ b, b ∉ tree d blk → blk' b = blk b := fun b hb =>
    h.frame b fun j hj e => hb (e ▸ data_mem_tree hj blk)
  refine ⟨ht.fits, ht.small, by rw [htree]; exact ht.nodup, fun b hb => .inl (by rwa [htree] at hb),
    fun b hb _ _ => hframe b hb, fun b hb => ?_, fun b h1 h2 => absurd h1 (by rwa [htree] at h2)⟩
  have hbit : efs.dataBit blk' b = efs.dataBit blk b := by
    have h1 := hb.le
    have h2 := hb.lt
    have h3 := hg.dataArea
    refine Bitmap.bit_congr (by omega) fun c h4 h5 => hframe c fun hc => ?_
    have := (ht.inData c hc).le
    omega
  rw [hbit, htree]
  by_cases e : b ∈ tree d blk
  · simp [e, ht.marked b e]
  · simp [e]

end Writing

end TgRcore.EasyFs
