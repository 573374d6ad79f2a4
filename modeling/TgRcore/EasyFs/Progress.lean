/-
  TgRcore.EasyFs.Progress — calls that return.

  The lemmas of `Ops` say what a call did that returned. Here are the other halves: when
  the blocks they need are on the device, `clear` returns, and so does `create` on an
  empty directory.
-/

import TgRcore.EasyFs.Runs

namespace TgRcore.EasyFs

open TgRcore.Bytes TgRcore.BlockProg TgRcore.BlockProg.Prog

section

variable {efs : EasyFileSystem} {s : Store Block} {d : DiskInode} {id k : Nat}

/-- `clear` empties the inode and gives its blocks back. -/
theorem clear_run (hi : Idle efs s) (hw : Wf efs s.blk k) (hid : id < k) (hdev : ∀ b ∈ efs.treeAt s.blk id, b < s.size) :
    ∃ blk₁, (Inode.clear efs (efs.handle id)).run s =
        .ok ((), s.withBlk (storeInode efs s.blk blk₁ id (efs.inodeAt s.blk id).emptied)) ∧
      Given efs s.blk blk₁ (efs.treeAt s.blk id) := by
  have hslot := Nat.lt_of_lt_of_le hid hw.slots
  obtain ⟨blk₁, hrun, hgiven⟩ := clearBody_eq (hi.lock.open_inode hslot) (hw.treeOk hid) hdev
  have hmod := modifyDiskInode_run efs id (hi.lock.inodeFree hslot) hrun
  refine ⟨blk₁, run_withMutex hi.busy (g := storeInode efs s.blk blk₁ id (efs.inodeAt s.blk id).emptied) ?_, hgiven⟩
  exact (run_bind_of hmod).trans (run_sync hi.held)

theorem clear_returns (hi : Idle efs s) (hw : Wf efs s.blk k) (hid : id < k)
    (hdev : ∀ b ∈ efs.treeAt s.blk id, b < s.size) :
    ∃ blk', (Inode.clear efs (efs.handle id)).run s = .ok ((), s.withBlk blk') := by
  obtain ⟨blk₁, hrun, -⟩ := clear_run hi hw hid hdev
  exact ⟨_, hrun⟩

/-- The next data block that `alloc_data` hands out. -/
structure NextData (efs : EasyFileSystem) (blk : Nat → Block) (b : Nat) : Prop where
  inData : efs.InData b
  u32 : b < 2 ^ 32
  clear : efs.dataBit blk b = false
  least : ∀ c, efs.InData c → c < b → efs.dataBit blk c = true

theorem allocBlocks_one (ho : Open efs s) {b : Nat} (hb : NextData efs s.blk b) :
    (efs.allocBlocks 1).run s = .ok ([b], s.withBlk (efs.dataBitmap.setBit s.blk (b - efs.dataAreaStartBlock))) := by
  rw [EasyFileSystem.allocBlocks, run_bind_of (allocData_run ho hb.inData hb.u32 hb.clear hb.least)]
  rfl

section Growing

variable {d' : DiskInode} {n : Nat} {v : List Nat} {blk₁ blkg : Nat → Block} {buf : List UInt8} {name : String}

/-- A file grows when the blocks for it are handed out. -/
theorem increaseSize_returns (ho : Open efs s) (ht : TreeOk efs d s.blk) (hdev : ∀ b ∈ tree d s.blk, b < s.size)
    (hsz : d.size ≤ n) (hns : n < 2 ^ 32) (hm : DiskInode.dataBlocksOf n ≤ 16540)
    (hlen : v.length = (slotsFrom d.dataBlocks (DiskInode.dataBlocksOf n - d.dataBlocks)).length)
    (halloc : (efs.allocBlocks v.length).run s = .ok (v, s.withBlk blk₁)) (hvdev : ∀ b ∈ v, b < s.size) :
    ∃ d' blkg, (Inode.increaseSize efs n d).run s = .ok (d', s.withBlk blkg) ∧ Grown efs d s.blk n v d' blkg := by
  obtain ⟨-, blk₂, e, hv⟩ := allocBlocks_ok ho halloc
  obtain rfl : blk₁ = blk₂ := congrArg Store.blk e
  obtain ⟨d', blkg, hgrow, hg⟩ := increaseSize_of_taken ho ht hdev hsz hns hm hlen hv hvdev
  refine ⟨d', blkg, ?_, hg⟩
  rw [Inode.increaseSize, if_neg (by omega), blocksNumNeeded_eq hsz, ret_bind, ← hlen]
  exact (run_bind_of halloc).trans hgrow

/-- What goes into the file then. -/
theorem write_grown_returns (off : Nat) (ho : Open efs s) (ht : TreeOk efs d s.blk) (hdev : ∀ b ∈ tree d s.blk, b < s.size)
    (hg : Grown efs d s.blk n v d' blkg) (hvdev : ∀ b ∈ v, b < s.size) (hns : n < 2 ^ 32) (hbuf : buf ≠ [])
    (hend : off + buf.length ≤ n) :
    ∃ r blk', (d'.writeAt off buf).run (s.withBlk blkg) = .ok (r, s.withBlk blk') ∧ tree d' blk' = tree d' blkg := by
  have hpos := List.length_pos_of_ne_nil hbuf
  have hnodup : (tree d' (s.withBlk blkg).blk).Nodup := (hg.treeStep ht).nodup
  have hfree : ∀ b ∈ tree d' blkg, (s.withBlk blkg).Free b := by
    intro b hb
    rw [hg.tree, List.mem_append] at hb
    rcases hb with hb | hb
    · exact (ho.dataFree (ht.inData b hb) (hdev b hb)).withBlk _
    · exact (ho.dataFree (hg.fresh b hb).1 (hvdev b hb)).withBlk _
  obtain ⟨⟨r, s'⟩, hw⟩ := writeAt_returns (s := s.withBlk blkg) (d := d') off buf hg.small hnodup hfree (by omega)
    (by rw [hg.size]; omega)
  obtain ⟨-, -, ⟨blk', rfl, hwr⟩, -⟩ := writeAt_ok (s := s.withBlk blkg) hg.small hnodup hw
  exact ⟨r, blk', hw, hwr.tree_eq hg.small hnodup⟩

/-- An entry goes into a directory that can grow by it. -/
theorem appendDirent_of_grown (id : Nat) (ho : Open efs s) (ht : TreeOk efs d s.blk) (hdev : ∀ b ∈ tree d s.blk, b < s.size)
    (hinc : (Inode.increaseSize efs ((d.size / 32 + 1) * 32) d).run s = .ok (d', s.withBlk blkg))
    (hg : Grown efs d s.blk ((d.size / 32 + 1) * 32) v d' blkg) (hvdev : ∀ b ∈ v, b < s.size)
    (hn : (strBytes name).length ≤ 28) :
    ∃ blk', (Inode.appendDirent efs name id d).run s = .ok (d', s.withBlk blk') ∧ tree d' blk' = tree d' blkg := by
  have hsmall := ht.small
  unfold DiskInode.dataBlocks DiskInode.dataBlocksOf at hsmall
  have hu : asU32 ((d.size / 32 + 1) * 32) = (d.size / 32 + 1) * 32 := Nat.mod_eq_of_lt (by omega)
  have h32 : (direntBytes name id).length = 32 := by rw [direntBytes, length_asBytes]
  obtain ⟨r, blk', hw, htree⟩ := write_grown_returns (d.size / 32 * 32) ho ht hdev hg hvdev (by omega)
    (List.ne_nil_of_length_pos (by rw [h32]; decide)) (by rw [h32]; omega)
  refine ⟨blk', ?_, htree⟩
  rw [Inode.appendDirent, hu, run_bind_of hinc, DirEntry.new, assert_true hn, ret_bind]
  exact (run_bind_of hw).trans rfl

end Growing

/-- An entry goes into a directory without blocks; the directory has block `b` then. -/
theorem appendDirent_returns (id : Nat) (ho : Open efs s) (ht : TreeOk efs d s.blk) (hz : d.size = 0) {b : Nat}
    (hb : NextData efs s.blk b) (hd : b < s.size) {name : String} (hn : (strBytes name).length ≤ 28) :
    ∃ d' blkg blk', (Inode.appendDirent efs name id d).run s = .ok (d', s.withBlk blk') ∧ tree d' blk' = [b] ∧
      GrowWrite efs s.size d s.blk ((d.size / 32 + 1) * 32) (d.size / 32 * 32) (direntBytes name id) d' blkg blk' := by
  have hblocks : d.dataBlocks = 0 := by
    unfold DiskInode.dataBlocks
    rw [hz]
    rfl
  have hnil := tree_of_size_zero hz s.blk
  have hsize : (d.size / 32 + 1) * 32 = 32 := by rw [hz]
  obtain ⟨d', blkg, hinc, hg⟩ := increaseSize_returns (n := (d.size / 32 + 1) * 32) (v := [b]) ho ht (by rw [hnil]; simp)
    (by omega) (by omega) (by rw [hsize]; decide) (by rw [hblocks, hsize]; rfl) (allocBlocks_one ho hb) (by simpa using hd)
  obtain ⟨blk', hrun, htree⟩ := appendDirent_of_grown id ho ht (by rw [hnil]; simp) hinc hg (by simpa using hd) hn
  obtain ⟨-, blkg', blk'', e, hgw⟩ := appendDirent_ok ho ht hrun
  obtain rfl : blk' = blk'' := congrArg Store.blk e
  refine ⟨d', blkg', blk', hrun, ?_, hgw⟩
  rw [htree, hg.tree, hnil]
  rfl

/-- An entry goes into the last block of a directory. -/
theorem appendDirent_returns_block (id : Nat) (ho : Open efs s) (ht : TreeOk efs d s.blk) (hdev : ∀ b ∈ tree d s.blk, b < s.size)
    (hroom : DiskInode.dataBlocksOf ((d.size / 32 + 1) * 32) = d.dataBlocks) (hle : d.size ≤ (d.size / 32 + 1) * 32)
    {name : String} (hn : (strBytes name).length ≤ 28) :
    ∃ d' blk', (Inode.appendDirent efs name id d).run s = .ok (d', s.withBlk blk') := by
  have hsmall := ht.small
  have hlt : (d.size / 32 + 1) * 32 < 2 ^ 32 := by
    unfold DiskInode.dataBlocks DiskInode.dataBlocksOf at hsmall
    omega
  obtain ⟨d', blkg, hinc, hg⟩ := increaseSize_returns (n := (d.size / 32 + 1) * 32) (v := []) ho ht hdev hle hlt
    (by rw [hroom]; exact hsmall) (by rw [hroom, Nat.sub_self]; rfl)
    (show (efs.allocBlocks 0).run s = .ok ([], s.withBlk s.blk) from rfl) (by simp)
  obtain ⟨blk', hrun, -⟩ := appendDirent_of_grown id ho ht hdev hinc hg (by simp) hn
  exact ⟨d', blk', hrun⟩

/-- The first bytes go into an empty file, anywhere in its first block. -/
theorem writeAt_empty_returns (hi : Idle efs s) (hw : Wf efs s.blk k) (hid : id < k) (hz : (efs.inodeAt s.blk id).size = 0)
    {b : Nat} (hb : NextData efs s.blk b) (hd : b < s.size) {off : Nat} {buf : List UInt8} (hbuf : buf ≠ [])
    (hlen : off + buf.length ≤ 512) : ∃ r blk', (Inode.writeAt efs (efs.handle id) off buf).run s = .ok (r, s.withBlk blk') := by
  have hslot := Nat.lt_of_lt_of_le hid hw.slots
  have hpos := List.length_pos_of_ne_nil hbuf
  have ho := hi.lock.open_inode hslot
  have ht := hw.treeOk hid
  have hnil := tree_of_size_zero hz s.blk
  have hblocks : (efs.inodeAt s.blk id).dataBlocks = 0 := by
    unfold DiskInode.dataBlocks
    rw [hz]
    rfl
  have hone : DiskInode.dataBlocksOf (off + buf.length) = 1 := by
    unfold DiskInode.dataBlocksOf
    omega
  have hdev : ∀ c ∈ tree (efs.inodeAt s.blk id) s.blk, c < s.size := by rw [hnil]; simp
  obtain ⟨d', blkg, hinc, hg⟩ := increaseSize_returns (n := off + buf.length) (v := [b]) ho ht hdev (by omega) (by omega)
    (by rw [hone]; norm_num) (by rw [hblocks, hone]; rfl) (allocBlocks_one ho hb) (by simpa using hd)
  obtain ⟨r, blk', hwr, -⟩ := write_grown_returns off ho ht hdev hg (by simpa using hd) (by omega) hbuf (Nat.le_refl _)
  rw [← show asU32 (off + buf.length) = off + buf.length from Nat.mod_eq_of_lt (by omega)] at hinc
  exact ⟨r, _, writeAt_of_parts hi hslot (by omega) hinc hwr⟩

/-- `create` returns when the entry can be appended; the new inode may lie past the inode area. -/
theorem create_of_append (hi : Idle efs s) {i : Nat} (hn : NextInode efs s.blk i)
    (hs : efs.inodeBlock (asU32 i) < efs.dataAreaStartBlock) (hslot : id < efs.slots) {name : String} {d' : DiskInode}
    {blk₁ : Nat → Block}
    (happ : (Inode.appendDirent efs name (asU32 i) (efs.inodeAt (newInode efs s.blk i) id)).run
        ((({ s with busy := true } : Store Block).withBlk (newInode efs s.blk i)).pin (efs.inodeBlock id)) =
      .ok (d', ((({ s with busy := true } : Store Block).withBlk (newInode efs s.blk i)).pin (efs.inodeBlock id)).withBlk blk₁)) :
    (Inode.create efs (efs.handle id) name).run s =
      .ok (efs.handle (asU32 i), s.withBlk (storeInode efs (newInode efs s.blk i) blk₁ id d')) := by
  have hlk := hi.lock
  have halloc := allocInode_run hlk hn
  have hinit := modifyDiskInode_run efs (asU32 i)
    (s := ({ s with busy := true } : Store Block).withBlk (efs.inodeBitmap.setBit s.blk i))
    (f := fun d => ret ((), d.init efs.crate .file)) (v := ())
    (d := (efs.inodeAt (efs.inodeBitmap.setBit s.blk i) (asU32 i)).init efs.crate .file)
    ((hlk.withBlk _).lowFree hs) rfl
  have hlk' : Locked efs (({ s with busy := true } : Store Block).withBlk (newInode efs s.blk i)) := hlk.withBlk _
  have hbody := modifyDiskInode_run efs id
    (f := fun d => do
      let d ← Inode.appendDirent efs name (asU32 i) d
      return ((), d)) (v := ()) (d := d') (hlk'.inodeFree hslot) ((run_bind_of happ).trans rfl)
  refine run_withMutex (g := storeInode efs (newInode efs s.blk i) blk₁ id d') hi.busy ?_
  rw [run_bind_of halloc, run_bind_of (getDiskInodePos_run hi.geo hs _)]
  refine (run_bind_of hinit).trans ((run_bind_of hbody).trans ?_)
  rw [run_bind_of (inode_run hi.geo hs _)]
  exact (run_bind_of (run_sync (s := ({ s with busy := true } : Store Block).withBlk
    (storeInode efs (newInode efs s.blk i) blk₁ id d')) hi.held)).trans rfl

theorem create_returns (hi : Idle efs s) {i k' : Nat} (hn : NextInode efs s.blk i)
    (hs : efs.inodeBlock (asU32 i) < efs.dataAreaStartBlock)
    (hw : Wf efs (newInode efs s.blk i) k') (hid : id < k') (hz : (efs.inodeAt (newInode efs s.blk i) id).size = 0)
    {b : Nat} (hb : NextData efs (newInode efs s.blk i) b) (hd : b < s.size) {name : String}
    (hl : (strBytes name).length ≤ 28) :
    ∃ d' blkg blk₁, (Inode.create efs (efs.handle id) name).run s =
        .ok (efs.handle (asU32 i), s.withBlk (storeInode efs (newInode efs s.blk i) blk₁ id d')) ∧ tree d' blk₁ = [b] ∧
      GrowWrite efs s.size (efs.inodeAt (newInode efs s.blk i) id) (newInode efs s.blk i)
        (((efs.inodeAt (newInode efs s.blk i) id).size / 32 + 1) * 32)
        ((efs.inodeAt (newInode efs s.blk i) id).size / 32 * 32) (direntBytes name (asU32 i)) d' blkg blk₁ := by
  have hslot := Nat.lt_of_lt_of_le hid hw.slots
  have hlk' : Locked efs (({ s with busy := true } : Store Block).withBlk (newInode efs s.blk i)) := hi.lock.withBlk _
  obtain ⟨d', blkg, blk₁, happ, htree, hgw⟩ :=
    appendDirent_returns (asU32 i) (hlk'.open_inode hslot) (hw.treeOk hid) hz hb hd hl
  exact ⟨d', blkg, blk₁, create_of_append hi hn hs hslot happ, htree, hgw⟩

theorem root_returns (hi : Idle efs s) (hs : 0 < efs.slots) : efs.rootInode.run s = .ok (efs.handle 0, s) :=
  run_withMutex (g := s.blk) hi.busy (inode_run hi.geo (hi.geo.inodeBlock_lt_area hs) _)

end

/-! ## Runs that fill the inode bitmap -/

section Filling

variable {c : Crate} {total ibb : Nat} {dev : BlockDevice Block} {efs : EasyFileSystem} {m : Cached Block} {s : Store Block}
  {k : Nat} {G : EasyFileSystem → (Nat → Block) → Call → Prop}

/-- A geometry that is accepted and fits the device can be formatted. -/
theorem start_returns (ha : Accepts c total ibb) (hi : 0 < ibb) (hs : total ≤ dev.size) (hr : 1 + ibb < dev.size) :
    ∃ m, runCached (EasyFileSystem.create c total ibb) (boot dev) = .ok (layout c total ibb, m) := by
  have hrun := create_run (s := flat dev) ha hi rfl rfl hs hr
  obtain ⟨m, h1, -⟩ := runCached_of_run (quiet_boot dev).sim hrun
  exact ⟨m, h1⟩

/-- There are `k` inodes; all but the root are empty, and the root has the blocks `l`. -/
structure Bare (efs : EasyFileSystem) (dev : BlockDevice Block) (m : Cached Block) (s : Store Block) (k : Nat)
    (l : List Nat) : Prop where
  here : At efs dev m s
  full : Full efs dev.size s.blk k
  pos : 0 < k
  empty : ∀ id < k, id ≠ 0 → (efs.inodeAt s.blk id).size = 0
  root : efs.treeAt s.blk 0 = l
  device : ∀ b ∈ l, b < dev.size

/-- The data area has two blocks. -/
structure Roomy (efs : EasyFileSystem) (size : Nat) : Prop where
  bits : 2 ≤ efs.dataBitmap.maximum
  size : efs.dataAreaStartBlock + 1 < size
  u32 : efs.dataAreaStartBlock + 1 < 2 ^ 32

theorem Bare.tree_of_ne (h : Bare efs dev m s k l) {id : Nat} (hid : id < k) (h0 : id ≠ 0) : efs.treeAt s.blk id = [] :=
  tree_of_size_zero (h.empty id hid h0) _

theorem Bare.next (h : Bare efs dev m s k l) (hk : k < efs.inodeBitmap.maximum) : NextInode efs s.blk k :=
  (NextInode.iff_of_bits h.full.inodeBits hk).mpr rfl

/-- Of the first two data blocks one is free when at most one block is in use. -/
theorem nextData_of_used {blk : Nat → Block} {b : Nat} (hr : Roomy efs size)
    (hu : ∀ c, efs.InData c → efs.dataBit blk c = true → c = b) : ∃ c, NextData efs blk c ∧ c < size := by
  have h1 := hr.bits
  have h2 := hr.size
  have h3 := hr.u32
  have hfree : ∀ c, efs.InData c → c ≠ b → efs.dataBit blk c = false := fun c hc hne =>
    Bool.eq_false_iff.mpr fun ht => hne (hu c hc ht)
  by_cases hz : efs.dataBit blk efs.dataAreaStartBlock = false
  · exact ⟨efs.dataAreaStartBlock, ⟨⟨Nat.le_refl _, by omega⟩, by omega, hz, fun c hc hlt => by
      have := hc.le
      omega⟩, by omega⟩
  · have ht : efs.dataBit blk efs.dataAreaStartBlock = true := by simpa using hz
    have hb := hu _ ⟨Nat.le_refl _, by omega⟩ ht
    refine ⟨efs.dataAreaStartBlock + 1, ⟨⟨by omega, by omega⟩, h3, hfree _ ⟨by omega, by omega⟩ (by omega), fun c hc hlt => ?_⟩, h2⟩
    obtain rfl : c = efs.dataAreaStartBlock := by
      have := hc.le
      omega
    exact ht

/-- A data block is free as long as only the root has one. -/
theorem Bare.nextData {b : Nat} (h : Bare efs dev m s k l) (hr : Roomy efs dev.size) (hl : ∀ c ∈ l, c = b) :
    ∃ c, NextData efs s.blk c ∧ c < dev.size := by
  refine nextData_of_used hr (b := b) fun c hc ht => ?_
  obtain ⟨id, hid, hmem⟩ := h.full.used c hc ht
  by_cases e : id = 0
  · rw [e, h.root] at hmem
    exact hl c hmem
  · rw [h.tree_of_ne hid e] at hmem
    cases hmem

theorem NextData.newInode {i b : Nat} (h : NextData efs s.blk b) (hg : efs.Geometry) (hi : i < efs.inodeBitmap.maximum)
    (hs : asU32 i < efs.slots) : NextData efs (newInode efs s.blk i) b := by
  have hbits : ∀ c, efs.InData c → efs.dataBit (EasyFs.newInode efs s.blk i) c = efs.dataBit s.blk c := fun c hc =>
    Bitmap.bit_congr (by have := hc.le; have := hc.lt; omega) fun b h1 _ => newInode_data hg hi hs (.inr h1)
  refine ⟨h.inData, h.u32, ?_, fun c hc hlt => ?_⟩
  · rw [hbits b h.inData]
    exact h.clear
  · rw [hbits c hc]
    exact h.least c hc hlt

/-- The entry of the next inode goes into the empty root directory. -/
theorem Bare.create_run (h : Bare efs dev m s k []) (hr : Roomy efs dev.size) (hu : k < 2 ^ 32) (hs : k < efs.slots)
    (hm : k < efs.inodeBitmap.maximum) (hz : (efs.inodeAt s.blk 0).size = 0) (name : String)
    (hl : (strBytes name).length ≤ 28) :
    ∃ blk' b, (Inode.create efs (efs.handle 0) name).run s = .ok (efs.handle k, s.withBlk blk') ∧
      ∀ m', At efs dev m' (s.withBlk blk') → Bare efs dev m' (s.withBlk blk') (k + 1) [b] := by
  have hu' : asU32 k = k := Nat.mod_eq_of_lt hu
  have hn := h.next hm
  have hfull' := h.full.newInode hm hs hu
  have hroot : efs.inodeAt (newInode efs s.blk k) 0 = efs.inodeAt s.blk 0 :=
    inodeAt_newInode_of_ne h.full.geo hm (by rw [hu']; have := h.pos; omega)
  obtain ⟨b, hb, hbd⟩ := h.nextData (b := 0) hr (by simp)
  obtain ⟨d', blkg, blk₁, hrun, htree, hgw⟩ := create_returns h.here.idle hn
    (by rw [hu']; exact h.full.geo.inodeBlock_lt_area hs) hfull'.toWf (show 0 < k + 1 by omega) (by rw [hroot]; exact hz)
    (hb.newInode h.full.geo hm (by rw [hu']; exact hs)) (by rw [h.here.size]; exact hbd) hl
  rw [hu'] at hrun
  -- what it did
  have hstep := hgw.step.inodeStep hfull'.toWf (by omega)
  have hself := hgw.step.treeAt_self hfull'.toWf (by omega)
  refine ⟨_, b, hrun, fun m' hat => ⟨hat, hfull'.step (by omega) hgw.step, by omega, fun id hid h0 => ?_, ?_, fun c hc => ?_⟩⟩
  · rw [Store.withBlk_blk, hstep.others id (by omega) h0]
    by_cases e : id = k
    · subst e
      have := inodeAt_newInode_self s.blk h.full.geo hm
      rw [hu'] at this
      rw [this]
      rfl
    · rw [inodeAt_newInode_of_ne h.full.geo hm (by rw [hu']; exact e)]
      exact h.empty id (by omega) h0
  · rw [Store.withBlk_blk, hself, htree]
  · rw [List.mem_singleton.mp hc]
    exact hbd

theorem Bare.create (h : Bare efs dev m s k []) (hr : Roomy efs dev.size) (hu : k < 2 ^ 32) (hs : k < efs.slots)
    (hm : k < efs.inodeBitmap.maximum) (hz : (efs.inodeAt s.blk 0).size = 0) (name : String)
    (hl : (strBytes name).length ≤ 28) :
    ∃ m' s' b, runCached ((Call.create (efs.handle 0) name).exec efs) m = .ok (.inode (efs.handle k), m') ∧
      Bare efs dev m' s' (k + 1) [b] := by
  obtain ⟨blk', b, hrun, hbare⟩ := h.create_run hr hu hs hm hz name hl
  obtain ⟨m', hm', hat⟩ := h.here.returns (.create (efs.handle 0) name) (r := .inode (efs.handle k))
    ((run_bind_of hrun).trans rfl)
  exact ⟨m', _, b, hm', hbare m' hat⟩

/-- Clearing the root directory. -/
theorem Bare.clear {l : List Nat} (h : Bare efs dev m s k l) :
    ∃ m' s', runCached ((Call.clear (efs.handle 0)).exec efs) m = .ok (.done, m') ∧ Bare efs dev m' s' k [] ∧
      (efs.inodeAt s'.blk 0).size = 0 := by
  have hw := h.full.toWf
  obtain ⟨blk', hrun⟩ := clear_returns h.here.idle hw h.pos (by rw [h.root, h.here.size]; exact h.device)
  obtain ⟨m', hm', hat⟩ := h.here.returns (.clear (efs.handle 0)) (r := .done) ((run_bind_of hrun).trans rfl)
  obtain ⟨d', blk₁, hs', hc⟩ := clear_step h.here.idle hw h.pos hrun
  have hblk' : blk' = storeInode efs s.blk blk₁ 0 d' := congrArg Store.blk hs'
  subst hblk'
  have hst := hc.treeStep
  have hsize : (efs.inodeAt (storeInode efs s.blk blk₁ 0 d') 0).size = 0 := by
    rw [inodeAt_storeInode_self hc.fits, hc.size]
  refine ⟨m', _, hm', ⟨hat, h.full.step h.pos hst, h.pos, fun id hid h0 => ?_, tree_of_size_zero hsize _, by simp⟩, hsize⟩
  rw [Store.withBlk_blk, (hst.inodeStep hw h.pos).others id (Nat.lt_of_lt_of_le hid hw.slots) h0]
  exact h.empty id hid h0

/-- The formatted disk is bare. -/
theorem Bare.formatted (ha : Accepts c total ibb) (hi : 0 < ibb) (hdev : dev.size = total) (hs : 0 < (layout c total ibb).slots)
    (hat : At (layout c total ibb) dev m ((flat dev).withBlk (formatted c total ibb dev.data))) :
    Bare (layout c total ibb) dev m ((flat dev).withBlk (formatted c total ibb dev.data)) 1 [] ∧
      ((layout c total ibb).inodeAt (formatted c total ibb dev.data) 0).size = 0 := by
  have hsize := ha.root_lt hs
  have hfull := formatted_full dev.data ha hi hs
  have hz : ((layout c total ibb).inodeAt (EasyFs.formatted c total ibb dev.data) 0).size = 0 := by
    rw [inodeAt_formatted_root hi hsize]
    rfl
  exact ⟨⟨hat, by rw [hdev]; exact hfull, Nat.one_pos, fun id hid h => by omega, tree_of_size_zero hz _, by simp⟩, hz⟩

/-- A run that opens the root directory of a new file system; the disk is the formatted one. -/
theorem formatted_run (dev : BlockDevice Block) (ha : Accepts c total ibb) (hi : 0 < ibb)
    (hdev : dev.size = total) (hs : 0 < (layout c total ibb).slots)
    (hroot : ∀ blk, G (layout c total ibb) blk .root) :
    ∃ m, FsRun c total ibb dev G (layout c total ibb) m [(layout c total ibb).handle 0] ∧
      At (layout c total ibb) dev m ((flat dev).withBlk (formatted c total ibb dev.data)) := by
  obtain ⟨m₀, h0⟩ := start_returns ha hi (Nat.le_of_eq hdev.symm) (by rw [hdev]; exact ha.root_lt hs)
  obtain ⟨-, -, -, -, -, hat⟩ := At.start ha.u32 h0
  obtain ⟨m₁, h1, hat'⟩ := hat.returns .root (r := .inode ((layout c total ibb).handle 0))
    ((run_bind_of (root_returns hat.idle hs)).trans rfl)
  exact ⟨m₁, .step (.start h0) (by simp [Call.self?]) (hroot _) h1, hat'⟩

/-- The same run, with what of the disk later calls need. -/
theorem root_run (dev : BlockDevice Block) (ha : Accepts c total ibb) (hi : 0 < ibb)
    (hdev : dev.size = total) (hs : 0 < (layout c total ibb).slots)
    (hroot : ∀ blk, G (layout c total ibb) blk .root) :
    ∃ m s, FsRun c total ibb dev G (layout c total ibb) m [(layout c total ibb).handle 0] ∧
      Bare (layout c total ibb) dev m s 1 [] ∧ ((layout c total ibb).inodeAt s.blk 0).size = 0 := by
  obtain ⟨m, hrun, hat⟩ := formatted_run dev ha hi hdev hs hroot
  exact ⟨m, _, hrun, Bare.formatted ha hi hdev hs hat⟩

/-- A run that makes `n` files in the root directory and clears it after each. -/
theorem fill_run (dev : BlockDevice Block) (ha : Accepts c total ibb) (hi : 0 < ibb)
    (hdev : dev.size = total) (hs : 0 < (layout c total ibb).slots)
    (hr : Roomy (layout c total ibb) dev.size) (hroot : ∀ blk, G (layout c total ibb) blk .root)
    (hcreate : ∀ blk, G (layout c total ibb) blk (.create ((layout c total ibb).handle 0) "f"))
    (hclear : ∀ blk, G (layout c total ibb) blk (.clear ((layout c total ibb).handle 0))) :
    ∀ n, n < 2 ^ 32 → n < (layout c total ibb).slots → n < (layout c total ibb).inodeBitmap.maximum →
      ∃ m s hs, FsRun c total ibb dev G (layout c total ibb) m hs ∧ hs.length = n + 1 ∧ (layout c total ibb).handle 0 ∈ hs ∧
        Bare (layout c total ibb) dev m s (n + 1) [] ∧ ((layout c total ibb).inodeAt s.blk 0).size = 0 := by
  intro n
  induction n with
  | zero =>
    intro _ _ _
    obtain ⟨m, s, hrun, hb, hz⟩ := root_run (G := G) dev ha hi hdev hs hroot
    exact ⟨m, s, _, hrun, rfl, List.mem_singleton_self _, hb, hz⟩
  | succ n ih =>
    intro h1 h2 h3
    obtain ⟨m, s, hs', hrun, hlen, hmem, hb, hz⟩ := ih (by omega) (by omega) (by omega)
    obtain ⟨m₁, s₁, b, hc, hb₁⟩ := hb.create hr h1 h2 h3 hz "f" (by decide)
    obtain ⟨m₂, s₂, hcl, hb₂, hz₂⟩ := hb₁.clear
    have hrun₁ := hrun.step (by simpa [Call.self?] using hmem) (hcreate _) hc
    exact ⟨m₂, s₂, _, hrun₁.step (by simpa [Call.self?] using .inr hmem) (hclear _) hcl,
      by simp [Ret.handles, hlen], by simp [Ret.handles, hmem], hb₂, hz₂⟩

end Filling

end TgRcore.EasyFs
