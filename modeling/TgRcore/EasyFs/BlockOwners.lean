/-
  TgRcore.EasyFs.BlockOwners — every block of the base easy-fs is accounted for.

  `BlocksOwned` says of the bytes on the device that every block in use by an inode is in
  use at one place only, that the data bitmap marks exactly the blocks in use, and that
  the unmarked blocks of the data area are zero.
  - `blocks_owned`: it holds between any two calls of a run of `create`, `write_at` and
    `clear`, as long as inode numbers fit the u32 that `alloc_inode` returns.
  - `blocks_not_owned`: after 2^32 inodes `alloc_inode` comes back to inode 0, and the
    block the root directory had is lost.
-/

import TgRcore.EasyFs.Progress

namespace TgRcore.EasyFs

open TgRcore.Bytes TgRcore.BlockProg TgRcore.BlockProg.Prog

/-! ## The property -/

/-- Inode `id` has been handed out. -/
structure Allocated (efs : EasyFileSystem) (blk : Nat → Block) (id : Nat) : Prop where
  u32 : id < 2 ^ 32
  lt : id < efs.inodeBitmap.maximum
  bit : efs.inodeBitmap.bit blk id = true

/-- Slot `σ` of inode `id` is in use and holds block `b`. -/
def RefersTo (efs : EasyFileSystem) (blk : Nat → Block) (id : Nat) (σ : Slot) (b : Nat) : Prop :=
  σ ∈ slotsOf (efs.inodeAt blk id).dataBlocks ∧ ptr (efs.inodeAt blk id) blk σ = b

structure BlocksOwned (efs : EasyFileSystem) (size : Nat) (blk : Nat → Block) : Prop where
  unique : ∀ id id' σ σ' b, Allocated efs blk id → Allocated efs blk id' → RefersTo efs blk id σ b →
    RefersTo efs blk id' σ' b → id = id' ∧ σ = σ'
  inArea : ∀ id σ b, Allocated efs blk id → RefersTo efs blk id σ b →
    efs.dataAreaStartBlock ≤ b ∧ b - efs.dataAreaStartBlock < efs.dataBitmap.maximum
  marked : ∀ i < efs.dataBitmap.maximum, efs.dataBitmap.bit blk i = true ↔
    ∃ id σ, Allocated efs blk id ∧ RefersTo efs blk id σ (efs.dataAreaStartBlock + i)
  zero : ∀ i < efs.dataBitmap.maximum, efs.dataAreaStartBlock + i < size → efs.dataBitmap.bit blk i = false →
    ∀ j < 512, (blk (efs.dataAreaStartBlock + i)).byte j = 0

theorem refersTo_iff {efs : EasyFileSystem} {blk : Nat → Block} {id b : Nat} :
    (∃ σ, RefersTo efs blk id σ b) ↔ b ∈ efs.treeAt blk id := by
  unfold RefersTo EasyFileSystem.treeAt tree
  rw [List.mem_map]

theorem dataBit_add {efs : EasyFileSystem} (blk : Nat → Block) (i : Nat) :
    efs.dataBit blk (efs.dataAreaStartBlock + i) = efs.dataBitmap.bit blk i := by
  unfold EasyFileSystem.dataBit
  rw [Nat.add_sub_cancel_left]

theorem Full.allocated_iff {efs : EasyFileSystem} {size k id : Nat} {blk : Nat → Block} (hf : Full efs size blk k)
    (hk : k ≤ 2 ^ 32) (hm : k ≤ efs.inodeBitmap.maximum) : Allocated efs blk id ↔ id < k := by
  constructor
  · rintro ⟨-, h2, h3⟩
    rw [hf.inodeBits id h2, decide_eq_true_eq] at h3
    exact h3
  · intro h
    exact ⟨by omega, by omega, by rw [hf.inodeBits id (by omega)]; exact decide_eq_true h⟩

theorem Full.blocksOwned {efs : EasyFileSystem} {size k : Nat} {blk : Nat → Block} (hf : Full efs size blk k)
    (hk : k ≤ 2 ^ 32) (hm : k ≤ efs.inodeBitmap.maximum) : BlocksOwned efs size blk := by
  refine ⟨fun id id' σ σ' b h h' hr hr' => ?_, fun id σ b h hr => ?_, fun i hi => ⟨fun hb => ?_, ?_⟩,
    fun i hi hd hb j _ => ?_⟩
  · rw [hf.allocated_iff hk hm] at h h'
    have hb := refersTo_iff.mp ⟨σ, hr⟩
    have hb' := refersTo_iff.mp ⟨σ', hr'⟩
    obtain rfl : id = id' := by
      by_contra hne
      exact hf.disjoint id h id' h' hne b hb hb'
    exact ⟨rfl, List.inj_on_of_nodup_map (hf.nodup id h) hr.1 hr'.1 (hr.2.trans hr'.2.symm)⟩
  · rw [hf.allocated_iff hk hm] at h
    have hin := hf.inData id h b (refersTo_iff.mp ⟨σ, hr⟩)
    exact ⟨hin.le, by have := hin.le; have := hin.lt; omega⟩
  · obtain ⟨id, hid, hmem⟩ := hf.used _ (inData_add hi) (by rw [dataBit_add]; exact hb)
    obtain ⟨σ, hr⟩ := refersTo_iff.mpr hmem
    exact ⟨id, σ, (hf.allocated_iff hk hm).mpr hid, hr⟩
  · rintro ⟨id, σ, h, hr⟩
    rw [hf.allocated_iff hk hm] at h
    rw [← dataBit_add]
    exact hf.marked id h _ (refersTo_iff.mp ⟨σ, hr⟩)
  · rw [hf.zero _ (inData_add hi) hd (by rw [dataBit_add]; exact hb), Blk.byte_zero]

/-! ## Runs -/

/-- `create`, `write_at` with a non-empty buffer, `clear` and reads. -/
def FileCall : Call → Prop
  | .root => True
  | .create _ _ => True
  | .readAt _ _ _ => True
  | .writeAt _ _ buf => buf ≠ []
  | .clear _ => True
  | _ => False

/-- `alloc_inode` has an inode number to hand out that fits a u32, or none at all. -/
def InodeFits (efs : EasyFileSystem) (blk : Nat → Block) : Call → Prop
  | .create _ _ => ∀ i, NextInode efs blk i → i < 2 ^ 32
  | _ => True

theorem areaBlocks_base {ibb : Nat} (h : 1025 * ibb < 2 ^ 32) : areaBlocks .base ibb = 1024 * ibb := by
  have : (ibb * 4096 * 128 + 511) / 512 = 1024 * ibb := by omega
  show asU32 ((ibb * 4096 * 128 + 511) / 512) = 1024 * ibb
  rw [this, asU32]
  omega

theorem slots_base (total : Nat) {ibb : Nat} (h : 1025 * ibb < 2 ^ 32) :
    (layout .base total ibb).slots = (layout .base total ibb).inodeBitmap.maximum := by
  rw [layout_slots, areaBlocks_base h]
  show 4 * (1024 * ibb) = ibb * 4096
  omega

/-- Where a run of the base easy-fs is: `k` inodes, and all handles are of those. -/
structure OwnedAt (efs : EasyFileSystem) (dev : BlockDevice Block) (m : Cached Block) (hs : List Inode) (s : Store Block)
    (k : Nat) : Prop where
  here : At efs dev m s
  full : Full efs dev.size s.blk k
  pos : 0 < k
  u32 : k ≤ 2 ^ 32
  max : k ≤ efs.inodeBitmap.maximum
  handles : ∀ h ∈ hs, ∃ id < k, h = efs.handle id

/-- The effect of one call on the invariant, for either copy of the crate. -/
theorem OwnedAt.call {efs : EasyFileSystem} {dev : BlockDevice Block} {m m' : Cached Block} {hs : List Inode}
    {s : Store Block} {k : Nat} (h : OwnedAt efs dev m hs s k) {call : Call} {r : Ret} (hc : FileCall call)
    (hfit : InodeFits efs s.blk call) (hslots : efs.slots = efs.inodeBitmap.maximum)
    (hself : ∀ i, call.self? = some i → i ∈ hs) (hr : runCached (call.exec efs) m = .ok (r, m')) :
    ∃ s' k', OwnedAt efs dev m' (r.handles ++ hs) s' k' := by
  obtain ⟨s', h1, h2⟩ := h.here.call hr
  have hw := h.full.toWf
  have hi := h.here.idle
  have hsz := h.here.size
  cases call with
  | root =>
    obtain ⟨ino, s₁, h3, h1⟩ := run_bind_ok.mp h1
    cases h1
    have hslot : 0 < efs.slots := Nat.lt_of_lt_of_le h.pos hw.slots
    rw [root_returns hi hslot] at h3
    cases h3
    refine ⟨_, k, h2 _ rfl, h.full, h.pos, h.u32, h.max, fun i hmem => ?_⟩
    rcases List.mem_cons.mp hmem with rfl | hmem
    · exact ⟨0, h.pos, rfl⟩
    · exact h.handles i hmem
  | create i name =>
    obtain ⟨ino, s₁, h3, h1⟩ := run_bind_ok.mp h1
    cases h1
    obtain ⟨id, hid, rfl⟩ := h.handles i (hself i rfl)
    have hB : ∀ i, NextInode efs s.blk i → asU32 i < efs.slots ∧ Wf efs (newInode efs s.blk i) (k + 1) := by
      intro i hn
      obtain rfl := h.full.next_eq hn
      have hlt := hn.lt
      have hu := hfit i hn
      have hu' : asU32 i = i := Nat.mod_eq_of_lt hu
      rw [hu', hslots]
      exact ⟨hlt, (h.full.newInode hlt (by rw [hslots]; exact hlt) hu).toWf⟩
    obtain ⟨j, hn, rfl, -, d', blkg, blk₁, rfl, hgw⟩ := create_step hi (k + 1) hB (by omega) h3
    obtain rfl := h.full.next_eq hn
    have hlt := hn.lt
    have hu := hfit j hn
    have hu' : asU32 j = j := Nat.mod_eq_of_lt hu
    have hfull := (h.full.newInode hlt (by rw [hslots]; exact hlt) hu).step (by omega) hgw.step
    refine ⟨_, j + 1, h2 _ rfl, hfull, by omega, by omega, by omega, fun i hmem => ?_⟩
    rcases List.mem_cons.mp hmem with rfl | hmem
    · exact ⟨j, by omega, by rw [hu']⟩
    · obtain ⟨id', h4, rfl⟩ := h.handles i hmem
      exact ⟨id', by omega, rfl⟩
  | readAt i off buf =>
    obtain ⟨x, s₁, h3, h1⟩ := run_bind_ok.mp h1
    cases h1
    obtain rfl := (readOnly_inodeReadAt i off buf).run_eq h3
    exact ⟨_, k, h2 _ rfl, h.full, h.pos, h.u32, h.max, h.handles⟩
  | writeAt i off buf =>
    obtain ⟨n, s₁, h3, h1⟩ := run_bind_ok.mp h1
    cases h1
    obtain ⟨id, hid, rfl⟩ := h.handles i (hself i rfl)
    obtain ⟨d', blkg, blk₁, rfl, -, hgw⟩ := writeAt_step hi hw hid h3
    exact ⟨_, k, h2 _ rfl, h.full.step hid hgw.step, h.pos, h.u32, h.max, h.handles⟩
  | clear i =>
    obtain ⟨u, s₁, h3, h1⟩ := run_bind_ok.mp h1
    cases h1
    obtain ⟨id, hid, rfl⟩ := h.handles i (hself i rfl)
    obtain ⟨d', blk₁, rfl, hcl⟩ := clear_step hi hw hid h3
    exact ⟨_, k, h2 _ rfl, h.full.step hid hcl.treeStep, h.pos, h.u32, h.max, h.handles⟩
  | find i name => exact hc.elim
  | link i name newName => exact hc.elim
  | unlink i name => exact hc.elim

theorem ownedAt_start {total ibb : Nat} {dev : BlockDevice Block} {efs : EasyFileSystem} {m : Cached Block}
    (hgeo : 1 + 1025 * ibb < total) (ht : total < 2 ^ 32) (hdev : dev.size = total)
    (h : runCached (EasyFileSystem.create .base total ibb) (boot dev) = .ok (efs, m)) :
    efs = layout .base total ibb ∧ OwnedAt efs dev m [] ((flat dev).withBlk (formatted .base total ibb dev.data)) 1 := by
  obtain ⟨ha, hi, -, -, rfl, hat⟩ := At.start ht h
  have hslots := slots_base total (show 1025 * ibb < 2 ^ 32 by omega)
  have hmax : (layout .base total ibb).inodeBitmap.maximum = ibb * 4096 := rfl
  have hfull := formatted_full dev.data ha hi (by omega)
  rw [← hdev] at hfull
  exact ⟨rfl, hat, by rw [← hdev]; exact hfull, by omega, by norm_num, by omega, by simp⟩

theorem ownedAt_run {total ibb : Nat} {dev : BlockDevice Block} {efs : EasyFileSystem} {m : Cached Block} {hs : List Inode}
    (hgeo : 1 + 1025 * ibb < total) (ht : total < 2 ^ 32) (hdev : dev.size = total)
    (h : FsRun .base total ibb dev (fun efs blk call => FileCall call ∧ InodeFits efs blk call) efs m hs) :
    efs = layout .base total ibb ∧ ∃ s k, OwnedAt efs dev m hs s k := by
  induction h with
  | start h0 =>
    obtain ⟨e, ho⟩ := ownedAt_start hgeo ht hdev h0
    exact ⟨e, _, _, ho⟩
  | step _ hself hG hr ih =>
    obtain ⟨rfl, s, k, ho⟩ := ih
    refine ⟨rfl, ?_⟩
    rw [ho.here.dev_eq] at hG
    exact ho.call hG.1 hG.2 (slots_base total (by omega)) hself hr

/-- Between any two calls every block is accounted for. -/
theorem blocks_owned {total ibb : Nat} {dev : BlockDevice Block} {efs : EasyFileSystem} {m : Cached Block}
    {hs : List Inode} (hgeo : 1 + 1025 * ibb < total) (ht : total < 2 ^ 32) (hdev : dev.size = total)
    (h : FsRun .base total ibb dev (fun efs blk call => FileCall call ∧ InodeFits efs blk call) efs m hs) :
    BlocksOwned efs dev.size m.w.dev.data := by
  obtain ⟨-, s, k, ho⟩ := ownedAt_run hgeo ht hdev h
  rw [ho.here.dev_eq]
  exact ho.full.blocksOwned ho.u32 ho.max

/-- A device of 1100 blocks, with one inode bitmap block. -/
theorem small_geometry : Accepts .base 1100 1 ∧
    (layout .base 1100 1).slots = (layout .base 1100 1).inodeBitmap.maximum ∧ Roomy (layout .base 1100 1) 1100 := by
  have harea : areaBlocks .base 1 = 1024 := areaBlocks_base (by norm_num)
  have hbits : bitmapBlocks .base 1100 1 = 1 := by rw [bitmapBlocks, harea]
  have hstart : (layout .base 1100 1).dataAreaStartBlock = 1027 := by
    show 1 + (1 + areaBlocks .base 1) + bitmapBlocks .base 1100 1 = _
    rw [hbits, harea]
  have hdata : (layout .base 1100 1).dataBitmap.maximum = 1 * 4096 := by
    show bitmapBlocks .base 1100 1 * 4096 = _
    rw [hbits]
  exact ⟨⟨by norm_num, by rw [harea]; norm_num, by rw [harea]; norm_num⟩, slots_base 1100 (by norm_num),
    by omega, by omega, by omega⟩

/-- A device of 1100 blocks on which a file has been made and the root directory cleared. -/
theorem blocks_owned_small : ∃ efs m hs,
    FsRun .base 1100 1 ⟨1100, fun _ => Blk.zero 512⟩ (fun efs blk call => FileCall call ∧ InodeFits efs blk call) efs m hs ∧
      hs.length = 2 ∧ BlocksOwned efs 1100 m.w.dev.data := by
  obtain ⟨ha, hslots, hr⟩ := small_geometry
  have hmax : (layout .base 1100 1).inodeBitmap.maximum = 4096 := rfl
  obtain ⟨m, s, hs, hrun, hlen, -⟩ := fill_run (G := fun efs blk call => FileCall call ∧ InodeFits efs blk call)
    ⟨1100, fun _ => Blk.zero 512⟩ ha (by norm_num) rfl (by omega) hr (fun _ => ⟨trivial, trivial⟩)
    (fun _ => ⟨trivial, fun i hi => by have := hi.lt; omega⟩) (fun _ => ⟨trivial, trivial⟩) 1 (by omega) (by omega) (by omega)
  exact ⟨_, m, hs, hrun, hlen, blocks_owned (show 1 + 1025 * 1 < 1100 by norm_num) (by norm_num) rfl hrun⟩

/-! ## The inode number that does not fit -/

/-- The 2^32-th file is given inode 0 again: the block of the root directory stays marked and
    no inode has it. -/
theorem Bare.wrap {efs : EasyFileSystem} {dev : BlockDevice Block} {m : Cached Block} {s : Store Block} {b : Nat}
    (h : Bare efs dev m s (2 ^ 32) [b]) (hr : Roomy efs dev.size) (hm : 2 ^ 32 < efs.inodeBitmap.maximum) :
    ∃ r m', runCached ((Call.create (efs.handle 0) "f").exec efs) m = .ok (r, m') ∧
      ¬ BlocksOwned efs dev.size m'.w.dev.data := by
  have hg := h.full.geo
  have hn : NextInode efs s.blk (2 ^ 32) := h.next hm
  have hu : asU32 (2 ^ 32) = 0 := by decide
  have hs : asU32 (2 ^ 32) < efs.slots := by
    rw [hu]
    exact Nat.lt_of_lt_of_le h.pos h.full.slots
  have hmem : b ∈ efs.treeAt s.blk 0 := by simp [h.root]
  have hbin : efs.InData b := h.full.inData 0 h.pos b hmem
  have hw : Wf efs (newInode efs s.blk (2 ^ 32)) (2 ^ 32) := h.full.toWf.newInode hm hs h.full.slots fun _ hid _ => hid
  have hself := inodeAt_newInode_self s.blk hg hm
  rw [hu] at hself
  have hz : (efs.inodeAt (newInode efs s.blk (2 ^ 32)) 0).size = 0 := by rw [hself]; rfl
  have hbit : ∀ c, efs.InData c → efs.dataBit (newInode efs s.blk (2 ^ 32)) c = efs.dataBit s.blk c := fun c hc =>
    Bitmap.bit_congr (by have := hc.le; have := hc.lt; omega) fun _ h1 _ => newInode_data hg hm hs (.inr h1)
  have hused : ∀ c, efs.InData c → efs.dataBit (newInode efs s.blk (2 ^ 32)) c = true → c = b := by
    intro c hc ht
    rw [hbit c hc] at ht
    obtain ⟨id, hid, hmem⟩ := h.full.used c hc ht
    by_cases e : id = 0
    · rw [e, h.root] at hmem
      exact List.mem_singleton.mp hmem
    · rw [h.tree_of_ne hid e] at hmem
      cases hmem
  obtain ⟨c, hc, hcd⟩ := nextData_of_used hr hused
  obtain ⟨d', blkg, blk₁, hrun, -, hgw⟩ := create_returns h.here.idle hn (hg.inodeBlock_lt_area hs) hw h.pos hz hc
    (by rw [h.here.size]; exact hcd) (show (strBytes "f").length ≤ 28 by decide)
  obtain ⟨m', hm', hat⟩ := h.here.returns (.create (efs.handle 0) "f") (r := .inode (efs.handle (asU32 (2 ^ 32))))
    ((run_bind_of hrun).trans rfl)
  refine ⟨_, m', hm', fun hown => ?_⟩
  rw [hat.dev_eq, Store.withBlk_blk] at hown
  have hst := hgw.step
  have hnil : tree (efs.inodeAt (newInode efs s.blk (2 ^ 32)) 0) (newInode efs s.blk (2 ^ 32)) = [] :=
    tree_of_size_zero hz _
  have hmark : efs.dataBit s.blk b = true := h.full.marked 0 h.pos b hmem
  -- the block is still marked, and it is in no tree
  have hnew : b ∉ tree d' blk₁ := by
    intro hin
    rcases hst.fresh b hin with h1 | ⟨-, -, h1⟩
    · rw [hnil] at h1
      cases h1
    · rw [hbit b hbin, hmark] at h1
      cases h1
  have hset : efs.dataBit (storeInode efs (newInode efs s.blk (2 ^ 32)) blk₁ 0 d') b = true := by
    rw [dataBit_storeInode hg (Nat.lt_of_lt_of_le h.pos h.full.slots) hbin, hst.bits b hbin, hbit b hbin, hnil]
    exact .inr ⟨hmark, by simp⟩
  have hle := hbin.le
  have hlt := hbin.lt
  obtain ⟨id, σ, hall, href⟩ := (hown.marked (b - efs.dataAreaStartBlock) (by omega)).mp hset
  have hin := refersTo_iff.mp ⟨σ, href⟩
  rw [Nat.add_sub_cancel' hle] at hin
  have hid := hall.u32
  by_cases e : id = 0
  · subst e
    rw [hst.treeAt_self hw h.pos] at hin
    exact hnew hin
  · have hothers := (hst.inodeStep hw h.pos).others id (Nat.lt_of_lt_of_le hid h.full.slots) e
    rw [inodeAt_newInode_of_ne hg hm (by rw [hu]; exact e)] at hothers
    have : efs.treeAt (storeInode efs (newInode efs s.blk (2 ^ 32)) blk₁ 0 d') id = [] :=
      tree_of_size_zero (by rw [hothers]; exact h.empty id hid e) _
    rw [this] at hin
    cases hin

/-- With 2^20 + 1 inode bitmap blocks there are more inodes than a u32 can number. -/
theorem blocks_not_owned : ∃ efs m hs,
    FsRun .base (2 ^ 31) (2 ^ 20 + 1) ⟨2 ^ 31, fun _ => Blk.zero 512⟩ (fun _ _ call => FileCall call) efs m hs ∧
      ¬ BlocksOwned efs (2 ^ 31) m.w.dev.data := by
  have harea : areaBlocks .base (2 ^ 20 + 1) = 1024 * (2 ^ 20 + 1) := areaBlocks_base (by norm_num)
  have ha : Accepts .base (2 ^ 31) (2 ^ 20 + 1) := ⟨by norm_num, by rw [harea]; norm_num, by rw [harea]; norm_num⟩
  have hslots := slots_base (2 ^ 31) (show 1025 * (2 ^ 20 + 1) < 2 ^ 32 by norm_num)
  have hmax : (layout .base (2 ^ 31) (2 ^ 20 + 1)).inodeBitmap.maximum = (2 ^ 20 + 1) * 4096 := rfl
  have hr : Roomy (layout .base (2 ^ 31) (2 ^ 20 + 1)) (2 ^ 31) := by
    have hbits : bitmapBlocks .base (2 ^ 31) (2 ^ 20 + 1) = 261824 := by
      rw [bitmapBlocks, harea]
      norm_num
    have hstart : (layout .base (2 ^ 31) (2 ^ 20 + 1)).dataAreaStartBlock = 1075053250 := by
      show 1 + (2 ^ 20 + 1 + areaBlocks .base (2 ^ 20 + 1)) + bitmapBlocks .base (2 ^ 31) (2 ^ 20 + 1) = _
      rw [hbits, harea]
      norm_num
    have hdata : (layout .base (2 ^ 31) (2 ^ 20 + 1)).dataBitmap.maximum = 261824 * 4096 := by
      show bitmapBlocks .base (2 ^ 31) (2 ^ 20 + 1) * 4096 = _
      rw [hbits]
    exact ⟨by omega, by omega, by omega⟩
  obtain ⟨m, s, hs, hrun, -, hmem, hb, hz⟩ := fill_run (G := fun _ _ call => FileCall call)
    ⟨2 ^ 31, fun _ => Blk.zero 512⟩ ha (by norm_num) rfl (by omega) hr (fun _ => trivial) (fun _ => trivial)
    (fun _ => trivial) (2 ^ 32 - 2) (by omega) (by omega) (by omega)
  obtain ⟨m₁, s₁, b, hc, hb₁⟩ := hb.create hr (by omega) (by omega) (by omega) hz "f" (by decide)
  obtain ⟨r, m₂, hw, hnot⟩ := Bare.wrap hb₁ hr (by omega)
  have hrun₁ := hrun.step (by simpa [Call.self?] using hmem) (by trivial) hc
  exact ⟨_, m₂, _, hrun₁.step (by simpa [Call.self?] using .inr hmem) (by trivial) hw, hnot⟩

end TgRcore.EasyFs
