/-
  TgRcore.EasyFs.Durability — what is on the device between two calls of chapter 6's
  easy-fs (`open` of `efs.rs`).

  Every call ends with a write-back, so between calls no cached block is dirty. `open` on
  the device with an empty cache then gives the running file system back, as long as the
  super block is still there. No check on inode numbers protects it: past the last slot
  of the inode area an inode lies in the data bitmap, and its pointers are bits.
  - `clean_run`: nothing is dirty between two calls, whatever the calls are.
  - `Intact`: the inodes of all slots are in order and block 0 is the super block.
    `Intact.call`: a call that keeps to inodes of the area keeps that.
  - `durable`: in runs of such calls the device alone determines the file system.
  - `super_block_lost`: a run in which inode 3168 is made and written to, after which
    `open` fails.
-/

import TgRcore.EasyFs.Namespace

namespace TgRcore.EasyFs

open TgRcore.Bytes TgRcore.BlockProg TgRcore.BlockProg.Prog

/-! ## The property -/

/-- Nothing is dirty; `open` on the device with an empty cache succeeds, with the same
    file system; and no program can tell the two machines apart by what it returns. -/
structure Durable (c : Crate) (efs : EasyFileSystem) (m : Cached Block) : Prop where
  clean : Clean m.w
  opens : ∃ m', runCached (EasyFileSystem.openFs c) (boot m.w.dev) = .ok (efs, m') ∧
    ∀ (α : Type) (p : Fs α) (a : α), (∃ m₁, runCached p m = .ok (a, m₁)) ↔ ∃ m₂, runCached p m' = .ok (a, m₂)

/-- Two machines that stand for one store. -/
theorem Sim.same {m m' : Cached Block} {s : Store Block} (h : Sim m s) (h' : Sim m' s) {α : Type} (p : Fs α) (a : α) :
    (∃ m₁, runCached p m = .ok (a, m₁)) ↔ ∃ m₂, runCached p m' = .ok (a, m₂) := by
  constructor
  · intro hr
    obtain ⟨m₁, hr⟩ := hr
    obtain ⟨s', hrun, -⟩ := runCached_ok h hr
    obtain ⟨m₂, hr', -⟩ := runCached_of_run h' hrun
    exact ⟨m₂, hr'⟩
  · intro hr
    obtain ⟨m₂, hr⟩ := hr
    obtain ⟨s', hrun, -⟩ := runCached_ok h' hr
    obtain ⟨m₁, hr', -⟩ := runCached_of_run h hrun
    exact ⟨m₁, hr'⟩

/-- Between calls the device is all there is. -/
theorem Quiet.flat_eq {m : Cached Block} {s : Store Block} (h : Quiet m s) : flat m.w.dev = s := by
  have h1 := h.sim.size
  have h2 := h.sim.cap
  have h3 := h.dev_eq
  have h4 := h.held
  have h5 := h.busy
  cases s
  simp only at h1 h2 h3 h4 h5
  rw [flat, ← h1, h2, h3, h4, h5]

/-- Whatever the calls are: nothing is dirty between two of them. -/
theorem clean_run {c : Crate} {total ibb : Nat} {dev : BlockDevice Block} {G : EasyFileSystem → (Nat → Block) → Call → Prop}
    {efs : EasyFileSystem} {m : Cached Block} {hs : List Inode} (h : FsRun c total ibb dev G efs m hs) :
    Clean m.w ∧ ∃ s, Sim m s := by
  induction h with
  | start h0 =>
    have hq := quiet_boot dev
    obtain ⟨s, -, hsim⟩ := runCached_ok hq.sim h0
    exact ⟨runCached_clean (format_settles c total ibb) hq.sim (fun _ => hq.clean) h0 rfl, s, hsim⟩
  | step _ _ _ hr ih =>
    obtain ⟨hclean, s, hsim⟩ := ih
    obtain ⟨s', -, hsim'⟩ := runCached_ok hsim hr
    exact ⟨runCached_clean (exec_settles _ _) hsim (fun _ => hclean) hr rfl, s', hsim'⟩

/-! ## The super block -/

/-- All inodes of the inode area are in order, and block 0 is `sb`. -/
structure Intact (efs : EasyFileSystem) (sb : Block) (blk : Nat → Block) : Prop extends Wf efs blk efs.slots where
  crate : efs.crate = .ch6
  super : blk 0 = sb

/-- The handle is that of an inode of the inode area. -/
def InArea (efs : EasyFileSystem) (i : Inode) : Prop := ∃ id < efs.slots, i = efs.handle id

/-- The entry that a search for `name` in directory `i` comes to is that of an inode of the
    inode area. -/
def FindsInArea (efs : EasyFileSystem) (blk : Nat → Block) (i : Inode) (name : String) : Prop :=
  ∀ j, FirstNamed (contentAt efs blk i) name j → (entryAt (contentAt efs blk i) j).inodeNumber < efs.slots

/-- All inodes that the call writes to are inodes of the inode area. -/
def UsesArea (efs : EasyFileSystem) (blk : Nat → Block) : Call → Prop
  | .root => True
  | .find _ _ => True
  | .readAt _ _ _ => True
  | .create i _ => InArea efs i ∧ ∀ id, NextInode efs blk id → asU32 id < efs.slots
  | .link i old _ => InArea efs i ∧ FindsInArea efs blk i old
  | .unlink i name => InArea efs i ∧ FindsInArea efs blk i name
  | .writeAt i _ _ => InArea efs i
  | .clear i => InArea efs i

section Steps

variable {efs : EasyFileSystem} {sb : Block} {blk blk₁ : Nat → Block} {s s' : Store Block} {id old : Nat} {d : DiskInode}
  {name new : String}

theorem Intact.store (h : Intact efs sb blk) (hid : id < efs.slots) (hs : TreeStep efs (efs.inodeAt blk id) blk d blk₁) :
    Intact efs sb (storeInode efs blk blk₁ id d) := by
  have hpos : 0 < efs.inodeAreaStartBlock := by
    rw [h.geo.inodeArea]
    omega
  exact ⟨h.toWf.step hid hs, h.crate, ((hs.inodeStep h.toWf hid).low 0 hpos).trans h.super⟩

theorem Intact.setLink (h : Intact efs sb blk) (hid : id < efs.slots) {n : Nat} (hn : n < 2 ^ 32) :
    Intact efs sb (setLink efs blk id n) :=
  h.store hid (.setLink (h.toWf.treeOk hid) hn h.crate)

theorem Intact.newInode (h : Intact efs sb blk) {i : Nat} (hi : i < efs.inodeBitmap.maximum) (hs : asU32 i < efs.slots) :
    Intact efs sb (newInode efs blk i) :=
  ⟨h.toWf.newInode hi hs (Nat.le_refl _) fun _ hid _ => hid, h.crate, (newInode_data h.geo hi hs (.inl rfl)).trans h.super⟩

theorem Intact.create (h : Intact efs sb s.blk) (hi : Idle efs s) (hid : id < efs.slots)
    (hnext : ∀ i, NextInode efs s.blk i → asU32 i < efs.slots) {ino : Inode}
    (hr : (Inode.create efs (efs.handle id) name).run s = .ok (ino, s')) :
    ∃ blk', s' = s.withBlk blk' ∧ Intact efs sb blk' := by
  obtain ⟨i, hn, -, -, d', blkg, blk₁, rfl, hgw⟩ :=
    create_step hi efs.slots (fun i hn => ⟨hnext i hn, (h.newInode hn.lt (hnext i hn)).toWf⟩) hid hr
  exact ⟨_, rfl, (h.newInode hn.lt (hnext i hn)).store hid hgw.step⟩

theorem Intact.writeAt (h : Intact efs sb s.blk) (hi : Idle efs s) (hid : id < efs.slots) {off n : Nat} {buf : List UInt8}
    (hr : (Inode.writeAt efs (efs.handle id) off buf).run s = .ok (n, s')) :
    ∃ blk', s' = s.withBlk blk' ∧ Intact efs sb blk' := by
  obtain ⟨d', blkg, blk₁, rfl, -, hgw⟩ := writeAt_step hi h.toWf hid hr
  exact ⟨_, rfl, h.store hid hgw.step⟩

theorem Intact.clear (h : Intact efs sb s.blk) (hi : Idle efs s) (hid : id < efs.slots) {u : Unit}
    (hr : (Inode.clear efs (efs.handle id)).run s = .ok (u, s')) :
    ∃ blk', s' = s.withBlk blk' ∧ Intact efs sb blk' := by
  obtain ⟨d', blk₁, rfl, hc⟩ := clear_step hi h.toWf hid hr
  exact ⟨_, rfl, h.store hid hc.treeStep⟩

/-- What a search in a directory of the inode area found. -/
theorem Wf.findInodeId (h : Wf efs s.blk efs.slots) (hl : Locked efs s) (hid : id < efs.slots)
    (hfind : (Inode.findInodeId name (efs.inodeAt s.blk id)).run (s.pin (efs.inodeBlock id)) = .ok (some old, s')) :
    ∃ j, FirstNamed (contentAt efs s.blk (efs.handle id)) name j ∧
      (entryAt (contentAt efs s.blk (efs.handle id)) j).inodeNumber = old := by
  -- the directory's blocks need not be on the device
  have hbig : s.size ≤ max s.size (2 ^ 32) := Nat.le_max_left _ _
  have ho := (hl.open_inode hid).grow hbig
  exact findInodeId_ok (s := s.pin (efs.inodeBlock id)) (h.small id hid) hbig (fun b hb => ho.dataFree (h.inData id hid b hb)
    (Nat.lt_of_lt_of_le (h.u32 id hid b hb) (Nat.le_max_right _ _))) hfind

theorem Wf.find (h : Wf efs s.blk efs.slots) (hi : Idle efs s) (hid : id < efs.slots)
    (hin : FindsInArea efs s.blk (efs.handle id) name) {ino : Inode}
    (hr : (Inode.find efs (efs.handle id) name).run s = .ok (some ino, s')) : InArea efs ino := by
  obtain ⟨s₁, h1, -⟩ := withMutex_ok hr
  obtain ⟨-, s₂, h2, -⟩ := readDiskInode_ok h1
  obtain ⟨o, s₃, h3, h2⟩ := run_bind_ok.mp h2
  cases o with
  | none => cases h2
  | some old =>
    obtain ⟨ino', s₄, h4, h2⟩ := run_bind_ok.mp h2
    cases inode_ok h4
    cases h2
    obtain ⟨j, hfirst, hold⟩ := h.findInodeId (s := { s with busy := true }) hi.lock hid h3
    exact ⟨old, by rw [← hold]; exact hin j hfirst, rfl⟩

theorem Intact.link (h : Intact efs sb s.blk) (hi : Idle efs s) (hid : id < efs.slots)
    (hin : FindsInArea efs s.blk (efs.handle id) name) {r : Bool}
    (hr : (Inode.link efs (efs.handle id) name new).run s = .ok (r, s')) :
    ∃ blk', s' = s.withBlk blk' ∧ Intact efs sb blk' := by
  obtain ⟨o, s₁, hfind, ⟨-, -, rfl⟩ | ⟨old, n, d', blkg, blk₁, rfl, -, -, rfl, -, hn, hgw⟩⟩ := link_step hi h.toWf hid hr
  · exact ⟨_, rfl, h⟩
  · obtain ⟨j, hfirst, hold⟩ := h.toWf.findInodeId (s := { s with busy := true }) hi.lock hid hfind
    have hlt : old < efs.slots := by
      rw [← hold]
      exact hin j hfirst
    exact ⟨_, rfl, (h.store hid hgw.step).setLink hlt hn⟩

theorem Intact.decLink (h : Intact efs sb s.blk) (hid : id < efs.slots) {n : Nat}
    (hr : (Inode.modifyDiskInode efs (efs.handle id) fun d => do
      assert (d.linkNum > 0)
      return (d.linkNum - 1, { d with linkNum := d.linkNum - 1 })).run s = .ok (n, s')) :
    ∃ blk', s' = s.withBlk blk' ∧ Intact efs sb blk' := by
  obtain ⟨-, d', s₁, h1, hs'⟩ := modifyDiskInode_ok efs id hr
  obtain ⟨-, h1⟩ := run_assert_bind_ok.mp h1
  cases h1
  have hfits := (h.toWf.treeOk hid).fits.linkNum
  exact ⟨_, hs' _ rfl, h.setLink hid (by omega)⟩

theorem Intact.eraseEntry (h : Intact efs sb s.blk) (hid : id < efs.slots) {u : Unit}
    (hr : (Inode.modifyDiskInode efs (efs.handle id) (eraseEntry name)).run s = .ok (u, s')) :
    ∃ blk', s' = s.withBlk blk' ∧ Intact efs sb blk' := by
  obtain ⟨-, d', s₁, h1, hs'⟩ := modifyDiskInode_ok efs id hr
  obtain ⟨found, s₂, h2, h1⟩ := run_bind_ok.mp h1
  obtain rfl := (readOnly_findLoop _ _ _ _).run_eq h2
  obtain ⟨q, s₃, h3, h1⟩ := run_bind_ok.mp h1
  obtain rfl := (readOnly_unwrap found).run_eq h3
  obtain ⟨w, s₄, h4, h1⟩ := run_bind_ok.mp h1
  cases h1
  have ht := h.toWf.treeOk hid
  obtain ⟨-, -, ⟨blk₁, rfl, hwr⟩, -⟩ := writeAt_ok (s := s.pin (efs.inodeBlock id)) ht.small ht.nodup h4
  exact ⟨_, hs' _ rfl, h.store hid (hwr.treeStep ht h.geo)⟩

theorem Intact.unlink (h : Intact efs sb s.blk) (hi : Idle efs s) (hid : id < efs.slots)
    (hin : FindsInArea efs s.blk (efs.handle id) name) {r : Bool}
    (hr : (Inode.unlink efs (efs.handle id) name).run s = .ok (r, s')) :
    ∃ blk', s' = s.withBlk blk' ∧ Intact efs sb blk' := by
  obtain ⟨o, s₁, h1, hr⟩ := run_bind_ok.mp hr
  obtain rfl := (readOnly_find (efs.handle id) name).run_eq h1
  cases o with
  | none =>
    cases hr
    exact ⟨_, rfl, h⟩
  | some ino =>
    obtain ⟨old, hlt, rfl⟩ := h.toWf.find hi hid hin h1
    obtain ⟨n, s₂, h2, hr⟩ := run_bind_ok.mp hr
    obtain ⟨blk₁, rfl, hi₁⟩ := h.decLink hlt h2
    obtain ⟨u, s₃, h3, hr⟩ := run_bind_ok.mp hr
    obtain ⟨blk₂, rfl, hi₂⟩ := Intact.eraseEntry (s := s₁.withBlk blk₁) hi₁ hid h3
    dsimp only at hr
    split at hr
    · obtain ⟨u', s₄, h4, hr⟩ := run_bind_ok.mp hr
      obtain ⟨blk₃, rfl, hi₃⟩ := Intact.clear (s := s₁.withBlk blk₂) hi₂ (hi.withBlk _) hlt h4
      obtain ⟨u'', s₅, h5, hr⟩ := run_bind_ok.mp hr
      cases sync_ok h5
      cases hr
      exact ⟨blk₃, rfl, hi₃⟩
    · obtain ⟨u', s₄, h4, hr⟩ := run_bind_ok.mp hr
      cases sync_ok h4
      cases hr
      exact ⟨blk₂, rfl, hi₂⟩

end Steps

/-! ## Runs -/

section Runs

variable {total ibb : Nat} {dev : BlockDevice Block} {efs : EasyFileSystem} {m m' : Cached Block} {hs : List Inode}
  {sb : Block} {s : Store Block}

/-- A call that keeps to inodes of the area. -/
theorem Intact.call (h : Intact efs sb s.blk) (hat : At efs dev m s) {call : Call} {r : Ret}
    (hc : UsesArea efs s.blk call) (hr : runCached (call.exec efs) m = .ok (r, m')) :
    ∃ s', At efs dev m' s' ∧ Intact efs sb s'.blk := by
  obtain ⟨s', h1, h2⟩ := hat.call hr
  have hi := hat.idle
  -- a call with an effect
  have key : (∃ blk', s' = s.withBlk blk' ∧ Intact efs sb blk') → ∃ s', At efs dev m' s' ∧ Intact efs sb s'.blk := by
    intro hex
    obtain ⟨blk', e, hin⟩ := hex
    refine ⟨s', h2 _ e, ?_⟩
    rw [e]
    exact hin
  apply key
  cases call with
  | root =>
    obtain ⟨x, s₁, h3, h1⟩ := run_bind_ok.mp h1
    cases h1
    obtain rfl := (ReadOnly.withMutex (readOnly_inode 0)).run_eq h3
    exact ⟨_, rfl, h⟩
  | find i name =>
    obtain ⟨x, s₁, h3, h1⟩ := run_bind_ok.mp h1
    cases h1
    obtain rfl := (readOnly_find i name).run_eq h3
    exact ⟨_, rfl, h⟩
  | readAt i off buf =>
    obtain ⟨x, s₁, h3, h1⟩ := run_bind_ok.mp h1
    cases h1
    obtain rfl := (readOnly_inodeReadAt i off buf).run_eq h3
    exact ⟨_, rfl, h⟩
  | create i name =>
    obtain ⟨x, s₁, h3, h1⟩ := run_bind_ok.mp h1
    cases h1
    obtain ⟨⟨id, hid, rfl⟩, hnext⟩ := hc
    exact h.create hi hid hnext h3
  | link i old new =>
    obtain ⟨x, s₁, h3, h1⟩ := run_bind_ok.mp h1
    cases h1
    obtain ⟨⟨id, hid, rfl⟩, hin⟩ := hc
    exact h.link hi hid hin h3
  | unlink i name =>
    obtain ⟨x, s₁, h3, h1⟩ := run_bind_ok.mp h1
    cases h1
    obtain ⟨⟨id, hid, rfl⟩, hin⟩ := hc
    exact h.unlink hi hid hin h3
  | writeAt i off buf =>
    obtain ⟨x, s₁, h3, h1⟩ := run_bind_ok.mp h1
    cases h1
    obtain ⟨id, hid, rfl⟩ := hc
    exact h.writeAt hi hid h3
  | clear i =>
    obtain ⟨x, s₁, h3, h1⟩ := run_bind_ok.mp h1
    cases h1
    obtain ⟨id, hid, rfl⟩ := hc
    exact h.clear hi hid h3

theorem intact_formatted (ha : Accepts .ch6 total ibb) (hi : 0 < ibb) (blk : Nat → Block) :
    Intact (layout .ch6 total ibb) (SuperBlock.store (Blk.zero 512) (superBlock .ch6 total ibb))
      (formatted .ch6 total ibb blk) :=
  ⟨formatted_wf blk ha hi, rfl, formatted_super hi⟩

theorem intact_run (ht : total < 2 ^ 32) (h : FsRun .ch6 total ibb dev UsesArea efs m hs) :
    Accepts .ch6 total ibb ∧ efs = layout .ch6 total ibb ∧
      ∃ s, At efs dev m s ∧ Intact efs (SuperBlock.store (Blk.zero 512) (superBlock .ch6 total ibb)) s.blk := by
  induction h with
  | start h0 =>
    obtain ⟨ha, hi, -, -, rfl, hat⟩ := At.start ht h0
    exact ⟨ha, rfl, _, hat, intact_formatted ha hi _⟩
  | step _ _ hg hr ih =>
    obtain ⟨ha, rfl, s, hat, hin⟩ := ih
    rw [hat.dev_eq] at hg
    exact ⟨ha, rfl, hin.call hat hg hr⟩

theorem Intact.reopens (ha : Accepts .ch6 total ibb) (hat : At (layout .ch6 total ibb) dev m s)
    (h : Intact (layout .ch6 total ibb) (SuperBlock.store (Blk.zero 512) (superBlock .ch6 total ibb)) s.blk) :
    Durable .ch6 (layout .ch6 total ibb) m := by
  have hflat := hat.quiet.flat_eq
  have hfree : (flat m.w.dev).Free 0 := by
    have h1 := hat.idle.device
    have h2 := hat.idle.geo.dataArea
    have h3 := hat.idle.geo.dataBitmap
    have h4 := hat.idle.geo.inodeArea
    exact ⟨by simp [flat], by simp [flat, blockCacheSize], by rw [hflat]; omega⟩
  have hopen := openFs_run ha hfree (by rw [hflat]; exact h.super)
  obtain ⟨m', hrun, hsim⟩ := runCached_of_run (quiet_boot m.w.dev).sim hopen
  rw [hflat] at hsim
  exact ⟨hat.quiet.clean, m', hrun, fun α p a => hat.quiet.sim.same hsim p a⟩

/-- Between any two calls of a run that keeps to inodes of the area, the device alone
    determines the file system. -/
theorem durable (ht : total < 2 ^ 32) (h : FsRun .ch6 total ibb dev UsesArea efs m hs) : Durable .ch6 efs m := by
  obtain ⟨ha, rfl, s, hat, hin⟩ := intact_run ht h
  exact hin.reopens ha hat

/-- The small device with a file. -/
theorem durable_small : ∃ m hs, FsRun .ch6 1200 1 ⟨1200, fun _ => Blk.zero 512⟩ UsesArea (layout .ch6 1200 1) m hs ∧
    hs.length = 2 ∧ Durable .ch6 (layout .ch6 1200 1) m := by
  have hslots := small_names.2.1
  obtain ⟨m, hs, s, hrun, hlen, -, -, -⟩ := first_file (G := UsesArea) (fun _ => trivial) fun blk _ hnext =>
    ⟨⟨0, by rw [hslots]; norm_num, rfl⟩, fun id hid => by
      rw [hslots]
      exact Nat.lt_of_le_of_lt (Nat.mod_le _ _) (hnext id hid)⟩
  exact ⟨m, hs, hrun, hlen, durable (by norm_num) hrun⟩

end Runs

/-! ## Past the last slot -/

/-- The calls that change the disk, and the one that gives the first handle. -/
def Mutates : Call → Prop
  | .root => True
  | .create _ _ => True
  | .link _ _ _ => True
  | .unlink _ _ => True
  | .writeAt _ _ _ => True
  | .clear _ => True
  | .find _ _ => False
  | .readAt _ _ _ => False

section Lost

variable {efs : EasyFileSystem} {blk : Nat → Block} {s : Store Block} {id : Nat}

/-- The first word of the data bitmap, read as the inode that lies on it. -/
theorem bitmapWord_eq_inode (hb : efs.inodeBlock id = efs.dataBitmap.startBlockId) (ho : efs.inodeOff id = 0) :
    bitmapWord (blk efs.dataBitmap.startBlockId) 0 =
      (efs.inodeAt blk id).size + 2 ^ 32 * (efs.inodeAt blk id).directAt 0 := by
  unfold EasyFileSystem.inodeAt
  rw [hb, ho]
  exact le_add (fun k => (blk efs.dataBitmap.startBlockId).byte (0 + k)) 4 4

theorem bit_eq_testBit {j : Nat} (hj : j < 64) :
    efs.dataBitmap.bit blk j = (bitmapWord (blk efs.dataBitmap.startBlockId) 0).testBit j := by
  have h1 : j / 4096 = 0 := by omega
  have h2 : j % 4096 = j := by omega
  have h3 : j / 64 = 0 := by omega
  have h4 : j % 64 = j := by omega
  rw [Bitmap.bit, h1, h2, Nat.zero_add, blockBit, h3, h4]

theorem bits_of_empty (hb : efs.inodeBlock id = efs.dataBitmap.startBlockId) (ho : efs.inodeOff id = 0)
    (hsize : (efs.inodeAt blk id).size = 0) (hdir : (efs.inodeAt blk id).directAt 0 = 0) {j : Nat} (hj : j < 64) :
    efs.dataBitmap.bit blk j = false := by
  rw [bit_eq_testBit hj, bitmapWord_eq_inode hb ho, hsize, hdir]
  exact Nat.zero_testBit j

/-- With the first data block allocated, the inode has one byte, in block 0. -/
theorem inode_of_bits (hb : efs.inodeBlock id = efs.dataBitmap.startBlockId) (ho : efs.inodeOff id = 0)
    (hbits : ∀ j < 64, efs.dataBitmap.bit blk j = decide (j = 0)) :
    (efs.inodeAt blk id).size = 1 ∧ (efs.inodeAt blk id).directAt 0 = 0 := by
  have hword : bitmapWord (blk efs.dataBitmap.startBlockId) 0 = 1 := by
    refine Nat.eq_of_testBit_eq fun j => ?_
    by_cases hj : j < 64
    · rw [← bit_eq_testBit hj, hbits j hj, Bool.eq_iff_iff, decide_eq_true_eq, Nat.testBit_one_eq_true_iff_self_eq_zero]
    · have hpow : 2 ^ 64 ≤ 2 ^ j := Nat.pow_le_pow_right (by decide) (by omega)
      have hlt : bitmapWord (blk efs.dataBitmap.startBlockId) 0 < 2 ^ 64 := by
        have := Blk.word_lt 8 (blk efs.dataBitmap.startBlockId) (8 * 0)
        norm_num at this ⊢
        exact this
      rw [Nat.testBit_lt_two_pow (by omega), Nat.testBit_lt_two_pow (show 1 < 2 ^ j by omega)]
  rw [bitmapWord_eq_inode hb ho] at hword
  omega

/-- Writing a zero byte into an inode with one byte, in block 0. -/
theorem writeAt_super (hi : Idle efs s) (hb : efs.inodeBlock id < efs.dataAreaStartBlock) (hne : efs.inodeBlock id ≠ 0)
    (hsize : (efs.inodeAt s.blk id).size = 1) (hdir : (efs.inodeAt s.blk id).directAt 0 = 0) :
    ∃ n blk', (Inode.writeAt efs (efs.handle id) 0 [0]).run s = .ok (n, s.withBlk blk') ∧ (blk' 0).byte 0 = 0 := by
  have hlk := hi.lock
  generalize hd : efs.inodeAt s.blk id = d at hsize hdir
  have hblocks : d.dataBlocks = 1 := by
    unfold DiskInode.dataBlocks
    rw [hsize]
    rfl
  have hone : ({ d with size := 1 } : DiskInode) = d := by rw [← hsize]
  -- the inode is not made longer
  have hinc : Inode.increaseSize efs 1 d = ret d := by
    have hfill : d.fillDirect 1 (min 1 28) [] = ret (d, 1, []) := by
      rw [DiskInode.fillDirect, if_neg (by decide)]
    rw [Inode.increaseSize, if_neg (by omega), DiskInode.blocksNumNeeded, assert_true (by omega), ret_bind, pure_eq_ret,
      ret_bind, hsize, Nat.sub_self, EasyFileSystem.allocBlocks, ret_bind, DiskInode.increaseSize, hone, hblocks, hfill,
      ret_bind]
    rfl
  have htree : tree d s.blk = [0] := by
    have hptr : ptr d s.blk (.data 0) = d.directAt 0 := rfl
    have hslots : slotsOf 1 = [.data 0] := rfl
    rw [tree, hblocks, hslots, List.map_singleton, hptr, hdir]
  have hsmall : d.dataBlocks ≤ 16540 := by omega
  have hnodup : (tree d s.blk).Nodup := by rw [htree]; exact List.nodup_singleton 0
  have hfree : ∀ b ∈ tree d s.blk, (({ s with busy := true } : Store Block).pin (efs.inodeBlock id)).Free b := by
    intro b hb'
    rw [htree, List.mem_singleton] at hb'
    rw [hb']
    refine ⟨?_, ?_, Nat.lt_of_lt_of_le (Nat.zero_lt_of_lt hb) hi.device⟩
    · rw [Store.pin_held, hlk.held, List.mem_singleton]
      exact hne.symm
    · rw [Store.pin_held, Store.pin_cap, hlk.held, hlk.cap, List.length_singleton]
      decide
  obtain ⟨⟨n, s₁⟩, hw⟩ := writeAt_returns (s := ({ s with busy := true } : Store Block).pin (efs.inodeBlock id)) (d := d) 0 [0]
    hsmall hnodup hfree (by simp) (by rw [hsize]; simp)
  obtain ⟨-, -, ⟨blk', rfl, hwr⟩, -⟩ :=
    writeAt_ok (s := ({ s with busy := true } : Store Block).pin (efs.inodeBlock id)) (d := d) hsmall hnodup hw
  have hbody : (Inode.modifyDiskInode efs (efs.handle id) fun d => do
      assert (0 + [(0 : UInt8)].length < 2 ^ 64)
      let d ← Inode.increaseSize efs (asU32 (0 + [(0 : UInt8)].length)) d
      let size ← d.writeAt 0 [0]
      return (size, d)).run { s with busy := true } = .ok (n, ({ s with busy := true } : Store Block).withBlk
        (storeInode efs s.blk blk' id d)) := by
    refine modifyDiskInode_run efs id (hlk.lowFree hb) ?_
    have hu : asU32 (0 + [(0 : UInt8)].length) = 1 := rfl
    rw [hd, assert_true (by simp), ret_bind, hu, hinc, ret_bind]
    exact (run_bind_of hw).trans rfl
  refine ⟨n, storeInode efs s.blk blk' id d, run_withMutex hi.busy ?_, ?_⟩
  · refine (run_bind_of hbody).trans ((run_bind_of (run_sync ?_)).trans rfl)
    exact hi.held
  · have hpart : writtenPart d 0 [0] = [0] := by rw [writtenPart, hsize]; rfl
    have hbyte := hwr.bytes 0 (by omega)
    rw [hpart, if_pos (by simp)] at hbyte
    rw [storeInode_of_ne hne.symm]
    have hptr : ptr d blk' (.data (0 / 512)) = d.directAt 0 := rfl
    rwa [fileByte, hptr, hdir] at hbyte

/-- `open` fails when the magic number is gone. -/
theorem not_durable {c : Crate} {m : Cached Block} (h : (m.w.dev.data 0).byte 0 = 0) : ¬ Durable c efs m := by
  intro hd
  obtain ⟨m', hrun, -⟩ := hd.opens
  obtain ⟨s', hr, -⟩ := runCached_ok (quiet_boot m.w.dev).sim hrun
  obtain ⟨-, s₁, h1, -⟩ := run_readBlock_ok.mp hr
  obtain ⟨hvalid, -⟩ := run_assert_bind_ok.mp h1
  have hmagic : (m.w.dev.data 0).word 4 0 = efsMagic := beq_iff_eq.mp hvalid
  have hbyte : leByte ((m.w.dev.data 0).word 4 0) 0 = (m.w.dev.data 0).byte (0 + 0) := leByte_le (by decide)
  rw [hmagic, h] at hbyte
  exact absurd hbyte (by decide)

/-- The next inode lies on the data bitmap, no data block is in use, and the root directory
    is empty. Then the first block of the root directory is bit 0 of the inode, and the
    inode, written to, overwrites the super block. -/
theorem Bare.super_lost {dev : BlockDevice Block} {m : Cached Block} (h : Bare efs dev m s id [])
    (hz : (efs.inodeAt s.blk 0).size = 0) (hm : id < efs.inodeBitmap.maximum) (hu : id < 2 ^ 32)
    (hb : efs.inodeBlock id = efs.dataBitmap.startBlockId) (ho : efs.inodeOff id = 0) (hbits : 64 ≤ efs.dataBitmap.maximum)
    (hroomy : Roomy efs dev.size) :
    ∃ m₁ m₂ r, runCached ((Call.create (efs.handle 0) "f").exec efs) m = .ok (.inode (efs.handle id), m₁) ∧
      runCached ((Call.writeAt (efs.handle id) 0 [0]).exec efs) m₁ = .ok (r, m₂) ∧ (m₂.w.dev.data 0).byte 0 = 0 := by
  have hg := h.full.geo
  have hu' : asU32 id = id := Nat.mod_eq_of_lt hu
  have hslots := h.full.slots
  have hpos := h.pos
  have harea : efs.inodeBlock id < efs.dataAreaStartBlock := by
    have h1 := hg.dataArea
    have h2 : efs.dataBitmap.maximum = efs.dataBitmap.blocks * 4096 := rfl
    omega
  have hne : efs.inodeBlock id ≠ 0 := by
    have h1 := efs.le_inodeBlock id
    have h2 := hg.inodeArea
    omega
  have hnext := h.next hm
  -- the inode that is made, and the root directory
  have hself : efs.inodeAt (newInode efs s.blk id) id = (efs.inodeAt s.blk id).init efs.crate .file := by
    have := inodeAt_newInode_self s.blk hg hm
    rwa [hu'] at this
  have hroot : (efs.inodeAt (newInode efs s.blk id) 0).size = 0 := by
    rw [inodeAt_newInode_of_ne hg hm (by rw [hu']; omega)]
    exact hz
  have hclear : ∀ j < 64, efs.dataBitmap.bit (newInode efs s.blk id) j = false := fun j hj =>
    bits_of_empty hb ho (by rw [hself]; rfl) (by rw [hself]; rfl) hj
  have hw : Wf efs (newInode efs s.blk id) 1 := wf_of_empty hg (by omega) fun i hi => by
    obtain rfl : i = 0 := by omega
    exact hroot
  have hfirst : NextData efs (newInode efs s.blk id) efs.dataAreaStartBlock := by
    refine ⟨⟨Nat.le_refl _, by omega⟩, hg.lt, ?_, fun c hc hlt => ?_⟩
    · rw [EasyFileSystem.dataBit, Nat.sub_self]
      exact hclear 0 (by norm_num)
    · have := hc.le
      omega
  obtain ⟨d', blkg, blk₁, hrun, htree, hgw⟩ := create_returns h.here.idle hnext (by rw [hu']; exact harea) hw
    Nat.one_pos hroot hfirst (by rw [h.here.size]; have := hroomy.size; omega) (show (strBytes "f").length ≤ 28 by decide)
  rw [hu'] at hrun
  obtain ⟨m₁, hm₁, hat⟩ := h.here.returns (.create (efs.handle 0) "f") (r := .inode (efs.handle id))
    ((run_bind_of hrun).trans rfl)
  -- the data bitmap
  have hnil := tree_of_size_zero hroot (newInode efs s.blk id)
  have hset : ∀ j < 64, efs.dataBitmap.bit (storeInode efs (newInode efs s.blk id) blk₁ 0 d') j = decide (j = 0) := by
    intro j hj
    have hin : efs.InData (efs.dataAreaStartBlock + j) := inData_add (by omega)
    rw [← dataBit_add, dataBit_storeInode hg (by omega) hin, Bool.eq_iff_iff, hgw.step.bits _ hin, htree, hnil, dataBit_add,
      hclear j hj, List.mem_singleton, decide_eq_true_eq]
    simp
  obtain ⟨hsize, hdir⟩ := inode_of_bits hb ho hset
  obtain ⟨n, blk₂, hrun₂, hbyte⟩ := writeAt_super hat.idle harea hne hsize hdir
  obtain ⟨m₂, hm₂, hat₂⟩ := hat.returns (.writeAt (efs.handle id) 0 [0]) (r := .count n) ((run_bind_of hrun₂).trans rfl)
  exact ⟨m₁, m₂, _, hm₁, hm₂, by rw [hat₂.dev_eq]; exact hbyte⟩

/-- Inode 3168 of the small device lies on the data bitmap. -/
theorem super_block_lost : ∃ m hs, FsRun .ch6 1200 1 ⟨1200, fun _ => Blk.zero 512⟩ (fun _ _ call => Mutates call)
    (layout .ch6 1200 1) m hs ∧ ¬ Durable .ch6 (layout .ch6 1200 1) m := by
  obtain ⟨ha, hslots, hroomy⟩ := small_names
  have hmax : (layout .ch6 1200 1).inodeBitmap.maximum = 4096 := rfl
  obtain ⟨m, s, hs, hrun, -, hmem, hb, hz⟩ := fill_run (G := fun _ _ call => Mutates call) ⟨1200, fun _ => Blk.zero 512⟩
    ha (by norm_num) rfl (by omega) hroomy (fun _ => trivial) (fun _ => trivial) (fun _ => trivial) 3167 (by norm_num)
    (by omega) (by omega)
  have hblock : (layout .ch6 1200 1).inodeBlock 3168 = (layout .ch6 1200 1).dataBitmap.startBlockId := rfl
  have hoff : (layout .ch6 1200 1).inodeOff 3168 = 0 := rfl
  have hdata : (layout .ch6 1200 1).dataBitmap.maximum = 4096 := rfl
  obtain ⟨m₁, m₂, r, hm₁, hm₂, hbyte⟩ := hb.super_lost hz (by omega) (by norm_num) hblock hoff (by omega) hroomy
  have hcreate : Mutates (.create ((layout .ch6 1200 1).handle 0) "f") := trivial
  have hwrite : Mutates (.writeAt ((layout .ch6 1200 1).handle 3168) 0 [0]) := trivial
  have hrun₁ := hrun.step (by simpa [Call.self?] using hmem) hcreate hm₁
  exact ⟨m₂, _, hrun₁.step (by simp [Call.self?, Ret.handles]) hwrite hm₂, not_durable hbyte⟩

end Lost

end TgRcore.EasyFs
