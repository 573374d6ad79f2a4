/-
  TgRcore.EasyFs.Namespace — names, link counts and inodes of chapter 6's easy-fs.

  Three stores move together: the entries of the root directory, the link count in each
  inode, and the inode bitmap. `Namespace` ties them to one list of entries: an inode's
  link count is the number of its entries, and the bitmap has the inodes made so far.
  - `Namespace.create`, `Namespace.link`, `Namespace.unlink`, `Namespace.file`: what a call
    that returned did to the names, and which files it left alone.
  - `namesAt_run`: the invariant holds between any two calls of a run.
-/

import TgRcore.EasyFs.Directory

namespace TgRcore.EasyFs

open TgRcore.Bytes TgRcore.BlockProg TgRcore.BlockProg.Prog

/-! ## The invariant -/

/-- `k` inodes have been made; the root directory has the entries `dir`. -/
structure Listing (efs : EasyFileSystem) (size : Nat) (blk : Nat → Block) (k : Nat) (dir : List Entry) : Prop
    extends Wf efs blk k, RootDir efs size blk dir where
  crate : efs.crate = .ch6
  pos : 0 < k
  below : k < 2 ^ 32
  bits : ∀ i < efs.inodeBitmap.maximum, efs.inodeBitmap.bit blk i = decide (i < k)
  ok : DirOk dir k

/-- Link counts are name counts, and each inode but the root came with an entry. -/
structure Namespace (efs : EasyFileSystem) (size : Nat) (blk : Nat → Block) (k : Nat) (dir : List Entry) : Prop
    extends Listing efs size blk k dir where
  links : ∀ id, 0 < id → id < k → (efs.inodeAt blk id).linkNum = names dir id
  bound : k ≤ dir.length + 1

/-- File `id` is as it was: its bytes and its blocks. -/
structure Kept (efs : EasyFileSystem) (blk blk' : Nat → Block) (id : Nat) : Prop where
  content : contentAt efs blk' (efs.handle id) = contentAt efs blk (efs.handle id)
  tree : efs.treeAt blk' id = efs.treeAt blk id

theorem Kept.refl (efs : EasyFileSystem) (blk : Nat → Block) (id : Nat) : Kept efs blk blk id := ⟨rfl, rfl⟩

theorem Kept.trans {efs : EasyFileSystem} {blk blk' blk'' : Nat → Block} {id : Nat} (h : Kept efs blk blk' id)
    (h' : Kept efs blk' blk'' id) : Kept efs blk blk'' id :=
  ⟨h'.content.trans h.content, h'.tree.trans h.tree⟩

/-! ## What one store does -/

section Steps

variable {efs : EasyFileSystem} {size k id : Nat} {blk blk' blk₁ blkg : Nat → Block} {dir : List Entry} {d d' : DiskInode}

theorem InodeStep.keeps (hw : Wf efs blk k) (h : InodeStep efs blk blk' k id) {id' : Nat} (hid' : id' < k)
    (hne : id' ≠ id) : Kept efs blk blk' id' :=
  ⟨h.content_eq hw hid' hne, h.treeAt hw hid' hne⟩

theorem InodeStep.inodeBit (hg : efs.Geometry) (h : InodeStep efs blk blk' k id) {i : Nat}
    (hi : i < efs.inodeBitmap.maximum) : efs.inodeBitmap.bit blk' i = efs.inodeBitmap.bit blk i := by
  refine Bitmap.bit_congr hi fun c h1 h2 => h.low c ?_
  have h3 := hg.inodeBitmap
  have h4 := hg.inodeArea
  omega

theorem Listing.next_eq (h : Listing efs size blk k dir) {i : Nat} (hn : NextInode efs blk i) : i = k :=
  (NextInode.iff_of_bits h.bits hn.lt).mp hn

theorem Listing.next (h : Listing efs size blk k dir) (hk : k < efs.inodeBitmap.maximum) : NextInode efs blk k :=
  (NextInode.iff_of_bits h.bits hk).mpr rfl

/-- An inode other than the root is stored. -/
theorem Listing.store (h : Listing efs size blk k dir) (hid : id < k) (hne : id ≠ 0)
    (hs : TreeStep efs (efs.inodeAt blk id) blk d blk₁) : Listing efs size (storeInode efs blk blk₁ id d) k dir := by
  have hst := hs.inodeStep h.toWf hid
  refine ⟨h.toWf.step hid hs, h.toRootDir.other h.toWf h.pos hst hne, h.crate, h.pos, h.below, fun i hi => ?_, h.ok⟩
  rw [hst.inodeBit h.geo hi]
  exact h.bits i hi

/-- An entry is appended to the root directory. -/
theorem Listing.append (h : Listing efs size blk k dir) {p : Entry} (hd : DirOk (dir ++ [p]) k)
    (hgw : GrowWrite efs size (efs.inodeAt blk 0) blk (((efs.inodeAt blk 0).size / 32 + 1) * 32)
      ((efs.inodeAt blk 0).size / 32 * 32) (direntBytes p.1 p.2) d' blkg blk₁) :
    Listing efs size (storeInode efs blk blk₁ 0 d') k (dir ++ [p]) := by
  have hst := hgw.step.inodeStep h.toWf h.pos
  refine ⟨h.toWf.step h.pos hgw.step, h.toRootDir.append h.toWf h.pos hgw, h.crate, h.pos, h.below, fun i hi => ?_, hd⟩
  rw [hst.inodeBit h.geo hi]
  exact h.bits i hi

theorem Listing.erase (h : Listing efs size blk k dir) {i : Nat} (hi : i < dir.length)
    (hwr : Written (efs.inodeAt blk 0) blk blk' (32 * i) dead.bytes) :
    Listing efs size (storeInode efs blk blk' 0 (efs.inodeAt blk 0)) k (dir.set i dead) := by
  have hs := hwr.treeStep (h.toWf.treeOk h.pos) h.geo
  have hst := hs.inodeStep h.toWf h.pos
  refine ⟨h.toWf.step h.pos hs, h.toRootDir.erase h.toWf h.pos hi hwr, h.crate, h.pos, h.below, fun j hj => ?_,
    h.ok.erase h.pos i⟩
  rw [hst.inodeBit h.geo hj]
  exact h.bits j hj

/-- The next inode is initialised. -/
theorem Listing.newInode (h : Listing efs size blk k dir) (hi : k < efs.inodeBitmap.maximum) (hs : k < efs.slots)
    (hu : k + 1 < 2 ^ 32) : Listing efs size (newInode efs blk k) (k + 1) dir := by
  have hu' : asU32 k = k := Nat.mod_eq_of_lt h.below
  have hslot : asU32 k < efs.slots := by rw [hu']; exact hs
  have hne : asU32 k ≠ 0 := by have := h.pos; omega
  refine ⟨h.toWf.newInode hi hslot hs (by rw [hu']; omega), h.toRootDir.newInode h.toWf h.pos hi hslot hne, h.crate,
    by omega, hu, fun i hi' => ?_, ⟨h.ok.fits, fun p hp => ?_, h.ok.noRoot⟩⟩
  · rw [bit_newInode h.geo hi', h.bits i hi', Bool.eq_iff_iff, Bool.or_eq_true, beq_iff_eq, decide_eq_true_eq,
      decide_eq_true_eq]
    omega
  · have := h.ok.lt p hp
    omega

theorem Listing.newInode_kept (h : Listing efs size blk k dir) (hi : k < efs.inodeBitmap.maximum) (hs : k < efs.slots)
    (hid : id < k) : Kept efs blk (EasyFs.newInode efs blk k) id := by
  have hu' : asU32 k = k := Nat.mod_eq_of_lt h.below
  have hslot : asU32 k < efs.slots := by rw [hu']; exact hs
  have hne : id ≠ asU32 k := by omega
  refine ⟨contentAt_newInode h.toWf hi hslot hid hne, ?_⟩
  unfold EasyFileSystem.treeAt
  rw [inodeAt_newInode_of_ne h.geo hi hne]
  exact tree_congr (h.small id hid) (newInode_tree h.toWf hi hslot hid)

/-! ### Link counts -/

/-- Only the link count of inode `id` changes. -/
def setLink (efs : EasyFileSystem) (blk : Nat → Block) (id n : Nat) : Nat → Block :=
  storeInode efs blk blk id { efs.inodeAt blk id with linkNum := n }

theorem TreeStep.setLink (ht : TreeOk efs d blk) {n : Nat} (hn : n < 2 ^ 32) (hc : efs.crate = .ch6) :
    TreeStep efs d blk { d with linkNum := n } blk := by
  have hr := TreeStep.refl ht
  refine ⟨⟨hr.fits.size, hr.fits.direct, hr.fits.indirect1, hr.fits.indirect2, hn, fun e => ?_⟩, hr.small, hr.nodup,
    hr.fresh, hr.frame, hr.bits, hr.freed⟩
  rw [hc] at e
  cases e

theorem Listing.setLink (h : Listing efs size blk k dir) (hid : id < k) (hne : id ≠ 0) {n : Nat} (hn : n < 2 ^ 32) :
    Listing efs size (setLink efs blk id n) k dir :=
  h.store hid hne (.setLink (h.toWf.treeOk hid) hn h.crate)

theorem Listing.setLink_linkNum (h : Listing efs size blk k dir) (hid : id < k) {n : Nat} (hn : n < 2 ^ 32) {id' : Nat}
    (hid' : id' < k) : (efs.inodeAt (EasyFs.setLink efs blk id n) id').linkNum =
      if id' = id then n else (efs.inodeAt blk id').linkNum := by
  have hs := TreeStep.setLink (h.toWf.treeOk hid) hn h.crate
  unfold EasyFs.setLink
  split
  · rename_i e
    rw [e, inodeAt_storeInode_self hs.fits]
  · rename_i e
    rw [(hs.inodeStep h.toWf hid).others id' (Nat.lt_of_lt_of_le hid' h.slots) e]

theorem Listing.setLink_kept (h : Listing efs size blk k dir) (hid : id < k) {n : Nat} (hn : n < 2 ^ 32) {id' : Nat}
    (hid' : id' < k) : Kept efs blk (EasyFs.setLink efs blk id n) id' := by
  have hs := TreeStep.setLink (h.toWf.treeOk hid) hn h.crate
  by_cases e : id' = id
  · rw [e]
    exact ⟨hs.content_self h.toWf hid, hs.treeAt_self h.toWf hid⟩
  · exact (hs.inodeStep h.toWf hid).keeps h.toWf hid' e

end Steps

/-! ## Calls on the root directory -/

section Calls

variable {efs : EasyFileSystem} {s s' : Store Block} {k id j : Nat} {dir : List Entry} {name : String}

theorem Namespace.below_of_bound {size : Nat} {blk : Nat → Block} (h : Namespace efs size blk k dir) : k + 1 < 2 ^ 32 := by
  have h1 := h.toRootDir.length_lt h.toWf h.pos
  have h2 := h.bound
  omega

/-- `create`: one more inode, with one entry. -/
theorem Namespace.create (h : Namespace efs s.size s.blk k dir) (hi : Idle efs s) (hv : NameFits name)
    (hslot : ∀ i, NextInode efs s.blk i → i < efs.slots) {ino : Inode}
    (hr : (Inode.create efs (efs.handle 0) name).run s = .ok (ino, s')) :
    ino = efs.handle k ∧ ∃ blk', s' = s.withBlk blk' ∧ Namespace efs s.size blk' (k + 1) (dir ++ [(name, k)]) ∧
      contentAt efs blk' (efs.handle k) = [] ∧ ∀ id < k, id ≠ 0 → Kept efs s.blk blk' id := by
  have hpos := h.pos
  have hu : asU32 k = k := Nat.mod_eq_of_lt h.below
  have hbelow := h.below_of_bound
  have hB : ∀ i, NextInode efs s.blk i → asU32 i < efs.slots ∧ Wf efs (newInode efs s.blk i) (k + 1) := by
    intro i hn
    obtain rfl := h.next_eq hn
    rw [hu]
    exact ⟨hslot i hn, (h.toListing.newInode hn.lt (hslot i hn) hbelow).toWf⟩
  obtain ⟨i, hn, rfl, -, d', blkg, blk₁, rfl, hgw⟩ := create_step hi (k + 1) hB (show 0 < k + 1 by omega) hr
  obtain rfl := h.next_eq hn
  rw [hu] at hgw ⊢
  have hs := hslot i hn
  have hl := h.toListing.newInode hn.lt hs hbelow
  have hst := hgw.step.inodeStep hl.toWf hl.pos
  have hok : DirOk (dir ++ [(name, i)]) (i + 1) := h.ok.append (Nat.le_succ i) hv hpos (Nat.lt_succ_self i)
  have hnew_ino : efs.inodeAt (newInode efs s.blk i) i = (efs.inodeAt s.blk i).init efs.crate .file := by
    have := inodeAt_newInode_self s.blk h.geo hn.lt
    rwa [hu] at this
  have hnames : names dir i = 0 := by
    by_contra hc
    obtain ⟨n, hm⟩ := names_pos_iff.mp (Nat.pos_of_ne_zero hc)
    exact absurd (h.ok.lt _ hm) (Nat.lt_irrefl i)
  refine ⟨rfl, _, rfl, ⟨hl.append hok hgw, fun id h0 hid => ?_, ?_⟩, ?_, fun id hid hne => ?_⟩
  · rw [hst.others id (Nat.lt_of_lt_of_le hid hl.slots) (by omega), names_append]
    by_cases e : id = i
    · rw [e, hnew_ino, hnames, if_pos rfl, h.crate]
      rfl
    · rw [inodeAt_newInode_of_ne h.geo hn.lt (by rw [hu]; exact e), if_neg (fun e' => e e'.symm)]
      exact h.links id h0 (by omega)
  · rw [List.length_append]
    have := h.bound
    exact Nat.succ_le_succ this
  · rw [hst.content_eq hl.toWf (by omega) (by omega)]
    exact content_of_size_zero (by show (efs.inodeAt (newInode efs s.blk i) i).size = 0; rw [hnew_ino]; rfl) _
  · exact (h.toListing.newInode_kept hn.lt hs hid).trans (hst.keeps hl.toWf (by omega) hne)

/-- `link` that returned: the search, then the entry, then the count. -/
theorem link_step (hi : Idle efs s) (hw : Wf efs s.blk k) (hid : id < k) {old new : String} {r : Bool}
    (hr : (Inode.link efs (efs.handle id) old new).run s = .ok (r, s')) :
    ∃ o s₁, (Inode.findInodeId old (efs.inodeAt s.blk id)).run (({ s with busy := true } : Store Block).pin (efs.inodeBlock id)) =
        .ok (o, s₁) ∧
      ((o = none ∧ r = false ∧ s' = s) ∨
        ∃ oldId n d' blkg blk₁, o = some oldId ∧ r = true ∧ (strBytes new).length ≤ 28 ∧
          s' = s.withBlk (setLink efs (storeInode efs s.blk blk₁ id d') oldId n) ∧
          n = (efs.inodeAt (storeInode efs s.blk blk₁ id d') oldId).linkNum + 1 ∧ n < 2 ^ 32 ∧
          GrowWrite efs s.size (efs.inodeAt s.blk id) s.blk (((efs.inodeAt s.blk id).size / 32 + 1) * 32)
            ((efs.inodeAt s.blk id).size / 32 * 32) (direntBytes new oldId) d' blkg blk₁) := by
  have hslot := Nat.lt_of_lt_of_le hid hw.slots
  obtain ⟨s₁, h1, hs'⟩ := withMutex_ok hr
  obtain ⟨o, s₂, h2, h1⟩ := run_bind_ok.mp h1
  obtain rfl := (readOnly_readDiskInode (efs.handle id) (readOnly_findInodeId old)).run_eq h2
  obtain ⟨-, s₃, hfind, -⟩ := readDiskInode_ok h2
  refine ⟨o, s₃, hfind, ?_⟩
  cases o with
  | none =>
    cases h1
    exact .inl ⟨rfl, rfl, hs' s.blk rfl⟩
  | some oldId =>
    -- the entry
    obtain ⟨u, s₄, h4, h1⟩ := run_bind_ok.mp h1
    obtain ⟨-, d', s₅, h5, hs₄⟩ := modifyDiskInode_ok efs id h4
    obtain ⟨d'', s₆, h6, h5⟩ := run_bind_ok.mp h5
    cases h5
    obtain ⟨hlen, blkg, blk₁, rfl, hgw⟩ := appendDirent_ok (hi.lock.open_inode hslot) (hw.treeOk hid) h6
    obtain rfl := hs₄ _ rfl
    -- the link count
    obtain ⟨p, s₇, h7, h1⟩ := run_bind_ok.mp h1
    cases getDiskInodePos_ok h7
    obtain ⟨u', s₈, h8, h1⟩ := run_bind_ok.mp h1
    obtain ⟨-, d₂, s₉, h9, hs₈⟩ := modifyDiskInode_ok efs oldId h8
    obtain ⟨n, s₁₀, h10, h9⟩ := run_bind_ok.mp h9
    cases h9
    obtain ⟨hn, hn32, rfl⟩ := addU32_ok h10
    obtain rfl := hs₈ _ rfl
    obtain ⟨u'', s₁₁, h11, h1⟩ := run_bind_ok.mp h1
    cases sync_ok h11
    cases h1
    exact .inr ⟨oldId, n, d', blkg, blk₁, rfl, rfl, hlen, hs' _ rfl, hn, hn32, hgw⟩

/-- `link`: the inode of the old name gets one more entry. -/
theorem Namespace.link (h : Namespace efs s.size s.blk k dir) (hi : Idle efs s) {old new : String}
    (hlive : ∀ id, dir.lookup old = some id → 0 < id ∧ NameFits new) {r : Bool}
    (hr : (Inode.link efs (efs.handle 0) old new).run s = .ok (r, s')) :
    (dir.lookup old = none ∧ r = false ∧ s' = s) ∨
      ∃ id blk', dir.lookup old = some id ∧ r = true ∧ s' = s.withBlk blk' ∧
        Namespace efs s.size blk' k (dir ++ [(new, id)]) ∧ ∀ id' < k, id' ≠ 0 → Kept efs s.blk blk' id' := by
  have hpos := h.pos
  have hfind := RootDir.findInodeId_run (s := { s with busy := true }) h.toRootDir h.ok hi.lock h.toWf hpos
    (Nat.le_of_lt h.below) old
  obtain ⟨o, s₁, h1, hcases⟩ := link_step hi h.toWf hpos hr
  rw [hfind] at h1
  cases h1
  rcases hcases with ⟨hl, rfl, rfl⟩ | ⟨id, n, d', blkg, blk₁, hl, rfl, -, rfl, hn, hn32, hgw⟩
  · exact .inl ⟨hl, rfl, rfl⟩
  · have hid : id < k := h.ok.lookup_lt hl
    obtain ⟨h0, hv⟩ := hlive id hl
    have hok : DirOk (dir ++ [(new, id)]) k := h.ok.append (Nat.le_refl k) hv h0 hid
    have hlist := h.toListing.append hok hgw
    have hst := hgw.step.inodeStep h.toWf hpos
    rw [hst.others id (Nat.lt_of_lt_of_le hid h.slots) (by omega), h.links id h0 hid] at hn
    refine .inr ⟨id, _, hl, rfl, rfl, ⟨hlist.setLink hid (by omega) hn32, fun id' h0' hid' => ?_, ?_⟩,
      fun id' hid' hne => ?_⟩
    · rw [hlist.setLink_linkNum hid hn32 hid', names_append]
      by_cases e : id' = id
      · rw [if_pos e, if_pos e.symm, hn, e]
      · rw [if_neg e, if_neg (fun e' => e e'.symm), hst.others id' (Nat.lt_of_lt_of_le hid' h.slots) (by omega)]
        exact h.links id' h0' hid'
    · rw [List.length_append]
      have := h.bound
      omega
    · exact (hst.keeps h.toWf hid' hne).trans (hlist.setLink_kept hid hn32 hid')

/-- The link count goes up. -/
theorem incLink_run (hid : id < efs.slots) (hl : Locked efs s) (hlt : (efs.inodeAt s.blk id).linkNum + 1 < 2 ^ 32) :
    (Inode.modifyDiskInode efs (efs.handle id) fun d => do
      let linkNum ← addU32 d.linkNum 1
      return ((), { d with linkNum := linkNum })).run s =
      .ok ((), s.withBlk (setLink efs s.blk id ((efs.inodeAt s.blk id).linkNum + 1))) := by
  refine modifyDiskInode_run efs id (hl.inodeFree hid) ?_
  rw [addU32, if_pos hlt]
  rfl

/-- `link` of a name returns when the new entry can be appended. -/
theorem Namespace.link_of_append (h : Namespace efs s.size s.blk k dir) (hi : Idle efs s) {old new : String}
    (hl : dir.lookup old = some id) (h0 : 0 < id) {d' : DiskInode} {blk₁ : Nat → Block}
    (happ : (Inode.appendDirent efs new id (efs.inodeAt s.blk 0)).run
        (({ s with busy := true } : Store Block).pin (efs.inodeBlock 0)) =
      .ok (d', (({ s with busy := true } : Store Block).pin (efs.inodeBlock 0)).withBlk blk₁)) :
    ∃ blk', (Inode.link efs (efs.handle 0) old new).run s = .ok (true, s.withBlk blk') := by
  have hpos := h.pos
  have hid : id < k := h.ok.lookup_lt hl
  have hslot := Nat.lt_of_lt_of_le hpos h.slots
  have hslot' := Nat.lt_of_lt_of_le hid h.slots
  have hfind := readDiskInode_run (hi.lock.inodeFree hslot)
    (RootDir.findInodeId_run (s := { s with busy := true }) h.toRootDir h.ok hi.lock h.toWf hpos (Nat.le_of_lt h.below) old)
  rw [hl] at hfind
  -- the entry goes into the directory, and the count up
  have hbody := modifyDiskInode_run (s := { s with busy := true }) efs 0
    (f := fun d => do
      let d ← Inode.appendDirent efs new id d
      return ((), d)) (v := ()) (d := d') (hi.lock.inodeFree hslot) ((run_bind_of happ).trans rfl)
  obtain ⟨-, blkg, blk₂, e, hgw⟩ := appendDirent_ok (hi.lock.open_inode hslot) (h.toWf.treeOk hpos) happ
  obtain rfl : blk₁ = blk₂ := congrArg Store.blk e
  have hst := hgw.step.inodeStep h.toWf hpos
  have hlink : (efs.inodeAt (storeInode efs s.blk blk₁ 0 d') id).linkNum + 1 < 2 ^ 32 := by
    have h1 := h.toRootDir.length_lt h.toWf hpos
    have h2 := names_le dir id
    rw [hst.others id hslot' (by omega), h.links id h0 hid]
    omega
  have hlk : Locked efs (({ s with busy := true } : Store Block).withBlk (storeInode efs s.blk blk₁ 0 d')) := hi.lock.withBlk _
  have hcount := incLink_run hslot' hlk hlink
  have hsync := run_sync (s := ({ s with busy := true } : Store Block).withBlk (setLink efs (storeInode efs s.blk blk₁ 0 d') id
    ((efs.inodeAt (storeInode efs s.blk blk₁ 0 d') id).linkNum + 1))) hi.held
  refine ⟨_, run_withMutex (g := setLink efs (storeInode efs s.blk blk₁ 0 d') id
    ((efs.inodeAt (storeInode efs s.blk blk₁ 0 d') id).linkNum + 1)) hi.busy ?_⟩
  rw [run_bind_of hfind]
  refine (run_bind_of hbody).trans ?_
  rw [run_bind_of (getDiskInodePos_run hi.geo (hi.geo.inodeBlock_lt_area hslot') _)]
  exact (run_bind_of hcount).trans ((run_bind_of hsync).trans rfl)

/-- The new entry fits into the last block of the root directory. -/
theorem Namespace.link_returns (h : Namespace efs s.size s.blk k dir) (hi : Idle efs s) {old new : String}
    (hl : dir.lookup old = some id) (h0 : 0 < id) (hroom : dir.length % 16 ≠ 0) (hv : (strBytes new).length ≤ 28) :
    ∃ blk', (Inode.link efs (efs.handle 0) old new).run s = .ok (true, s.withBlk blk') := by
  have hsize := h.toRootDir.size_eq
  obtain ⟨d', blk₁, happ⟩ := appendDirent_returns_block id (hi.lock.open_inode (Nat.lt_of_lt_of_le h.pos h.slots))
    (h.toWf.treeOk h.pos) h.toRootDir.device (by
      unfold DiskInode.dataBlocks DiskInode.dataBlocksOf
      omega) (by omega) hv
  exact h.link_of_append hi hl h0 happ

/-! ### Unlinking -/

theorem firstAt_of_lookup (h : dir.lookup name = some id) :
    ∃ j, firstAt name dir 0 = some (j, (name, id)) ∧ dir[j]? = some (name, id) := by
  rw [← firstAt_lookup name dir 0] at h
  obtain ⟨⟨j, p⟩, hf, e⟩ := Option.map_eq_some_iff.mp h
  obtain ⟨n, hj, hn, hname⟩ := firstAt_some hf
  have hp : p = (name, id) := Prod.ext hname e
  rw [Nat.zero_add] at hj
  rw [← hj, hp] at hn
  exact ⟨j, by rw [hf, hp], hn⟩

/-- The link count goes down. -/
theorem decLink_run (hid : id < efs.slots) (hl : Locked efs s) (hpos : 0 < (efs.inodeAt s.blk id).linkNum) :
    (Inode.modifyDiskInode efs (efs.handle id) fun d => do
      assert (d.linkNum > 0)
      return (d.linkNum - 1, { d with linkNum := d.linkNum - 1 })).run s =
      .ok ((efs.inodeAt s.blk id).linkNum - 1, s.withBlk (setLink efs s.blk id ((efs.inodeAt s.blk id).linkNum - 1))) := by
  refine modifyDiskInode_run efs id (hl.inodeFree hid) ?_
  rw [assert_true hpos]
  rfl

/-- The closure in which `unlink` overwrites the entry. -/
def eraseEntry (name : String) (d : DiskInode) : Fs (Unit × DiskInode) := do
  let found ← Inode.findLoop d name (d.size / 32) 0
  let (i, _) ← unwrap found
  let _ ← d.writeAt (i * 32) DirEntry.empty.asBytes
  return ((), d)

/-- The first entry with the name is overwritten. -/
theorem eraseEntry_run (h : Listing efs s.size s.blk k dir) (hl : Locked efs s) (hlook : dir.lookup name = some id) :
    ∃ j blk₁, dir[j]? = some (name, id) ∧ Written (efs.inodeAt s.blk 0) s.blk blk₁ (32 * j) dead.bytes ∧
      (Inode.modifyDiskInode efs (efs.handle 0) (eraseEntry name)).run s =
        .ok ((), s.withBlk (storeInode efs s.blk blk₁ 0 (efs.inodeAt s.blk 0))) := by
  have hslot := Nat.lt_of_lt_of_le h.pos h.slots
  have hsize := h.toRootDir.size_eq
  have hlen := h.toRootDir.length_lt h.toWf h.pos
  obtain ⟨j, hfirst, hj⟩ := firstAt_of_lookup hlook
  have hjlt : j < dir.length := (List.getElem?_eq_some_iff.mp hj).1
  have h32 : DirEntry.empty.asBytes.length = 32 := length_asBytes _
  have hfind := h.toRootDir.findLoop_run h.ok hl h.toWf h.pos (Nat.le_of_lt h.below) name
  rw [hfirst] at hfind
  have ht := h.toWf.treeOk h.pos
  have hfree := h.toRootDir.free hl h.toWf h.pos
  obtain ⟨⟨n, s₁⟩, hw⟩ := writeAt_returns (s := s.pin (efs.inodeBlock 0)) (d := efs.inodeAt s.blk 0) (j * 32)
    DirEntry.empty.asBytes ht.small ht.nodup hfree (by rw [h32]; omega) (by rw [h32]; omega)
  obtain ⟨-, -, ⟨blk₁, rfl, hwr⟩, -⟩ := writeAt_ok (s := s.pin (efs.inodeBlock 0)) ht.small ht.nodup hw
  have hpart : writtenPart (efs.inodeAt s.blk 0) (j * 32) DirEntry.empty.asBytes = dead.bytes := by
    rw [writtenPart, List.take_of_length_le (by rw [h32]; omega), dead_bytes]
  rw [hpart, Nat.mul_comm] at hwr
  refine ⟨j, blk₁, hj, hwr, modifyDiskInode_run efs 0 (hl.inodeFree hslot) ?_⟩
  refine (run_bind_of hfind).trans ?_
  show ((efs.inodeAt s.blk 0).writeAt (j * 32) DirEntry.empty.asBytes >>= fun _ => ret ((), efs.inodeAt s.blk 0)).run _ = _
  rw [run_bind_of hw]
  rfl

/-- What is left to do when the entry is gone. -/
def unlinkTail (efs : EasyFileSystem) (self : Inode) (linkNum : Nat) : Fs Bool := do
  if linkNum = 0 then self.clear efs
  sync
  return true

/-- `unlink` up to the point where the inode may be cleared. -/
theorem Namespace.unlink_run (h : Namespace efs s.size s.blk k dir) (hi : Idle efs s) (hl : dir.lookup name = some id)
    (h0 : 0 < id) :
    ∃ j blk', dir[j]? = some (name, id) ∧
      (Inode.unlink efs (efs.handle 0) name).run s =
        (unlinkTail efs (efs.handle id) (names dir id - 1)).run (s.withBlk blk') ∧
      Namespace efs s.size blk' k (dir.set j dead) ∧ ∀ id' < k, id' ≠ 0 → Kept efs s.blk blk' id' := by
  have hpos := h.pos
  have hid : id < k := h.ok.lookup_lt hl
  have hslot := Nat.lt_of_lt_of_le hid h.slots
  have hlink := h.links id h0 hid
  have hcount : 0 < names dir id := names_pos_iff.mpr ⟨name, mem_of_lookup hl⟩
  have hle := names_le dir id
  have hlen := h.toRootDir.length_lt h.toWf hpos
  have hfind := find_run h.toRootDir h.ok hi h.toWf hpos (Nat.le_of_lt h.below) name
  rw [hl] at hfind
  have hdec := decLink_run hslot hi.locked (by rw [hlink]; exact hcount)
  rw [hlink] at hdec
  have hn32 : names dir id - 1 < 2 ^ 32 := by omega
  have hset := h.toListing.setLink hid (by omega) hn32
  obtain ⟨j, blk₁, hj, hwr, herase⟩ := eraseEntry_run (s := s.withBlk (setLink efs s.blk id (names dir id - 1))) hset
    (hi.locked.withBlk _) hl
  have hjlt : j < dir.length := (List.getElem?_eq_some_iff.mp hj).1
  have hstep := hwr.treeStep (hset.toWf.treeOk hpos) h.geo
  have hst := hstep.inodeStep hset.toWf hpos
  refine ⟨j, _, hj, ?_, ⟨hset.erase hjlt hwr, fun id' h0' hid' => ?_, ?_⟩, fun id' hid' hne => ?_⟩
  · rw [Inode.unlink, run_bind_of hfind]
    show (Inode.modifyDiskInode efs (efs.handle id) _ >>= _).run s = _
    rw [run_bind_of hdec]
    exact run_bind_of herase
  · have hsl := Nat.lt_of_lt_of_le hid' h.slots
    have hcnt := names_erase hj h0'
    have hother := hst.others id' hsl (by omega)
    show (efs.inodeAt (storeInode efs (EasyFs.setLink efs s.blk id (names dir id - 1)) blk₁ 0 _) id').linkNum = _
    rw [hother, h.toListing.setLink_linkNum hid hn32 hid']
    by_cases e : id' = id
    · rw [if_pos e]
      rw [e, if_pos rfl] at hcnt
      rw [e]
      omega
    · rw [if_neg e, h.links id' h0' hid']
      rw [if_neg (fun e' => e e'.symm)] at hcnt
      omega
  · rw [List.length_set]
    exact h.bound
  · exact (h.toListing.setLink_kept hid hn32 hid').trans (hst.keeps hset.toWf hid' hne)

/-- `unlink`: the name goes; with the last name of an inode go its blocks. -/
theorem Namespace.unlink (h : Namespace efs s.size s.blk k dir) (hi : Idle efs s)
    (hlive : ∀ id, dir.lookup name = some id → 0 < id) {r : Bool}
    (hr : (Inode.unlink efs (efs.handle 0) name).run s = .ok (r, s')) :
    (dir.lookup name = none ∧ r = false ∧ s' = s) ∨
      ∃ id j blk', dir.lookup name = some id ∧ dir[j]? = some (name, id) ∧ r = true ∧ s' = s.withBlk blk' ∧
        Namespace efs s.size blk' k (dir.set j dead) ∧
        (∀ id' < k, id' ≠ 0 → (id' = id → names dir id ≠ 1) → Kept efs s.blk blk' id') ∧
        (names dir id = 1 → contentAt efs blk' (efs.handle id) = [] ∧
          ∀ b ∈ efs.treeAt s.blk id, efs.dataBit blk' b = false) := by
  have hpos := h.pos
  cases hl : dir.lookup name with
  | none =>
    have hfind := find_run h.toRootDir h.ok hi h.toWf hpos (Nat.le_of_lt h.below) name
    rw [hl] at hfind
    rw [Inode.unlink, run_bind_of hfind] at hr
    cases hr
    exact .inl ⟨rfl, rfl, rfl⟩
  | some id =>
    have h0 : 0 < id := hlive id hl
    obtain ⟨j, blk', hj, hrun, hns, hkept⟩ := h.unlink_run hi hl h0
    have hid : id < k := h.ok.lookup_lt hl
    have hcount : 0 < names dir id := names_pos_iff.mpr ⟨name, mem_of_lookup hl⟩
    rw [hrun, unlinkTail] at hr
    by_cases hlast : names dir id - 1 = 0
    · rw [if_pos hlast] at hr
      obtain ⟨u, s₁, h1, hr⟩ := run_bind_ok.mp hr
      obtain ⟨d', blk₂, hs₁, hc⟩ := clear_step (hi.withBlk blk') hns.toWf hid h1
      simp only [Store.withBlk_blk, Store.withBlk_withBlk] at hs₁ hc
      subst hs₁
      obtain ⟨u', s₂, h2, hr⟩ := run_bind_ok.mp hr
      cases sync_ok h2
      cases hr
      have hst := hc.treeStep.inodeStep hns.toWf hid
      refine .inr ⟨id, j, _, rfl, hj, rfl, rfl,
        ⟨hns.toListing.store hid (by omega) hc.treeStep, fun id' h0' hid' => ?_, hns.bound⟩, fun id' hid' hne hlive => ?_,
        fun _ => ⟨?_, fun b hb => ?_⟩⟩
      · by_cases e : id' = id
        · rw [e, inodeAt_storeInode_self hc.fits, hc.linkNum]
          exact hns.links id h0 hid
        · rw [hst.others id' (Nat.lt_of_lt_of_le hid' h.slots) e]
          exact hns.links id' h0' hid'
      · have hne' : id' ≠ id := fun e => hlive e (by omega)
        exact (hkept id' hid' hne).trans (hst.keeps hns.toWf hid' hne')
      · rw [hc.treeStep.content_self hns.toWf hid]
        exact content_of_size_zero hc.size _
      · have hb' : b ∈ efs.treeAt blk' id := by
          rw [(hkept id hid (by omega)).tree]
          exact hb
        have hin := hns.inData id hid b hb'
        have hgone : b ∈ tree (efs.inodeAt blk' id) blk' := hb'
        rw [dataBit_storeInode h.geo (Nat.lt_of_lt_of_le hid h.slots) hin, hc.given.bits b hin,
          decide_eq_false (not_not_intro hgone), Bool.and_false]
    · rw [if_neg hlast] at hr
      obtain ⟨u, s₁, h1, hr⟩ := run_bind_ok.mp hr
      cases sync_ok h1
      cases hr
      exact .inr ⟨id, j, blk', rfl, hj, rfl, rfl, hns, fun id' hid' hne _ => hkept id' hid' hne,
        fun e => absurd (by omega) hlast⟩

/-- `unlink` of a name returns when the blocks it gives back are on the device. -/
theorem Namespace.unlink_returns (h : Namespace efs s.size s.blk k dir) (hi : Idle efs s)
    (hl : dir.lookup name = some id) (h0 : 0 < id) (hdev : names dir id = 1 → ∀ b ∈ efs.treeAt s.blk id, b < s.size) :
    ∃ blk', (Inode.unlink efs (efs.handle 0) name).run s = .ok (true, s.withBlk blk') := by
  have hid : id < k := h.ok.lookup_lt hl
  have hcount : 0 < names dir id := names_pos_iff.mpr ⟨name, mem_of_lookup hl⟩
  obtain ⟨j, blk', -, hrun, hns, hkept⟩ := h.unlink_run hi hl h0
  rw [hrun, unlinkTail]
  by_cases hlast : names dir id - 1 = 0
  · obtain ⟨blk₂, hc⟩ := clear_returns (hi.withBlk blk') hns.toWf hid (by
      rw [Store.withBlk_blk, (hkept id hid (by omega)).tree]
      exact hdev (by omega))
    rw [if_pos hlast, run_bind_of hc]
    exact ⟨blk₂, (run_bind_of (run_sync (s := s.withBlk blk₂) hi.held)).trans rfl⟩
  · rw [if_neg hlast]
    exact ⟨blk', (run_bind_of (run_sync (s := s.withBlk blk') hi.held)).trans rfl⟩

end Calls

/-! ## Names on the disk -/

/-- Entry `i` of the root directory, as it stands on the disk. -/
def rootEntry (efs : EasyFileSystem) (blk : Nat → Block) (i : Nat) : DirEntry :=
  DirEntry.ofBytes (((contentAt efs blk (efs.handle 0)).drop (32 * i)).take 32)

/-- The root directory has an entry called `name`, and its inode is `id`. -/
def Named (efs : EasyFileSystem) (blk : Nat → Block) (name : String) (id : Nat) : Prop :=
  ∃ i < (contentAt efs blk (efs.handle 0)).length / 32,
    (rootEntry efs blk i).getName = ret name ∧ (rootEntry efs blk i).inodeNumber = id

/-- The first entry of the root directory called `name` has inode `id`. -/
def Resolves (efs : EasyFileSystem) (blk : Nat → Block) (name : String) (id : Nat) : Prop :=
  ∃ j, FirstNamed (contentAt efs blk (efs.handle 0)) name j ∧ (rootEntry efs blk j).inodeNumber = id

section Entries

variable {efs : EasyFileSystem} {size k id : Nat} {blk : Nat → Block} {dir : List Entry} {name : String}

theorem Listing.length_content_root (h : Listing efs size blk k dir) :
    (contentAt efs blk (efs.handle 0)).length / 32 = dir.length := by
  rw [h.toRootDir.content, length_dirBytes]
  omega

theorem Listing.rootEntry_eq (h : Listing efs size blk k dir) {i : Nat} {p : Entry} (hp : dir[i]? = some p) :
    rootEntry efs blk i = dirent p := by
  rw [rootEntry, h.toRootDir.content]
  exact entryAt_dirBytes hp (Nat.lt_trans (h.ok.lt p (List.mem_of_getElem? hp)) h.below)

theorem Listing.getName_rootEntry (h : Listing efs size blk k dir) {i : Nat} {p : Entry} (hp : dir[i]? = some p) :
    (rootEntry efs blk i).getName = ret p.1 := by
  rw [h.rootEntry_eq hp, getName_dirent (h.ok.fits _ (List.mem_of_getElem? hp))]

theorem Listing.named_iff (h : Listing efs size blk k dir) : Named efs blk name id ↔ (name, id) ∈ dir := by
  unfold Named
  rw [h.length_content_root]
  constructor
  · intro hn
    obtain ⟨i, hi, hname, hid⟩ := hn
    have hp : dir[i]? = some dir[i] := List.getElem?_eq_getElem hi
    rw [h.getName_rootEntry hp] at hname
    rw [h.rootEntry_eq hp] at hid
    cases hname
    rw [← hid]
    exact List.getElem_mem hi
  · intro hm
    obtain ⟨i, hi⟩ := List.mem_iff_getElem?.mp hm
    have hlt := (List.getElem?_eq_some_iff.mp hi).1
    exact ⟨i, hlt, h.getName_rootEntry hi, by rw [h.rootEntry_eq hi]; rfl⟩

/-- The first entry with the name, as the search finds it. -/
theorem Listing.firstNamed_iff (h : Listing efs size blk k dir) {j : Nat} :
    FirstNamed (contentAt efs blk (efs.handle 0)) name j ↔
      ∃ id, dir[j]? = some (name, id) ∧ ∀ i < j, ∀ p, dir[i]? = some p → p.1 ≠ name := by
  have hcalled : ∀ {i : Nat} {p : Entry}, dir[i]? = some p →
      (entryAt (contentAt efs blk (efs.handle 0)) i).getName = ret p.1 := fun hp => h.getName_rootEntry hp
  constructor
  · intro hf
    have hlt := hf.lt
    rw [h.length_content_root] at hlt
    have hp : dir[j]? = some dir[j] := List.getElem?_eq_getElem hlt
    have hname := hf.called
    rw [hcalled hp, BlockProg.Prog.ret.injEq] at hname
    refine ⟨dir[j].2, by rw [hp, ← hname], fun i hi p hpi e => ?_⟩
    exact hf.first i hi (by rw [hcalled hpi, e])
  · intro hj
    obtain ⟨id, hp, hfirst⟩ := hj
    have hlt := (List.getElem?_eq_some_iff.mp hp).1
    refine ⟨by rw [h.length_content_root]; exact hlt, hcalled hp, fun i hi e => ?_⟩
    have hpi : dir[i]? = some dir[i] := List.getElem?_eq_getElem (Nat.lt_trans hi hlt)
    rw [hcalled hpi, BlockProg.Prog.ret.injEq] at e
    exact hfirst i hi _ hpi e

theorem Listing.resolves_iff (h : Listing efs size blk k dir) : Resolves efs blk name id ↔ dir.lookup name = some id := by
  unfold Resolves
  simp only [h.firstNamed_iff]
  constructor
  · intro hr
    obtain ⟨j, ⟨id', hp, hfirst⟩, hid⟩ := hr
    rw [h.rootEntry_eq hp] at hid
    obtain rfl : id' = id := hid
    obtain ⟨hlt, e⟩ := List.getElem?_eq_some_iff.mp hp
    refine List.lookup_eq_some_iff.mpr ⟨dir.take j, dir.drop (j + 1), ?_, fun p hp' => ?_⟩
    · rw [← e, ← List.drop_eq_getElem_cons hlt, List.take_append_drop]
    · obtain ⟨i, hi⟩ := List.mem_iff_getElem?.mp hp'
      rw [List.getElem?_take] at hi
      split at hi
      · simpa using fun e' => hfirst i ‹_› p hi e'.symm
      · cases hi
  · intro hl
    obtain ⟨l₁, l₂, rfl, hfirst⟩ := List.lookup_eq_some_iff.mp hl
    have hp : (l₁ ++ (name, id) :: l₂)[l₁.length]? = some (name, id) := by simp
    refine ⟨l₁.length, ⟨id, hp, fun i hi p hpi e => ?_⟩, by rw [h.rootEntry_eq hp]; rfl⟩
    rw [List.getElem?_append_left hi] at hpi
    have := hfirst p (List.mem_of_getElem? hpi)
    rw [e] at this
    simp at this

end Entries

/-- No entry is called `name`. -/
def Absent (efs : EasyFileSystem) (blk : Nat → Block) (name : String) : Prop := ∀ id, ¬ Named efs blk name id

theorem Listing.absent_iff {efs : EasyFileSystem} {size k : Nat} {blk : Nat → Block} {dir : List Entry} {name : String}
    (h : Listing efs size blk k dir) : Absent efs blk name ↔ dir.lookup name = none := by
  unfold Absent
  simp only [h.named_iff]
  constructor
  · intro ha
    refine List.lookup_eq_none_iff.mpr fun p hp => ?_
    simp only [bne_iff_ne, ne_eq]
    intro e
    exact ha p.2 (by rw [e]; exact hp)
  · intro hl id hm
    have := List.lookup_eq_none_iff.mp hl _ hm
    simp at this

/-! ## Runs -/

/-- Calls on valid names: `create`, `link`, `unlink` and `find` in the root directory, with
    new names that are absent; reads anywhere, writes and clears of files. -/
def NameCall (efs : EasyFileSystem) (blk : Nat → Block) : Call → Prop
  | .root => True
  | .find i _ => i = efs.handle 0
  | .create i name => i = efs.handle 0 ∧ ValidName name ∧ Absent efs blk name
  | .link i old new => i = efs.handle 0 ∧ ValidName old ∧ ValidName new ∧ Absent efs blk new
  | .unlink i name => i = efs.handle 0 ∧ ValidName name
  | .readAt _ _ _ => True
  | .writeAt i _ _ => i ≠ efs.handle 0
  | .clear i => i ≠ efs.handle 0

/-- Calls that keep the entries in order: new names fit, present or not, and the empty name
    of a dead entry is not taken for a file. -/
def FitCall (efs : EasyFileSystem) (blk : Nat → Block) : Call → Prop
  | .root => True
  | .find i _ => i = efs.handle 0
  | .create i name => i = efs.handle 0 ∧ NameFits name
  | .link i old new => i = efs.handle 0 ∧ ∀ id, Resolves efs blk old id → 0 < id ∧ NameFits new
  | .unlink i name => i = efs.handle 0 ∧ ∀ id, Resolves efs blk name id → 0 < id
  | .readAt _ _ _ => True
  | .writeAt i _ _ => i ≠ efs.handle 0
  | .clear i => i ≠ efs.handle 0

/-- The inode number that `create` is given is that of a slot of the inode area. -/
def InSlots (efs : EasyFileSystem) (blk : Nat → Block) : Call → Prop
  | .create _ _ => ∀ id, NextInode efs blk id → id < efs.slots
  | _ => True

/-- What a call may do to the entries `dir` of the root directory, the number `k` of inodes
    and the files. -/
def NameStep (efs : EasyFileSystem) (blk blk' : Nat → Block) (k k' : Nat) (dir dir' : List Entry) : Call → Ret → Prop
  | .root, r => r = .inode (efs.handle 0) ∧ k' = k ∧ dir' = dir ∧ blk' = blk
  | .find _ name, r => r = .found ((dir.lookup name).map efs.handle) ∧ k' = k ∧ dir' = dir ∧ blk' = blk
  | .create _ name, r => r = .inode (efs.handle k) ∧ k' = k + 1 ∧ dir' = dir ++ [(name, k)] ∧
      contentAt efs blk' (efs.handle k) = [] ∧ ∀ id < k, id ≠ 0 → Kept efs blk blk' id
  | .link _ old new, r => k' = k ∧ ((dir.lookup old = none ∧ r = .flag false ∧ dir' = dir ∧ blk' = blk) ∨
      ∃ id, dir.lookup old = some id ∧ r = .flag true ∧ dir' = dir ++ [(new, id)] ∧
        ∀ id' < k, id' ≠ 0 → Kept efs blk blk' id')
  | .unlink _ name, r => k' = k ∧ ((dir.lookup name = none ∧ r = .flag false ∧ dir' = dir ∧ blk' = blk) ∨
      ∃ id j, dir.lookup name = some id ∧ dir[j]? = some (name, id) ∧ r = .flag true ∧ dir' = dir.set j dead ∧
        (∀ id' < k, id' ≠ 0 → (id' = id → names dir id ≠ 1) → Kept efs blk blk' id') ∧
        (names dir id = 1 → contentAt efs blk' (efs.handle id) = [] ∧
          ∀ b ∈ efs.treeAt blk id, efs.dataBit blk' b = false))
  | .readAt i off buf, r => r = .bytes (min (off + buf.length) (contentAt efs blk i).length - off)
      (((contentAt efs blk i).drop off).take buf.length ++
        buf.drop (min (off + buf.length) (contentAt efs blk i).length - off)) ∧ k' = k ∧ dir' = dir ∧ blk' = blk
  | .writeAt i _ _, _ => k' = k ∧ dir' = dir ∧ ∀ id < k, id ≠ 0 → efs.handle id ≠ i → Kept efs blk blk' id
  | .clear i, _ => k' = k ∧ dir' = dir ∧ ∀ id < k, id ≠ 0 → efs.handle id ≠ i → Kept efs blk blk' id

/-- Where a run of such calls is. -/
structure FitAt (efs : EasyFileSystem) (dev : BlockDevice Block) (m : Cached Block) (hs : List Inode) (s : Store Block)
    (k : Nat) (dir : List Entry) : Prop where
  here : At efs dev m s
  ns : Namespace efs dev.size s.blk k dir
  handles : ∀ h ∈ hs, ∃ id < k, h = efs.handle id

/-- The same where no name is there twice. -/
structure NamesAt (efs : EasyFileSystem) (dev : BlockDevice Block) (m : Cached Block) (hs : List Inode) (s : Store Block)
    (k : Nat) (dir : List Entry) : Prop where
  here : At efs dev m s
  ns : Namespace efs dev.size s.blk k dir
  apart : NamesApart dir
  handles : ∀ h ∈ hs, ∃ id < k, h = efs.handle id

section Runs

variable {efs : EasyFileSystem} {dev : BlockDevice Block} {m m' : Cached Block} {hs : List Inode} {s : Store Block}
  {k id : Nat} {dir : List Entry}

/-- A file is written or cleared. -/
theorem Namespace.file {size : Nat} {blk blk₁ : Nat → Block} {d : DiskInode} (h : Namespace efs size blk k dir)
    (hid : id < k) (hne : id ≠ 0) (hs : TreeStep efs (efs.inodeAt blk id) blk d blk₁)
    (hl : d.linkNum = (efs.inodeAt blk id).linkNum) :
    Namespace efs size (storeInode efs blk blk₁ id d) k dir ∧
      ∀ id' < k, id' ≠ id → Kept efs blk (storeInode efs blk blk₁ id d) id' := by
  have hst := hs.inodeStep h.toWf hid
  refine ⟨⟨h.toListing.store hid hne hs, fun id' h0 hid' => ?_, h.bound⟩, fun id' hid' hne' => hst.keeps h.toWf hid' hne'⟩
  by_cases e : id' = id
  · rw [e, inodeAt_storeInode_self hs.fits, hl]
    exact h.links id (by omega) hid
  · rw [hst.others id' (Nat.lt_of_lt_of_le hid' h.slots) e]
    exact h.links id' h0 hid'

/-- A read that returned got the content, whether or not all blocks of the file are on the device. -/
theorem readAt_returned {s' : Store Block} (hi : Idle efs s) (hw : Wf efs s.blk k) (hid : id < k) {off : Nat} {buf : List UInt8}
    {x : Nat × List UInt8} (h : (Inode.readAt efs (efs.handle id) off buf).run s = .ok (x, s')) :
    x = (min (off + buf.length) (contentAt efs s.blk (efs.handle id)).length - off,
      ((contentAt efs s.blk (efs.handle id)).drop off).take buf.length ++
        buf.drop (min (off + buf.length) (contentAt efs s.blk (efs.handle id)).length - off)) := by
  obtain ⟨s₁, h1, -⟩ := withMutex_ok h
  obtain ⟨-, s₂, h2, -⟩ := readDiskInode_ok h1
  have h64 : off + buf.length < 2 ^ 64 := (run_assert_bind_ok.mp h2).1
  have hslot := Nat.lt_of_lt_of_le hid hw.slots
  have hbig : s.size ≤ max s.size (2 ^ 32) := Nat.le_max_left _ _
  have ho := (hi.lock.open_inode hslot).grow hbig
  have hlen : (contentAt efs s.blk (efs.handle id)).length = (efs.inodeAt s.blk id).size := length_content _ _
  have hrd := readAt_run (s := { ({ s with busy := true } : Store Block).pin (efs.inodeBlock id) with
    size := max s.size (2 ^ 32) }) (hw.small id hid) (fun b hb => ho.dataFree (hw.inData id hid b hb) (by
      have := hw.u32 id hid b hb
      exact Nat.lt_of_lt_of_le this (Nat.le_max_right _ _))) h64
  obtain ⟨he, -⟩ := run_of_grow (g := s.blk) h2 hbig hrd
  rw [he, hlen]
  rfl

theorem FitAt.nsAt (h : FitAt efs dev m hs s k dir) : Namespace efs s.size s.blk k dir := by
  rw [h.here.size]
  exact h.ns

theorem FitAt.call (h : FitAt efs dev m hs s k dir) {call : Call} {r : Ret} (hc : FitCall efs s.blk call)
    (hslot : InSlots efs s.blk call) (hself : ∀ i, call.self? = some i → i ∈ hs)
    (hr : runCached (call.exec efs) m = .ok (r, m')) :
    ∃ s' k' dir', FitAt efs dev m' (r.handles ++ hs) s' k' dir' ∧ NameStep efs s.blk s'.blk k k' dir dir' call r := by
  obtain ⟨s', h1, h2⟩ := h.here.call hr
  have hi := h.here.idle
  have hns := h.ns
  rw [← h.here.size] at hns
  have hpos := hns.pos
  cases call with
  | root =>
    obtain ⟨ino, s₁, h3, h1⟩ := run_bind_ok.mp h1
    cases h1
    rw [root_returns hi (Nat.lt_of_lt_of_le hpos hns.slots)] at h3
    cases h3
    refine ⟨_, k, dir, ⟨h2 _ rfl, h.ns, fun i hmem => ?_⟩, rfl, rfl, rfl, rfl⟩
    rcases List.mem_cons.mp hmem with rfl | hmem
    · exact ⟨0, hpos, rfl⟩
    · exact h.handles i hmem
  | find i name =>
    obtain ⟨o, s₁, h3, h1⟩ := run_bind_ok.mp h1
    cases h1
    obtain rfl : i = efs.handle 0 := hc
    rw [find_run hns.toRootDir hns.ok hi hns.toWf hpos (Nat.le_of_lt hns.below) name] at h3
    cases h3
    refine ⟨_, k, dir, ⟨h2 _ rfl, h.ns, fun i hmem => ?_⟩, rfl, rfl, rfl, rfl⟩
    cases hl : dir.lookup name with
    | none =>
      rw [hl] at hmem
      exact h.handles i hmem
    | some id =>
      rw [hl] at hmem
      rcases List.mem_cons.mp hmem with rfl | hmem
      · exact ⟨id, hns.ok.lookup_lt hl, rfl⟩
      · exact h.handles i hmem
  | create i name =>
    obtain ⟨ino, s₁, h3, h1⟩ := run_bind_ok.mp h1
    cases h1
    obtain ⟨rfl, hv⟩ := hc
    obtain ⟨rfl, blk', rfl, hns', hempty, hkept⟩ := hns.create hi hv hslot h3
    rw [h.here.size] at hns'
    refine ⟨_, k + 1, _, ⟨h2 _ rfl, hns', fun i hmem => ?_⟩, rfl, rfl, rfl, hempty, hkept⟩
    rcases List.mem_cons.mp hmem with rfl | hmem
    · exact ⟨k, Nat.lt_succ_self k, rfl⟩
    · obtain ⟨id, hid, rfl⟩ := h.handles i hmem
      exact ⟨id, Nat.lt_succ_of_lt hid, rfl⟩
  | link i old new =>
    obtain ⟨b, s₁, h3, h1⟩ := run_bind_ok.mp h1
    cases h1
    obtain ⟨rfl, hold⟩ := hc
    rcases hns.link hi (fun id hl => hold id (hns.resolves_iff.mpr hl)) h3 with
      ⟨hl, rfl, rfl⟩ | ⟨id, blk', hl, rfl, rfl, hns', hkept⟩
    · exact ⟨_, k, dir, ⟨h2 _ rfl, h.ns, h.handles⟩, rfl, .inl ⟨hl, rfl, rfl, rfl⟩⟩
    · rw [h.here.size] at hns'
      exact ⟨_, k, _, ⟨h2 _ rfl, hns', h.handles⟩, rfl, .inr ⟨id, hl, rfl, rfl, hkept⟩⟩
  | unlink i name =>
    obtain ⟨b, s₁, h3, h1⟩ := run_bind_ok.mp h1
    cases h1
    obtain ⟨rfl, hlive⟩ := hc
    rcases hns.unlink hi (fun id hl => hlive id (hns.resolves_iff.mpr hl)) h3 with
      ⟨hl, rfl, rfl⟩ | ⟨id, j, blk', hl, hj, rfl, rfl, hns', hkept, hlast⟩
    · exact ⟨_, k, dir, ⟨h2 _ rfl, h.ns, h.handles⟩, rfl, .inl ⟨hl, rfl, rfl, rfl⟩⟩
    · rw [h.here.size] at hns'
      exact ⟨_, k, _, ⟨h2 _ rfl, hns', h.handles⟩, rfl, .inr ⟨id, j, hl, hj, rfl, rfl, hkept, hlast⟩⟩
  | readAt i off buf =>
    obtain ⟨x, s₁, h3, h1⟩ := run_bind_ok.mp h1
    cases h1
    obtain rfl := (readOnly_inodeReadAt i off buf).run_eq h3
    obtain ⟨id, hid, rfl⟩ := h.handles i (hself i rfl)
    refine ⟨_, k, dir, ⟨h2 _ rfl, h.ns, h.handles⟩, ?_, rfl, rfl, rfl⟩
    rw [readAt_returned hi hns.toWf hid h3]
  | writeAt i off buf =>
    obtain ⟨n, s₁, h3, h1⟩ := run_bind_ok.mp h1
    cases h1
    obtain ⟨id, hid, rfl⟩ := h.handles i (hself i rfl)
    obtain ⟨d', blkg, blk₁, rfl, -, hgw⟩ := writeAt_step hi hns.toWf hid h3
    obtain ⟨hns', hkept⟩ := h.ns.file hid (fun e => hc (by rw [e])) hgw.step hgw.linkNum_eq
    exact ⟨_, k, dir, ⟨h2 _ rfl, hns', h.handles⟩, rfl, rfl, fun id' hid' _ hne => hkept id' hid' fun e => hne (by rw [e])⟩
  | clear i =>
    obtain ⟨u, s₁, h3, h1⟩ := run_bind_ok.mp h1
    cases h1
    obtain ⟨id, hid, rfl⟩ := h.handles i (hself i rfl)
    obtain ⟨d', blk₁, rfl, hcl⟩ := clear_step hi hns.toWf hid h3
    obtain ⟨hns', hkept⟩ := h.ns.file hid (fun e => hc (by rw [e])) hcl.treeStep hcl.linkNum
    exact ⟨_, k, dir, ⟨h2 _ rfl, hns', h.handles⟩, rfl, rfl, fun id' hid' _ hne => hkept id' hid' fun e => hne (by rw [e])⟩

/-- A valid name is not that of a dead entry. -/
theorem Listing.resolves_pos {size : Nat} {blk : Nat → Block} {name : String} (h : Listing efs size blk k dir) (hn : name ≠ "")
    (hr : Resolves efs blk name id) : 0 < id :=
  h.ok.lookup_pos (h.resolves_iff.mp hr) hn

theorem NameCall.fitCall {size : Nat} {blk : Nat → Block} {call : Call} (hc : NameCall efs blk call)
    (h : Listing efs size blk k dir) : FitCall efs blk call := by
  cases call with
  | root => exact hc
  | find i name => exact hc
  | create i name => exact ⟨hc.1, hc.2.1.toNameFits⟩
  | link i old new => exact ⟨hc.1, fun id hr => ⟨h.resolves_pos hc.2.1.ne hr, hc.2.2.1.toNameFits⟩⟩
  | unlink i name => exact ⟨hc.1, fun id hr => h.resolves_pos hc.2.ne hr⟩
  | readAt i off buf => exact hc
  | writeAt i off buf => exact hc
  | clear i => exact hc

/-- Names stay apart when the new ones are absent. -/
theorem NamesApart.call {size k' : Nat} {blk blk' : Nat → Block} {dir' : List Entry} {call : Call} {r : Ret}
    (ha : NamesApart dir) (h : Listing efs size blk k dir) (hc : NameCall efs blk call)
    (hstep : NameStep efs blk blk' k k' dir dir' call r) : NamesApart dir' := by
  cases call with
  | root =>
    obtain ⟨-, -, rfl, -⟩ := hstep
    exact ha
  | find i name =>
    obtain ⟨-, -, rfl, -⟩ := hstep
    exact ha
  | create i name =>
    obtain ⟨-, -, rfl, -⟩ := hstep
    exact ha.append (p := (name, k)) hc.2.1.ne (h.absent_iff.mp hc.2.2)
  | link i old new =>
    obtain ⟨-, ⟨-, -, rfl, -⟩ | ⟨id, -, -, rfl, -⟩⟩ := hstep
    · exact ha
    · exact ha.append (p := (new, id)) hc.2.2.1.ne (h.absent_iff.mp hc.2.2.2)
  | unlink i name =>
    obtain ⟨-, ⟨-, -, rfl, -⟩ | ⟨id, j, -, -, -, rfl, -⟩⟩ := hstep
    · exact ha
    · exact ha.erase j
  | readAt i off buf =>
    obtain ⟨-, -, rfl, -⟩ := hstep
    exact ha
  | writeAt i off buf =>
    obtain ⟨-, rfl, -⟩ := hstep
    exact ha
  | clear i =>
    obtain ⟨-, rfl, -⟩ := hstep
    exact ha

theorem NamesAt.fitAt (h : NamesAt efs dev m hs s k dir) : FitAt efs dev m hs s k dir := ⟨h.here, h.ns, h.handles⟩

theorem NamesAt.call (h : NamesAt efs dev m hs s k dir) {call : Call} {r : Ret} (hc : NameCall efs s.blk call)
    (hslot : InSlots efs s.blk call) (hself : ∀ i, call.self? = some i → i ∈ hs)
    (hr : runCached (call.exec efs) m = .ok (r, m')) :
    ∃ s' k' dir', NamesAt efs dev m' (r.handles ++ hs) s' k' dir' ∧ NameStep efs s.blk s'.blk k k' dir dir' call r := by
  obtain ⟨s', k', dir', hf, hstep⟩ := h.fitAt.call (hc.fitCall h.ns.toListing) hslot hself hr
  exact ⟨s', k', dir', ⟨hf.here, hf.ns, h.apart.call h.ns.toListing hc hstep, hf.handles⟩, hstep⟩

/-- A new file system has no names. -/
theorem namesAt_start {total ibb : Nat} (ht : total < 2 ^ 32) (hslot : 0 < (layout .ch6 total ibb).slots)
    (h : runCached (EasyFileSystem.create .ch6 total ibb) (boot dev) = .ok (efs, m)) :
    efs = layout .ch6 total ibb ∧ NamesAt efs dev m [] ((flat dev).withBlk (formatted .ch6 total ibb dev.data)) 1 [] := by
  obtain ⟨ha, hi, -, -, rfl, hat⟩ := At.start ht h
  have hfull := formatted_full dev.data ha hi hslot
  have hroot := ha.root_lt hslot
  have hino : (layout .ch6 total ibb).inodeAt (formatted .ch6 total ibb dev.data) 0 =
      DiskInode.init .ch6 ⟨0, fun _ => 0, 0, 0, 0, 0⟩ .directory := inodeAt_formatted_root hi hroot
  have hz : ((layout .ch6 total ibb).inodeAt (formatted .ch6 total ibb dev.data) 0).size = 0 := by
    rw [hino]
    rfl
  have hnil : (layout .ch6 total ibb).treeAt (formatted .ch6 total ibb dev.data) 0 = [] := tree_of_size_zero hz _
  have hdir : RootDir (layout .ch6 total ibb) dev.size (formatted .ch6 total ibb dev.data) [] := by
    refine ⟨?_, content_of_size_zero hz _, fun b hb => ?_⟩
    · rw [hino]
      rfl
    · rw [hnil] at hb
      cases hb
  exact ⟨rfl, hat, ⟨⟨hfull.toWf, hdir, rfl, Nat.one_pos, by norm_num, hfull.inodeBits, .nil 1⟩, fun id h1 h2 => by omega,
    Nat.le_refl 1⟩, .nil, by simp⟩

/-- Between any two calls of a run the names, the link counts and the inode bitmap agree. -/
theorem namesAt_run {total ibb : Nat} {G : EasyFileSystem → (Nat → Block) → Call → Prop}
    (hG : ∀ efs blk call, G efs blk call → NameCall efs blk call ∧ InSlots efs blk call) (ht : total < 2 ^ 32)
    (hslot : 0 < (layout .ch6 total ibb).slots) (h : FsRun .ch6 total ibb dev G efs m hs) :
    ∃ s k dir, NamesAt efs dev m hs s k dir := by
  induction h with
  | start h0 => exact ⟨_, _, _, (namesAt_start ht hslot h0).2⟩
  | step _ hself hg hr ih =>
    obtain ⟨s, k, dir, hn⟩ := ih
    rw [hn.here.dev_eq] at hg
    obtain ⟨s', k', dir', hn', -⟩ := hn.call (hG _ _ _ hg).1 (hG _ _ _ hg).2 hself hr
    exact ⟨s', k', dir', hn'⟩

/-- A name is taken, when the blocks that go with it are on the device. -/
theorem NamesAt.take (h : NamesAt efs dev m hs s k dir) {name : String} {id : Nat} (hv : ValidName name)
    (hl : dir.lookup name = some id) (hroot : efs.handle 0 ∈ hs)
    (hdev : names dir id = 1 → ∀ b ∈ efs.treeAt s.blk id, b < dev.size) :
    ∃ m' s' j, runCached ((Call.unlink (efs.handle 0) name).exec efs) m = .ok (.flag true, m') ∧ dir[j]? = some (name, id) ∧
      NamesAt efs dev m' hs s' k (dir.set j dead) ∧
      ∀ id' < k, id' ≠ 0 → (id' = id → names dir id ≠ 1) → Kept efs s.blk s'.blk id' := by
  rw [← h.here.size] at hdev
  obtain ⟨blk', hu⟩ := h.fitAt.nsAt.unlink_returns h.here.idle hl (h.ns.ok.lookup_pos hl hv.ne) hdev
  obtain ⟨m', hm', -⟩ := h.here.returns (.unlink (efs.handle 0) name) (r := .flag true) ((run_bind_of hu).trans rfl)
  have hc : NameCall efs s.blk (.unlink (efs.handle 0) name) := ⟨rfl, hv⟩
  obtain ⟨s', k', dir', hn, hstep⟩ := h.call hc trivial (fun i hi => by cases hi; exact hroot) hm'
  obtain ⟨rfl, ⟨hnone, -⟩ | ⟨id', j, hl', hj, -, rfl, hkept, -⟩⟩ := hstep
  · rw [hl] at hnone
    cases hnone
  · rw [hl] at hl'
    cases hl'
    exact ⟨m', s', j, hm', hj, hn, hkept⟩

/-! ## A first file -/

/-- A device of 1200 blocks with one inode bitmap block, for chapter 6's inodes. -/
theorem small_names : Accepts .ch6 1200 1 ∧ (layout .ch6 1200 1).slots = 3168 ∧ Roomy (layout .ch6 1200 1) 1200 := by
  have harea : areaBlocks .ch6 1 = 1056 := rfl
  have hbits : bitmapBlocks .ch6 1200 1 = 1 := rfl
  have hstart : (layout .ch6 1200 1).dataAreaStartBlock = 1059 := rfl
  have hdata : (layout .ch6 1200 1).dataBitmap.maximum = 4096 := rfl
  exact ⟨⟨by norm_num, by rw [harea]; norm_num, by rw [harea]; norm_num⟩, by rw [layout_slots, harea]; rfl, by omega, by omega,
    by omega⟩

/-- A root directory without a block has no entries. -/
theorem FitAt.of_bare {s' : Store Block} {k' : Nat} {l : List Nat} (h : FitAt efs dev m hs s k dir)
    (hb : Bare efs dev m s' k' l) (hk : k' < efs.inodeBitmap.maximum) (hz : (efs.inodeAt s'.blk 0).size = 0) :
    k = k' ∧ dir = [] := by
  have hblk : s'.blk = s.blk := hb.here.dev_eq.symm.trans h.here.dev_eq
  have hn := hb.next hk
  rw [hblk] at hn hz
  rw [h.ns.toRootDir.size_eq] at hz
  exact ⟨(h.ns.next_eq hn).symm, List.eq_nil_of_length_eq_zero (by omega)⟩

theorem validName_f : ValidName "f" := by
  have hb : strBytes "f" = [102] := rfl
  refine ⟨⟨?_, ?_⟩, by decide⟩
  · rw [hb]
    norm_num
  · rw [hb]
    simp

theorem validName_g : ValidName "g" := by
  have hb : strBytes "g" = [103] := rfl
  refine ⟨⟨?_, ?_⟩, by decide⟩
  · rw [hb]
    norm_num
  · rw [hb]
    simp

/-- The small device after `create` of a file. -/
theorem first_file {G : EasyFileSystem → (Nat → Block) → Call → Prop}
    (hroot : ∀ blk, G (layout .ch6 1200 1) blk .root)
    (hcreate : ∀ blk, Absent (layout .ch6 1200 1) blk "f" → (∀ id, NextInode (layout .ch6 1200 1) blk id → id < 3168) →
      G (layout .ch6 1200 1) blk (.create ((layout .ch6 1200 1).handle 0) "f")) :
    ∃ m hs s, FsRun .ch6 1200 1 ⟨1200, fun _ => Blk.zero 512⟩ G (layout .ch6 1200 1) m hs ∧
      hs.length = 2 ∧ (layout .ch6 1200 1).handle 0 ∈ hs ∧
      NamesAt (layout .ch6 1200 1) ⟨1200, fun _ => Blk.zero 512⟩ m hs s 2 [("f", 1)] ∧
      contentAt (layout .ch6 1200 1) s.blk ((layout .ch6 1200 1).handle 1) = [] := by
  obtain ⟨ha, hslots, hr⟩ := small_names
  have hmax : (layout .ch6 1200 1).inodeBitmap.maximum = 4096 := rfl
  -- the run under the conditions that the invariant needs, next to the one under `G`
  obtain ⟨m, s, hrun, hb, hz⟩ := root_run
    (G := fun efs blk call => (NameCall efs blk call ∧ InSlots efs blk call) ∧
      (efs = layout .ch6 1200 1 → G efs blk call))
    ⟨1200, fun _ => Blk.zero 512⟩ ha (by norm_num) rfl (by omega) fun blk => ⟨⟨trivial, trivial⟩, fun _ => hroot blk⟩
  obtain ⟨s₀, k₀, dir₀, hn⟩ := namesAt_run (fun _ _ _ h => h.1) (by norm_num) (by omega) hrun
  obtain ⟨rfl, rfl⟩ := hn.fitAt.of_bare hb (by omega) hz
  obtain ⟨m', s', b, hc, -⟩ := hb.create hr (by omega) (by omega) (by omega) hz "f" (by decide)
  have habs : Absent (layout .ch6 1200 1) s₀.blk "f" := hn.ns.absent_iff.mpr rfl
  have hnext : ∀ id, NextInode (layout .ch6 1200 1) s₀.blk id → id < 3168 := by
    intro id hid
    rw [hn.ns.next_eq hid]
    norm_num
  have hself : ∀ i, (Call.create ((layout .ch6 1200 1).handle 0) "f").self? = some i →
      i ∈ [(layout .ch6 1200 1).handle 0] := fun i hi => by simpa [Call.self?, eq_comm] using hi
  have hcall : NameCall (layout .ch6 1200 1) s₀.blk (.create ((layout .ch6 1200 1).handle 0) "f") :=
    ⟨rfl, validName_f, habs⟩
  obtain ⟨s₁, k₁, dir₁, hn₁, hstep⟩ := hn.call hcall (fun id hid => by rw [hslots]; exact hnext id hid) hself hc
  obtain ⟨-, rfl, rfl, hempty, -⟩ := hstep
  have hrun' : FsRun .ch6 1200 1 ⟨1200, fun _ => Blk.zero 512⟩ G (layout .ch6 1200 1) m [(layout .ch6 1200 1).handle 0] :=
    hrun.mono fun _ _ h => h.2 rfl
  exact ⟨m', _, s₁, hrun'.step hself (by rw [hn.here.dev_eq]; exact hcreate _ habs hnext) hc, rfl,
    by simp [Ret.handles], hn₁, hempty⟩

/-- The small device after the file got a second name. -/
theorem linked_file {G : EasyFileSystem → (Nat → Block) → Call → Prop}
    (hroot : ∀ blk, G (layout .ch6 1200 1) blk .root)
    (hcreate : ∀ blk, Absent (layout .ch6 1200 1) blk "f" → (∀ id, NextInode (layout .ch6 1200 1) blk id → id < 3168) →
      G (layout .ch6 1200 1) blk (.create ((layout .ch6 1200 1).handle 0) "f"))
    (hlink : ∀ blk, Absent (layout .ch6 1200 1) blk "g" →
      G (layout .ch6 1200 1) blk (.link ((layout .ch6 1200 1).handle 0) "f" "g")) :
    ∃ m hs s, FsRun .ch6 1200 1 ⟨1200, fun _ => Blk.zero 512⟩ G (layout .ch6 1200 1) m hs ∧
      hs.length = 2 ∧ (layout .ch6 1200 1).handle 0 ∈ hs ∧
      NamesAt (layout .ch6 1200 1) ⟨1200, fun _ => Blk.zero 512⟩ m hs s 2 [("f", 1), ("g", 1)] ∧
      contentAt (layout .ch6 1200 1) s.blk ((layout .ch6 1200 1).handle 1) = [] := by
  obtain ⟨m, hs, s, hrun, hlen, hself, hn, hempty⟩ := first_file hroot hcreate
  have habs : Absent (layout .ch6 1200 1) s.blk "g" := hn.ns.absent_iff.mpr (by decide)
  have hreturns : ∃ blk', (Inode.link (layout .ch6 1200 1) ((layout .ch6 1200 1).handle 0) "f" "g").run s =
      .ok (true, s.withBlk blk') := hn.fitAt.nsAt.link_returns hn.here.idle rfl Nat.one_pos (by decide) (by decide)
  obtain ⟨blk', hl⟩ := hreturns
  obtain ⟨m', hm', -⟩ := hn.here.returns (.link ((layout .ch6 1200 1).handle 0) "f" "g") (r := .flag true)
    ((run_bind_of hl).trans rfl)
  have hin : ∀ i, (Call.link ((layout .ch6 1200 1).handle 0) "f" "g").self? = some i → i ∈ hs := fun i hi => by
    cases hi
    exact hself
  have hcall : NameCall (layout .ch6 1200 1) s.blk (.link ((layout .ch6 1200 1).handle 0) "f" "g") :=
    ⟨rfl, validName_f, validName_g, habs⟩
  obtain ⟨s', k', dir', hn', hstep⟩ := hn.call hcall trivial hin hm'
  obtain ⟨rfl, ⟨hnone, -⟩ | ⟨id, hid, -, rfl, hkept⟩⟩ := hstep
  · cases hnone
  cases hid
  exact ⟨m', _, s', hrun.step hin (by rw [hn.here.dev_eq]; exact hlink _ habs) hm', hlen, hself, hn',
    (hkept 1 (by norm_num) (by norm_num)).content.trans hempty⟩

/-- The small device after the first of the two names went. -/
theorem renamed_file {G : EasyFileSystem → (Nat → Block) → Call → Prop}
    (hroot : ∀ blk, G (layout .ch6 1200 1) blk .root)
    (hcreate : ∀ blk, Absent (layout .ch6 1200 1) blk "f" → (∀ id, NextInode (layout .ch6 1200 1) blk id → id < 3168) →
      G (layout .ch6 1200 1) blk (.create ((layout .ch6 1200 1).handle 0) "f"))
    (hlink : ∀ blk, Absent (layout .ch6 1200 1) blk "g" →
      G (layout .ch6 1200 1) blk (.link ((layout .ch6 1200 1).handle 0) "f" "g"))
    (hunlink : ∀ {dev m hs s}, NamesAt (layout .ch6 1200 1) dev m hs s 2 [("f", 1), ("g", 1)] →
      G (layout .ch6 1200 1) s.blk (.unlink ((layout .ch6 1200 1).handle 0) "f")) :
    ∃ m hs s, FsRun .ch6 1200 1 ⟨1200, fun _ => Blk.zero 512⟩ G (layout .ch6 1200 1) m hs ∧
      hs.length = 2 ∧ (layout .ch6 1200 1).handle 0 ∈ hs ∧
      NamesAt (layout .ch6 1200 1) ⟨1200, fun _ => Blk.zero 512⟩ m hs s 2 [dead, ("g", 1)] ∧
      contentAt (layout .ch6 1200 1) s.blk ((layout .ch6 1200 1).handle 1) = [] := by
  obtain ⟨m, hs, s, hrun, hlen, hself, hn, hempty⟩ := linked_file hroot hcreate hlink
  obtain ⟨m', s', j, hm', hj, hn', hkept⟩ := hn.take validName_f
    (show List.lookup "f" [("f", 1), ("g", 1)] = some 1 from rfl) hself fun h => absurd h (by decide)
  obtain rfl := hn.apart.distinct j 0 _ _ hj rfl rfl (by decide)
  have hin : ∀ i, (Call.unlink ((layout .ch6 1200 1).handle 0) "f").self? = some i → i ∈ hs := fun i hi => by
    cases hi
    exact hself
  exact ⟨m', _, s', hrun.step hin (by rw [hn.here.dev_eq]; exact hunlink hn) hm', hlen, hself, hn',
    (hkept 1 (by norm_num) (by norm_num) fun _ => by decide).content.trans hempty⟩

end Runs

end TgRcore.EasyFs
