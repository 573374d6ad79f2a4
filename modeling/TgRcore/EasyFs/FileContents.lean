/-
  TgRcore.EasyFs.FileContents — files as byte strings, for the base easy-fs.

  `FileSpec` is the meaning of the calls on files: each handle stands for a byte string,
  `create` makes an empty one, `clear` empties one, `write_at` overwrites part of one and
  extends it with zeros where needed, `read_at` returns part of one, and no call changes
  another one.
  - `Solid`: what the device must satisfy for this: all blocks of a file are on the
    device, and the unused end of its last block is zero.
  - `file_contents`: every call of a run meets `FileSpec`, and reads always return.
-/

import TgRcore.EasyFs.Growth
import TgRcore.EasyFs.BlockOwners

namespace TgRcore.EasyFs

open TgRcore.Bytes TgRcore.BlockProg TgRcore.BlockProg.Prog

/-! ## The meaning of the calls -/

/-- The byte string that handle `h` stands for on the disk `blk`. -/
def contentAt (efs : EasyFileSystem) (blk : Nat → Block) (h : Inode) : List UInt8 :=
  content (DiskInode.load efs.crate (blk h.blockId) h.blockOffset) blk

/-- What a call may do to the files `f`; `hs` are the handles handed out before it. -/
def FileSpec (f f' : Inode → List UInt8) (hs : List Inode) : Call → Ret → Prop
  | .root, r => (∃ h, r = .inode h) ∧ ∀ x ∈ hs, f' x = f x
  | .create i _, r => (∃ h, r = .inode h ∧ h ∉ hs ∧ f' h = []) ∧ ∀ x ∈ hs, x ≠ i → f' x = f x
  | .readAt i off buf, r =>
    r = .bytes (min (off + buf.length) (f i).length - off)
      (((f i).drop off).take buf.length ++ buf.drop (min (off + buf.length) (f i).length - off)) ∧ ∀ x ∈ hs, f' x = f x
  | .writeAt i off buf, r => r = .count buf.length ∧ f' i = overwrite (f i) off buf ∧ ∀ x ∈ hs, x ≠ i → f' x = f x
  | .clear i, r => r = .done ∧ f' i = [] ∧ ∀ x ∈ hs, x ≠ i → f' x = f x
  | _, _ => False

/-- Files are made in the root directory; writes and clears are for files, and a write is
    of a non-empty buffer that ends below 2^32. -/
def FileOp (efs : EasyFileSystem) : Call → Prop
  | .root => True
  | .create i _ => i = efs.handle 0
  | .readAt _ _ _ => True
  | .writeAt i off buf => i ≠ efs.handle 0 ∧ buf ≠ [] ∧ off + buf.length < 2 ^ 32
  | .clear i => i ≠ efs.handle 0
  | _ => False

/-! ## Blocks on the device -/

structure Solid (efs : EasyFileSystem) (size : Nat) (blk : Nat → Block) (k : Nat) : Prop where
  device : ∀ id < k, ∀ b ∈ efs.treeAt blk id, b < size
  slack : ∀ id < k, SlackZero (efs.inodeAt blk id) blk

section

variable {efs : EasyFileSystem} {blk blk₁ blk' : Nat → Block} {k id size : Nat} {d : DiskInode}

theorem slackZero_congr (hs : d.dataBlocks ≤ 16540) (h : ∀ b ∈ tree d blk, blk' b = blk b) (hz : SlackZero d blk) :
    SlackZero d blk' := by
  intro i h1 h2
  rw [fileByte_congr hs h (by omega)]
  exact hz i h1 h2

theorem slackZero_of_size_zero (h : d.size = 0) (blk : Nat → Block) : SlackZero d blk := by
  intro i _ h2
  unfold DiskInode.dataBlocks at h2
  rw [h] at h2
  simp [DiskInode.dataBlocksOf] at h2

theorem content_of_size_zero (h : d.size = 0) (blk : Nat → Block) : content d blk = [] := by
  rw [content, h]
  rfl

theorem InodeStep.content_eq (hw : Wf efs blk k) (h : InodeStep efs blk blk' k id) {id' : Nat} (hid' : id' < k)
    (hne : id' ≠ id) : contentAt efs blk' (efs.handle id') = contentAt efs blk (efs.handle id') := by
  show content (efs.inodeAt blk' id') blk' = content (efs.inodeAt blk id') blk
  rw [h.others id' (Nat.lt_of_lt_of_le hid' hw.slots) hne]
  exact content_congr (hw.small id' hid') (h.kept id' hid' hne)

theorem Solid.step (h : Solid efs size blk k) (hw : Wf efs blk k) (hid : id < k)
    (hs : TreeStep efs (efs.inodeAt blk id) blk d blk₁) (hdev : ∀ b ∈ tree d blk₁, b < size) (hz : SlackZero d blk₁) :
    Solid efs size (storeInode efs blk blk₁ id d) k := by
  have hst := hs.inodeStep hw hid
  refine ⟨fun i hi b hb => ?_, fun i hi => ?_⟩
  · by_cases e : i = id
    · subst e
      rw [hs.treeAt_self hw hid] at hb
      exact hdev b hb
    · rw [hst.treeAt hw hi e] at hb
      exact h.device i hi b hb
  · by_cases e : i = id
    · subst e
      rw [inodeAt_storeInode_self hs.fits]
      refine slackZero_congr hs.small (fun b hb => storeInode_of_ne ?_) hz
      have h1 := (hs.inData hw hid hb).le
      have h2 := hw.geo.dataArea
      exact hw.geo.ne_inodeBlock (Nat.lt_of_lt_of_le hid hw.slots) (by omega)
    · rw [hst.others i (Nat.lt_of_lt_of_le hi hw.slots) e]
      exact slackZero_congr (hw.small i hi) (hst.kept i hi e) (h.slack i hi)

/-- The content of the inode that was stored. -/
theorem TreeStep.content_self (hw : Wf efs blk k) (hid : id < k) (hs : TreeStep efs (efs.inodeAt blk id) blk d blk₁) :
    contentAt efs (storeInode efs blk blk₁ id d) (efs.handle id) = content d blk₁ := by
  show content (efs.inodeAt (storeInode efs blk blk₁ id d) id) _ = _
  rw [inodeAt_storeInode_self hs.fits]
  refine content_congr hs.small fun b hb => storeInode_of_ne ?_
  have h1 := (hs.inData hw hid hb).le
  have h2 := hw.geo.dataArea
  exact hw.geo.ne_inodeBlock (Nat.lt_of_lt_of_le hid hw.slots) (by omega)

section NewInode

variable {i : Nat} (hw : Wf efs blk k) (hi : i < efs.inodeBitmap.maximum) (hs : asU32 i < efs.slots)

include hw hi hs

theorem newInode_tree (hid : id < k) : ∀ b ∈ efs.treeAt blk id, newInode efs blk i b = blk b := fun b hb => by
  have h1 := (hw.inData id hid b hb).le
  have h2 := hw.geo.dataArea
  exact newInode_data hw.geo hi hs (.inr (by omega))

theorem contentAt_newInode (hid : id < k) (hne : id ≠ asU32 i) :
    contentAt efs (newInode efs blk i) (efs.handle id) = contentAt efs blk (efs.handle id) := by
  show content (efs.inodeAt (newInode efs blk i) id) _ = content (efs.inodeAt blk id) blk
  rw [inodeAt_newInode_of_ne hw.geo hi hne]
  exact content_congr (hw.small id hid) (newInode_tree hw hi hs hid)

theorem Solid.newInode (h : Solid efs size blk k) : Solid efs size (newInode efs blk i) k := by
  refine ⟨fun id hid b hb => ?_, fun id hid => ?_⟩
  · by_cases e : id = asU32 i
    · subst e
      have hz : efs.treeAt (EasyFs.newInode efs blk i) (asU32 i) = [] :=
        tree_of_size_zero (by rw [inodeAt_newInode_self blk hw.geo hi]; rfl) _
      rw [hz] at hb
      cases hb
    · have ht : efs.treeAt (EasyFs.newInode efs blk i) id = efs.treeAt blk id := by
        unfold EasyFileSystem.treeAt
        rw [inodeAt_newInode_of_ne hw.geo hi e]
        exact tree_congr (hw.small id hid) (newInode_tree hw hi hs hid)
      rw [ht] at hb
      exact h.device id hid b hb
  · by_cases e : id = asU32 i
    · subst e
      exact slackZero_of_size_zero (by rw [inodeAt_newInode_self blk hw.geo hi]; rfl) _
    · rw [inodeAt_newInode_of_ne hw.geo hi e]
      exact slackZero_congr (hw.small id hid) (newInode_tree hw hi hs hid) (h.slack id hid)

end NewInode

/-- One more inode, which is empty. -/
theorem Solid.succ (h : Solid efs size blk k) (hz : (efs.inodeAt blk k).size = 0) : Solid efs size blk (k + 1) := by
  refine ⟨fun id hid b hb => ?_, fun id hid => ?_⟩
  · rcases Nat.lt_succ_iff_lt_or_eq.mp hid with h1 | rfl
    · exact h.device id h1 b hb
    · rw [show efs.treeAt blk id = [] from tree_of_size_zero hz _] at hb
      cases hb
  · rcases Nat.lt_succ_iff_lt_or_eq.mp hid with h1 | rfl
    · exact h.slack id h1
    · exact slackZero_of_size_zero hz _

end

/-- A read of a file whose blocks are on the device returns, whatever is asked for. -/
theorem readAt_content {efs : EasyFileSystem} {s : Store Block} {k id : Nat} (hi : Idle efs s) (hw : Wf efs s.blk k)
    (hid : id < k) (hdev : ∀ b ∈ efs.treeAt s.blk id, b < s.size) (off : Nat) (buf : List UInt8)
    (h64 : off + buf.length < 2 ^ 64) :
    (Inode.readAt efs (efs.handle id) off buf).run s =
      .ok ((min (off + buf.length) (contentAt efs s.blk (efs.handle id)).length - off,
        ((contentAt efs s.blk (efs.handle id)).drop off).take buf.length ++
          buf.drop (min (off + buf.length) (contentAt efs s.blk (efs.handle id)).length - off)), s) := by
  have hslot := Nat.lt_of_lt_of_le hid hw.slots
  have hl := hi.lock
  have hlen : (contentAt efs s.blk (efs.handle id)).length = (efs.inodeAt s.blk id).size := length_content _ _
  have hrd := readAt_run (s := ({ s with busy := true } : Store Block).pin (efs.inodeBlock id)) (hw.small id hid)
    (fun b hb => (hl.open_inode hslot).dataFree (hw.inData id hid b hb) (hdev b hb)) h64
  rw [hlen]
  exact run_withMutex (g := s.blk) hi.busy (readDiskInode_run (hl.inodeFree hslot) hrd)

/-! ## Runs -/

theorem handle_inj {efs : EasyFileSystem} {id id' : Nat} (h : efs.handle id = efs.handle id') : id = id' := by
  by_contra hne
  have h1 : efs.inodeBlock id = efs.inodeBlock id' := congrArg Inode.blockId h
  have h2 : efs.inodeOff id = efs.inodeOff id' := congrArg Inode.blockOffset h
  have h3 : 0 < efs.crate.inodeSize := by cases efs.crate <;> decide
  have := EasyFileSystem.inodeOff_disjoint hne h1
  omega

/-- Where a run is: `k` inodes, one of them the root directory with an entry for each of
    the others. -/
structure FilesAt (efs : EasyFileSystem) (dev : BlockDevice Block) (m : Cached Block) (hs : List Inode) (s : Store Block)
    (k : Nat) : Prop where
  here : At efs dev m s
  full : Full efs dev.size s.blk k
  solid : Solid efs dev.size s.blk k
  pos : 0 < k
  root : (efs.inodeAt s.blk 0).size = 32 * (k - 1)
  handles : ∀ h ∈ hs, ∃ id < k, h = efs.handle id

section Calls

variable {efs : EasyFileSystem} {dev : BlockDevice Block} {m m' : Cached Block} {hs : List Inode} {s s' : Store Block}
  {k id : Nat}

/-- The root directory is full long before inode numbers run out. -/
theorem FilesAt.lt_u32 (h : FilesAt efs dev m hs s k) : k < 2 ^ 32 := by
  have h1 := h.full.small 0 h.pos
  have h2 := h.root
  unfold DiskInode.dataBlocks DiskInode.dataBlocksOf at h1
  omega

/-- Reads return, whatever is asked for. -/
theorem FilesAt.readAt (h : FilesAt efs dev m hs s k) (hid : id < k) (off : Nat) (buf : List UInt8)
    (h64 : off + buf.length < 2 ^ 64) :
    (Inode.readAt efs (efs.handle id) off buf).run s =
      .ok ((min (off + buf.length) (contentAt efs s.blk (efs.handle id)).length - off,
        ((contentAt efs s.blk (efs.handle id)).drop off).take buf.length ++
          buf.drop (min (off + buf.length) (contentAt efs s.blk (efs.handle id)).length - off)), s) :=
  readAt_content h.here.idle h.full.toWf hid (by rw [h.here.size]; exact h.solid.device id hid) off buf h64

/-- A write or a clear of inode `id`. -/
theorem FilesAt.store {hs' : List Inode} {d : DiskInode} {blk₁ : Nat → Block} (h : FilesAt efs dev m hs s k) (hid : id < k)
    (hs : TreeStep efs (efs.inodeAt s.blk id) s.blk d blk₁) (hdev : ∀ b ∈ tree d blk₁, b < dev.size)
    (hz : SlackZero d blk₁) (hroot : id ≠ 0) (hat : At efs dev m' (s.withBlk (storeInode efs s.blk blk₁ id d)))
    (hh : ∀ x ∈ hs', ∃ id < k, x = efs.handle id) :
    FilesAt efs dev m' hs' (s.withBlk (storeInode efs s.blk blk₁ id d)) k ∧
      ∀ x ∈ hs', x ≠ efs.handle id → contentAt efs (storeInode efs s.blk blk₁ id d) x = contentAt efs s.blk x := by
  have hw := h.full.toWf
  have hst := hs.inodeStep hw hid
  refine ⟨⟨hat, h.full.step hid hs, h.solid.step hw hid hs hdev hz, h.pos, ?_, hh⟩, fun x hx hne => ?_⟩
  · rw [Store.withBlk_blk, hst.others 0 (Nat.lt_of_lt_of_le h.pos hw.slots) (Ne.symm hroot)]
    exact h.root
  · obtain ⟨id', hid', rfl⟩ := hh x hx
    exact hst.content_eq hw hid' fun e => hne (by rw [e])

theorem FilesAt.call (h : FilesAt efs dev m hs s k) {call : Call} {r : Ret} (hc : FileOp efs call)
    (hslots : efs.slots = efs.inodeBitmap.maximum) (hself : ∀ i, call.self? = some i → i ∈ hs)
    (hr : runCached (call.exec efs) m = .ok (r, m')) :
    ∃ s' k', FilesAt efs dev m' (r.handles ++ hs) s' k' ∧
      FileSpec (contentAt efs s.blk) (contentAt efs s'.blk) hs call r := by
  obtain ⟨s', h1, h2⟩ := h.here.call hr
  have hw := h.full.toWf
  have hi := h.here.idle
  have hsz := h.here.size
  cases call with
  | root =>
    obtain ⟨ino, s₁, h3, h1⟩ := run_bind_ok.mp h1
    cases h1
    rw [root_returns hi (Nat.lt_of_lt_of_le h.pos hw.slots)] at h3
    cases h3
    refine ⟨_, k, ⟨h2 _ rfl, h.full, h.solid, h.pos, h.root, fun i hmem => ?_⟩, ⟨_, rfl⟩, fun _ _ => rfl⟩
    rcases List.mem_cons.mp hmem with rfl | hmem
    · exact ⟨0, h.pos, rfl⟩
    · exact h.handles i hmem
  | create i name =>
    obtain ⟨ino, s₁, h3, h1⟩ := run_bind_ok.mp h1
    cases h1
    obtain rfl : i = efs.handle 0 := hc
    have hu := h.lt_u32
    have hu' : asU32 k = k := Nat.mod_eq_of_lt hu
    have hB : ∀ i, NextInode efs s.blk i → asU32 i < efs.slots ∧ Wf efs (newInode efs s.blk i) (k + 1) := by
      intro i hn
      obtain rfl := h.full.next_eq hn
      rw [hu', hslots]
      exact ⟨hn.lt, (h.full.newInode hn.lt (by rw [hslots]; exact hn.lt) hu).toWf⟩
    obtain ⟨j, hn, rfl, -, d', blkg, blk₁, rfl, hgw⟩ := create_step hi (k + 1) hB (show 0 < k + 1 by omega) h3
    obtain rfl := h.full.next_eq hn
    obtain ⟨hslot, hw'⟩ := hB j hn
    have hroot : efs.inodeAt (newInode efs s.blk j) 0 = efs.inodeAt s.blk 0 :=
      inodeAt_newInode_of_ne hw.geo hn.lt (by rw [hu']; have := h.pos; omega)
    have hnew : efs.inodeAt (newInode efs s.blk j) j = (efs.inodeAt s.blk j).init efs.crate .file := by
      have := inodeAt_newInode_self s.blk hw.geo hn.lt
      rwa [hu'] at this
    have hlen : (direntBytes name (asU32 j)).length = 32 := length_asBytes _
    have hsolid : Solid efs dev.size (newInode efs s.blk j) (j + 1) :=
      (Solid.newInode hw hn.lt hslot h.solid).succ (by rw [hnew]; rfl)
    have hfull := h.full.newInode hn.lt (by rw [hslots]; exact hn.lt) hu
    rw [hsz] at hgw
    have hgw' := hgw.of_dirent
    have hbuf := direntBytes_ne_nil name (asU32 j)
    have h0 : 0 < j + 1 := by omega
    have ht := hw'.treeOk h0
    have hdev := hsolid.device 0 h0
    have hsl := hsolid.slack 0 h0
    have hst := hgw.step.inodeStep hw' h0
    refine ⟨_, j + 1, ⟨h2 _ rfl, hfull.step h0 hgw.step, hsolid.step hw' h0 hgw.step (hgw'.tree_lt hbuf ht hdev)
      (hgw'.slackZero ht (hgw'.grown_lt hbuf hdev) hsl hfull.zero), h0, ?_, fun x hx => ?_⟩, ⟨_, rfl, fun hmem => ?_, ?_⟩, fun x hx hne => ?_⟩
    · have hsize := hgw'.size_eq
      have := h.root
      have := h.pos
      rw [Store.withBlk_blk, inodeAt_storeInode_self hgw.step.fits, hsize, hlen, hroot]
      omega
    · rcases List.mem_cons.mp hx with rfl | hx
      · exact ⟨j, by omega, by rw [hu']⟩
      · obtain ⟨id, hid, rfl⟩ := h.handles x hx
        exact ⟨id, by omega, rfl⟩
    · obtain ⟨id, hid, e⟩ := h.handles _ hmem
      have := handle_inj e
      omega
    · rw [hu', Store.withBlk_blk, hst.content_eq hw' (by omega) (by have := h.pos; omega)]
      exact content_of_size_zero (by show (efs.inodeAt (newInode efs s.blk j) j).size = 0; rw [hnew]; rfl) _
    · obtain ⟨id, hid, rfl⟩ := h.handles x hx
      rw [Store.withBlk_blk, hst.content_eq hw' (by omega) (fun e => hne (by rw [e])),
        contentAt_newInode hw hn.lt hslot hid (by omega)]
  | readAt i off buf =>
    obtain ⟨x, s₁, h3, h1⟩ := run_bind_ok.mp h1
    cases h1
    obtain ⟨id, hid, rfl⟩ := h.handles i (hself i rfl)
    have h64 : off + buf.length < 2 ^ 64 := by
      obtain ⟨s₃, h4, -⟩ := withMutex_ok h3
      obtain ⟨-, s₂, h5, -⟩ := readDiskInode_ok h4
      exact (run_assert_bind_ok.mp h5).1
    rw [h.readAt hid off buf h64] at h3
    cases h3
    exact ⟨_, k, ⟨h2 _ rfl, h.full, h.solid, h.pos, h.root, h.handles⟩, rfl, fun _ _ => rfl⟩
  | writeAt i off buf =>
    obtain ⟨n, s₁, h3, h1⟩ := run_bind_ok.mp h1
    cases h1
    obtain ⟨id, hid, rfl⟩ := h.handles i (hself i rfl)
    obtain ⟨hne, hbuf, hlt⟩ := hc
    obtain ⟨d', blkg, blk₁, rfl, rfl, hgw⟩ := writeAt_step hi hw hid h3
    rw [show asU32 (off + buf.length) = off + buf.length from Nat.mod_eq_of_lt hlt, hsz] at hgw
    have ht := hw.treeOk hid
    have hdev := h.solid.device id hid
    have hsl := h.solid.slack id hid
    obtain ⟨hf, hframe⟩ := h.store hid hgw.step (hgw.tree_lt hbuf ht hdev)
      (hgw.slackZero ht (hgw.grown_lt hbuf hdev) hsl h.full.zero) (fun e => hne (by rw [e])) (h2 _ rfl) h.handles
    refine ⟨_, k, hf, by rw [hgw.writtenPart_eq], ?_, hframe⟩
    rw [Store.withBlk_blk, hgw.step.content_self hw hid, hgw.content_eq hbuf ht hdev hsl h.full.zero]
    rfl
  | clear i =>
    obtain ⟨u, s₁, h3, h1⟩ := run_bind_ok.mp h1
    cases h1
    obtain ⟨id, hid, rfl⟩ := h.handles i (hself i rfl)
    obtain ⟨d', blk₁, rfl, hcl⟩ := clear_step hi hw hid h3
    obtain ⟨hf, hframe⟩ := h.store hid hcl.treeStep
      (fun b hb => by rw [tree_of_size_zero hcl.size] at hb; cases hb) (slackZero_of_size_zero hcl.size _)
      (fun e => hc (by rw [e])) (h2 _ rfl) h.handles
    refine ⟨_, k, hf, rfl, ?_, hframe⟩
    rw [Store.withBlk_blk, hcl.treeStep.content_self hw hid, content_of_size_zero hcl.size]
  | find i name => exact hc.elim
  | link i name newName => exact hc.elim
  | unlink i name => exact hc.elim

end Calls

section

variable {total ibb : Nat} {dev : BlockDevice Block} {efs : EasyFileSystem} {m : Cached Block} {hs : List Inode}

theorem filesAt_start (hgeo : 1 + 1025 * ibb < total) (ht : total < 2 ^ 32) (hdev : dev.size = total)
    (h : runCached (EasyFileSystem.create .base total ibb) (boot dev) = .ok (efs, m)) :
    efs = layout .base total ibb ∧ FilesAt efs dev m [] ((flat dev).withBlk (formatted .base total ibb dev.data)) 1 := by
  obtain ⟨rfl, ho⟩ := ownedAt_start hgeo ht hdev h
  obtain ⟨-, hi, -⟩ := At.start ht h
  have hz : ((layout .base total ibb).inodeAt (formatted .base total ibb dev.data) 0).size = 0 := by
    rw [inodeAt_formatted_root hi (by omega)]
    rfl
  have hsolid : Solid (layout .base total ibb) dev.size (formatted .base total ibb dev.data) 0 :=
    ⟨fun id hid => by omega, fun id hid => by omega⟩
  exact ⟨rfl, ho.here, ho.full, hsolid.succ hz, by omega, hz, by simp⟩

theorem filesAt_run (hgeo : 1 + 1025 * ibb < total) (ht : total < 2 ^ 32) (hdev : dev.size = total)
    (h : FsRun .base total ibb dev (fun efs _ call => FileOp efs call) efs m hs) :
    efs = layout .base total ibb ∧ ∃ s k, FilesAt efs dev m hs s k := by
  induction h with
  | start h0 =>
    obtain ⟨e, hf⟩ := filesAt_start hgeo ht hdev h0
    exact ⟨e, _, _, hf⟩
  | step _ hself hG hr ih =>
    obtain ⟨rfl, s, k, hf⟩ := ih
    obtain ⟨s', k', hf', -⟩ := hf.call hG (slots_base total (by omega)) hself hr
    exact ⟨rfl, s', k', hf'⟩

/-- Handles stand for byte strings: every call of a run does to them what it should, and
    reads always return. -/
theorem file_contents (hgeo : 1 + 1025 * ibb < total) (ht : total < 2 ^ 32) (hdev : dev.size = total)
    (h : FsRun .base total ibb dev (fun efs _ call => FileOp efs call) efs m hs) :
    (∀ call r m', (∀ i, call.self? = some i → i ∈ hs) → FileOp efs call → runCached (call.exec efs) m = .ok (r, m') →
      FileSpec (contentAt efs m.w.dev.data) (contentAt efs m'.w.dev.data) hs call r) ∧
    ∀ i ∈ hs, ∀ off buf, off + buf.length < 2 ^ 64 → ∃ r m', runCached ((Call.readAt i off buf).exec efs) m = .ok (r, m') := by
  obtain ⟨rfl, s, k, hf⟩ := filesAt_run hgeo ht hdev h
  rw [hf.here.dev_eq]
  refine ⟨fun call r m' hself hop hr => ?_, fun i hi off buf h64 => ?_⟩
  · obtain ⟨s', k', hf', hspec⟩ := hf.call hop (slots_base total (by omega)) hself hr
    rw [hf'.here.dev_eq]
    exact hspec
  · obtain ⟨id, hid, rfl⟩ := hf.handles i hi
    obtain ⟨m', hm', -⟩ := hf.here.returns (.readAt ((layout .base total ibb).handle id) off buf)
      ((run_bind_of (hf.readAt hid off buf h64)).trans rfl)
    exact ⟨_, m', hm'⟩

/-- A file made on a new file system is empty. A write behind its end leaves zeros in between, and
    a read past the new end gets what is there. -/
theorem file_contents_small : ∃ efs m hs h m₁ m₂ m₃,
    FsRun .base 1100 1 ⟨1100, fun _ => Blk.zero 512⟩ (fun efs _ call => FileOp efs call) efs m hs ∧
      runCached ((Call.create (efs.handle 0) "f").exec efs) m = .ok (.inode h, m₁) ∧ h ∉ hs ∧
      contentAt efs m₁.w.dev.data h = [] ∧
      runCached ((Call.writeAt h 3 [1, 2]).exec efs) m₁ = .ok (.count 2, m₂) ∧
      contentAt efs m₂.w.dev.data h = [0, 0, 0, 1, 2] ∧
      runCached ((Call.readAt h 1 [9, 9, 9, 9, 9, 9]).exec efs) m₂ = .ok (.bytes 4 [0, 0, 1, 2, 9, 9], m₃) := by
  obtain ⟨ha, hslots, hr⟩ := small_geometry
  have hmax : (layout .base 1100 1).inodeBitmap.maximum = 4096 := rfl
  obtain ⟨m, s, hrun, hb, hz⟩ := root_run (G := fun efs _ call => FileOp efs call)
    ⟨1100, fun _ => Blk.zero 512⟩ ha (by norm_num) rfl (by omega) fun _ => trivial
  obtain ⟨m₁, s₁, b, hc, hb₁⟩ := hb.create hr (by omega) (by omega) (by omega) hz "f" (by decide)
  have hself : ∀ i, (Call.create ((layout .base 1100 1).handle 0) "f").self? = some i → i ∈ [(layout .base 1100 1).handle 0] :=
    fun i hi => by simpa [Call.self?, eq_comm] using hi
  obtain ⟨⟨h, he, hfresh, hnil⟩, -⟩ := (file_contents (show 1 + 1025 * 1 < 1100 by norm_num) (by norm_num) rfl hrun).1
    (.create ((layout .base 1100 1).handle 0) "f") _ m₁ hself rfl hc
  cases he
  have hrun₁ := hrun.step hself rfl hc
  -- the write
  have hmem : (layout .base 1100 1).handle 1 ∈ [(layout .base 1100 1).handle 1, (layout .base 1100 1).handle 0] :=
    List.mem_cons_self
  obtain ⟨c, hnext, hlt⟩ := hb₁.nextData (b := b) hr (by simp)
  obtain ⟨n, blk', hw⟩ := writeAt_empty_returns hb₁.here.idle hb₁.full.toWf (show 1 < 1 + 1 by norm_num)
    (hb₁.empty 1 (by norm_num) (by norm_num)) hnext (by rw [hb₁.here.size]; exact hlt)
    (show ([1, 2] : List UInt8) ≠ [] by simp) (show 3 + [1, 2].length ≤ 512 by simp)
  obtain ⟨m₂, hw₂, -⟩ := hb₁.here.returns (.writeAt ((layout .base 1100 1).handle 1) 3 [1, 2]) (r := .count n)
    ((run_bind_of hw).trans rfl)
  have hop : FileOp (layout .base 1100 1) (.writeAt ((layout .base 1100 1).handle 1) 3 [1, 2]) := by
    refine ⟨fun e => ?_, by simp, by simp⟩
    exact absurd (handle_inj e) (by norm_num)
  have hselfw : ∀ i, (Call.writeAt ((layout .base 1100 1).handle 1) 3 [1, 2]).self? = some i →
      i ∈ [(layout .base 1100 1).handle 1, (layout .base 1100 1).handle 0] := by
    intro i hi
    obtain rfl : (layout .base 1100 1).handle 1 = i := Option.some.inj hi
    exact hmem
  obtain ⟨hcount, hover, -⟩ := (file_contents (show 1 + 1025 * 1 < 1100 by norm_num) (by norm_num) rfl hrun₁).1 _ _ m₂ hselfw hop hw₂
  cases hcount
  rw [hnil] at hover
  -- the read
  have hrun₂ := hrun₁.step hselfw hop hw₂
  obtain ⟨hspec, hreads⟩ := file_contents (show 1 + 1025 * 1 < 1100 by norm_num) (by norm_num) rfl hrun₂
  obtain ⟨r, m₃, hread⟩ := hreads _ hmem 1 [9, 9, 9, 9, 9, 9] (by simp)
  have hbytes := (hspec (.readAt ((layout .base 1100 1).handle 1) 1 [9, 9, 9, 9, 9, 9]) r m₃ hselfw trivial hread).1
  rw [hover] at hbytes
  refine ⟨_, m, _, _, m₁, m₂, m₃, hrun, hc, hfresh, hnil, hw₂, hover, ?_⟩
  rw [hread, hbytes]
  rfl

end

end TgRcore.EasyFs
