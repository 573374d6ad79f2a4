/-
  TgRcore.EasyFs.Sound — runs in which a write that makes a file grow writes some of the bytes
  that come in.

  The directories may be written to, too, inode numbers may come around, and sizes are cut to
  32 bits. What holds of all slots of the inode area then: the blocks of every file are on the
  device, the bytes behind its end are zero, and so are the free blocks (`Sound`).
  - `Sound.write_iff`: a write is done in full iff the file may be that large and there are blocks
    for it.
  - `Sound.wrote`, `Sound.readAt`: what it and a read do.
-/

import TgRcore.EasyFs.GrowthFailure
import TgRcore.EasyFs.Room

namespace TgRcore.EasyFs

open TgRcore.Bytes TgRcore.BlockProg TgRcore.BlockProg.Prog

structure Sound (efs : EasyFileSystem) (s : Store Block) : Prop where
  idle : Idle efs s
  wf : Wf efs s.blk efs.slots
  solid : Solid efs s.size s.blk efs.slots
  free : FreeZero efs s.size s.blk

/-- As `BaseCall`, but a write that makes the file grow starts before the new end. -/
def SoundCall (efs : EasyFileSystem) (blk : Nat → Block) (call : Call) : Prop :=
  BaseCall efs blk call ∧ ∀ i off buf, call = .writeAt i off buf →
    (efs.record blk i).size < asU32 (off + buf.length) → off < asU32 (off + buf.length)

section

variable {efs : EasyFileSystem} {s s' : Store Block} {id off n : Nat} {buf : List UInt8} {d : DiskInode} {blk₁ : Nat → Block}

/-! ## One call -/

theorem Sound.store (h : Sound efs s) (hid : id < efs.slots) (hs : TreeStep efs (efs.inodeAt s.blk id) s.blk d blk₁)
    (hdev : ∀ b ∈ tree d blk₁, b < s.size) (hz : SlackZero d blk₁) :
    Sound efs (s.withBlk (storeInode efs s.blk blk₁ id d)) where
  idle := h.idle.withBlk _
  wf := h.wf.step hid hs
  solid := h.solid.step h.wf hid hs hdev hz
  free := h.free.step h.wf hid hs

theorem Sound.growWrite {d' : DiskInode} {blkg : Nat → Block} {newSize : Nat} (h : Sound efs s) (hid : id < efs.slots)
    (hcov : (efs.inodeAt s.blk id).size < newSize → off < newSize) (hle : newSize ≤ off + buf.length)
    (hgw : GrowWrite efs s.size (efs.inodeAt s.blk id) s.blk newSize off buf d' blkg blk₁) :
    Sound efs (s.withBlk (storeInode efs s.blk blk₁ id d')) := by
  have ht := h.wf.treeOk hid
  have hlt := hgw.grown_lt_of_covers hcov hle (h.solid.device id hid)
  exact h.store hid hgw.step (by rw [hgw.tree_eq ht]; exact hlt) (hgw.slackZero ht hlt (h.solid.slack id hid) h.free)

theorem Sound.newInode (h : Sound efs s) (hn : NextInode efs s.blk n) (hslot : asU32 n < efs.slots) :
    Sound efs (s.withBlk (newInode efs s.blk n)) where
  idle := h.idle.withBlk _
  wf := h.wf.newInode hn.lt hslot (Nat.le_refl _) fun _ hid _ => hid
  solid := h.solid.newInode h.wf hn.lt hslot
  free := h.free.newInode h.wf.geo hn.lt hslot

theorem Sound.call (h : Sound efs s) {call : Call} {r : Ret} (hc : SoundCall efs s.blk call)
    (hslots : efs.slots = efs.inodeBitmap.maximum) (hpos : 0 < efs.slots) (hself : ∀ i, call.self? = some i → InArea efs i)
    (hr : (call.exec efs).run s = .ok (r, s')) :
    (∃ blk', s' = s.withBlk blk') ∧ Sound efs s' ∧ ∀ x ∈ r.handles, InArea efs x := by
  have hw := h.wf
  cases call with
  | root =>
    obtain ⟨ino, s₁, h3, h1⟩ := run_bind_ok.mp hr
    cases h1
    rw [root_returns h.idle hpos] at h3
    cases h3
    exact ⟨⟨_, rfl⟩, h, by simpa [Ret.handles] using ⟨0, hpos, rfl⟩⟩
  | create i name =>
    obtain ⟨ino, s₁, h3, h1⟩ := run_bind_ok.mp hr
    cases h1
    obtain ⟨id, hid, rfl⟩ := hself i rfl
    -- there is a slot for every number of the bitmap
    have hslot : ∀ j, NextInode efs s.blk j → asU32 j < efs.slots := by
      intro j hn
      have hle : asU32 j ≤ j := Nat.mod_le _ _
      have hlt := hn.lt
      omega
    obtain ⟨j, hn, rfl, -, d', blkg, blk₁, rfl, hgw⟩ := create_step h.idle efs.slots
      (fun j hn => ⟨hslot j hn, (h.newInode hn (hslot j hn)).wf⟩) hid h3
    have hnew := h.newInode hn (hslot j hn)
    have hpos := List.length_pos_of_ne_nil (direntBytes_ne_nil name (asU32 j))
    exact ⟨⟨_, rfl⟩, hnew.growWrite hid (fun _ => by omega) (Nat.le_refl _) hgw.of_dirent,
      by simpa [Ret.handles] using ⟨_, hslot j hn, rfl⟩⟩
  | readAt i off buf =>
    obtain ⟨x, s₁, h3, h1⟩ := run_bind_ok.mp hr
    cases h1
    obtain rfl := (readOnly_inodeReadAt i off buf).run_eq h3
    exact ⟨⟨_, rfl⟩, h, by simp [Ret.handles]⟩
  | writeAt i off buf =>
    obtain ⟨n, s₁, h3, h1⟩ := run_bind_ok.mp hr
    cases h1
    obtain ⟨id, hid, rfl⟩ := hself i rfl
    obtain ⟨d', blkg, blk₁, rfl, -, hgw⟩ := writeAt_step h.idle hw hid h3
    exact ⟨⟨_, rfl⟩, h.growWrite hid (hc.2 _ off buf rfl) (Nat.mod_le _ _) hgw, by simp [Ret.handles]⟩
  | clear i =>
    obtain ⟨u, s₁, h3, h1⟩ := run_bind_ok.mp hr
    cases h1
    obtain ⟨id, hid, rfl⟩ := hself i rfl
    obtain ⟨d', blk₁, rfl, hcl⟩ := clear_step h.idle hw hid h3
    exact ⟨⟨_, rfl⟩, h.store hid hcl.treeStep (fun b hb => by rw [tree_of_size_zero hcl.size] at hb; cases hb)
      (slackZero_of_size_zero hcl.size _), by simp [Ret.handles]⟩
  | find i name =>
    obtain ⟨o, s₁, h3, h1⟩ := run_bind_ok.mp hr
    cases h1
    obtain ⟨id, hid, rfl⟩ := hself i rfl
    obtain rfl := (readOnly_find (efs.handle id) name).run_eq h3
    refine ⟨⟨_, rfl⟩, h, fun x hx => ?_⟩
    cases o with
    | none => cases hx
    | some ino =>
      rw [List.mem_singleton.mp hx]
      exact hw.find h.idle hid hc.1 h3
  | link i name newName => exact hc.1.elim
  | unlink i name => exact hc.1.elim

/-! ## Reading and writing -/

theorem Sound.readAt (h : Sound efs s) (hid : id < efs.slots) (off : Nat) (buf : List UInt8)
    (h64 : off + buf.length < 2 ^ 64) :
    (Inode.readAt efs (efs.handle id) off buf).run s =
      .ok ((min (off + buf.length) (contentAt efs s.blk (efs.handle id)).length - off,
        ((contentAt efs s.blk (efs.handle id)).drop off).take buf.length ++
          buf.drop (min (off + buf.length) (contentAt efs s.blk (efs.handle id)).length - off)), s) :=
  readAt_content h.idle h.wf hid (h.solid.device id hid) off buf h64

/-- The data and index blocks that a file comes to have when it grows to `newSize`. -/
def EasyFileSystem.needs (efs : EasyFileSystem) (blk : Nat → Block) (id newSize : Nat) : Nat :=
  DiskInode.totalBlocks newSize - DiskInode.totalBlocks (efs.inodeAt blk id).size

/-- What a write of all of `buf` does. -/
structure Wrote (efs : EasyFileSystem) (id off : Nat) (buf : List UInt8) (s s' : Store Block) : Prop where
  sound : Sound efs s'
  store : s' = s.withBlk s'.blk
  size : (efs.inodeAt s'.blk id).size = max (efs.inodeAt s.blk id).size (off + buf.length)
  content : contentAt efs s'.blk (efs.handle id) = overwrite (contentAt efs s.blk (efs.handle id)) off buf
  others : ∀ i < efs.slots, i ≠ id → contentAt efs s'.blk (efs.handle i) = contentAt efs s.blk (efs.handle i)
  room : (efs.freeOn s.size s'.blk).card + efs.needs s.blk id (off + buf.length) = (efs.freeOn s.size s.blk).card

theorem Wrote.device (h : Wrote efs id off buf s s') : s'.size = s.size := by
  rw [h.store]
  rfl

theorem totalBlocks_max (a b : Nat) :
    DiskInode.totalBlocks (max a b) = max (DiskInode.totalBlocks a) (DiskInode.totalBlocks b) := by
  rcases Nat.le_total a b with h | h
  · rw [Nat.max_eq_right h, Nat.max_eq_right (totalBlocks_mono h)]
  · rw [Nat.max_eq_left h, Nat.max_eq_left (totalBlocks_mono h)]

/-- What a write takes and what the next one takes are what one write of both does. -/
theorem Wrote.needs_add {l : List UInt8} (h : Wrote efs id off buf s s') :
    efs.needs s.blk id (off + buf.length) + efs.needs s'.blk id (off + buf.length + l.length) =
      efs.needs s.blk id (off + buf.length + l.length) := by
  have hmono := totalBlocks_mono (Nat.le_add_right (off + buf.length) l.length)
  unfold EasyFileSystem.needs
  rw [h.size, totalBlocks_max]
  omega

/-- Two writes, one behind the other, are one. -/
theorem Wrote.trans {s₂ : Store Block} {l : List UInt8} (h : Wrote efs id off buf s s')
    (h' : Wrote efs id (off + buf.length) l s' s₂) : Wrote efs id off (buf ++ l) s s₂ where
  sound := h'.sound
  store := by
    have hs := h.store
    have hs₂ := h'.store
    generalize s₂.blk = g at hs₂ ⊢
    rw [hs₂, hs]
    rfl
  size := by
    rw [h'.size, h.size, List.length_append]
    omega
  content := by rw [h'.content, h.content, overwrite_append]
  others i hi hne := by rw [h'.others i hi hne, h.others i hi hne]
  room := by
    have h1 := h.room
    have h2 := h'.room
    have h3 := h.needs_add (l := l)
    rw [h.device] at h2
    rw [List.length_append, ← Nat.add_assoc]
    omega

/-- The blocks a file grows by are no longer free. -/
theorem freeOn_grown {size k : Nat} {blk blkg : Nat → Block} {d' : DiskInode} (hw : Wf efs blk k) (hid : id < k)
    (hbuf : buf ≠ []) (hdev : ∀ b ∈ efs.treeAt blk id, b < size)
    (hgw : GrowWrite efs size (efs.inodeAt blk id) blk (off + buf.length) off buf d' blkg blk₁) :
    (efs.freeOn size (storeInode efs blk blk₁ id d')).card + efs.needs blk id (off + buf.length) =
      (efs.freeOn size blk).card := by
  have ht := hw.treeOk hid
  have hslot := Nat.lt_of_lt_of_le hid hw.slots
  have htree := hgw.tree_eq ht
  have hbits := hgw.step.bits
  rw [htree] at hbits
  rcases hgw.grow with ⟨hlt, rfl, rfl⟩ | ⟨v, hg⟩
  · have hsame : efs.freeOn size (storeInode efs blkg blk₁ id (efs.inodeAt blkg id)) = efs.freeOn size blkg := by
      refine freeOn_congr fun b hb => ?_
      rw [dataBit_storeInode hw.geo hslot hb, Bool.eq_iff_iff, hbits b hb]
      by_cases hmem : b ∈ tree (efs.inodeAt blkg id) blkg
      · simp [hmem, ht.marked b hmem]
      · simp [hmem]
    have hneed : efs.needs blkg id (off + buf.length) = 0 :=
      Nat.sub_eq_zero_of_le (totalBlocks_mono (Nat.le_of_lt hlt))
    rw [hsame, hneed, Nat.add_zero]
  · have hall := hgw.grown_lt hbuf hdev
    have hv : ∀ b ∈ v, b < size := fun b hb => hall b (by rw [hg.tree]; exact List.mem_append_right _ hb)
    have hsub : v.toFinset ⊆ efs.freeOn size blk := by
      intro b hb
      have hb := List.mem_toFinset.mp hb
      obtain ⟨h1, h2, h3⟩ := hg.fresh b hb
      exact mem_freeOn.mpr ⟨h1, hv b hb, h2, h3⟩
    have hsdiff : efs.freeOn size (storeInode efs blk blk₁ id d') = efs.freeOn size blk \ v.toFinset := by
      ext b
      rw [Finset.mem_sdiff, mem_freeOn, mem_freeOn, List.mem_toFinset]
      constructor
      · rintro ⟨h1, h2, h3, h4⟩
        rw [dataBit_storeInode hw.geo hslot h1, Bool.eq_false_iff, Ne, hbits b h1, hg.tree, List.mem_append] at h4
        push Not at h4
        refine ⟨⟨h1, h2, h3, ?_⟩, h4.1.2⟩
        rw [Bool.eq_false_iff]
        exact fun hbit => h4.1.1 (h4.2 hbit)
      · rintro ⟨⟨h1, h2, h3, h4⟩, hnot⟩
        refine ⟨h1, h2, h3, ?_⟩
        rw [dataBit_storeInode hw.geo hslot h1, Bool.eq_false_iff, Ne, hbits b h1, hg.tree, List.mem_append]
        rintro ((hold | hnew) | ⟨hbit, -⟩)
        · rw [ht.marked b hold] at h4
          cases h4
        · exact hnot hnew
        · rw [hbit] at h4
          cases h4
    have hcard := Finset.card_sdiff_add_card_eq_card hsub
    rw [List.toFinset_card_of_nodup (hg.sorted.imp Nat.ne_of_lt), hg.length_eq] at hcard
    rw [hsdiff]
    exact hcard

theorem Sound.wrote (h : Sound efs s) (hid : id < efs.slots) (hbuf : buf ≠ [])
    (hr : (Inode.writeAt efs (efs.handle id) off buf).run s = .ok (buf.length, s')) :
    off + buf.length ≤ 8468480 ∧ Wrote efs id off buf s s' := by
  have hpos := List.length_pos_of_ne_nil hbuf
  obtain ⟨d', blkg, blk₁, rfl, hn, hgw⟩ := writeAt_step h.idle h.wf hid hr
  have hsmall := hgw.step.small
  have hfile := size_le_blocks d'
  -- all of it went into the file, so its end was not cut
  rw [writtenPart, List.length_take] at hn
  have hcut : asU32 (off + buf.length) = off + buf.length := Nat.mod_eq_of_lt (by omega)
  rw [hcut] at hgw
  have ht := h.wf.treeOk hid
  have hdev := h.solid.device id hid
  have hst := hgw.step.inodeStep h.wf hid
  refine ⟨by omega, h.growWrite hid (fun _ => by omega) (Nat.le_refl _) hgw, rfl, ?_, ?_, fun i hi hne => hst.content_eq h.wf hi hne,
    freeOn_grown h.wf hid hbuf hdev hgw⟩
  · rw [Store.withBlk_blk, inodeAt_storeInode_self hgw.step.fits, hgw.size_eq]
  · rw [Store.withBlk_blk, hgw.step.content_self h.wf hid, hgw.content_eq hbuf ht hdev (h.solid.slack id hid) h.free]
    rfl

theorem Sound.write_returns (h : Sound efs s) (hid : id < efs.slots) (hbuf : buf ≠ []) (hmax : off + buf.length ≤ 8468480)
    (hroom : efs.needs s.blk id (off + buf.length) ≤ (efs.freeOn s.size s.blk).card) :
    ∃ s', (Inode.writeAt efs (efs.handle id) off buf).run s = .ok (buf.length, s') := by
  have hpos := List.length_pos_of_ne_nil hbuf
  have ho := h.idle.lock.open_inode hid
  have ht := h.wf.treeOk hid
  have hdev := h.solid.device id hid
  have hcut : asU32 (off + buf.length) = off + buf.length := Nat.mod_eq_of_lt (by omega)
  have hgrow : ∃ d' blkg, (Inode.increaseSize efs (off + buf.length) (efs.inodeAt s.blk id)).run (inside efs s id) =
        .ok (d', (inside efs s id).withBlk blkg) ∧ TreeStep efs (efs.inodeAt s.blk id) s.blk d' blkg ∧
      (∀ b ∈ tree d' blkg, b < s.size) ∧ off + buf.length ≤ d'.size := by
    by_cases hlt : off + buf.length < (efs.inodeAt s.blk id).size
    · refine ⟨_, s.blk, ?_, .refl ht, hdev, Nat.le_of_lt hlt⟩
      rw [Inode.increaseSize, if_pos hlt]
      rfl
    · have hsz : (efs.inodeAt s.blk id).size ≤ off + buf.length := by omega
      have hm : DiskInode.dataBlocksOf (off + buf.length) ≤ 16540 := by
        unfold DiskInode.dataBlocksOf
        omega
      obtain ⟨v, blkv, halloc, hv⟩ := allocBlocks_returns ho
        (show efs.needs s.blk id (off + buf.length) ≤ (efs.freeOn s.size s.blk).card from hroom)
      have hlen := (allocBlocks_ok ho halloc).1
      rw [← hlen] at halloc
      obtain ⟨d', blkg, hinc, hg⟩ := increaseSize_returns ho ht hdev hsz (by omega) hm
        (by rw [hlen, length_slotsFrom hsz]; rfl) halloc hv
      refine ⟨d', blkg, hinc, hg.treeStep ht, fun b hb => ?_, Nat.le_of_eq hg.size.symm⟩
      rw [hg.tree, List.mem_append] at hb
      exact hb.elim (hdev b) (hv b)
  obtain ⟨d', blkg, hinc, hs, hdev', hle⟩ := hgrow
  have ht' := hs.treeOk ht
  have hfree : ∀ b ∈ tree d' blkg, ((inside efs s id).withBlk blkg).Free b := fun b hb =>
    (ho.dataFree (ht'.inData b hb) (hdev' b hb)).withBlk _
  obtain ⟨⟨r, s₁⟩, hwr⟩ := writeAt_returns (s := (inside efs s id).withBlk blkg) off buf ht'.small ht'.nodup hfree
    (by omega) (by omega)
  obtain ⟨-, hr, ⟨blk₁, rfl, -⟩, -⟩ := writeAt_ok (s := (inside efs s id).withBlk blkg) ht'.small ht'.nodup hwr
  have hall : r = buf.length := by
    rw [hr, writtenPart, List.length_take]
    omega
  rw [← hall]
  rw [← hcut] at hinc
  exact ⟨_, writeAt_of_parts h.idle hid (by omega) hinc hwr⟩

/-- A write is done in full iff the file may be that large, and there are blocks for it. -/
theorem Sound.write_iff (h : Sound efs s) (hid : id < efs.slots) (hbuf : buf ≠ []) :
    (∃ s', (Inode.writeAt efs (efs.handle id) off buf).run s = .ok (buf.length, s')) ↔
      off + buf.length ≤ 8468480 ∧ efs.needs s.blk id (off + buf.length) ≤ (efs.freeOn s.size s.blk).card := by
  constructor
  · rintro ⟨s', hr⟩
    obtain ⟨hmax, hw⟩ := h.wrote hid hbuf hr
    have := hw.room
    exact ⟨hmax, by omega⟩
  · rintro ⟨hmax, hroom⟩
    exact h.write_returns hid hbuf hmax hroom

end

/-! ## Runs -/

/-- Where a run is. -/
structure SoundAt (efs : EasyFileSystem) (dev : BlockDevice Block) (m : Cached Block) (hs : List Inode) (s : Store Block) :
    Prop where
  here : At efs dev m s
  sound : Sound efs s
  handles : ∀ h ∈ hs, InArea efs h

section Runs

variable {efs : EasyFileSystem} {dev : BlockDevice Block} {m m' : Cached Block} {hs : List Inode} {s : Store Block}
  {total ibb : Nat}

theorem SoundAt.call (h : SoundAt efs dev m hs s) {call : Call} {r : Ret} (hc : SoundCall efs s.blk call)
    (hslots : efs.slots = efs.inodeBitmap.maximum) (hpos : 0 < efs.slots) (hself : ∀ i, call.self? = some i → i ∈ hs)
    (hr : runCached (call.exec efs) m = .ok (r, m')) : ∃ s', SoundAt efs dev m' (r.handles ++ hs) s' := by
  obtain ⟨s', h1, h2⟩ := h.here.call hr
  obtain ⟨⟨blk', e⟩, hsound, hnew⟩ := h.sound.call hc hslots hpos (fun i hi => h.handles i (hself i hi)) h1
  exact ⟨s', h2 _ e, hsound, fun x hx => (List.mem_append.mp hx).elim (hnew x) (h.handles x)⟩

end Runs

end TgRcore.EasyFs
