/-
  TgRcore.EasyFs.Ops — what the calls of the inode layer do to the disk (`vfs.rs`).

  A call starts and ends with nothing locked (`Idle`). For each call the lemma `_ok` says
  what a call that returned did: which inode was stored back, which blocks it took or
  gave back, which bytes it wrote. `Wf.step` and `Full.step` turn that into the
  invariants.
-/

import TgRcore.EasyFs.Content

namespace TgRcore.EasyFs

open TgRcore.Bytes TgRcore.BlockProg TgRcore.BlockProg.Prog

/-- Between calls: nothing is locked, and the areas before the data area are on the
    device. -/
structure Idle (efs : EasyFileSystem) (s : Store Block) : Prop where
  geo : efs.Geometry
  held : s.held = []
  busy : s.busy = false
  cap : s.cap = 16
  device : efs.dataAreaStartBlock ≤ s.size

/-- The handle of inode `id`. -/
def EasyFileSystem.handle (efs : EasyFileSystem) (id : Nat) : Inode := ⟨efs.inodeBlock id, efs.inodeOff id⟩

section Access

variable {efs : EasyFileSystem} {s s' : Store Block} {id k : Nat} {α : Type}

theorem Idle.withBlk (h : Idle efs s) (g : Nat → Block) : Idle efs (s.withBlk g) := ⟨h.1, h.2, h.3, h.4, h.5⟩

/-- Inside the file-system mutex. -/
structure Locked (efs : EasyFileSystem) (s : Store Block) : Prop where
  geo : efs.Geometry
  held : s.held = []
  cap : s.cap = 16
  device : efs.dataAreaStartBlock ≤ s.size

theorem Locked.withBlk (h : Locked efs s) (g : Nat → Block) : Locked efs (s.withBlk g) := ⟨h.1, h.2, h.3, h.4⟩

theorem Idle.locked (h : Idle efs s) : Locked efs s := ⟨h.geo, h.held, h.cap, h.device⟩

theorem Idle.lock (h : Idle efs s) : Locked efs { s with busy := true } := ⟨h.geo, h.held, h.cap, h.device⟩

/-- The closure of an access to an inode of the inode area. -/
theorem Locked.open_inode (h : Locked efs s) (hid : id < efs.slots) : Open efs (s.pin (efs.inodeBlock id)) :=
  ⟨h.geo, by
    rw [Store.pin_held, h.held]
    intro b hb
    rw [List.mem_singleton.mp hb]
    exact h.geo.inodeBlock_lt hid, by rw [Store.pin_held, Store.pin_cap, h.held, h.cap]; simp, h.device⟩

theorem Locked.lowFree (h : Locked efs s) {b : Nat} (hb : b < efs.dataAreaStartBlock) : s.Free b :=
  ⟨by rw [h.held]; simp, by rw [h.held, h.cap]; decide, Nat.lt_of_lt_of_le hb h.device⟩

theorem Locked.inodeFree (h : Locked efs s) (hid : id < efs.slots) : s.Free (efs.inodeBlock id) :=
  h.lowFree (h.geo.inodeBlock_lt_area hid)

theorem modifyDiskInode_run (efs : EasyFileSystem) (id : Nat) (hf : s.Free (efs.inodeBlock id))
    {f : DiskInode → Fs (α × DiskInode)} {v : α} {d : DiskInode}
    {blk₁ : Nat → Block}
    (h : (f (efs.inodeAt s.blk id)).run (s.pin (efs.inodeBlock id)) = .ok ((v, d), (s.pin (efs.inodeBlock id)).withBlk blk₁)) :
    (Inode.modifyDiskInode efs (efs.handle id) f).run s = .ok (v, s.withBlk (storeInode efs s.blk blk₁ id d)) := by
  refine run_modifyBlock hf ?_
  rw [EasyFileSystem.handle, assert_true (EasyFileSystem.inodeOff_add_le id), ret_bind]
  rw [EasyFileSystem.inodeAt] at h
  rw [run_bind_of h]
  rfl

theorem modifyDiskInode_ok (efs : EasyFileSystem) (id : Nat) {f : DiskInode → Fs (α × DiskInode)} {v : α}
    (h : (Inode.modifyDiskInode efs (efs.handle id) f).run s = .ok (v, s')) :
    s.Free (efs.inodeBlock id) ∧ ∃ d s₁, (f (efs.inodeAt s.blk id)).run (s.pin (efs.inodeBlock id)) = .ok ((v, d), s₁) ∧
      ∀ blk₁, s₁ = (s.pin (efs.inodeBlock id)).withBlk blk₁ → s' = s.withBlk (storeInode efs s.blk blk₁ id d) := by
  obtain ⟨hf, x, s₁, h1, h2⟩ := run_modifyBlock_ok.mp h
  obtain ⟨-, h1⟩ := run_assert_bind_ok.mp h1
  obtain ⟨⟨v', d⟩, s₂, h3, h1⟩ := run_bind_ok.mp h1
  simp only [pure_eq_ret, run_ret, Except.ok.injEq, Prod.mk.injEq] at h1
  obtain ⟨⟨rfl, rfl⟩, rfl⟩ := h1
  refine ⟨hf, d, s₂, h3, ?_⟩
  rintro blk₁ rfl
  simp only [EasyFileSystem.handle] at h2
  rw [h2, Store.unpin_pin_withBlk_some]
  rfl

theorem readDiskInode_run (hf : s.Free (efs.inodeBlock id)) {f : DiskInode → Fs α} {v : α}
    (h : (f (efs.inodeAt s.blk id)).run (s.pin (efs.inodeBlock id)) = .ok (v, s.pin (efs.inodeBlock id))) :
    (Inode.readDiskInode efs (efs.handle id) f).run s = .ok (v, s) := by
  have := run_readBlock (b := efs.inodeBlock id) (f := fun b => do
    assert (efs.inodeOff id + efs.crate.inodeSize ≤ 512)
    f (DiskInode.load efs.crate b (efs.inodeOff id))) (g := s.blk) hf (by
      rw [assert_true (EasyFileSystem.inodeOff_add_le id), ret_bind]
      exact h)
  exact this

theorem readDiskInode_ok {f : DiskInode → Fs α} {v : α}
    (h : (Inode.readDiskInode efs (efs.handle id) f).run s = .ok (v, s')) :
    s.Free (efs.inodeBlock id) ∧ ∃ s₁, (f (efs.inodeAt s.blk id)).run (s.pin (efs.inodeBlock id)) = .ok (v, s₁) ∧
      ∀ blk₁, s₁ = (s.pin (efs.inodeBlock id)).withBlk blk₁ → s' = s.withBlk blk₁ := by
  obtain ⟨hf, s₁, h1, h2⟩ := run_readBlock_ok.mp h
  obtain ⟨-, h1⟩ := run_assert_bind_ok.mp h1
  refine ⟨hf, s₁, h1, ?_⟩
  rintro blk₁ rfl
  simp only [EasyFileSystem.handle] at h2
  rw [h2, Store.unpin_pin_withBlk_none]

/-- What a call under the mutex did, from what its body did. -/
theorem withMutex_ok {p : Fs α} {v : α} (h : (withMutex p).run s = .ok (v, s')) :
    ∃ s₁, p.run { s with busy := true } = .ok (v, s₁) ∧
      ∀ blk', s₁ = ({ s with busy := true } : Store Block).withBlk blk' → s' = s.withBlk blk' := by
  obtain ⟨hb, s₁, h1, h2⟩ := run_withMutex_ok.mp h
  refine ⟨s₁, h1, ?_⟩
  rintro blk' rfl
  simp only at h2
  rw [h2]
  simp [Store.withBlk, hb]

theorem sync_ok {s : Store Block} {r : Unit × Store Block} (h : (sync : Fs Unit).run s = .ok r) : r = ((), s) :=
  (run_sync_ok.mp h).2

theorem addU32_ok {a b n : Nat} (h : (addU32 a b).run s = .ok (n, s')) : n = a + b ∧ n < 2 ^ 32 ∧ s' = s := by
  unfold addU32 at h
  split at h
  · cases h
    exact ⟨rfl, ‹_›, rfl⟩
  · cases h

theorem getDiskInodePos_ok {r : (Nat × Nat) × Store Block} (h : (efs.getDiskInodePos id).run s = .ok r) :
    r = ((efs.inodeBlock id, efs.inodeOff id), s) := by
  rw [EasyFileSystem.getDiskInodePos, addU32] at h
  split at h
  · cases h; rfl
  · cases h

theorem getDiskInodePos_run (hg : efs.Geometry) (hb : efs.inodeBlock id < efs.dataAreaStartBlock) (s : Store Block) :
    (efs.getDiskInodePos id).run s = .ok ((efs.inodeBlock id, efs.inodeOff id), s) := by
  have h1 := hg.lt
  unfold EasyFileSystem.inodeBlock at hb
  rw [EasyFileSystem.getDiskInodePos, addU32, if_pos (by omega)]
  rfl

theorem inode_ok {r : Inode × Store Block} (h : (efs.inode id).run s = .ok r) : r = (efs.handle id, s) := by
  obtain ⟨p, s₁, h1, h⟩ := run_bind_ok.mp h
  cases getDiskInodePos_ok h1
  cases h
  rfl

theorem inode_run (hg : efs.Geometry) (hb : efs.inodeBlock id < efs.dataAreaStartBlock) (s : Store Block) :
    (efs.inode id).run s = .ok (efs.handle id, s) := by
  rw [EasyFileSystem.inode, run_bind_of (getDiskInodePos_run hg hb s)]
  rfl

end Access

/-! ## Growing and writing -/

/-- `d` was made at least `newSize` bytes long, then `buf` was written at `off`. -/
structure GrowWrite (efs : EasyFileSystem) (size : Nat) (d : DiskInode) (blk : Nat → Block) (newSize off : Nat)
    (buf : List UInt8) (d' : DiskInode) (blkg blk₁ : Nat → Block) : Prop where
  grow : (newSize < d.size ∧ d' = d ∧ blkg = blk) ∨ ∃ v, Grown efs d blk newSize v d' blkg
  le : off ≤ d'.size
  written : Written d' blkg blk₁ off (writtenPart d' off buf)
  device : ∀ j, off / 512 ≤ j → j * 512 < min (off + buf.length) d'.size → off < min (off + buf.length) d'.size →
    ptr d' blkg (.data j) < size
  step : TreeStep efs d blk d' blk₁

section Writing

variable {efs : EasyFileSystem} {s s' s₁ : Store Block} {d d' : DiskInode} {id k newSize off n : Nat} {buf : List UInt8}

/-- Writing into blocks the file has already. -/
theorem TreeStep.then_written {blk blkg blk₁ : Nat → Block} {l : List UInt8} (hg : efs.Geometry) (ht : TreeOk efs d blk)
    (hs : TreeStep efs d blk d' blkg) (hw : Written d' blkg blk₁ off l) : TreeStep efs d blk d' blk₁ := by
  have ht' := hs.treeOk ht
  have hs' := hw.treeStep ht' hg
  have htree := hw.tree_eq ht'.small ht'.nodup
  refine ⟨hs.fits, hs.small, hs'.nodup, fun b hb => ?_, fun b h1 h2 h3 => ?_, fun b hb => ?_, fun b h1 h2 => ?_⟩
  · rw [htree] at hb
    exact hs.fresh b hb
  · rw [htree] at h2
    rw [hs'.frame b h2 (by rw [htree]; exact h2) h3, hs.frame b h1 h2 h3]
  · rw [hs'.bits b hb, htree]
    constructor
    · rintro (h | ⟨h, h'⟩)
      · exact .inl h
      · exact (hs.bits b hb).mp h
    · rintro (h | h)
      · exact .inl h
      · by_cases hm : b ∈ tree d' blkg
        · exact .inl hm
        · exact .inr ⟨(hs.bits b hb).mpr (.inr h), hm⟩
  · rw [htree] at h2
    have hout : efs.dataAreaStartBlock ≤ b := (ht.inData b h1).le
    rw [hs'.frame b h2 (by rw [htree]; exact h2) (.inr hout), hs.freed b h1 h2]

theorem TreeStep.refl {blk : Nat → Block} (ht : TreeOk efs d blk) : TreeStep efs d blk d blk :=
  ⟨ht.fits, ht.small, ht.nodup, fun _ hb => .inl hb, fun _ _ _ _ => rfl, fun b _ => by
    by_cases e : b ∈ tree d blk
    · simp [e, ht.marked b e]
    · simp [e], fun _ h1 h2 => absurd h1 h2⟩

theorem growWrite_ok (ho : Open efs s) (ht : TreeOk efs d s.blk) (hns : newSize < 2 ^ 32)
    (h1 : (Inode.increaseSize efs newSize d).run s = .ok (d', s₁)) (h2 : (d'.writeAt off buf).run s₁ = .ok (n, s')) :
    n = (writtenPart d' off buf).length ∧
      ∃ blkg blk₁, s' = s.withBlk blk₁ ∧ GrowWrite efs s.size d s.blk newSize off buf d' blkg blk₁ := by
  -- whether it grew or not, the second part works on a file in order
  have key : ∀ blkg, s₁ = s.withBlk blkg → TreeStep efs d s.blk d' blkg →
      ((newSize < d.size ∧ d' = d ∧ blkg = s.blk) ∨ ∃ v, Grown efs d s.blk newSize v d' blkg) →
      n = (writtenPart d' off buf).length ∧
        ∃ blkg blk₁, s' = s.withBlk blk₁ ∧ GrowWrite efs s.size d s.blk newSize off buf d' blkg blk₁ := by
    rintro blkg rfl hs hgrow
    have ht' := hs.treeOk ht
    obtain ⟨hle, hn, ⟨blk₁, hs', hwr⟩, hdev⟩ :=
      writeAt_ok (s := s.withBlk blkg) ht'.small ht'.nodup h2
    have hstep := hs.then_written ho.geo ht hwr
    exact ⟨hn, blkg, blk₁, hs', ⟨hgrow, hle, hwr, hdev, hstep⟩⟩
  rcases increaseSize_ok ho ht hns h1 with ⟨hlt, rfl, rfl⟩ | ⟨v, blkg, hs₁, hg⟩
  · exact key s₁.blk rfl (.refl ht) (.inl ⟨hlt, rfl, rfl⟩)
  · exact key blkg hs₁ (hg.treeStep ht) (.inr ⟨v, hg⟩)

theorem asU32_lt (a : Nat) : asU32 a < 2 ^ 32 := by
  unfold asU32
  omega

/-- The two halves of the closure of `write_at`. -/
theorem writeAt_parts (h : (Inode.writeAt efs (efs.handle id) off buf).run s = .ok (n, s')) :
    ∃ d' s₁ s₂, (Inode.increaseSize efs (asU32 (off + buf.length)) (efs.inodeAt s.blk id)).run
        (({ s with busy := true } : Store Block).pin (efs.inodeBlock id)) = .ok (d', s₁) ∧
      (d'.writeAt off buf).run s₁ = .ok (n, s₂) ∧ off + buf.length < 2 ^ 64 ∧
      ∀ blk₁, s₂ = (({ s with busy := true } : Store Block).pin (efs.inodeBlock id)).withBlk blk₁ →
        s' = s.withBlk (storeInode efs s.blk blk₁ id d') := by
  obtain ⟨s₁, h1, hs'⟩ := withMutex_ok h
  obtain ⟨n', s₂, h2, h1⟩ := run_bind_ok.mp h1
  obtain ⟨u, s₃, h3, h1⟩ := run_bind_ok.mp h1
  cases sync_ok h3
  cases h1
  obtain ⟨-, d', s₄, h4, hs₁⟩ := modifyDiskInode_ok efs id h2
  obtain ⟨h64, h4⟩ := run_assert_bind_ok.mp h4
  obtain ⟨d'', s₅, h5, h4⟩ := run_bind_ok.mp h4
  obtain ⟨n'', s₆, h6, h4⟩ := run_bind_ok.mp h4
  cases h4
  exact ⟨d', s₅, s₄, h5, h6, h64, fun blk₁ e => hs' _ (hs₁ _ e)⟩

/-- The halves of a write that returns. -/
theorem writeAt_of_parts (hi : Idle efs s) (hslot : id < efs.slots) (h64 : off + buf.length < 2 ^ 64) {blk₁ : Nat → Block}
    (h1 : (Inode.increaseSize efs (asU32 (off + buf.length)) (efs.inodeAt s.blk id)).run
      (({ s with busy := true } : Store Block).pin (efs.inodeBlock id)) = .ok (d', s₁))
    (h2 : (d'.writeAt off buf).run s₁ =
      .ok (n, (({ s with busy := true } : Store Block).pin (efs.inodeBlock id)).withBlk blk₁)) :
    (Inode.writeAt efs (efs.handle id) off buf).run s = .ok (n, s.withBlk (storeInode efs s.blk blk₁ id d')) := by
  have hbody : (do
      assert (off + buf.length < 2 ^ 64)
      let d ← Inode.increaseSize efs (asU32 (off + buf.length)) (efs.inodeAt s.blk id)
      let size ← d.writeAt off buf
      return (size, d) : Fs (Nat × DiskInode)).run (({ s with busy := true } : Store Block).pin (efs.inodeBlock id)) =
      .ok ((n, d'), (({ s with busy := true } : Store Block).pin (efs.inodeBlock id)).withBlk blk₁) := by
    rw [assert_true h64, ret_bind, run_bind_of h1, run_bind_of h2]
    rfl
  have hmod := modifyDiskInode_run efs id (f := fun d => do
      assert (off + buf.length < 2 ^ 64)
      let d ← Inode.increaseSize efs (asU32 (off + buf.length)) d
      let size ← d.writeAt off buf
      return (size, d)) (hi.lock.inodeFree hslot) hbody
  refine run_withMutex hi.busy (g := storeInode efs s.blk blk₁ id d') ?_
  rw [run_bind_of hmod]
  exact (run_bind_of (run_sync (s := ({ s with busy := true } : Store Block).withBlk (storeInode efs s.blk blk₁ id d'))
    hi.held)).trans rfl

theorem writeAt_step (hi : Idle efs s) (hw : Wf efs s.blk k) (hid : id < k)
    (h : (Inode.writeAt efs (efs.handle id) off buf).run s = .ok (n, s')) :
    ∃ d' blkg blk₁, s' = s.withBlk (storeInode efs s.blk blk₁ id d') ∧ n = (writtenPart d' off buf).length ∧
      GrowWrite efs s.size (efs.inodeAt s.blk id) s.blk (asU32 (off + buf.length)) off buf d' blkg blk₁ := by
  obtain ⟨d', s₁, s₂, h1, h2, -, hs'⟩ := writeAt_parts h
  have hslot := Nat.lt_of_lt_of_le hid hw.slots
  obtain ⟨hn, blkg, blk₁, rfl, hgw⟩ := growWrite_ok (hi.lock.open_inode hslot) (hw.treeOk hid) (asU32_lt _) h1 h2
  exact ⟨d', blkg, blk₁, hs' _ rfl, hn, hgw⟩

/-- The closure of `clear`. -/
theorem clear_parts {u : Unit} (h : (Inode.clear efs (efs.handle id)).run s = .ok (u, s')) :
    ∃ d' s₁, (clearBody efs (efs.inodeAt s.blk id)).run (({ s with busy := true } : Store Block).pin (efs.inodeBlock id)) =
        .ok (((), d'), s₁) ∧
      ∀ blk₁, s₁ = (({ s with busy := true } : Store Block).pin (efs.inodeBlock id)).withBlk blk₁ →
        s' = s.withBlk (storeInode efs s.blk blk₁ id d') := by
  rw [clear_eq] at h
  obtain ⟨s₁, h1, hs'⟩ := withMutex_ok h
  obtain ⟨u', s₂, h2, h1⟩ := run_bind_ok.mp h1
  cases sync_ok h1
  obtain ⟨-, d', s₄, h4, hs₁⟩ := modifyDiskInode_ok efs id h2
  exact ⟨d', s₄, h4, fun blk₁ e => hs' _ (hs₁ _ e)⟩

theorem clear_step (hi : Idle efs s) (hw : Wf efs s.blk k) (hid : id < k) {u : Unit}
    (h : (Inode.clear efs (efs.handle id)).run s = .ok (u, s')) :
    ∃ d' blk₁, s' = s.withBlk (storeInode efs s.blk blk₁ id d') ∧ Cleared efs (efs.inodeAt s.blk id) s.blk d' blk₁ := by
  obtain ⟨d', s₁, h1, hs'⟩ := clear_parts h
  have hslot := Nat.lt_of_lt_of_le hid hw.slots
  obtain ⟨blk₁, rfl, hc⟩ := clearBody_ok (hi.lock.open_inode hslot) (hw.treeOk hid) h1
  exact ⟨d', blk₁, hs' _ rfl, hc⟩

end Writing

/-! ## Creating -/

section Creating

variable {efs : EasyFileSystem} {s s' : Store Block} {d d' : DiskInode} {id k : Nat} {name : String}

/-- The least number that is not in the inode bitmap. -/
structure NextInode (efs : EasyFileSystem) (blk : Nat → Block) (i : Nat) : Prop where
  lt : i < efs.inodeBitmap.maximum
  clear : efs.inodeBitmap.bit blk i = false
  least : ∀ j < i, efs.inodeBitmap.bit blk j = true

/-- The numbers below `k` are in the bitmap, and no others: the next one is `k`. -/
theorem NextInode.iff_of_bits {blk : Nat → Block} {i k : Nat}
    (hb : ∀ i < efs.inodeBitmap.maximum, efs.inodeBitmap.bit blk i = decide (i < k)) (hi : i < efs.inodeBitmap.maximum) :
    NextInode efs blk i ↔ i = k := by
  constructor
  · intro hn
    have h1 := hn.clear
    rw [hb i hi, decide_eq_false_iff_not] at h1
    by_contra hne
    have h2 := hn.least k (by omega)
    rw [hb k (by omega), decide_eq_true_eq] at h2
    omega
  · rintro rfl
    refine ⟨hi, ?_, fun j hj => ?_⟩
    · rw [hb i hi]
      exact decide_eq_false (Nat.lt_irrefl i)
    · rw [hb j (by omega)]
      exact decide_eq_true hj

theorem NextInode.unique {blk : Nat → Block} {i j : Nat} (hi : NextInode efs blk i) (hj : NextInode efs blk j) : i = j := by
  rcases Nat.lt_trichotomy i j with h | h | h
  · have := hj.least i h
    rw [hi.clear] at this
    cases this
  · exact h
  · have := hi.least j h
    rw [hj.clear] at this
    cases this

theorem Locked.inodeBitmapFree (h : Locked efs s) {k : Nat} (hk : k < efs.inodeBitmap.blocks) :
    s.Free (k + efs.inodeBitmap.startBlockId) :=
  ⟨by rw [h.held]; simp, by rw [h.held, h.cap]; decide, by
    have h1 := h.geo.inodeBitmap
    have h2 := h.geo.inodeArea
    have h3 := h.geo.dataBitmap
    have h4 := h.geo.dataArea
    have h5 := h.device
    omega⟩

theorem allocInode_ok (hl : Locked efs s) {n : Nat} (h : efs.allocInode.run s = .ok (n, s')) :
    ∃ i, NextInode efs s.blk i ∧ n = asU32 i ∧ s' = s.withBlk (efs.inodeBitmap.setBit s.blk i) := by
  rw [EasyFileSystem.allocInode] at h
  rcases efs.inodeBitmap.alloc_run (s := s) (fun k hk => hl.inodeBitmapFree hk) with
    ⟨i, hi, hrun, hclear, hset⟩ | ⟨hrun, -⟩
  · rw [run_bind_of hrun] at h
    cases h
    exact ⟨i, ⟨hi, hclear, hset⟩, rfl, rfl⟩
  · rw [run_bind_of hrun] at h
    cases h

theorem allocInode_run (hl : Locked efs s) {i : Nat} (hi : NextInode efs s.blk i) :
    efs.allocInode.run s = .ok (asU32 i, s.withBlk (efs.inodeBitmap.setBit s.blk i)) := by
  rw [EasyFileSystem.allocInode]
  rcases efs.inodeBitmap.alloc_run (s := s) (fun k hk => hl.inodeBitmapFree hk) with
    ⟨j, hj, hrun, hclear, hset⟩ | ⟨hrun, hall⟩
  · obtain rfl := hi.unique ⟨hj, hclear, hset⟩
    rw [run_bind_of hrun]
    rfl
  · have := hall i hi.lt
    rw [hi.clear] at this
    cases this

/-- A fresh file in slot `id`. -/
def initInode (efs : EasyFileSystem) (blk : Nat → Block) (id : Nat) : Nat → Block :=
  storeInode efs blk blk id ((efs.inodeAt blk id).init efs.crate .file)

theorem init_fits {c : Crate} (hd : d.Fits c) (t : DiskInodeType) : (d.init c t).Fits c := by
  refine ⟨by norm_num [DiskInode.init], fun i => ?_, by norm_num [DiskInode.init], by norm_num [DiskInode.init], ?_, ?_⟩
  · unfold DiskInode.directAt
    split <;> norm_num [DiskInode.init]
  · cases c
    · exact hd.linkNum
    · norm_num [DiskInode.init]
  · rintro rfl
    exact hd.noLink rfl

theorem inodeAt_initInode_self (blk : Nat → Block) :
    efs.inodeAt (initInode efs blk id) id = (efs.inodeAt blk id).init efs.crate .file :=
  inodeAt_storeInode_self (init_fits (DiskInode.load_fits ..) _)

theorem inodeAt_initInode_of_ne (blk : Nat → Block) {id' : Nat} (h : id' ≠ id) :
    efs.inodeAt (initInode efs blk id) id' = efs.inodeAt blk id' :=
  inodeAt_storeInode_of_ne h rfl

/-- A new inode: its bit is set and its slot initialised. -/
def newInode (efs : EasyFileSystem) (blk : Nat → Block) (i : Nat) : Nat → Block :=
  initInode efs (efs.inodeBitmap.setBit blk i) (asU32 i)

section NewInode

variable {blk : Nat → Block} {i : Nat}

/-- The inode bitmap is apart from the rest of the disk. -/
theorem setBit_inode (hg : efs.Geometry) (hi : i < efs.inodeBitmap.maximum) {b : Nat}
    (hb : b = 0 ∨ efs.inodeAreaStartBlock ≤ b) : efs.inodeBitmap.setBit blk i b = blk b := by
  refine Bitmap.updWord_frame ?_
  have h1 := hg.inodeBitmap
  have h2 := hg.inodeArea
  unfold Bitmap.maximum at hi
  omega

theorem newInode_data (hg : efs.Geometry) (hi : i < efs.inodeBitmap.maximum) (hs : asU32 i < efs.slots) {b : Nat}
    (hb : b = 0 ∨ efs.dataBitmap.startBlockId ≤ b) : newInode efs blk i b = blk b := by
  have h1 := hg.dataBitmap
  have h2 := hg.inodeArea
  unfold newInode initInode
  rw [storeInode_of_ne, setBit_inode hg hi (by omega)]
  rcases hb with rfl | hb
  · have := efs.le_inodeBlock (asU32 i)
    omega
  · exact hg.ne_inodeBlock hs hb

theorem inodeAt_setBit (hg : efs.Geometry) (hi : i < efs.inodeBitmap.maximum) (id : Nat) :
    efs.inodeAt (efs.inodeBitmap.setBit blk i) id = efs.inodeAt blk id := by
  unfold EasyFileSystem.inodeAt
  rw [setBit_inode hg hi (.inr (efs.le_inodeBlock id))]

theorem inodeAt_newInode_self (blk : Nat → Block) (hg : efs.Geometry) (hi : i < efs.inodeBitmap.maximum) :
    efs.inodeAt (newInode efs blk i) (asU32 i) = (efs.inodeAt blk (asU32 i)).init efs.crate .file := by
  rw [newInode, inodeAt_initInode_self, inodeAt_setBit hg hi]

theorem inodeAt_newInode_of_ne (hg : efs.Geometry) (hi : i < efs.inodeBitmap.maximum) {id : Nat} (h : id ≠ asU32 i) :
    efs.inodeAt (newInode efs blk i) id = efs.inodeAt blk id := by
  rw [newInode, inodeAt_initInode_of_ne _ h, inodeAt_setBit hg hi]

theorem bit_newInode (hg : efs.Geometry) {j : Nat} (hj : j < efs.inodeBitmap.maximum) :
    efs.inodeBitmap.bit (newInode efs blk i) j = (j == i || efs.inodeBitmap.bit blk j) := by
  rw [← Bitmap.bit_setBit]
  refine Bitmap.bit_congr hj fun b h1 h2 => storeInode_of_ne ?_
  have h3 := hg.inodeBitmap
  have h4 := hg.inodeArea
  have := efs.le_inodeBlock (asU32 i)
  omega

/-- The inode may be new, or (past 2^32 inodes) one that is there already. -/
theorem Wf.newInode {k' : Nat} (hw : Wf efs blk k) (hi : i < efs.inodeBitmap.maximum) (hs : asU32 i < efs.slots)
    (hk : k' ≤ efs.slots) (hle : ∀ id < k', id ≠ asU32 i → id < k) : Wf efs (newInode efs blk i) k' := by
  refine hw.of_emptied hk (fun b hb => newInode_data hw.geo hi hs (.inr hb)) fun id hid => ?_
  by_cases e : id = asU32 i
  · subst e
    left
    rw [inodeAt_newInode_self _ hw.geo hi]
    rfl
  · exact .inr ⟨hle id hid e, inodeAt_newInode_of_ne hw.geo hi e⟩

theorem Full.next_eq {size : Nat} (hf : Full efs size blk k) (hn : NextInode efs blk i) : i = k :=
  (NextInode.iff_of_bits hf.inodeBits hn.lt).mp hn

theorem dataBit_newInode (hg : efs.Geometry) (hi : i < efs.inodeBitmap.maximum) (hs : asU32 i < efs.slots) {b : Nat}
    (hb : efs.InData b) : efs.dataBit (EasyFs.newInode efs blk i) b = efs.dataBit blk b :=
  Bitmap.bit_congr (by have := hb.le; have := hb.lt; omega) fun _ h1 _ => newInode_data hg hi hs (.inr h1)

theorem FreeZero.newInode {size : Nat} (hz : FreeZero efs size blk) (hg : efs.Geometry) (hi : i < efs.inodeBitmap.maximum)
    (hs : asU32 i < efs.slots) : FreeZero efs size (newInode efs blk i) := by
  intro b hb hlt h
  rw [dataBit_newInode hg hi hs hb] at h
  have h1 := hb.le
  have h2 := hg.dataArea
  rw [newInode_data hg hi hs (.inr (by omega)), hz b hb hlt h]

theorem Full.newInode {size : Nat} (hf : Full efs size blk k) (hi : k < efs.inodeBitmap.maximum) (hs : k < efs.slots)
    (hu : k < 2 ^ 32) : Full efs size (newInode efs blk k) (k + 1) := by
  have hu' : asU32 k = k := Nat.mod_eq_of_lt hu
  have hg := hf.geo
  have hw := hf.toWf.newInode hi (by rw [hu']; exact hs) (show k + 1 ≤ efs.slots from hs) (by rw [hu']; omega)
  have htree : ∀ id < k, efs.treeAt (EasyFs.newInode efs blk k) id = efs.treeAt blk id := by
    intro id hid
    unfold EasyFileSystem.treeAt
    rw [inodeAt_newInode_of_ne hg hi (by rw [hu']; omega)]
    refine tree_congr (hf.small id hid) fun b hb => newInode_data hg hi (by rw [hu']; exact hs) (.inr ?_)
    have h1 := (hf.inData id hid b hb).le
    have h2 := hg.dataArea
    omega
  refine ⟨hw, fun b hb h => ?_, FreeZero.newInode hf.zero hg hi (by rw [hu']; exact hs), fun j hj => ?_⟩
  · rw [dataBit_newInode hg hi (by rw [hu']; exact hs) hb] at h
    obtain ⟨id, hid, hm⟩ := hf.used b hb h
    exact ⟨id, by omega, by rw [htree id hid]; exact hm⟩
  · rw [bit_newInode hg hj, hf.inodeBits j hj, Bool.eq_iff_iff, Bool.or_eq_true, beq_iff_eq, decide_eq_true_eq,
      decide_eq_true_eq]
    omega

end NewInode

/-- The bytes of a directory entry. -/
def direntBytes (name : String) (id : Nat) : List UInt8 :=
  DirEntry.asBytes ⟨Blk.tab 28 fun i => (strBytes name).getD i 0, id⟩

theorem length_asBytes (e : DirEntry) : e.asBytes.length = 32 := by simp [DirEntry.asBytes]

theorem direntNew_ok {id : Nat} {r : DirEntry × Store Block} (h : (DirEntry.new name id).run s = .ok r) :
    (strBytes name).length ≤ 28 ∧ r.1.asBytes = direntBytes name id ∧ r.2 = s := by
  obtain ⟨hlen, h⟩ := run_assert_bind_ok.mp h
  simp only [pure_eq_ret, run_ret, Except.ok.injEq] at h
  rw [← h]
  exact ⟨hlen, rfl, rfl⟩

theorem appendDirent_ok (ho : Open efs s) (ht : TreeOk efs d s.blk)
    (h : (Inode.appendDirent efs name id d).run s = .ok (d', s')) :
    (strBytes name).length ≤ 28 ∧ ∃ blkg blk₁, s' = s.withBlk blk₁ ∧
      GrowWrite efs s.size d s.blk ((d.size / 32 + 1) * 32) (d.size / 32 * 32) (direntBytes name id) d' blkg blk₁ := by
  have hsmall := ht.small
  unfold DiskInode.dataBlocks DiskInode.dataBlocksOf at hsmall
  have hns : asU32 ((d.size / 32 + 1) * 32) = (d.size / 32 + 1) * 32 := Nat.mod_eq_of_lt (by omega)
  rw [Inode.appendDirent, hns] at h
  obtain ⟨d₁, s₁, h1, h⟩ := run_bind_ok.mp h
  obtain ⟨e, s₂, h2, h⟩ := run_bind_ok.mp h
  obtain ⟨hlen, he, hs₂⟩ := direntNew_ok h2
  obtain ⟨n, s₃, h3, h⟩ := run_bind_ok.mp h
  simp only [pure_eq_ret, run_ret, Except.ok.injEq, Prod.mk.injEq] at h he hs₂
  rw [he, hs₂] at h3
  rw [← h.1, ← h.2]
  exact ⟨hlen, (growWrite_ok ho ht (by omega) h1 h3).2⟩

/-- The parts of a `create` that returned: the next inode is initialised, then inode `id` is opened and
    the entry is appended to it. -/
theorem create_parts (hi : Idle efs s) {ino : Inode} (h : (Inode.create efs (efs.handle id) name).run s = .ok (ino, s')) :
    ∃ i, NextInode efs s.blk i ∧ ino = efs.handle (asU32 i) ∧ ∃ d' s₁,
      (Inode.appendDirent efs name (asU32 i) (efs.inodeAt (newInode efs s.blk i) id)).run
        ((({ s with busy := true } : Store Block).withBlk (newInode efs s.blk i)).pin (efs.inodeBlock id)) = .ok (d', s₁) ∧
      ∀ blk₁, s₁ = ((({ s with busy := true } : Store Block).withBlk (newInode efs s.blk i)).pin (efs.inodeBlock id)).withBlk
          blk₁ → s' = s.withBlk (storeInode efs (newInode efs s.blk i) blk₁ id d') := by
  obtain ⟨s₁, h1, hs'⟩ := withMutex_ok h
  have hl := hi.lock
  obtain ⟨n, s₂, h2, h1⟩ := run_bind_ok.mp h1
  obtain ⟨i, hnext, rfl, rfl⟩ := allocInode_ok hl h2
  obtain ⟨p, s₃, h3, h1⟩ := run_bind_ok.mp h1
  cases getDiskInodePos_ok h3
  obtain ⟨u, s₄, h4, h1⟩ := run_bind_ok.mp h1
  obtain ⟨-, d₀, s₅, h5, hs₄⟩ := modifyDiskInode_ok efs (asU32 i) h4
  cases h5
  obtain rfl := hs₄ _ rfl
  obtain ⟨u', s₆, h6, h1⟩ := run_bind_ok.mp h1
  obtain ⟨-, d', s₇, h7, hs₆⟩ := modifyDiskInode_ok efs id h6
  obtain ⟨d'', s₈, h8, h7⟩ := run_bind_ok.mp h7
  cases h7
  obtain ⟨ino', s₉, h9, h1⟩ := run_bind_ok.mp h1
  cases inode_ok h9
  obtain ⟨u'', s₁₀, h10, h1⟩ := run_bind_ok.mp h1
  cases sync_ok h10
  cases h1
  exact ⟨i, hnext, rfl, _, _, h8, fun blk₁ e => hs' _ (hs₆ _ e)⟩

/-- `create`: the next inode is initialised, then its entry is appended to inode `id`. -/
theorem create_step (hi : Idle efs s) {ino : Inode} (k' : Nat)
    (hB : ∀ i, NextInode efs s.blk i → asU32 i < efs.slots ∧ Wf efs (newInode efs s.blk i) k') (hid : id < k')
    (h : (Inode.create efs (efs.handle id) name).run s = .ok (ino, s')) :
    ∃ i, NextInode efs s.blk i ∧ ino = efs.handle (asU32 i) ∧ (strBytes name).length ≤ 28 ∧
      ∃ d' blkg blk₁, s' = s.withBlk (storeInode efs (newInode efs s.blk i) blk₁ id d') ∧
        GrowWrite efs s.size (efs.inodeAt (newInode efs s.blk i) id) (newInode efs s.blk i)
          (((efs.inodeAt (newInode efs s.blk i) id).size / 32 + 1) * 32)
          ((efs.inodeAt (newInode efs s.blk i) id).size / 32 * 32) (direntBytes name (asU32 i)) d' blkg blk₁ := by
  obtain ⟨i, hnext, rfl, d', s₁, happ, hs'⟩ := create_parts hi h
  have hwf := (hB i hnext).2
  obtain ⟨hlen, blkg, blk₁, rfl, hgw⟩ := appendDirent_ok
    ((hi.lock.withBlk (newInode efs s.blk i)).open_inode (Nat.lt_of_lt_of_le hid hwf.slots)) (hwf.treeOk hid) happ
  exact ⟨i, hnext, rfl, hlen, d', blkg, blk₁, hs' _ rfl, hgw⟩

end Creating

end TgRcore.EasyFs
