/-
  TgRcore.Kernel.FileSystem — the operations on paths of chapter 6 (`fs.rs`).

  `FileSystem` has one directory, the root of an easy-fs. `open` finds or creates a file and
  may clear it, `link` and `unlink` add and remove an entry; none of them checks that a path
  is the name of a file. A removed entry decodes as the empty name and inode 0, which is the
  root, so `find("")` leads to the root directory once a file was unlinked.
  - `FileRun`: the histories of calls on paths and through the handles they returned.
  - `FileAt.call`: what a call did to the entries, the link counts and the files, in a
    history in which no path leads to the root.
  - `path_frame`: such a call leaves the other names alone, up to the names of the same file.
  - `paths_collide`: a file is emptied through another name of it, and `unlink` of one name
    makes the empty name lead to the root.
-/

import TgRcore.EasyFs.NameSafety
import TgRcore.Vm.FileIo

namespace TgRcore.Kernel

open TgRcore.Bytes TgRcore.BlockProg TgRcore.BlockProg.Prog TgRcore.EasyFs
open TgRcore.Vm (FileHandle)

/-! ## Open flags -/

/-- Only the bits that have a name are ever set. -/
structure OpenFlags where
  bits : BitVec 32
  known : bits &&& ~~~0x603#32 = 0#32
  deriving DecidableEq

namespace OpenFlags

def rdonly : OpenFlags := ⟨0, by decide⟩

def wronly : OpenFlags := ⟨1 <<< 0, by decide⟩

def rdwr : OpenFlags := ⟨1 <<< 1, by decide⟩

def create : OpenFlags := ⟨1 <<< 9, by decide⟩

def trunc : OpenFlags := ⟨1 <<< 10, by decide⟩

/-- Nothing when a bit is set that has no name. -/
def fromBits (bits : BitVec 32) : Option OpenFlags :=
  if known : bits &&& ~~~0x603#32 = 0#32 then some ⟨bits, known⟩ else none

theorem fromBits_eq_some {bits : BitVec 32} {flags : OpenFlags} : fromBits bits = some flags ↔ flags.bits = bits := by
  unfold fromBits
  constructor
  · intro h
    split at h
    · cases h
      rfl
    · cases h
  · rintro rfl
    rw [dif_pos flags.known]

def isEmpty (self : OpenFlags) : Bool := self.bits == rdonly.bits

def contains (self other : OpenFlags) : Bool := self.bits &&& other.bits == other.bits

/-- Readable and writable. -/
def readWrite (self : OpenFlags) : Bool × Bool :=
  if self.isEmpty then (true, false)
  else if self.contains wronly then (false, true)
  else (true, true)

end OpenFlags

/-! ## FileSystem -/

/-- The handle of the root directory, and the file system it belongs to. -/
structure FileSystem where
  efs : EasyFileSystem
  root : Inode

namespace FileSystem

def find (self : FileSystem) (path : String) : Fs (Option Inode) := self.root.find self.efs path

def openFile (self : FileSystem) (path : String) (flags : OpenFlags) : Fs (Option FileHandle) := do
  let (readable, writable) := flags.readWrite
  if flags.contains .create then
    match ← self.find path with
    | some inode => do
      inode.clear self.efs
      return some (.new readable writable inode)
    | none => do
      let newInode ← self.root.create self.efs path
      return some (.new readable writable newInode)
  else
    match ← self.find path with
    | some inode => do
      if flags.contains .trunc then inode.clear self.efs
      return some (.new readable writable inode)
    | none => return none

def link (self : FileSystem) (src dst : String) : Fs Int := do
  return if ← self.root.link self.efs src dst then 0 else -1

def unlink (self : FileSystem) (path : String) : Fs Int := do
  return if ← self.root.unlink self.efs path then 0 else -1

end FileSystem

/-! ## Histories -/

/-- Calls on paths, and reads and writes through a handle. -/
inductive FsOp where
  | openFile (path : String) (flags : OpenFlags)
  | link (src dst : String)
  | unlink (path : String)
  | readAt (self : Inode) (offset : Nat) (buf : List UInt8)
  | writeAt (self : Inode) (offset : Nat) (buf : List UInt8)

inductive FsRet where
  | file (fd : Option FileHandle)
  | code (n : Int)
  | bytes (n : Nat) (buf : List UInt8)
  | count (n : Nat)

/-- The handle a call returned. -/
def FsRet.handles : FsRet → List Inode
  | file (some fd) => fd.inode.toList
  | _ => []

namespace FsOp

/-- The handle a read or a write is made on. -/
def self? : FsOp → Option Inode
  | readAt i _ _ => some i
  | writeAt i _ _ => some i
  | _ => none

def exec (fs : FileSystem) : FsOp → Fs FsRet
  | openFile path flags => do return .file (← fs.openFile path flags)
  | link src dst => do return .code (← fs.link src dst)
  | unlink path => do return .code (← fs.unlink path)
  | readAt i offset buf => do
    let (n, buf) ← i.readAt fs.efs offset buf
    return .bytes n buf
  | writeAt i offset buf => do return .count (← i.writeAt fs.efs offset buf)

/-- The call empties the file that its path leads to. -/
def clears : FsOp → Bool
  | openFile _ flags => flags.contains .create || flags.contains .trunc
  | _ => false

end FsOp

/-- The histories of a file system made on `dev` in which every call satisfies `G`; `m` is the
    machine after the last call, `hs` the handles returned so far. -/
inductive FileRun (total ibb : Nat) (dev : BlockDevice Block)
    (G : EasyFileSystem → (Nat → Block) → FsOp → Prop) : FileSystem → Cached Block → List Inode → Prop
  | start {efs : EasyFileSystem} {root : Inode} {m m' : Cached Block} :
      runCached (EasyFileSystem.create .ch6 total ibb) (boot dev) = .ok (efs, m) →
      runCached efs.rootInode m = .ok (root, m') → FileRun total ibb dev G ⟨efs, root⟩ m' []
  | step {fs : FileSystem} {m m' : Cached Block} {hs : List Inode} {op : FsOp} {r : FsRet} :
      FileRun total ibb dev G fs m hs → (∀ i, op.self? = some i → i ∈ hs) → G fs.efs m.w.dev.data op →
      runCached (op.exec fs) m = .ok (r, m') → FileRun total ibb dev G fs m' (r.handles ++ hs)

/-! ### Every call writes back -/

section Settling

variable (fs : FileSystem)

theorem settles_openFile (path : String) (flags : OpenFlags) : Settles true true (fs.openFile path flags) := by
  unfold FileSystem.openFile
  dsimp only
  split
  · refine .bind (readOnly_find _ path).settles fun o => ?_
    cases o with
    | none => exact .bind (settles_create _ path) fun _ => .ret _ id
    | some inode => exact .bind (settles_clear inode) fun _ => .ret _ id
  · refine .bind (readOnly_find _ path).settles fun o => ?_
    cases o with
    | none => exact .ret _ id
    | some inode =>
      dsimp only
      split
      · exact .bind (settles_clear inode) fun _ => .ret _ id
      · exact .ret _ id

theorem op_settles (op : FsOp) : Settles true true (op.exec fs) := by
  cases op with
  | openFile path flags => exact .bind (settles_openFile fs path flags) fun _ => .ret _ id
  | link src dst => exact .bind (.bind (settles_link _ src dst) fun _ => .ret _ id) fun _ => .ret _ id
  | unlink path => exact .bind (.bind (settles_unlink _ path) fun _ => .ret _ id) fun _ => .ret _ id
  | readAt i off buf => exact .bind (readOnly_inodeReadAt i off buf).settles fun _ => .ret _ id
  | writeAt i off buf => exact .bind (settles_writeAt i off buf) fun _ => .ret _ id

end Settling

/-! ## What a call does -/

/-- No path leads to the root; a new entry is one that the directory can hold, and a new
    inode one that the inode area has. -/
def FsOp.Sound (efs : EasyFileSystem) (blk : Nat → Block) : FsOp → Prop
  | openFile path flags => (∀ id, Resolves efs blk path id → 0 < id) ∧
      (flags.contains .create → (∀ id, ¬ Resolves efs blk path id) →
        NameFits path ∧ ∀ id, NextInode efs blk id → id < efs.slots)
  | link src dst => ∀ id, Resolves efs blk src id → 0 < id ∧ NameFits dst
  | unlink path => ∀ id, Resolves efs blk path id → 0 < id
  | _ => True

/-- The file that `open` returns. -/
def opened (flags : OpenFlags) (inode : Inode) : FsRet := .file (some (.new flags.readWrite.1 flags.readWrite.2 inode))

/-- What a call may do to the entries `dir` of the root directory, the number `k` of inodes
    and the files. -/
def FsStep (efs : EasyFileSystem) (blk blk' : Nat → Block) (k k' : Nat) (dir dir' : List Entry) : FsOp → FsRet → Prop
  | .openFile path flags, r =>
      (∃ id, dir.lookup path = some id ∧ r = opened flags (efs.handle id) ∧ k' = k ∧ dir' = dir ∧
        (∀ id' < k, id' ≠ 0 → ((FsOp.openFile path flags).clears = true → id' ≠ id) → Kept efs blk blk' id') ∧
        ((FsOp.openFile path flags).clears = true → contentAt efs blk' (efs.handle id) = [])) ∨
      (dir.lookup path = none ∧ flags.contains .create = true ∧ r = opened flags (efs.handle k) ∧ k' = k + 1 ∧
        dir' = dir ++ [(path, k)] ∧ contentAt efs blk' (efs.handle k) = [] ∧ ∀ id < k, id ≠ 0 → Kept efs blk blk' id) ∨
      (dir.lookup path = none ∧ flags.contains .create = false ∧ r = .file none ∧ k' = k ∧ dir' = dir ∧ blk' = blk)
  | .link src dst, r => k' = k ∧ ((dir.lookup src = none ∧ r = .code (-1) ∧ dir' = dir ∧ blk' = blk) ∨
      ∃ id, dir.lookup src = some id ∧ r = .code 0 ∧ dir' = dir ++ [(dst, id)] ∧
        ∀ id' < k, id' ≠ 0 → Kept efs blk blk' id')
  | .unlink path, r => k' = k ∧ ((dir.lookup path = none ∧ r = .code (-1) ∧ dir' = dir ∧ blk' = blk) ∨
      ∃ id j, dir.lookup path = some id ∧ dir[j]? = some (path, id) ∧ r = .code 0 ∧ dir' = dir.set j dead ∧
        ∀ id' < k, id' ≠ 0 → (id' = id → names dir id ≠ 1) → Kept efs blk blk' id')
  | .readAt _ _ _, _ => k' = k ∧ dir' = dir ∧ blk' = blk
  | .writeAt i _ _, _ => k' = k ∧ dir' = dir ∧ ∀ id < k, id ≠ 0 → efs.handle id ≠ i → Kept efs blk blk' id

/-- Where a history is: no handle is that of the root. -/
structure FileAt (efs : EasyFileSystem) (dev : BlockDevice Block) (m : Cached Block) (hs : List Inode) (s : Store Block)
    (k : Nat) (dir : List Entry) : Prop where
  here : At efs dev m s
  ns : Namespace efs dev.size s.blk k dir
  handles : ∀ h ∈ hs, ∃ id, 0 < id ∧ id < k ∧ h = efs.handle id

/-- The file system that `root_inode` gives. -/
def mounted (efs : EasyFileSystem) : FileSystem := ⟨efs, efs.handle 0⟩

section Calls

variable {efs : EasyFileSystem} {dev : BlockDevice Block} {m m' : Cached Block} {hs : List Inode} {s s' : Store Block}
  {k id : Nat} {dir : List Entry} {path : String} {flags : OpenFlags}

theorem FileAt.nsAt (h : FileAt efs dev m hs s k dir) : Namespace efs s.size s.blk k dir := by
  have hns := h.ns
  rwa [← h.here.size] at hns

theorem find_run_eq (hi : Idle efs s) (h : Namespace efs s.size s.blk k dir) (path : String) :
    ((mounted efs).find path).run s = .ok ((dir.lookup path).map efs.handle, s) :=
  find_run h.toRootDir h.ok hi h.toWf h.pos (Nat.le_of_lt h.below) path

/-- A file is emptied. -/
theorem clear_file (hi : Idle efs s) (h : Namespace efs s.size s.blk k dir) (h0 : 0 < id) (hid : id < k) {u : Unit}
    (hr : (Inode.clear efs (efs.handle id)).run s = .ok (u, s')) :
    ∃ blk', s' = s.withBlk blk' ∧ Namespace efs s.size blk' k dir ∧ contentAt efs blk' (efs.handle id) = [] ∧
      ∀ id' < k, id' ≠ id → Kept efs s.blk blk' id' := by
  obtain ⟨d', blk₁, rfl, hc⟩ := clear_step hi h.toWf hid hr
  obtain ⟨hns, hkept⟩ := h.file hid (Nat.ne_of_gt h0) hc.treeStep hc.linkNum
  refine ⟨_, rfl, hns, ?_, hkept⟩
  rw [hc.treeStep.content_self h.toWf hid]
  exact content_of_size_zero hc.size _

theorem openFile_step (hi : Idle efs s) (h : Namespace efs s.size s.blk k dir)
    (hs : (FsOp.openFile path flags).Sound efs s.blk) {o : Option FileHandle}
    (hr : ((mounted efs).openFile path flags).run s = .ok (o, s')) :
    ∃ blk' k' dir', s' = s.withBlk blk' ∧ Namespace efs s.size blk' k' dir' ∧
      FsStep efs s.blk blk' k k' dir dir' (.openFile path flags) (.file o) := by
  obtain ⟨hlive, hnew⟩ := hs
  have hfind := find_run_eq hi h path
  unfold FileSystem.openFile at hr
  dsimp only at hr
  cases hl : dir.lookup path with
  | some id =>
    have hid := h.ok.lookup_lt hl
    have h0 := hlive id (h.resolves_iff.mpr hl)
    rw [hl] at hfind
    -- the file is there: it is emptied, or it is not
    have hcleared : (FsOp.openFile path flags).clears = true → ∀ {u : Unit} {s₁ : Store Block},
        (Inode.clear efs (efs.handle id)).run s = .ok (u, s₁) →
        o = some (.new flags.readWrite.1 flags.readWrite.2 (efs.handle id)) → s' = s₁ →
        ∃ blk' k' dir', s' = s.withBlk blk' ∧ Namespace efs s.size blk' k' dir' ∧
          FsStep efs s.blk blk' k k' dir dir' (.openFile path flags) (.file o) := by
      rintro hcl u s₁ hc rfl rfl
      obtain ⟨blk', rfl, hns, hempty, hkept⟩ := clear_file hi h h0 hid hc
      exact ⟨blk', k, dir, rfl, hns, .inl ⟨id, hl, rfl, rfl, rfl, fun id' hid' _ hne => hkept id' hid' (hne hcl),
        fun _ => hempty⟩⟩
    split at hr
    · rename_i hc
      rw [run_bind_of hfind] at hr
      obtain ⟨u, s₁, h1, hr⟩ := run_bind_ok.mp hr
      cases hr
      exact hcleared (by rw [FsOp.clears, hc, Bool.true_or]) h1 rfl rfl
    · rename_i hc
      rw [run_bind_of hfind] at hr
      change ((if flags.contains .trunc = true then _ else _ : Fs _)).run s = _ at hr
      split at hr
      · rename_i ht
        obtain ⟨u, s₁, h1, hr⟩ := run_bind_ok.mp hr
        cases hr
        exact hcleared (by rw [FsOp.clears, ht, Bool.or_true]) h1 rfl rfl
      · rename_i ht
        cases hr
        have hcl : ¬ (FsOp.openFile path flags).clears = true := by
          rw [FsOp.clears, Bool.or_eq_true]
          exact not_or_intro hc ht
        exact ⟨s.blk, k, dir, rfl, h, .inl ⟨id, hl, rfl, rfl, rfl, fun id' _ _ _ => .refl efs s.blk id',
          fun e => absurd e hcl⟩⟩
  | none =>
    rw [hl] at hfind
    split at hr
    · rename_i hc
      rw [run_bind_of hfind] at hr
      obtain ⟨ino, s₁, h1, hr⟩ := run_bind_ok.mp hr
      cases hr
      have habs : ∀ id, ¬ Resolves efs s.blk path id := fun id hn => by
        rw [h.resolves_iff, hl] at hn
        cases hn
      obtain ⟨hv, hslot⟩ := hnew hc habs
      obtain ⟨rfl, blk', rfl, hns, hempty, hkept⟩ := h.create hi hv hslot h1
      exact ⟨blk', k + 1, _, rfl, hns, .inr (.inl ⟨hl, hc, rfl, rfl, rfl, hempty, hkept⟩)⟩
    · rename_i hc
      rw [run_bind_of hfind] at hr
      cases hr
      exact ⟨s.blk, k, dir, rfl, h, .inr (.inr ⟨hl, by simpa using hc, rfl, rfl, rfl, rfl⟩)⟩

/-- What a call did, in a history in which no path leads to the root. -/
theorem FileAt.call (h : FileAt efs dev m hs s k dir) {op : FsOp} {r : FsRet} (hop : op.Sound efs s.blk)
    (hself : ∀ i, op.self? = some i → i ∈ hs) (hr : runCached (op.exec (mounted efs)) m = .ok (r, m')) :
    ∃ s' k' dir', FileAt efs dev m' (r.handles ++ hs) s' k' dir' ∧ FsStep efs s.blk s'.blk k k' dir dir' op r := by
  obtain ⟨s', h1, h2⟩ := h.here.run (op_settles (mounted efs) op) hr
  have hi := h.here.idle
  have hns := h.nsAt
  cases op with
  | openFile path flags =>
    obtain ⟨r', s₁, h3, h1⟩ := run_bind_ok.mp h1
    cases h1
    obtain ⟨blk', k', dir', rfl, hns', hstep⟩ := openFile_step hi hns hop h3
    rw [h.here.size] at hns'
    refine ⟨_, k', dir', ⟨h2 _ rfl, hns', fun i hmem => ?_⟩, hstep⟩
    have hopened : ∀ id, i ∈ (opened flags (efs.handle id)).handles ++ hs → i = efs.handle id ∨ i ∈ hs := fun id hm => by
      simpa [opened, FsRet.handles, FileHandle.new] using hm
    have hmono : ∀ i ∈ hs, k ≤ k' → ∃ id, 0 < id ∧ id < k' ∧ i = efs.handle id := by
      intro i hi' hle
      obtain ⟨id, h0, hid, e⟩ := h.handles i hi'
      exact ⟨id, h0, Nat.lt_of_lt_of_le hid hle, e⟩
    rcases hstep with ⟨id, hl, e, rfl, -⟩ | ⟨hl, -, e, rfl, -⟩ | ⟨-, -, e, rfl, -⟩
    · rw [e] at hmem
      rcases hopened id hmem with rfl | hm
      · exact ⟨id, hop.1 id (hns.resolves_iff.mpr hl), hns.ok.lookup_lt hl, rfl⟩
      · exact hmono i hm (Nat.le_refl _)
    · rw [e] at hmem
      rcases hopened k hmem with rfl | hm
      · exact ⟨k, hns.pos, Nat.lt_succ_self k, rfl⟩
      · exact hmono i hm (Nat.le_succ k)
    · rw [e] at hmem
      exact hmono i hmem (Nat.le_refl _)
  | link src dst =>
    obtain ⟨r', s₁, h3, h1⟩ := run_bind_ok.mp h1
    cases h1
    obtain ⟨b, s₂, h4, h3⟩ := run_bind_ok.mp h3
    cases h3
    have hlive : ∀ id, dir.lookup src = some id → 0 < id ∧ NameFits dst := fun id hl => hop id (hns.resolves_iff.mpr hl)
    rcases hns.link hi hlive h4 with ⟨hl, rfl, rfl⟩ | ⟨id, blk', hl, rfl, rfl, hns', hkept⟩
    · exact ⟨_, k, dir, ⟨h2 _ rfl, h.ns, h.handles⟩, rfl, .inl ⟨hl, rfl, rfl, rfl⟩⟩
    · rw [h.here.size] at hns'
      exact ⟨_, k, _, ⟨h2 _ rfl, hns', h.handles⟩, rfl, .inr ⟨id, hl, rfl, rfl, hkept⟩⟩
  | unlink path =>
    obtain ⟨r', s₁, h3, h1⟩ := run_bind_ok.mp h1
    cases h1
    obtain ⟨b, s₂, h4, h3⟩ := run_bind_ok.mp h3
    cases h3
    have hlive : ∀ id, dir.lookup path = some id → 0 < id := fun id hl => hop id (hns.resolves_iff.mpr hl)
    rcases hns.unlink hi hlive h4 with ⟨hl, rfl, rfl⟩ | ⟨id, j, blk', hl, hj, rfl, rfl, hns', hkept, -⟩
    · exact ⟨_, k, dir, ⟨h2 _ rfl, h.ns, h.handles⟩, rfl, .inl ⟨hl, rfl, rfl, rfl⟩⟩
    · rw [h.here.size] at hns'
      exact ⟨_, k, _, ⟨h2 _ rfl, hns', h.handles⟩, rfl, .inr ⟨id, j, hl, hj, rfl, rfl, hkept⟩⟩
  | readAt i off buf =>
    obtain ⟨r', s₁, h3, h1⟩ := run_bind_ok.mp h1
    cases h1
    obtain rfl := (readOnly_inodeReadAt i off buf).run_eq h3
    exact ⟨_, k, dir, ⟨h2 _ rfl, h.ns, h.handles⟩, rfl, rfl, rfl⟩
  | writeAt i off buf =>
    obtain ⟨r', s₁, h3, h1⟩ := run_bind_ok.mp h1
    cases h1
    obtain ⟨id, h0, hid, rfl⟩ := h.handles i (hself i rfl)
    obtain ⟨d', blkg, blk₁, rfl, -, hgw⟩ := writeAt_step hi hns.toWf hid h3
    obtain ⟨hns', hkept⟩ := h.ns.file hid (Nat.ne_of_gt h0) hgw.step hgw.linkNum_eq
    exact ⟨_, k, dir, ⟨h2 _ rfl, hns', h.handles⟩, rfl, rfl, fun id' hid' _ hne => hkept id' hid' fun e => hne (by rw [e])⟩

end Calls

/-! ## What a call leaves alone -/

/-- The path whose entry a call adds or removes. -/
def FsOp.path? : FsOp → Option String
  | openFile path _ => some path
  | link _ dst => some dst
  | unlink path => some path
  | _ => none

/-- The call changes the bytes of inode `id`. -/
def FsOp.Changes (efs : EasyFileSystem) (blk : Nat → Block) (id : Nat) : FsOp → Prop
  | openFile path flags => (openFile path flags).clears = true ∧ Resolves efs blk path id
  | writeAt i _ _ => i = efs.handle id
  | _ => False

/-- The call adds or removes an entry of inode `id`. -/
def FsOp.Counts (efs : EasyFileSystem) (blk : Nat → Block) (id : Nat) : FsOp → Prop
  | link src _ => Resolves efs blk src id
  | unlink path => Resolves efs blk path id
  | _ => False

/-- The bytes of the root directory: at most the entry of the path comes or goes. -/
def RootFrame (efs : EasyFileSystem) (blk blk' : Nat → Block) : FsOp → Prop
  | .openFile path flags => contentAt efs blk' (efs.handle 0) = contentAt efs blk (efs.handle 0) ∨
      flags.contains .create = true ∧ (∀ id, ¬ Resolves efs blk path id) ∧
        ∃ id, contentAt efs blk' (efs.handle 0) = contentAt efs blk (efs.handle 0) ++ direntBytes path id
  | .link src dst => contentAt efs blk' (efs.handle 0) = contentAt efs blk (efs.handle 0) ∨
      ∃ id, Resolves efs blk src id ∧
        contentAt efs blk' (efs.handle 0) = contentAt efs blk (efs.handle 0) ++ direntBytes dst id
  | .unlink path => contentAt efs blk' (efs.handle 0) = contentAt efs blk (efs.handle 0) ∨
      ∃ j < (contentAt efs blk (efs.handle 0)).length / 32, (rootEntry efs blk j).getName = ret path ∧
        contentAt efs blk' (efs.handle 0) = overwrite (contentAt efs blk (efs.handle 0)) (32 * j) DirEntry.empty.asBytes
  | _ => contentAt efs blk' (efs.handle 0) = contentAt efs blk (efs.handle 0)

/-- The names other than the path, and the root directory, are as they were. -/
structure Frame (efs : EasyFileSystem) (blk blk' : Nat → Block) (op : FsOp) : Prop where
  root : RootFrame efs blk blk' op
  resolves : ∀ name, op.path? ≠ some name → (∀ path, op = .unlink path → name ≠ "") →
    ∀ id, Resolves efs blk' name id ↔ Resolves efs blk name id
  content : ∀ name id, op.path? ≠ some name → 0 < id → Resolves efs blk name id → ¬ op.Changes efs blk id →
    contentAt efs blk' (efs.handle id) = contentAt efs blk (efs.handle id)
  linkNum : ∀ name id, op.path? ≠ some name → 0 < id → Resolves efs blk name id → ¬ op.Counts efs blk id →
    (efs.inodeAt blk' id).linkNum = (efs.inodeAt blk id).linkNum
  emptied : ∀ path id, op.path? = some path → op.clears = true → 0 < id → Resolves efs blk path id →
    contentAt efs blk' (efs.handle id) = []

section Frames

variable {efs : EasyFileSystem} {dev : BlockDevice Block} {m m' : Cached Block} {hs hs' : List Inode} {s s' : Store Block}
  {k k' id size : Nat} {blk blk' : Nat → Block} {dir dir' : List Entry} {path : String} {p : Entry}

theorem root_append (h : Listing efs size blk k dir) (h' : Listing efs size blk' k' (dir ++ [p])) :
    contentAt efs blk' (efs.handle 0) = contentAt efs blk (efs.handle 0) ++ direntBytes p.1 p.2 := by
  have hone : dirBytes [p] = direntBytes p.1 p.2 := dirBytes_singleton p
  rw [h'.toRootDir.content, h.toRootDir.content, dirBytes_append, hone]

theorem root_erase (h : Listing efs size blk k dir) {j : Nat} (hj : dir[j]? = some p)
    (h' : Listing efs size blk' k' (dir.set j dead)) :
    j < (contentAt efs blk (efs.handle 0)).length / 32 ∧ (rootEntry efs blk j).getName = ret p.1 ∧
      contentAt efs blk' (efs.handle 0) = overwrite (contentAt efs blk (efs.handle 0)) (32 * j) DirEntry.empty.asBytes := by
  have hlt := (List.getElem?_eq_some_iff.mp hj).1
  refine ⟨by rw [h.length_content_root]; exact hlt, h.getName_rootEntry hj, ?_⟩
  rw [h'.toRootDir.content, h.toRootDir.content, ← overwrite_dirBytes dead hlt, dead_bytes]

theorem resolves_congr (h : Listing efs size blk k dir) (h' : Listing efs size blk' k' dir') {name : String}
    (hl : dir'.lookup name = dir.lookup name) : Resolves efs blk' name id ↔ Resolves efs blk name id := by
  rw [h'.resolves_iff, h.resolves_iff, hl]

theorem linkNum_congr (h : Namespace efs size blk k dir) (h' : Namespace efs size blk' k' dir') (hk : k ≤ k') (h0 : 0 < id)
    (hid : id < k) (hn : names dir' id = names dir id) : (efs.inodeAt blk' id).linkNum = (efs.inodeAt blk id).linkNum := by
  rw [h'.links id h0 (Nat.lt_of_lt_of_le hid hk), h.links id h0 hid, hn]

theorem names_append_of_ne (h : p.2 ≠ id) : names (dir ++ [p]) id = names dir id := by
  rw [names_append, if_neg h, Nat.add_zero]

theorem names_erase_of_ne {j : Nat} (hj : dir[j]? = some p) (h0 : 0 < id) (h : p.2 ≠ id) :
    names (dir.set j dead) id = names dir id := by
  have := names_erase hj h0
  rwa [if_neg h, Nat.add_zero] at this

/-- The entries stay, and so does every file that the call does not change. -/
theorem frame_same (op : FsOp) (h : Namespace efs size blk k dir) (h' : Namespace efs size blk' k dir)
    (hroot : contentAt efs blk' (efs.handle 0) = contentAt efs blk (efs.handle 0) → RootFrame efs blk blk' op)
    (hkept : ∀ id < k, id ≠ 0 → ¬ op.Changes efs blk id → Kept efs blk blk' id)
    (hempty : ∀ path id, op.path? = some path → op.clears = true → 0 < id → Resolves efs blk path id →
      contentAt efs blk' (efs.handle id) = []) : Frame efs blk blk' op := by
  refine ⟨hroot ?_, fun name _ _ id => ?_, fun name id _ h0 hr hch => ?_, fun name id _ h0 hr _ => ?_, hempty⟩
  · rw [h'.toRootDir.content, h.toRootDir.content]
  · exact resolves_congr h.toListing h'.toListing rfl
  · exact (hkept id (h.ok.lookup_lt (h.resolves_iff.mp hr)) (Nat.ne_of_gt h0) hch).content
  · exact linkNum_congr h h' (Nat.le_refl k) h0 (h.ok.lookup_lt (h.resolves_iff.mp hr)) rfl

/-- An entry of the path is appended; every file stays. -/
theorem frame_append (op : FsOp) (hp : op.path? = some p.1) (hcl : op.clears = true → dir.lookup p.1 = none)
    (h : Namespace efs size blk k dir) (h' : Namespace efs size blk' k' (dir ++ [p])) (hk : k ≤ k')
    (hroot : contentAt efs blk' (efs.handle 0) = contentAt efs blk (efs.handle 0) ++ direntBytes p.1 p.2 →
      RootFrame efs blk blk' op)
    (hkept : ∀ id < k, id ≠ 0 → Kept efs blk blk' id) (hcnt : p.2 < k → op.Counts efs blk p.2) : Frame efs blk blk' op := by
  refine ⟨hroot (root_append h.toListing h'.toListing), fun name hne _ id => ?_, fun name id _ h0 hr _ => ?_,
    fun name id _ h0 hr hc => ?_, fun path id hpath hclr h0 hr => ?_⟩
  · rw [hp] at hne
    exact resolves_congr h.toListing h'.toListing (lookup_append_of_ne fun e => hne (by rw [e]))
  · exact (hkept id (h.ok.lookup_lt (h.resolves_iff.mp hr)) (Nat.ne_of_gt h0)).content
  · have hid := h.ok.lookup_lt (h.resolves_iff.mp hr)
    refine linkNum_congr h h' hk h0 hid (names_append_of_ne fun e => hc ?_)
    rw [← e]
    exact hcnt (by rw [e]; exact hid)
  · rw [hp, Option.some.injEq] at hpath
    rw [← hpath, h.resolves_iff, hcl hclr] at hr
    cases hr

/-- What a call leaves alone. -/
theorem FileAt.frame {op : FsOp} {r : FsRet} (h : FileAt efs dev m hs s k dir) (h' : FileAt efs dev m' hs' s' k' dir')
    (hstep : FsStep efs s.blk s'.blk k k' dir dir' op r) : Frame efs s.blk s'.blk op := by
  cases op with
  | openFile path flags =>
    rcases hstep with ⟨id, hl, -, rfl, rfl, hkept, hempty⟩ | ⟨hl, hc, -, rfl, rfl, -, hkept⟩ | ⟨hl, -, -, rfl, rfl, hblk⟩
    · refine frame_same _ h.ns h'.ns .inl (fun id' hid' hne hch => hkept id' hid' hne fun hclr e => hch ⟨hclr, ?_⟩)
        fun path' id' hp hclr _ hr => ?_
      · rw [e]
        exact h.ns.resolves_iff.mpr hl
      · cases hp
        rw [h.ns.resolves_iff, hl] at hr
        cases hr
        exact hempty hclr
    · have habs : ∀ id, ¬ Resolves efs s.blk path id := fun id hn => by
        rw [h.ns.resolves_iff, hl] at hn
        cases hn
      exact frame_append _ rfl (fun _ => hl) h.ns h'.ns (Nat.le_succ k) (fun e => .inr ⟨hc, habs, k, e⟩) hkept
        fun hlt => absurd hlt (Nat.lt_irrefl k)
    · refine frame_same _ h.ns h'.ns .inl (fun id' _ _ _ => by rw [hblk]; exact .refl efs s.blk id')
        fun path' id' hp _ _ hr => ?_
      cases hp
      rw [h.ns.resolves_iff, hl] at hr
      cases hr
  | link src dst =>
    obtain ⟨rfl, ⟨-, -, rfl, hblk⟩ | ⟨id, hl, -, rfl, hkept⟩⟩ := hstep
    · exact frame_same _ h.ns h'.ns .inl (fun id' _ _ _ => by rw [hblk]; exact .refl efs s.blk id')
        fun _ _ _ hclr => by cases hclr
    · have hr : Resolves efs s.blk src id := h.ns.resolves_iff.mpr hl
      exact frame_append _ rfl (fun hclr => by cases hclr) h.ns h'.ns (Nat.le_refl k') (fun e => .inr ⟨id, hr, e⟩) hkept
        fun _ => hr
  | unlink path =>
    obtain ⟨rfl, ⟨-, -, rfl, hblk⟩ | ⟨id, j, hl, hj, -, rfl, hkept⟩⟩ := hstep
    · exact frame_same _ h.ns h'.ns .inl (fun id' _ _ _ => by rw [hblk]; exact .refl efs s.blk id')
        fun _ _ _ hclr => by cases hclr
    · refine ⟨.inr ⟨j, root_erase h.ns.toListing hj h'.ns.toListing⟩, fun name hne hn id' => ?_,
        fun name id' hne h0 hr _ => ?_, fun name id' _ h0 hr hc => ?_, fun _ _ _ hclr => by cases hclr⟩
      · exact resolves_congr h.ns.toListing h'.ns.toListing
          (lookup_erase_of_ne hj (fun e => hne (by rw [e]; rfl)) (hn path rfl))
      · -- a file with a second name is not emptied
        have hl' := h.ns.resolves_iff.mp hr
        refine (hkept id' (h.ns.ok.lookup_lt hl') (Nat.ne_of_gt h0) fun e hone => ?_).content
        subst e
        have hne' : name ≠ path := fun e => hne (by rw [e]; rfl)
        have := one_lt_names (mem_of_lookup hl) (mem_of_lookup hl') hne' h0
        omega
      · refine linkNum_congr h.ns h'.ns (Nat.le_refl k') h0 (h.ns.ok.lookup_lt (h.ns.resolves_iff.mp hr))
          (names_erase_of_ne hj h0 fun e => hc ?_)
        rw [← e]
        exact h.ns.resolves_iff.mpr hl
  | readAt i off buf =>
    obtain ⟨rfl, rfl, hblk⟩ := hstep
    exact frame_same _ h.ns h'.ns id (fun id' _ _ _ => by rw [hblk]; exact .refl efs s.blk id') fun _ _ hp => by cases hp
  | writeAt i off buf =>
    obtain ⟨rfl, rfl, hkept⟩ := hstep
    exact frame_same _ h.ns h'.ns id (fun id' hid' hne hch => hkept id' hid' hne fun e => hch e.symm)
      fun _ _ hp => by cases hp

end Frames

/-! ## Histories of calls -/

/-- `find` returns the inode that the first entry with the name has. -/
def FindsFirst (fs : FileSystem) (m : Cached Block) : Prop := ∀ path,
  (∃ id m', Resolves fs.efs m.w.dev.data path id ∧ runCached (fs.find path) m = .ok (some (fs.efs.handle id), m')) ∨
    (∀ id, ¬ Resolves fs.efs m.w.dev.data path id) ∧ ∃ m', runCached (fs.find path) m = .ok (none, m')

section Histories

variable {efs : EasyFileSystem} {fs : FileSystem} {dev : BlockDevice Block} {m m' : Cached Block} {hs : List Inode}
  {s : Store Block} {k total ibb : Nat} {dir : List Entry}

/-- A new file system, with its root directory open. -/
theorem fileAt_start {root : Inode} (ht : total < 2 ^ 32) (hslot : 0 < (layout .ch6 total ibb).slots)
    (h : runCached (EasyFileSystem.create .ch6 total ibb) (boot dev) = .ok (efs, m))
    (hroot : runCached efs.rootInode m = .ok (root, m')) :
    efs = layout .ch6 total ibb ∧ root = efs.handle 0 ∧
      FileAt efs dev m' [] ((flat dev).withBlk (formatted .ch6 total ibb dev.data)) 1 [] := by
  obtain ⟨he, hn⟩ := namesAt_start ht hslot h
  have hrun := root_returns hn.here.idle (Nat.lt_of_lt_of_le hn.ns.pos hn.ns.slots)
  obtain ⟨s', h1, h2⟩ := hn.here.run (p := efs.rootInode) (ReadOnly.withMutex (readOnly_inode 0)).settles hroot
  rw [hrun] at h1
  cases h1
  exact ⟨he, rfl, h2 _ rfl, hn.ns, by simp⟩

/-- Between any two calls the entries, the link counts and the handles are what they should be. -/
theorem fileAt_run {G : EasyFileSystem → (Nat → Block) → FsOp → Prop} (hG : ∀ efs blk op, G efs blk op → op.Sound efs blk)
    (ht : total < 2 ^ 32) (hslot : 0 < (layout .ch6 total ibb).slots) (h : FileRun total ibb dev G fs m hs) :
    fs = mounted fs.efs ∧ ∃ s k dir, FileAt fs.efs dev m hs s k dir := by
  induction h with
  | start h0 h1 =>
    obtain ⟨-, rfl, hat⟩ := fileAt_start ht hslot h0 h1
    exact ⟨rfl, _, _, _, hat⟩
  | step _ hself hg hr ih =>
    obtain ⟨hfs, s, k, dir, hat⟩ := ih
    rw [hat.here.dev_eq] at hg
    rw [hfs] at hr
    obtain ⟨s', k', dir', hat', -⟩ := hat.call (hG _ _ _ hg) hself hr
    exact ⟨hfs, s', k', dir', hat'⟩

theorem FileAt.findsFirst (h : FileAt efs dev m hs s k dir) : FindsFirst (mounted efs) m := by
  intro path
  have hns := h.nsAt
  obtain ⟨m', hm', -⟩ := h.here.read_returns (readOnly_find _ path) (find_run_eq h.here.idle hns path)
  rw [h.here.dev_eq]
  cases hl : dir.lookup path with
  | none =>
    rw [hl] at hm'
    refine .inr ⟨fun id hr => ?_, m', hm'⟩
    have := h.ns.resolves_iff.mp hr
    rw [hl] at this
    cases this
  | some id =>
    rw [hl] at hm'
    exact .inl ⟨id, m', h.ns.resolves_iff.mpr hl, hm'⟩

/-- In every history in which no path leads to the root, a call on a path leaves the other names, their files
    and their link counts alone, except for the file that the path itself leads to. -/
theorem path_frame (ht : total < 2 ^ 32) (hslot : 0 < (layout .ch6 total ibb).slots)
    (h : FileRun total ibb dev (fun efs blk op => op.Sound efs blk) fs m hs) :
    FindsFirst fs m ∧ ∀ op r m', (∀ i, op.self? = some i → i ∈ hs) → op.Sound fs.efs m.w.dev.data →
      runCached (op.exec fs) m = .ok (r, m') → Frame fs.efs m.w.dev.data m'.w.dev.data op := by
  obtain ⟨hfs, s, k, dir, hat⟩ := fileAt_run (fun _ _ _ h => h) ht hslot h
  refine ⟨?_, fun op r m' hself hop hr => ?_⟩
  · rw [hfs]
    exact hat.findsFirst
  · rw [hat.here.dev_eq] at hop ⊢
    rw [hfs] at hr
    obtain ⟨s', k', dir', hat', hstep⟩ := hat.call hop hself hr
    rw [hat'.here.dev_eq]
    exact hat.frame hat' hstep

end Histories

/-! ## Histories that return -/

section Returning

variable {efs : EasyFileSystem} {dev : BlockDevice Block} {m : Cached Block} {hs : List Inode} {s s' : Store Block}
  {k id : Nat} {blk' : Nat → Block} {dir : List Entry} {path : String} {flags : OpenFlags}

/-- A call that returns on the flat store. -/
theorem FileAt.returns (h : FileAt efs dev m hs s k dir) {op : FsOp} {r : FsRet} (hop : op.Sound efs s.blk)
    (hself : ∀ i, op.self? = some i → i ∈ hs) (hr : (op.exec (mounted efs)).run s = .ok (r, s.withBlk blk')) :
    ∃ m' k' dir', runCached (op.exec (mounted efs)) m = .ok (r, m') ∧
      FileAt efs dev m' (r.handles ++ hs) (s.withBlk blk') k' dir' ∧ FsStep efs s.blk blk' k k' dir dir' op r := by
  obtain ⟨m', hm', hat⟩ := h.here.run_returns (op_settles (mounted efs) op) hr
  obtain ⟨s', k', dir', hat', hstep⟩ := h.call hop hself hm'
  have hblk : s'.blk = blk' := hat'.here.dev_eq.symm.trans hat.dev_eq
  have hns := hat'.ns
  rw [hblk] at hns hstep
  exact ⟨m', k', dir', hm', ⟨hat, hns, hat'.handles⟩, hstep⟩

/-- The path leads to a file. -/
theorem FileAt.leads (h : FileAt efs dev m hs s k dir) (hl : dir.lookup path = some id) (h0 : 0 < id) :
    ∀ id', Resolves efs s.blk path id' → 0 < id' := by
  intro id' hr
  rw [h.ns.resolves_iff, hl, Option.some.injEq] at hr
  rwa [← hr]

theorem openFile_new (hi : Idle efs s) (h : Namespace efs s.size s.blk k dir) (hl : dir.lookup path = none)
    (hc : flags.contains .create = true) {ino : Inode} (hr : (Inode.create efs (efs.handle 0) path).run s = .ok (ino, s')) :
    ((FsOp.openFile path flags).exec (mounted efs)).run s = .ok (opened flags ino, s') := by
  have hfind := find_run_eq hi h path
  rw [hl] at hfind
  have hopen : ((mounted efs).openFile path flags).run s =
      .ok (some (.new flags.readWrite.1 flags.readWrite.2 ino), s') := by
    unfold FileSystem.openFile
    dsimp only
    rw [if_pos hc, run_bind_of hfind]
    exact (run_bind_of hr).trans rfl
  exact (run_bind_of hopen).trans rfl

theorem openFile_trunc (hi : Idle efs s) (h : Namespace efs s.size s.blk k dir) (hl : dir.lookup path = some id)
    (hc : ¬ flags.contains .create = true) (ht : flags.contains .trunc = true)
    (hr : (Inode.clear efs (efs.handle id)).run s = .ok ((), s')) :
    ((FsOp.openFile path flags).exec (mounted efs)).run s = .ok (opened flags (efs.handle id), s') := by
  have hfind := find_run_eq hi h path
  rw [hl] at hfind
  have hopen : ((mounted efs).openFile path flags).run s =
      .ok (some (.new flags.readWrite.1 flags.readWrite.2 (efs.handle id)), s') := by
    unfold FileSystem.openFile
    dsimp only
    rw [if_neg hc, run_bind_of hfind]
    change (if flags.contains .trunc = true then _ else _ : Fs _).run s = _
    rw [if_pos ht]
    exact (run_bind_of hr).trans rfl
  exact (run_bind_of hopen).trans rfl

end Returning

/-- The root directory of a new file system is open. -/
theorem FileRun.mount {total ibb : Nat} {dev : BlockDevice Block} {G : EasyFileSystem → (Nat → Block) → FsOp → Prop}
    (ha : Accepts .ch6 total ibb) (hi : 0 < ibb) (hdev : dev.size = total) (hs : 0 < (layout .ch6 total ibb).slots) :
    ∃ m s, FileRun total ibb dev G (mounted (layout .ch6 total ibb)) m [] ∧ FileAt (layout .ch6 total ibb) dev m [] s 1 [] ∧
      Bare (layout .ch6 total ibb) dev m s 1 [] ∧ ((layout .ch6 total ibb).inodeAt s.blk 0).size = 0 := by
  obtain ⟨m₀, h0⟩ := start_returns ha hi (Nat.le_of_eq hdev.symm) (by rw [hdev]; exact ha.root_lt hs)
  obtain ⟨-, -, -, -, -, hat₀⟩ := At.start ha.u32 h0
  obtain ⟨m₁, h1, -⟩ := hat₀.read_returns (p := (layout .ch6 total ibb).rootInode) (ReadOnly.withMutex (readOnly_inode 0))
    (root_returns hat₀.idle hs)
  obtain ⟨-, -, hat⟩ := fileAt_start ha.u32 hs h0 h1
  exact ⟨m₁, _, .start h0 h1, hat, Bare.formatted ha hi hdev hs hat.here⟩

/-- A device of 1200 blocks, with the file system that `create` makes there. -/
abbrev smallDev : BlockDevice Block := ⟨1200, fun _ => Blk.zero 512⟩

abbrev smallFs : EasyFileSystem := layout .ch6 1200 1

/-- The small device, before the first file is made. -/
theorem small_mount {G : EasyFileSystem → (Nat → Block) → FsOp → Prop} :
    ∃ m s blk' b, FileRun 1200 1 smallDev G (mounted smallFs) m [] ∧ FileAt smallFs smallDev m [] s 1 [] ∧
      (FsOp.openFile "f" .create).Sound smallFs s.blk ∧
      (Inode.create smallFs (smallFs.handle 0) "f").run s = .ok (smallFs.handle 1, s.withBlk blk') ∧
      ∀ m', At smallFs smallDev m' (s.withBlk blk') → Bare smallFs smallDev m' (s.withBlk blk') 2 [b] := by
  obtain ⟨ha, hslots, hroomy⟩ := small_names
  have hmax : (layout .ch6 1200 1).inodeBitmap.maximum = 4096 := rfl
  obtain ⟨m, s, hrun, hat, hbare, hz⟩ := FileRun.mount (G := G) ha (by norm_num) (show smallDev.size = 1200 from rfl) (by omega)
  obtain ⟨blk', b, hcreate, hbare'⟩ := hbare.create_run hroomy (by norm_num) (by omega) (by omega) hz "f" (by decide)
  refine ⟨m, s, blk', b, hrun, hat, ⟨fun id hr => ?_, fun _ _ => ⟨validName_f.toNameFits, fun id hid => ?_⟩⟩, hcreate, hbare'⟩
  · rw [hat.ns.resolves_iff] at hr
    cases hr
  · rw [hat.ns.next_eq hid, hslots]
    norm_num

/-- `open("f", CREATE)` then. -/
theorem small_file {G : EasyFileSystem → (Nat → Block) → FsOp → Prop}
    (hG : ∀ blk, (FsOp.openFile "f" .create).Sound smallFs blk → G smallFs blk (.openFile "f" .create)) :
    ∃ m s b, FileRun 1200 1 smallDev G (mounted smallFs) m [smallFs.handle 1] ∧
      FileAt smallFs smallDev m [smallFs.handle 1] s 2 [("f", 1)] ∧ Bare smallFs smallDev m s 2 [b] ∧
      (smallFs.inodeAt s.blk 1).size = 0 := by
  obtain ⟨m, s, blk', b, hrun, hat, hsound, hcreate, hbare'⟩ := small_mount (G := G)
  have hns := hat.nsAt
  have hopen := openFile_new hat.here.idle hns rfl (show OpenFlags.create.contains .create = true from rfl) hcreate
  obtain ⟨m', k', dir', hm', hat', hstep⟩ := hat.returns hsound (fun i hi => by cases hi) hopen
  rcases hstep with ⟨id, hl, -⟩ | ⟨-, -, -, rfl, rfl, -, -⟩ | ⟨-, hc, -⟩
  · cases hl
  · exact ⟨m', _, b, hrun.step (fun i hi => by cases hi) (by
      rw [hat.here.dev_eq]
      exact hG _ hsound) hm', hat', hbare' m' hat'.here, (hbare' m' hat'.here).empty 1 (by norm_num) (by norm_num)⟩
  · cases hc

/-- `unlink` of a file without blocks. -/
theorem FileAt.unlink_returns {efs : EasyFileSystem} {dev : BlockDevice Block} {m : Cached Block} {s : Store Block}
    {hs : List Inode} {k id : Nat} {dir : List Entry} {path : String} (h : FileAt efs dev m hs s k dir)
    (hl : dir.lookup path = some id) (h0 : 0 < id) (hz : (efs.inodeAt s.blk id).size = 0) :
    ∃ m' s' j, runCached ((FsOp.unlink path).exec (mounted efs)) m = .ok (.code 0, m') ∧ dir[j]? = some (path, id) ∧
      FileAt efs dev m' hs s' k (dir.set j dead) := by
  have hdev : ∀ b ∈ efs.treeAt s.blk id, b < s.size := by
    rw [show efs.treeAt s.blk id = [] from tree_of_size_zero hz _]
    simp
  obtain ⟨blk', hu⟩ := h.nsAt.unlink_returns h.here.idle hl h0 fun _ => hdev
  have hop : (FsOp.unlink path).Sound efs s.blk := h.leads hl h0
  obtain ⟨m', k', dir', hm', hat, rfl, ⟨hnone, -⟩ | ⟨id', j, hl', hj, -, rfl, -⟩⟩ := h.returns (r := .code 0) hop
    (fun i hi => by cases hi) ((run_bind_of ((run_bind_of hu).trans rfl)).trans rfl)
  · rw [hl] at hnone
    cases hnone
  · rw [hl] at hl'
    cases hl'
    exact ⟨m', _, j, hm', hj, hat⟩

/-- `open("g", CREATE)` after `open("f", CREATE)`. -/
theorem small_files {G : EasyFileSystem → (Nat → Block) → FsOp → Prop}
    (hG : ∀ blk op, op.Sound smallFs blk → G smallFs blk op) :
    ∃ m s, FileRun 1200 1 smallDev G (mounted smallFs) m [smallFs.handle 2, smallFs.handle 1] ∧
      FileAt smallFs smallDev m [smallFs.handle 2, smallFs.handle 1] s 3 [("f", 1), ("g", 2)] ∧
      (smallFs.inodeAt s.blk 1).size = 0 := by
  obtain ⟨-, hslots, -⟩ := small_names
  obtain ⟨m, s, b, hrun, hat, -, hz⟩ := small_file (G := G) fun blk h => hG blk _ h
  have hns := hat.nsAt
  have hslot : ∀ i, NextInode smallFs s.blk i → i < smallFs.slots := fun i hi => by
    rw [hns.next_eq hi, hslots]
    norm_num
  have hiff : (∃ r, (Inode.create smallFs (smallFs.handle 0) "g").run s = .ok r) ↔ _ := hns.create_iff hat.here.idle hslot
  obtain ⟨⟨ino, s'⟩, hcreate⟩ := hiff.mpr ⟨⟨2, hns.next (by decide)⟩, by decide,
    hns.toRootDir.room hns.toWf hns.pos (by decide)⟩
  obtain ⟨-, blk', rfl, -⟩ := hns.create hat.here.idle validName_g.toNameFits hslot hcreate
  have hopen := openFile_new hat.here.idle hns (show List.lookup "g" [("f", 1)] = none by decide)
    (show OpenFlags.create.contains .create = true from rfl) hcreate
  have hsound : (FsOp.openFile "g" .create).Sound smallFs s.blk := by
    refine ⟨fun id hr => ?_, fun _ _ => ⟨validName_g.toNameFits, hslot⟩⟩
    have hl := hat.ns.resolves_iff.mp hr
    cases hl
  obtain ⟨m', k', dir', hm', hat', hstep⟩ := hat.returns hsound (fun i hi => by cases hi) hopen
  rcases hstep with ⟨id, hl, -⟩ | ⟨-, -, e, rfl, rfl, -, hkept⟩ | ⟨-, hc, -⟩
  · cases hl
  · rw [e] at hm' hat'
    refine ⟨m', _, hrun.step (fun i hi => by cases hi) (by
      rw [hat.here.dev_eq]
      exact hG _ _ hsound) hm', hat', ?_⟩
    rw [← length_content _ (s.withBlk blk').blk]
    have hsame := congrArg List.length (hkept 1 (by norm_num) (by norm_num)).content
    exact hsame.trans ((length_content _ _).trans hz)
  · cases hc

/-- A history in which no path leads to the root, with two files, and the call on one of them. -/
theorem path_frame_small : ∃ fs m hs r m',
    FileRun 1200 1 smallDev (fun efs blk op => op.Sound efs blk) fs m hs ∧ hs.length = 2 ∧
      Resolves fs.efs m.w.dev.data "f" 1 ∧ Resolves fs.efs m.w.dev.data "g" 2 ∧
      runCached ((FsOp.unlink "f").exec fs) m = .ok (r, m') ∧ FindsFirst fs m ∧
      Frame fs.efs m.w.dev.data m'.w.dev.data (.unlink "f") := by
  obtain ⟨m, s, hrun, hat, hz⟩ := small_files (G := fun efs blk op => op.Sound efs blk) fun _ _ h => h
  have hlf : List.lookup "f" [("f", 1), ("g", 2)] = some 1 := rfl
  have hlg : List.lookup "g" [("f", 1), ("g", 2)] = some 2 := rfl
  obtain ⟨m', s', j, hm', -⟩ := hat.unlink_returns hlf Nat.one_pos hz
  obtain ⟨hfind, hframe⟩ := path_frame (by norm_num) (by decide) hrun
  refine ⟨_, m, _, _, m', hrun, rfl, ?_, ?_, hm', hfind, hframe _ _ _ (fun i hi => by cases hi) ?_ hm'⟩
  · rw [hat.here.dev_eq]
    exact hat.ns.resolves_iff.mpr hlf
  · rw [hat.here.dev_eq]
    exact hat.ns.resolves_iff.mpr hlg
  · rw [hat.here.dev_eq]
    exact hat.leads hlf Nat.one_pos

/-! ## What other names see -/

/-- The files of the names other than `path` have the bytes they had. -/
def SameContents (efs : EasyFileSystem) (blk blk' : Nat → Block) (path : String) : Prop :=
  ∀ name id, name ≠ path → Resolves efs blk name id → contentAt efs blk' (efs.handle id) = contentAt efs blk (efs.handle id)

/-- The names other than `path` lead where they led. -/
def SameNames (efs : EasyFileSystem) (blk blk' : Nat → Block) (path : String) : Prop :=
  ∀ name id, name ≠ path → (Resolves efs blk' name id ↔ Resolves efs blk name id)

/-- A byte goes into the file `f`. -/
theorem small_written : ∃ m s hs, FileRun 1200 1 smallDev (fun _ _ _ => True) (mounted smallFs) m hs ∧
    FileAt smallFs smallDev m hs s 2 [("f", 1)] ∧ (contentAt smallFs s.blk (smallFs.handle 1)).length = 1 ∧
    ∀ b ∈ smallFs.treeAt s.blk 1, b < s.size := by
  obtain ⟨-, -, hroomy⟩ := small_names
  obtain ⟨m, s, b, hrun, hat, hbare, hz⟩ := small_file (G := fun _ _ _ => True) fun _ _ => trivial
  have hns := hat.nsAt
  have hid : 1 < 2 := by norm_num
  obtain ⟨c, hc, hcd⟩ := hbare.nextData (b := b) hroomy (by simp)
  obtain ⟨n, blk', hw⟩ := writeAt_empty_returns hat.here.idle hns.toWf hid hz hc (by rw [hat.here.size]; exact hcd)
    (show [(7 : UInt8)] ≠ [] by simp) (show 0 + [(7 : UInt8)].length ≤ 512 by simp)
  obtain ⟨d', blkg, blk₁, e, -, hgw⟩ := writeAt_step hat.here.idle hns.toWf hid hw
  obtain rfl : blk' = storeInode smallFs s.blk blk₁ 1 d' := congrArg Store.blk e
  have hgw' : GrowWrite smallFs s.size (smallFs.inodeAt s.blk 1) s.blk (0 + [(7 : UInt8)].length) 0 [7] d' blkg blk₁ := hgw
  have hself : ∀ i, (FsOp.writeAt (smallFs.handle 1) 0 [7]).self? = some i → i ∈ [smallFs.handle 1] := fun i hi => by
    cases hi
    exact List.mem_singleton_self _
  have hop : (FsOp.writeAt (smallFs.handle 1) 0 [7]).Sound smallFs s.blk := trivial
  obtain ⟨m₁, k₁, dir₁, hm₁, hat₁, rfl, rfl, -⟩ := hat.returns (r := .count n) hop hself ((run_bind_of hw).trans rfl)
  refine ⟨m₁, _, _, hrun.step hself trivial hm₁, hat₁, ?_, ?_⟩
  · rw [Store.withBlk_blk, hgw.step.content_self hns.toWf hid, length_content, hgw'.size_eq, hz]
    rfl
  · rw [Store.withBlk_blk, hgw.step.treeAt_self hns.toWf hid]
    refine hgw'.tree_lt (by simp) (hns.toWf.treeOk hid) ?_
    rw [tree_of_size_zero hz]
    simp

/-- The file gets its second name. -/
theorem small_alias : ∃ m s hs, FileRun 1200 1 smallDev (fun _ _ _ => True) (mounted smallFs) m hs ∧
    FileAt smallFs smallDev m hs s 2 [("f", 1), ("g", 1)] ∧ (contentAt smallFs s.blk (smallFs.handle 1)).length = 1 ∧
    ∀ b ∈ smallFs.treeAt s.blk 1, b < s.size := by
  obtain ⟨m, s, hs, hrun, hat, hlen, hdev⟩ := small_written
  have hl : List.lookup "f" [("f", 1)] = some 1 := rfl
  obtain ⟨blk', hk⟩ := hat.nsAt.link_returns hat.here.idle hl Nat.one_pos (by decide)
    (show (strBytes "g").length ≤ 28 by decide)
  have hop : (FsOp.link "f" "g").Sound smallFs s.blk := fun id hr => ⟨hat.leads hl Nat.one_pos id hr, validName_g.toNameFits⟩
  obtain ⟨m', k', dir', hm', hat', rfl, ⟨hnone, -⟩ | ⟨id, hl', -, rfl, hkept⟩⟩ := hat.returns (r := .code 0) hop
    (fun i hi => by cases hi) ((run_bind_of ((run_bind_of hk).trans rfl)).trans rfl)
  · rw [hl] at hnone
    cases hnone
  · rw [hl] at hl'
    cases hl'
    have hkept₁ := hkept 1 (by norm_num) (by norm_num)
    refine ⟨m', _, _, hrun.step (fun i hi => by cases hi) trivial hm', hat', ?_, fun b hb => ?_⟩
    · exact (congrArg List.length hkept₁.content).trans hlen
    · have htree := hkept₁.tree
      exact hdev b (htree ▸ hb)

/-- Entries are padded with NULs: a name that ends in one is entered as the name without it. -/
theorem direntNew_nul (id : Nat) : DirEntry.new "f\x00" id = DirEntry.new "f" id := by
  have h1 : strBytes "f\x00" = [102, 0] := rfl
  have h2 : strBytes "f" = [102] := rfl
  have htab : Blk.tab 28 (fun i => [102, 0].getD i 0) = Blk.tab 28 (fun i => [(102 : UInt8)].getD i 0) := by
    refine Blk.ext_byte fun i hi => ?_
    rw [Blk.byte_tab _ hi, Blk.byte_tab _ hi]
    rcases i with - | - | i <;> rfl
  rw [DirEntry.new, DirEntry.new, h1, h2, htab]
  rfl

theorem create_nul (efs : EasyFileSystem) (self : Inode) : Inode.create efs self "f\x00" = Inode.create efs self "f" := by
  have happ : ∀ id d, Inode.appendDirent efs "f\x00" id d = Inode.appendDirent efs "f" id d := by
    intro id d
    rw [Inode.appendDirent, Inode.appendDirent, direntNew_nul]
  unfold Inode.create
  simp only [happ]

/-- A name with a NUL in it is entered as the part before the NUL. -/
theorem small_nul : ∃ m r m', FileRun 1200 1 smallDev (fun _ _ _ => True) (mounted smallFs) m [] ∧
    runCached ((FsOp.openFile "f\x00" .create).exec (mounted smallFs)) m = .ok (r, m') ∧
    ¬ Resolves smallFs m.w.dev.data "f" 1 ∧ Resolves smallFs m'.w.dev.data "f" 1 := by
  obtain ⟨m, s, blk', b, hrun, hat, hsound, hcreate, -⟩ := small_mount (G := fun _ _ _ => True)
  have hns := hat.nsAt
  have hc : OpenFlags.create.contains .create = true := rfl
  -- the same store as after `open("f", CREATE)`
  obtain ⟨m₁, k₁, dir₁, -, hat₁, hstep⟩ := hat.returns hsound (fun i hi => by cases hi)
    (openFile_new hat.here.idle hns rfl hc hcreate)
  rw [← create_nul] at hcreate
  have hl : List.lookup "f\x00" ([] : List Entry) = none := rfl
  obtain ⟨m', hm', hat'⟩ := hat.here.run_returns (op_settles _ (.openFile "f\x00" .create))
    (openFile_new hat.here.idle hns hl hc hcreate)
  refine ⟨m, _, m', hrun, hm', fun hr => ?_, ?_⟩
  · rw [hat.here.dev_eq, hat.ns.resolves_iff] at hr
    cases hr
  · rcases hstep with ⟨id, hl', -⟩ | ⟨-, -, -, rfl, rfl, -, -⟩ | ⟨-, hc', -⟩
    · cases hl'
    · rw [hat'.dev_eq]
      exact hat₁.ns.resolves_iff.mpr rfl
    · cases hc'

/-- A file is emptied through another of its names; `unlink` leaves the empty name leading to the root; and a
    path with a NUL adds an entry for another name. -/
theorem paths_collide :
    (∃ fs m hs r m', FileRun 1200 1 smallDev (fun _ _ _ => True) fs m hs ∧
      runCached ((FsOp.openFile "g" .trunc).exec fs) m = .ok (r, m') ∧
      ¬ SameContents fs.efs m.w.dev.data m'.w.dev.data "g") ∧
    (∃ fs m hs r m', FileRun 1200 1 smallDev (fun _ _ _ => True) fs m hs ∧
      runCached ((FsOp.unlink "f").exec fs) m = .ok (r, m') ∧
      ¬ SameNames fs.efs m.w.dev.data m'.w.dev.data "f") ∧
    ∃ fs m hs r m', FileRun 1200 1 smallDev (fun _ _ _ => True) fs m hs ∧
      runCached ((FsOp.openFile "f\x00" .create).exec fs) m = .ok (r, m') ∧
      ¬ SameNames fs.efs m.w.dev.data m'.w.dev.data "f\x00" := by
  refine ⟨?_, ?_, ?_⟩
  · obtain ⟨m, s, hs, hrun, hat, hlen, hdev⟩ := small_alias
    have hns := hat.nsAt
    have hlf : List.lookup "f" [("f", 1), ("g", 1)] = some 1 := rfl
    have hlg : List.lookup "g" [("f", 1), ("g", 1)] = some 1 := rfl
    obtain ⟨blk', hc⟩ := clear_returns hat.here.idle hns.toWf (show 1 < 2 by norm_num) hdev
    have hopen := openFile_trunc hat.here.idle hns hlg (show ¬ OpenFlags.trunc.contains .create = true by decide) rfl hc
    have hop : (FsOp.openFile "g" .trunc).Sound smallFs s.blk := ⟨hat.leads hlg Nat.one_pos, fun e => by cases e⟩
    obtain ⟨m', k', dir', hm', hat', hstep⟩ := hat.returns hop (fun i hi => by cases hi) hopen
    refine ⟨_, m, hs, _, m', hrun, hm', fun hsame => ?_⟩
    rcases hstep with ⟨id, hl, -, -, -, -, hempty⟩ | ⟨hl, -⟩ | ⟨hl, -⟩
    · rw [hlg] at hl
      cases hl
      have h1 := hsame "f" 1 (by decide) (by
        rw [hat.here.dev_eq]
        exact hat.ns.resolves_iff.mpr hlf)
      rw [hat.here.dev_eq, hat'.here.dev_eq] at h1
      have h2 := (congrArg List.length h1).symm.trans (congrArg List.length (hempty rfl))
      rw [show (mounted smallFs).efs = smallFs from rfl, hlen] at h2
      cases h2
    · rw [hlg] at hl
      cases hl
    · rw [hlg] at hl
      cases hl
  · obtain ⟨m, s, b, hrun, hat, -, hz⟩ := small_file (G := fun _ _ _ => True) fun _ _ => trivial
    obtain ⟨m', s', j, hm', hj, hat'⟩ := hat.unlink_returns (show List.lookup "f" [("f", 1)] = some 1 from rfl) Nat.one_pos hz
    refine ⟨_, m, _, _, m', hrun, hm', fun hsame => ?_⟩
    obtain rfl : j = 0 := by
      rcases j with - | j
      · rfl
      · cases hj
    have h1 := hsame "" 0 (by decide)
    rw [hat.here.dev_eq, hat'.here.dev_eq] at h1
    have h2 := hat.ns.resolves_iff.mp (h1.mp (hat'.ns.resolves_iff.mpr rfl))
    cases h2
  · obtain ⟨m, r, m', hrun, hm', hbefore, hafter⟩ := small_nul
    exact ⟨_, m, [], r, m', hrun, hm', fun hsame => hbefore ((hsame "f" 1 (by decide)).mp hafter)⟩

end TgRcore.Kernel
