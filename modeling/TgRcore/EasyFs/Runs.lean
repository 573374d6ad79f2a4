/-
  TgRcore.EasyFs.Runs — whole runs of a file system on a device.

  A run starts with `EasyFileSystem::create` on a device with an empty block cache and
  goes on with calls of the inode layer, each made through a handle that an earlier call
  returned. Calls are executed through the cache (`runCached`). `FsRun G` are the runs in
  which every call satisfies the condition `G` on the call and on the device before it.

  - `exec_settles`: every call ends with a write-back after its last store, so between
    calls the device holds everything (`Quiet`).
  - `At.start`: a run starts from the formatted disk.
-/

import TgRcore.EasyFs.CachedRun
import TgRcore.EasyFs.Format

namespace TgRcore.EasyFs

open TgRcore.Bytes TgRcore.BlockProg TgRcore.BlockProg.Prog

/-! ## Calls -/

inductive Call where
  | root
  | create (self : Inode) (name : String)
  | readAt (self : Inode) (offset : Nat) (buf : List UInt8)
  | writeAt (self : Inode) (offset : Nat) (buf : List UInt8)
  | clear (self : Inode)
  | find (self : Inode) (name : String)
  | link (self : Inode) (name newName : String)
  | unlink (self : Inode) (name : String)

/-- What a call returns. -/
inductive Ret where
  | inode (i : Inode)
  | found (i : Option Inode)
  | count (n : Nat)
  | bytes (n : Nat) (buf : List UInt8)
  | flag (b : Bool)
  | done

namespace Call

/-- The handle a call is made on. -/
def self? : Call → Option Inode
  | root => none
  | create i _ => some i
  | readAt i _ _ => some i
  | writeAt i _ _ => some i
  | clear i => some i
  | find i _ => some i
  | link i _ _ => some i
  | unlink i _ => some i

def exec (efs : EasyFileSystem) : Call → Fs Ret
  | root => do return .inode (← efs.rootInode)
  | create i name => do return .inode (← i.create efs name)
  | readAt i offset buf => do
    let (n, buf) ← i.readAt efs offset buf
    return .bytes n buf
  | writeAt i offset buf => do return .count (← i.writeAt efs offset buf)
  | clear i => do
    i.clear efs
    return .done
  | find i name => do return .found (← i.find efs name)
  | link i name newName => do return .flag (← i.link efs name newName)
  | unlink i name => do return .flag (← i.unlink efs name)

end Call

/-- The handles a call gives its caller. -/
def Ret.handles : Ret → List Inode
  | inode i => [i]
  | found (some i) => [i]
  | _ => []

/-- The runs of a file system made with `create` on `dev` in which every call satisfies
    `G`; `m` is the machine after the last call, `hs` the handles handed out so far. -/
inductive FsRun (c : Crate) (total ibb : Nat) (dev : BlockDevice Block)
    (G : EasyFileSystem → (Nat → Block) → Call → Prop) : EasyFileSystem → Cached Block → List Inode → Prop
  | start {efs : EasyFileSystem} {m : Cached Block} :
      runCached (EasyFileSystem.create c total ibb) (boot dev) = .ok (efs, m) → FsRun c total ibb dev G efs m []
  | step {efs : EasyFileSystem} {m m' : Cached Block} {hs : List Inode} {call : Call} {r : Ret} :
      FsRun c total ibb dev G efs m hs → (∀ i, call.self? = some i → i ∈ hs) → G efs m.w.dev.data call →
      runCached (call.exec efs) m = .ok (r, m') → FsRun c total ibb dev G efs m' (r.handles ++ hs)

/-- A weaker condition on the calls admits more runs. -/
theorem FsRun.mono {c : Crate} {total ibb : Nat} {dev : BlockDevice Block}
    {G G' : EasyFileSystem → (Nat → Block) → Call → Prop} {efs : EasyFileSystem} {m : Cached Block} {hs : List Inode}
    (hG : ∀ blk call, G efs blk call → G' efs blk call) (h : FsRun c total ibb dev G efs m hs) :
    FsRun c total ibb dev G' efs m hs := by
  induction h with
  | start h0 => exact .start h0
  | step _ hself hg hr ih => exact ih.step hself (hG _ _ hg) hr

/-! ## Every call writes back -/

section Settling

variable {efs : EasyFileSystem} {α : Type}

theorem readOnly_getIndirect (b : Block) (i : Nat) : ReadOnly (getIndirect b i) := by
  unfold getIndirect
  split
  · exact .ret _
  · exact .panic

theorem readOnly_getBlockId (d : DiskInode) (j : Nat) : ReadOnly (d.getBlockId j) := by
  unfold DiskInode.getBlockId
  split
  · exact .ret _
  · split
    · exact .readBlock _ fun b => readOnly_getIndirect b _
    · exact .bind (.readBlock _ fun b => readOnly_getIndirect b _) fun _ => .readBlock _ fun b => readOnly_getIndirect b _

theorem readOnly_readLoop (d : DiskInode) (fin start : Nat) (sb : Nat) (acc : List UInt8) :
    ReadOnly (d.readLoop sb start fin acc) := by
  induction hm : fin - start using Nat.strong_induction_on generalizing start sb acc with
  | _ m ih =>
    rw [DiskInode.readLoop]
    refine .bind (readOnly_getBlockId d _) fun id => .bind (.readBlock _ fun b => .ret _) fun src => ?_
    split
    · exact .ret _
    · exact ih _ (by omega) _ _ _ rfl

theorem readOnly_readAt (d : DiskInode) (off : Nat) (buf : List UInt8) : ReadOnly (d.readAt off buf) := by
  unfold DiskInode.readAt
  refine .bind (.assert _) fun _ => ?_
  dsimp only
  split
  · exact .ret _
  · exact .bind (readOnly_readLoop d _ _ _ _) fun _ => .ret _

theorem readOnly_unwrap (o : Option α) : ReadOnly (unwrap o : Fs α) := by
  cases o
  · exact .panic
  · exact .ret _

theorem readOnly_getName (e : DirEntry) : ReadOnly e.getName :=
  .bind (readOnly_unwrap _) fun _ => readOnly_unwrap _

theorem readOnly_readDirent (d : DiskInode) (i : Nat) : ReadOnly (Inode.readDirent d i) :=
  .bind (readOnly_readAt d _ _) fun _ => .bind (.assert _) fun _ => .ret _

theorem readOnly_findLoop (d : DiskInode) (name : String) (n i : Nat) : ReadOnly (Inode.findLoop d name n i) := by
  induction n generalizing i with
  | zero => exact .ret _
  | succ n ih =>
    refine .bind (readOnly_readDirent d i) fun e => .bind (readOnly_getName e) fun en => ?_
    split
    · exact .ret _
    · exact ih _

theorem readOnly_findInodeId (name : String) (d : DiskInode) : ReadOnly (Inode.findInodeId name d) :=
  .bind (.assert _) fun _ => .bind (readOnly_findLoop d name _ _) fun _ => .ret _

theorem readOnly_readDiskInode (self : Inode) {f : DiskInode → Fs α} (hf : ∀ d, ReadOnly (f d)) :
    ReadOnly (Inode.readDiskInode efs self f) :=
  .readBlock _ fun _ => .bind (.assert _) fun _ => hf _

theorem readOnly_addU32 (a b : Nat) : ReadOnly (addU32 a b) := by
  unfold addU32
  split
  · exact .ret _
  · exact .panic

theorem readOnly_inode (id : Nat) : ReadOnly (efs.inode id) :=
  .bind (.bind (readOnly_addU32 _ _) fun _ => .ret _) fun _ => .ret _

theorem readOnly_find (self : Inode) (name : String) : ReadOnly (Inode.find efs self name) := by
  refine .withMutex (readOnly_readDiskInode self fun d => .bind (readOnly_findInodeId name d) fun o => ?_)
  cases o
  · exact .ret _
  · exact .bind (readOnly_inode _) fun _ => .ret _

theorem readOnly_inodeReadAt (self : Inode) (off : Nat) (buf : List UInt8) : ReadOnly (Inode.readAt efs self off buf) :=
  .withMutex (readOnly_readDiskInode self fun d => readOnly_readAt d off buf)

theorem readOnly_readdirLoop (d : DiskInode) (n i : Nat) : ReadOnly (Inode.readdirLoop d n i) := by
  induction n generalizing i with
  | zero => exact .ret _
  | succ n ih =>
    exact .bind (readOnly_readDirent d i) fun e => .bind (readOnly_getName e) fun _ => .bind (ih _) fun _ => .ret _

theorem readOnly_readdir (self : Inode) : ReadOnly (Inode.readdir efs self) :=
  .withMutex (readOnly_readDiskInode self fun d => readOnly_readdirLoop d _ _)

theorem settles_create (self : Inode) (name : String) : Settles true true (Inode.create efs self name) :=
  .withMutex (.bind (.any _) fun _ => .bind (.any _) fun _ => .bind (.any _) fun _ => .bind (.any _) fun _ =>
    .bind (.any _) fun _ => .syncAll (.ret _ id))

theorem settles_writeAt (self : Inode) (off : Nat) (buf : List UInt8) : Settles true true (Inode.writeAt efs self off buf) :=
  .withMutex (.sync_then _ id)

theorem settles_clear {c : Bool} (self : Inode) : Settles c true (Inode.clear efs self) :=
  .withMutex (.bind (.any _) fun _ => .syncAll (.ret _ id))

theorem settles_link (self : Inode) (name newName : String) : Settles true true (Inode.link efs self name newName) := by
  refine .withMutex (.bind (readOnly_readDiskInode self (readOnly_findInodeId name)).settles fun o => ?_)
  cases o with
  | none => exact .ret _ id
  | some old =>
    exact .bind (.any _) fun _ => .bind (.any _) fun _ => .bind (.any _) fun _ => .syncAll (.ret _ id)

theorem settles_unlink (self : Inode) (name : String) : Settles true true (Inode.unlink efs self name) := by
  refine .bind (readOnly_find self name).settles fun o => ?_
  cases o with
  | none => exact .ret _ id
  | some inode =>
    refine .bind (.any _) fun linkNum => .bind (.any _) fun _ => ?_
    dsimp only
    split
    · exact .bind (.any _) fun _ => .syncAll (.ret _ id)
    · exact .syncAll (.ret _ id)

theorem exec_settles (efs : EasyFileSystem) (call : Call) : Settles true true (call.exec efs) := by
  cases call with
  | root => exact .bind (ReadOnly.withMutex (readOnly_inode 0)).settles fun _ => .ret _ id
  | create i name => exact .bind (settles_create i name) fun _ => .ret _ id
  | readAt i off buf => exact .bind (readOnly_inodeReadAt i off buf).settles fun _ => .ret _ id
  | writeAt i off buf => exact .bind (settles_writeAt i off buf) fun _ => .ret _ id
  | clear i => exact .bind (settles_clear i) fun _ => .ret _ id
  | find i name => exact .bind (readOnly_find i name).settles fun _ => .ret _ id
  | link i name newName => exact .bind (settles_link i name newName) fun _ => .ret _ id
  | unlink i name => exact .bind (settles_unlink i name) fun _ => .ret _ id

theorem format_settles (c : Crate) (total ibb : Nat) : Settles true true (EasyFileSystem.create c total ibb) := by
  unfold EasyFileSystem.create
  refine .bind (.any _) fun _ => .bind (.any _) fun _ => .bind (.any _) fun _ => .bind (.any _) fun _ =>
    .bind (.any _) fun _ => .bind (.any _) fun _ => .bind (.any _) fun _ => .bind (.any _) fun _ =>
    .bind (.any _) fun _ => .bind (.any _) fun _ => .bind (.any _) fun _ => .bind (.any _) fun _ =>
    .bind (.any _) fun _ => .bind (.any _) fun _ => .syncAll (.ret _ id)

end Settling

/-! ## Where a run is -/

/-- Between two calls of a run: the machine is quiet and the device is as `s` says. -/
structure At (efs : EasyFileSystem) (dev : BlockDevice Block) (m : Cached Block) (s : Store Block) : Prop where
  quiet : Quiet m s
  idle : Idle efs s
  size : s.size = dev.size

theorem At.dev_eq {efs : EasyFileSystem} {dev : BlockDevice Block} {m : Cached Block} {s : Store Block}
    (h : At efs dev m s) : m.w.dev.data = s.blk := h.quiet.dev_eq

section

variable {c : Crate} {total ibb : Nat} {dev : BlockDevice Block} {efs : EasyFileSystem} {m m' : Cached Block}
  {s : Store Block}

/-- A run starts from the formatted disk. -/
theorem At.start (ht : total < 2 ^ 32) (h : runCached (EasyFileSystem.create c total ibb) (boot dev) = .ok (efs, m)) :
    Accepts c total ibb ∧ 0 < ibb ∧ 1 + ibb < dev.size ∧ total ≤ dev.size ∧ efs = layout c total ibb ∧
      At efs dev m ((flat dev).withBlk (formatted c total ibb dev.data)) := by
  obtain ⟨s', h1, h2⟩ := (quiet_boot dev).run (format_settles c total ibb) h
  obtain ⟨ha, hi, hs, hr, e⟩ := create_ok ht rfl rfl h1
  cases e
  have h3 := bitmapBlocks_le ha
  have hs' : total ≤ dev.size := hs
  exact ⟨ha, hi, hr, hs, rfl, h2 rfl rfl, ⟨layout_geometry ha, rfl, rfl, rfl, by
    show 1 + (ibb + areaBlocks c ibb) + bitmapBlocks c total ibb ≤ dev.size
    omega⟩, rfl⟩

/-- A program that settles, from a quiet state, seen on the flat store. -/
theorem At.run {α : Type} (h : At efs dev m s) {p : Fs α} (hp : Settles true true p) {r : α}
    (hr : runCached p m = .ok (r, m')) :
    ∃ s', p.run s = .ok (r, s') ∧ ∀ blk', s' = s.withBlk blk' → At efs dev m' s' := by
  obtain ⟨s', h1, h2⟩ := h.quiet.run hp hr
  refine ⟨s', h1, ?_⟩
  rintro blk' rfl
  exact ⟨h2 h.idle.held h.idle.busy, h.idle.withBlk _, h.size⟩

/-- A program that returns on the flat store returns through the cache. -/
theorem At.run_returns {α : Type} (h : At efs dev m s) {p : Fs α} (hp : Settles true true p) {r : α} {blk' : Nat → Block}
    (hr : p.run s = .ok (r, s.withBlk blk')) : ∃ m', runCached p m = .ok (r, m') ∧ At efs dev m' (s.withBlk blk') := by
  obtain ⟨m', h1, h2⟩ := runCached_of_run h.quiet.sim hr
  exact ⟨m', h1, ⟨h2, runCached_clean hp h.quiet.sim (fun _ => h.quiet.clean) h1 rfl, h.idle.held, h.idle.busy⟩,
    h.idle.withBlk _, h.size⟩

theorem At.read_returns {α : Type} (h : At efs dev m s) {p : Fs α} (hp : ReadOnly p) {r : α} (hr : p.run s = .ok (r, s)) :
    ∃ m', runCached p m = .ok (r, m') ∧ At efs dev m' s := by
  have hr' : p.run s = .ok (r, s.withBlk s.blk) := hr
  exact h.run_returns hp.settles hr'

theorem At.call (h : At efs dev m s) {call : Call} {r : Ret} (hr : runCached (call.exec efs) m = .ok (r, m')) :
    ∃ s', (call.exec efs).run s = .ok (r, s') ∧ ∀ blk', s' = s.withBlk blk' → At efs dev m' s' :=
  h.run (exec_settles efs call) hr

theorem At.returns (h : At efs dev m s) (call : Call) {r : Ret} {blk' : Nat → Block}
    (hr : (call.exec efs).run s = .ok (r, s.withBlk blk')) :
    ∃ m', runCached (call.exec efs) m = .ok (r, m') ∧ At efs dev m' (s.withBlk blk') :=
  h.run_returns (exec_settles efs call) hr

end

end TgRcore.EasyFs
