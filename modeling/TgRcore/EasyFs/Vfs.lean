/-
  TgRcore.EasyFs.Vfs — the file system object (`efs.rs`) and the inode layer over it
  (`vfs.rs`), for both copies of the crate.

  Every method is a block program. The file-system mutex is `withMutex`; a handle is
  locked as long as the closure it is passed to runs, as in the source, so nested
  accesses, self-deadlocks and the order of effects are those of the code.
-/

import TgRcore.EasyFs.Bitmap

namespace TgRcore.EasyFs

open TgRcore.Bytes TgRcore.BlockProg TgRcore.BlockProg.Prog

/-! ## u32 arithmetic -/

def addU32 (a b : Nat) : Fs Nat := if a + b < 2 ^ 32 then ret (a + b) else .panic

def subU32 (a b : Nat) : Fs Nat := if b ≤ a then ret (a - b) else .panic

def mulU32 (a b : Nat) : Fs Nat := if a * b < 2 ^ 32 then ret (a * b) else .panic

def asU32 (a : Nat) : Nat := a % 2 ^ 32

/-! ## Typed accesses -/

/-- `read` of a `DiskInode` at `off` in block `blockId`. -/
def readInode {α : Type} (c : Crate) (blockId off : Nat) (f : DiskInode → Fs α) : Fs α :=
  readBlock blockId fun b => do
    assert (off + c.inodeSize ≤ 512)
    f (DiskInode.load c b off)

/-- `modify` of a `DiskInode` at `off` in block `blockId`. -/
def modifyInode {α : Type} (c : Crate) (blockId off : Nat) (f : DiskInode → Fs (α × DiskInode)) : Fs α :=
  modifyBlock blockId fun b => do
    assert (off + c.inodeSize ≤ 512)
    let (v, d) ← f (DiskInode.load c b off)
    return (v, DiskInode.store c b off d)

/-! ## EasyFileSystem -/

/-- `crate` says which copy of the code it is; the block device is the store the
    programs run on. -/
structure EasyFileSystem where
  crate : Crate
  inodeBitmap : Bitmap
  dataBitmap : Bitmap
  inodeAreaStartBlock : Nat
  dataAreaStartBlock : Nat
  deriving DecidableEq, Repr

/-- An inode handle: where its `DiskInode` is. -/
structure Inode where
  blockId : Nat
  blockOffset : Nat
  deriving DecidableEq, Repr

/-- `for i in 0..total_blocks`: zero the disk from block `i` on. -/
def zeroBlocks : Nat → Nat → Fs Unit
  | 0, _ => ret ()
  | n + 1, i => do
    modifyBlock i fun _ => ret ((), Blk.zero 512)
    zeroBlocks n (i + 1)

namespace EasyFileSystem

def getDiskInodePos (efs : EasyFileSystem) (inodeId : Nat) : Fs (Nat × Nat) := do
  let blockId ← addU32 efs.inodeAreaStartBlock (inodeId / efs.crate.inodesPerBlock)
  return (blockId, inodeId % efs.crate.inodesPerBlock * efs.crate.inodeSize)

/-- Chapter 6 only: the inverse of `get_disk_inode_pos`. -/
def getInodeId (efs : EasyFileSystem) (blockId blockOffset : Nat) : Fs Nat := do
  let k ← subU32 (asU32 blockId) efs.inodeAreaStartBlock
  let k ← mulU32 k efs.crate.inodesPerBlock
  addU32 k (asU32 (blockOffset / efs.crate.inodeSize))

def allocInode (efs : EasyFileSystem) : Fs Nat := do
  let bit ← efs.inodeBitmap.alloc
  let bit ← unwrap bit
  return asU32 bit

def allocData (efs : EasyFileSystem) : Fs Nat := do
  let bit ← efs.dataBitmap.alloc
  let bit ← unwrap bit
  addU32 (asU32 bit) efs.dataAreaStartBlock

def deallocData (efs : EasyFileSystem) (blockId : Nat) : Fs Unit := do
  modifyBlock blockId fun _ => ret ((), Blk.zero 512)
  let bit ← subU32 blockId efs.dataAreaStartBlock
  efs.dataBitmap.dealloc bit

def create (c : Crate) (totalBlocks inodeBitmapBlocks : Nat) : Fs EasyFileSystem := do
  -- the geometry
  let inodeBitmap : Bitmap := ⟨1, inodeBitmapBlocks⟩
  let inodeNum := inodeBitmap.maximum
  let inodeAreaBlocks := asU32 ((inodeNum * c.inodeSize + 511) / 512)
  let inodeTotalBlocks ← addU32 inodeBitmapBlocks inodeAreaBlocks
  let dataTotalBlocks ← subU32 totalBlocks 1
  let dataTotalBlocks ← subU32 dataTotalBlocks inodeTotalBlocks
  let dataBitmapBlocks := (dataTotalBlocks + 4096) / 4097
  let dataAreaBlocks ← subU32 dataTotalBlocks dataBitmapBlocks
  let inodeAreaStartBlock ← addU32 1 inodeBitmapBlocks
  let dataBitmapStart ← addU32 inodeAreaStartBlock inodeAreaBlocks
  let dataBitmap : Bitmap := ⟨dataBitmapStart, dataBitmapBlocks⟩
  let dataAreaStartBlock ← addU32 1 inodeTotalBlocks
  let dataAreaStartBlock ← addU32 dataAreaStartBlock dataBitmapBlocks
  let efs : EasyFileSystem := ⟨c, inodeBitmap, dataBitmap, inodeAreaStartBlock, dataAreaStartBlock⟩
  zeroBlocks totalBlocks 0
  modifyBlock 0 fun b => ret ((), SuperBlock.store b
    (SuperBlock.init totalBlocks inodeBitmapBlocks inodeAreaBlocks dataBitmapBlocks dataAreaBlocks))
  -- the root directory is inode 0
  let rootId ← efs.allocInode
  assert (rootId = 0)
  let (blockId, off) ← efs.getDiskInodePos 0
  modifyInode c blockId off fun d => ret ((), d.init c .directory)
  sync
  return efs

/-- `open`: the geometry as the super block has it. -/
def openFs (c : Crate) : Fs EasyFileSystem :=
  readBlock 0 fun b => do
    let superBlock := SuperBlock.load b
    assert (superBlock.isValid = true)
    let inodeTotalBlocks ← addU32 superBlock.inodeBitmapBlocks superBlock.inodeAreaBlocks
    let dataBitmapStart ← addU32 1 inodeTotalBlocks
    let inodeAreaStartBlock ← addU32 1 superBlock.inodeBitmapBlocks
    let dataAreaStartBlock ← addU32 dataBitmapStart superBlock.dataBitmapBlocks
    return ⟨c, ⟨1, superBlock.inodeBitmapBlocks⟩, ⟨dataBitmapStart, superBlock.dataBitmapBlocks⟩,
      inodeAreaStartBlock, dataAreaStartBlock⟩

/-- The handle of inode `id`. -/
def inode (efs : EasyFileSystem) (id : Nat) : Fs Inode := do
  let (blockId, off) ← efs.getDiskInodePos id
  return ⟨blockId, off⟩

def rootInode (efs : EasyFileSystem) : Fs Inode := withMutex (efs.inode 0)

/-- `for _ in 0..n { v.push(fs.alloc_data()) }` -/
def allocBlocks (efs : EasyFileSystem) : Nat → Fs (List Nat)
  | 0 => ret []
  | n + 1 => do
    let b ← efs.allocData
    let v ← allocBlocks efs n
    return b :: v

/-- `for data_block in v { fs.dealloc_data(data_block) }` -/
def deallocBlocks (efs : EasyFileSystem) : List Nat → Fs Unit
  | [] => ret ()
  | b :: v => do
    efs.deallocData b
    deallocBlocks efs v

end EasyFileSystem

/-! ## Inode -/

namespace Inode

variable (efs : EasyFileSystem)

def readDiskInode {α : Type} (self : Inode) (f : DiskInode → Fs α) : Fs α :=
  readInode efs.crate self.blockId self.blockOffset f

def modifyDiskInode {α : Type} (self : Inode) (f : DiskInode → Fs (α × DiskInode)) : Fs α :=
  modifyInode efs.crate self.blockId self.blockOffset f

/-- Directory entry `i`: `read_at` fills the whole entry. -/
def readDirent (d : DiskInode) (i : Nat) : Fs DirEntry := do
  let (n, bytes) ← d.readAt (32 * i) DirEntry.empty.asBytes
  assert (n = 32)
  return DirEntry.ofBytes bytes

/-- `for i in 0..file_count`, from `i` on with `n` entries left: the first entry called
    `name`, with its index. -/
def findLoop (d : DiskInode) (name : String) : Nat → Nat → Fs (Option (Nat × DirEntry))
  | 0, _ => ret none
  | n + 1, i => do
    let dirent ← readDirent d i
    let entryName ← dirent.getName
    if entryName = name then ret (some (i, dirent)) else findLoop d name n (i + 1)

def findInodeId (name : String) (d : DiskInode) : Fs (Option Nat) := do
  assert (d.isDir = true)
  let found ← findLoop d name (d.size / 32) 0
  return found.map fun p => p.2.inodeNumber

def find (self : Inode) (name : String) : Fs (Option Inode) :=
  withMutex (readDiskInode efs self fun d => do
    match ← findInodeId name d with
    | some inodeId => do
      let inode ← efs.inode inodeId
      return some inode
    | none => return none)

def increaseSize (newSize : Nat) (d : DiskInode) : Fs DiskInode :=
  if newSize < d.size then ret d
  else do
    let blocksNeeded ← d.blocksNumNeeded newSize
    let v ← efs.allocBlocks blocksNeeded
    d.increaseSize newSize v

/-- Append an entry for `name` to the directory `d`. -/
def appendDirent (name : String) (inodeId : Nat) (d : DiskInode) : Fs DiskInode := do
  let fileCount := d.size / 32
  let newSize := (fileCount + 1) * 32
  let d ← increaseSize efs (asU32 newSize) d
  let dirent ← DirEntry.new name inodeId
  let _ ← d.writeAt (fileCount * 32) dirent.asBytes
  return d

def create (self : Inode) (name : String) : Fs Inode :=
  withMutex do
    let newInodeId ← efs.allocInode
    let (blockId, off) ← efs.getDiskInodePos newInodeId
    modifyInode efs.crate blockId off fun d => ret ((), d.init efs.crate .file)
    modifyDiskInode efs self fun d => do
      let d ← appendDirent efs name newInodeId d
      return ((), d)
    let inode ← efs.inode newInodeId
    sync
    return inode

/-- Chapter 6 only. -/
def link (self : Inode) (name newName : String) : Fs Bool :=
  withMutex do
    match ← readDiskInode efs self (findInodeId name) with
    | none => return false
    | some oldInodeId => do
      modifyDiskInode efs self fun d => do
        let d ← appendDirent efs newName oldInodeId d
        return ((), d)
      let (blockId, off) ← efs.getDiskInodePos oldInodeId
      modifyInode efs.crate blockId off fun d => do
        let linkNum ← addU32 d.linkNum 1
        return ((), { d with linkNum := linkNum })
      sync
      return true

def clear (self : Inode) : Fs Unit :=
  withMutex do
    modifyDiskInode efs self fun d => do
      let size := d.size
      let (v, d) ← d.clearSize
      assert (v.length = DiskInode.totalBlocks size)
      efs.deallocBlocks v
      return ((), d)
    sync

/-- Chapter 6 only. -/
def unlink (self : Inode) (name : String) : Fs Bool := do
  match ← find efs self name with
  | none => return false
  | some inode => do
    let linkNum ← modifyDiskInode efs inode fun d => do
      assert (d.linkNum > 0)
      return (d.linkNum - 1, { d with linkNum := d.linkNum - 1 })
    modifyDiskInode efs self fun d => do
      let found ← findLoop d name (d.size / 32) 0
      let (i, _) ← unwrap found
      let _ ← d.writeAt (i * 32) DirEntry.empty.asBytes
      return ((), d)
    if linkNum = 0 then clear efs inode
    sync
    return true

/-- `for i in 0..file_count`, from `i` on with `n` entries left. -/
def readdirLoop (d : DiskInode) : Nat → Nat → Fs (List String)
  | 0, _ => ret []
  | n + 1, i => do
    let dirent ← readDirent d i
    let name ← dirent.getName
    let rest ← readdirLoop d n (i + 1)
    return name :: rest

def readdir (self : Inode) : Fs (List String) :=
  withMutex (readDiskInode efs self fun d => readdirLoop d (d.size / 32) 0)

def readAt (self : Inode) (offset : Nat) (buf : List UInt8) : Fs (Nat × List UInt8) :=
  withMutex (readDiskInode efs self fun d => d.readAt offset buf)

def writeAt (self : Inode) (offset : Nat) (buf : List UInt8) : Fs Nat :=
  withMutex do
    let size ← modifyDiskInode efs self fun d => do
      assert (offset + buf.length < 2 ^ 64)
      let d ← increaseSize efs (asU32 (offset + buf.length)) d
      let size ← d.writeAt offset buf
      return (size, d)
    sync
    return size

/-! Chapter 6 only. -/

def getInodeId (self : Inode) : Fs Nat := withMutex (efs.getInodeId self.blockId self.blockOffset)

def isDir (self : Inode) : Fs Bool := readDiskInode efs self fun d => ret d.isDir

def getLinkNum (self : Inode) : Fs Nat := readDiskInode efs self fun d => ret d.linkNum

end Inode

end TgRcore.EasyFs
