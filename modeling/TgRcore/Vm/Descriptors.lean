/-
  TgRcore.Vm.Descriptors — the file descriptors of chapter 6 (`IO` in `main.rs`, `Process::fork`).

  A process has a table of file handles, the first three for the console. `open` appends a handle,
  `close` empties an entry, and `fork` copies the table, offsets included: from then on each
  process moves its own. `close` and `fstat` compare the descriptor with the length of the table;
  `read` and `write` index the table, and the kernel stops at a descriptor that no `open` gave
  out. `open` drops the high half of its flags and unwraps the low one.
  - `FdRun`: the histories of any processes, each with what its own calls did.
  - `FdAt`: the table is what a history says. `FdAt.call` is one call, `fdAt_run` all of them.
  - `descriptors_iff`: in every history descriptors are given out once, `close` and `fstat` do what
    they should, `read` and `write` do exactly below the end of the table, and `open` exactly for
    flags whose low half has names for all its bits, and whose high half is clear, or is of no
    account since there is no file to open.
  - `unchecked_descriptor`: three calls of a new process that do not.
-/

import TgRcore.Kernel.FileSystem
import TgRcore.Vm.Elf

namespace TgRcore.Vm

open TgRcore.Bytes TgRcore.BlockProg TgRcore.BlockProg.Prog TgRcore.EasyFs TgRcore.Sync TgRcore.Task
open TgRcore.Kernel (OpenFlags FileSystem)

/-! ## The calls -/

namespace StatMode

def null : Nat := 0

def dir : Nat := 0o040000

def file : Nat := 0o100000

end StatMode

/-- `Stat`, without the 56 bytes that fill it up. -/
structure Stat where
  dev : Nat
  ino : Nat
  mode : Nat
  nlink : Nat

namespace Stat

def new : Stat := ⟨0, 0, StatMode.null, 0⟩

/-- As `repr(C)` lays it out. -/
def bytes (stat : Stat) : List UInt8 :=
  (List.range 8).map (leByte stat.dev) ++ (List.range 8).map (leByte stat.ino) ++
    (List.range 4).map (leByte stat.mode) ++ (List.range 4).map (leByte stat.nlink) ++ List.replicate 56 0

end Stat

/-- What `fstat` asks of the file system. -/
def statOf (efs : EasyFileSystem) (inode : Inode) : Fs Stat := do
  let ino ← inode.getInodeId efs
  let nlink ← inode.getLinkNum efs
  let isDir ← inode.isDir efs
  return { Stat.new with ino := ino, nlink := nlink, mode := if isDir then StatMode.dir else StatMode.file }

namespace IoState

variable (R : Rounding)

/-- The loop of `open` over the path, `n` bytes below the end of the addresses. -/
def readPath (s : IoState) : Nat → Nat → String → Except Halt String
  | 0, _, _ => .error .panic
  | n + 1, rawPtr, string =>
    let ch := s.heap.mem rawPtr
    if ch = 0 then .ok string else s.readPath n (rawPtr + 1) (string.push (Char.ofNat ch.toNat))

/-- `IO::open`. A `Vec` has no more than `isize::MAX` entries. -/
def openFile (fs : FileSystem) (s : IoState) (path : Nat) (flags : BitVec 64) : Except Halt (Int × IoState) :=
  match AddressSpace.translate R s.heap s.space path readable with
  | some ptr => do
    let string ← s.readPath (2 ^ 64 - ptr) ptr ""
    match OpenFlags.fromBits (flags.setWidth 32) with
    | none => .error .panic
    | some flags => do
      let (fd, disk) ← (fs.openFile string flags).run s.disk
      match fd with
      | some fd =>
        let newFd := s.fdTable.length
        .ok (newFd, { s with disk := disk, fdTable := s.fdTable ++ [some fd] })
      | none => .ok (-1, { s with disk := disk })
  | none => .ok (-1, s)

/-- `IO::close` -/
def close (s : IoState) (fd : Nat) : Int × IoState :=
  match s.fdTable[fd]? with
  | some (some _) => (0, { s with fdTable := s.fdTable.set fd none })
  | some none => (-1, s)
  | none => (-1, s)

/-- `IO::fstat` -/
def fstat (efs : EasyFileSystem) (s : IoState) (fd st : Nat) : Except Halt (Int × IoState) :=
  match s.fdTable[fd]? with
  | some (some fh) =>
    match fh.inode with
    | none => .ok (-1, s)
    | some inode =>
      match AddressSpace.translate R s.heap s.space st writeable with
      | none => .ok (-1, s)
      | some ptr => do
        let (stat, disk) ← (statOf efs inode).run s.disk
        .ok (0, { s.stored ptr stat.bytes with disk := disk })
  | some none => .ok (-1, s)
  | none => .ok (-1, s)

end IoState

/-- The loop of `fork` over the table. -/
def copyTable : List (Option FileHandle) → List (Option FileHandle) → List (Option FileHandle)
  | [], newFdTable => newFdTable
  | some file :: fdTable, newFdTable => copyTable fdTable (newFdTable ++ [some file])
  | none :: fdTable, newFdTable => copyTable fdTable (newFdTable ++ [none])

/-- `Process::fork` of chapter 6; `pid` is the number that `ProcId::new` gives next. -/
def UserProcess.fork (A : FrameAllocator) (h : Heap) (kernel : AddressSpace) (pid : ProcId) (p : UserProcess) :
    Except Halt (UserProcess × Heap) := do
  let (image, h) ← Process.fork A h kernel p.image
  .ok ({
    pid := pid
    context := p.context
    satp := satpOf image.space
    image := image
    fdTable := copyTable p.fdTable []
    stride := Stride.new }, h)

/-! ## Histories -/

/-- A system call on descriptors. -/
inductive FdCall where
  | openFile (path : Nat) (flags : BitVec 64)
  | close (fd : Nat)
  | read (fd buf count : Nat)
  | write (fd buf count : Nat)
  | fstat (fd st : Nat)

/-- What a call that returned did to the descriptors of its process. -/
inductive FdEvent where
  | opened (fd : Nat) (file : FileHandle)
  | closed (fd : Nat)
  | moved (fd n : Nat)

/-- The open file behind a descriptor, with the offset it has come to; the newest event is first. -/
def fileOf : List FdEvent → Nat → Option FileHandle
  | [], _ => none
  | .opened fd file :: h, x => if x = fd then some file else fileOf h x
  | .closed fd :: h, x => if x = fd then none else fileOf h x
  | .moved fd n :: h, x => if x = fd then (fileOf h x).map (·.advance n) else fileOf h x

/-- The descriptors that `open` has returned. -/
def returned : List FdEvent → List Nat
  | [] => []
  | .opened fd _ :: h => fd :: returned h
  | _ :: h => returned h

/-- The handle that `FileSystem::open` returns for a call of `open`. -/
def IoState.openedFile (R : Rounding) (fs : FileSystem) (s : IoState) (path : Nat) (flags : BitVec 64) :
    Option FileHandle := do
  let ptr ← AddressSpace.translate R s.heap s.space path readable
  let string ← (s.readPath (2 ^ 64 - ptr) ptr "").toOption
  let flags ← OpenFlags.fromBits (flags.setWidth 32)
  let (fd, _) ← ((fs.openFile string flags).run s.disk).toOption
  fd

namespace FdCall

variable (R : Rounding) (fs : FileSystem) (s : IoState)

def exec : FdCall → Except Halt (Int × IoState)
  | .openFile path flags => s.openFile R fs path flags
  | .close fd => .ok (s.close fd)
  | .read fd buf count => s.read R fs.efs fd buf count
  | .write fd buf count => s.write R fs.efs fd buf count
  | .fstat fd st => s.fstat R fs.efs fd st

/-- What the call did, when it returned `ret`. -/
def events (ret : Int) : FdCall → List FdEvent
  | .openFile path flags =>
    match s.openedFile R fs path flags with
    | some file => [.opened ret.toNat file]
    | none => []
  | .close fd => if ret = 0 then [.closed fd] else []
  | .read fd _ _ => [.moved fd ret.toNat]
  | .write fd _ _ => [.moved fd ret.toNat]
  | .fstat _ _ => []

end FdCall

/-- Memory, the kernel's space, the disk, the console and the processes. -/
structure FdKernel where
  heap : Heap
  space : AddressSpace
  disk : Store Block
  input : Nat → UInt8
  output : List UInt8
  log : List Access
  procs : ProcId → Option UserProcess

namespace FdKernel

/-- What a call of the process acts on. -/
def io (k : FdKernel) (p : UserProcess) : IoState := ⟨k.heap, p.image.space, p.fdTable, k.disk, k.input, k.output, k.log⟩

def setProc (k : FdKernel) (pid : ProcId) (p : UserProcess) : FdKernel :=
  { k with procs := Function.update k.procs pid (some p) }

/-- The kernel after a call of the process. -/
def after (k : FdKernel) (pid : ProcId) (p : UserProcess) (s : IoState) : FdKernel :=
  setProc { k with heap := s.heap, disk := s.disk, input := s.input, output := s.output, log := s.log } pid
    { p with fdTable := s.fdTable }

end FdKernel

/-- The histories of the kernel, with the events of each process, those before it was forked
    included. -/
inductive FdRun (R : Rounding) (A : FrameAllocator) (fs : FileSystem) : FdKernel → (ProcId → List FdEvent) → Prop
  | start {k : FdKernel} : (∀ pid, k.procs pid = none) → FdRun R A fs k fun _ => []
  | spawn {k : FdKernel} {h : ProcId → List FdEvent} {pid : ProcId} {elf : Elf} {p : UserProcess} {heap : Heap} :
      FdRun R A fs k h → k.procs pid = none →
      UserProcess.fromElf R A k.heap k.space pid elf = .ok (some (p, heap)) →
      FdRun R A fs (FdKernel.setProc { k with heap := heap } pid p) (Function.update h pid [])
  | fork {k : FdKernel} {h : ProcId → List FdEvent} {pid child : ProcId} {p q : UserProcess} {heap : Heap} :
      FdRun R A fs k h → k.procs pid = some p → k.procs child = none →
      p.fork A k.heap k.space child = .ok (q, heap) →
      FdRun R A fs (FdKernel.setProc { k with heap := heap } child q) (Function.update h child (h pid))
  | call {k : FdKernel} {h : ProcId → List FdEvent} {pid : ProcId} {p : UserProcess} {c : FdCall} {ret : Int}
      {s : IoState} :
      FdRun R A fs k h → k.procs pid = some p → c.exec R fs (k.io p) = .ok (ret, s) →
      FdRun R A fs (k.after pid p s) (Function.update h pid (c.events R fs (k.io p) ret ++ h pid))
  /-- Programs run, other system calls are made and processes end: no table changes. -/
  | other {k k' : FdKernel} {h : ProcId → List FdEvent} :
      FdRun R A fs k h → (∀ pid p', k'.procs pid = some p' → ∃ p, k.procs pid = some p ∧ p'.fdTable = p.fdTable) →
      FdRun R A fs k' h

/-! ## What the calls are to do -/

section

variable (R : Rounding) (efs : EasyFileSystem) (s : IoState) (h : List FdEvent) (fd : Nat)

/-- The buffer of a call: all its bytes are there, and a slice has at most `isize::MAX`. -/
structure ValidBuffer (flags : VmFlags) (buf count : Nat) : Prop where
  pos : 0 < count
  short : count < 2 ^ 63
  mapped : ¬ Missing R s flags buf count

/-- The path of a call of `open` is `string`. -/
def PathAt (path : Nat) (string : String) : Prop :=
  ∃ ptr, AddressSpace.translate R s.heap s.space path readable = some ptr ∧
    s.readPath (2 ^ 64 - ptr) ptr "" = .ok string

/-- -1 and no effect unless the descriptor is open for writing; then the call returns when `write_at`
    takes the buffer at the offset, and moves the offset. -/
structure WriteMeets (buf count : Nat) : Prop where
  refused : (∀ file, fileOf h fd = some file → file.write = false) → s.write R efs fd buf count = .ok (-1, s)
  acts : ∀ file, fileOf h fd = some file → file.write = true → ∀ ret s',
    s.write R efs fd buf count = .ok (ret, s') ↔ ∃ inode ptr disk, file.inode = some inode ∧
      AddressSpace.translate R s.heap s.space buf readable = some ptr ∧
      (Inode.writeAt efs inode file.offset (s.bytes ptr count)).run s.disk = .ok (count, disk) ∧ ret = count ∧
      s' = ({ s.loaded ptr count with disk := disk } : IoState).setFile fd (file.advance count)

/-- The same for `read`, with the bytes that `read_at` gives. -/
structure ReadMeets (buf count : Nat) : Prop where
  refused : (∀ file, fileOf h fd = some file → file.read = false) → s.read R efs fd buf count = .ok (-1, s)
  acts : ∀ file, fileOf h fd = some file → file.read = true → ∀ ret s',
    s.read R efs fd buf count = .ok (ret, s') ↔ ∃ inode ptr n data disk, file.inode = some inode ∧
      AddressSpace.translate R s.heap s.space buf writeable = some ptr ∧
      (Inode.readAt efs inode file.offset (s.bytes ptr count)).run s.disk = .ok ((n, data), disk) ∧ ret = (n : Nat) ∧
      s' = ({ s.stored ptr (data.take n) with disk := disk } : IoState).setFile fd (file.advance n)

structure CloseMeets : Prop where
  refused : fileOf h fd = none → s.close fd = (-1, s)
  acts : ∀ file, fileOf h fd = some file → s.close fd = (0, { s with fdTable := s.fdTable.set fd none })

/-- -1 and no effect unless the descriptor is open, its file has an inode and the pointer can be
    written; then the answer is what the file system says of the inode. -/
structure FstatMeets (st : Nat) : Prop where
  refused : (∀ file, fileOf h fd = some file →
      file.inode = none ∨ AddressSpace.translate R s.heap s.space st writeable = none) →
    s.fstat R efs fd st = .ok (-1, s)
  acts : ∀ file inode ptr, fileOf h fd = some file → file.inode = some inode →
    AddressSpace.translate R s.heap s.space st writeable = some ptr → ∀ ret s',
    s.fstat R efs fd st = .ok (ret, s') ↔ ∃ stat disk, (statOf efs inode).run s.disk = .ok (stat, disk) ∧ ret = 0 ∧
      s' = { s.stored ptr stat.bytes with disk := disk }

end

section

variable (R : Rounding) (fs : FileSystem) (s : IoState) (h : List FdEvent)

/-- What `open` returns and leaves, when `FileSystem::open` gives `file` and leaves `disk`. -/
inductive NewEntry (disk : Store Block) : Option FileHandle → Int → IoState → Prop
  | missing : NewEntry disk none (-1) { s with disk := disk }
  | file (file : FileHandle) :
      NewEntry disk (some file) s.fdTable.length { s with disk := disk, fdTable := s.fdTable ++ [some file] }

/-- -1 for flags with a bit that has no name; otherwise what `FileSystem::open` gives is in a new
    entry. -/
structure OpenMeets (path : Nat) (string : String) (flags : BitVec 64) : Prop where
  unknown : (∀ f : OpenFlags, f.bits.setWidth 64 ≠ flags) → ∃ s', s.openFile R fs path flags = .ok (-1, s')
  known : ∀ f : OpenFlags, f.bits.setWidth 64 = flags → ∀ ret s',
    s.openFile R fs path flags = .ok (ret, s') ↔
      ∃ file disk, (fs.openFile string f).run s.disk = .ok (file, disk) ∧ NewEntry s disk file ret s'

/-- All bits of the low half have names, and so have those of the high half, or no file is opened. -/
def FlagsMeet (string : String) (flags : BitVec 64) : Prop :=
  ∃ f, OpenFlags.fromBits (flags.setWidth 32) = some f ∧
    (f.bits.setWidth 64 = flags ∨
      f.contains .create = false ∧ ∃ disk, (fs.find string).run s.disk = .ok (none, disk))

/-- The descriptors of a process in state `s` after the events `h`. -/
structure DescriptorLaw : Prop where
  fresh : ∀ path flags ret s', s.openFile R fs path flags = .ok (ret, s') →
    ret = -1 ∨ ∃ fd : Nat, ret = fd ∧ stddebug < fd ∧ fd ∉ returned h ∧ fileOf h fd = none
  opens : ∀ path string, PathAt R s path string → ∀ flags,
    (OpenMeets R fs s path string flags ↔ FlagsMeet fs s string flags)
  closes : ∀ fd, stddebug < fd → CloseMeets s h fd
  stats : ∀ fd st, stddebug < fd → FstatMeets R fs.efs s h fd st
  reads : ∀ fd buf count, stddebug < fd → ValidBuffer R s writeable buf count →
    (ReadMeets R fs.efs s h fd buf count ↔ fd < s.fdTable.length)
  writes : ∀ fd buf count, stddebug < fd → ValidBuffer R s readable buf count →
    (WriteMeets R fs.efs s h fd buf count ↔ fd < s.fdTable.length)

end

/-! ## The table and the history -/

/-- The table is what the events say, and no handle is left without an inode. -/
structure FdAt (fdTable : List (Option FileHandle)) (h : List FdEvent) : Prop where
  files : ∀ fd, stddebug < fd → fileOf h fd = fdTable[fd]?.join
  inode : ∀ fd file, stddebug < fd → fdTable[fd]? = some (some file) → ∃ inode, file.inode = some inode
  below : ∀ fd ∈ returned h, fd < fdTable.length
  console : stddebug < fdTable.length

section

variable {R : Rounding} {A : FrameAllocator} {fs : FileSystem} {efs : EasyFileSystem} {s s' : IoState} {h : List FdEvent}
  {table table' : List (Option FileHandle)} {fd buf count n path : Nat} {file : FileHandle} {inode : Inode} {ret : Int}
  {flags : BitVec 64} {f : OpenFlags} {string : String} {disk : Store Block}

theorem FdAt.entry (hat : FdAt table h) (hfd : stddebug < fd) (hf : fileOf h fd = some file) :
    table[fd]? = some (some file) := by
  rw [hat.files fd hfd] at hf
  exact Option.join_eq_some_iff.mp hf

/-- Nothing is open from the end of the table on. -/
theorem FdAt.past_end (hat : FdAt table h) (hlt : table.length ≤ fd) : fileOf h fd = none := by
  rw [hat.files fd (Nat.lt_of_lt_of_le hat.console hlt), List.getElem?_eq_none hlt]
  rfl

theorem FdAt.initial {p q : FileHandle} {r : FileHandle} : FdAt [some p, some q, some r] [] where
  files fd hfd := by
    rw [List.getElem?_eq_none hfd]
    rfl
  inode fd file hfd hentry := by
    rw [List.getElem?_eq_none hfd] at hentry
    cases hentry
  below fd hmem := by cases hmem
  console := Nat.lt_succ_self _

theorem FdAt.open_file (hat : FdAt table h) (hi : file.inode = some inode) :
    FdAt (table ++ [some file]) (.opened table.length file :: h) where
  files fd hfd := by
    unfold fileOf
    split
    · rename_i e
      subst e
      rw [List.getElem?_concat_length]
      rfl
    · rename_i hne
      rw [hat.files fd hfd]
      rcases Nat.lt_or_gt_of_ne hne with hlt | hgt
      · rw [List.getElem?_append_left hlt]
      · rw [List.getElem?_eq_none (Nat.le_of_lt hgt), List.getElem?_eq_none (by simpa using hgt)]
  inode fd file' hfd hentry := by
    rcases Nat.lt_or_ge fd table.length with hlt | hge
    · rw [List.getElem?_append_left hlt] at hentry
      exact hat.inode fd file' hfd hentry
    · rw [List.getElem?_append_right hge] at hentry
      cases hlast : fd - table.length with
      | zero =>
        rw [hlast] at hentry
        cases hentry
        exact ⟨inode, hi⟩
      | succ m =>
        rw [hlast] at hentry
        cases hentry
  below fd hmem := by
    rw [List.length_append, List.length_singleton]
    rcases List.mem_cons.mp hmem with rfl | hmem
    · exact Nat.lt_succ_self _
    · exact Nat.lt_succ_of_lt (hat.below fd hmem)
  console := by
    rw [List.length_append]
    exact Nat.lt_add_right _ hat.console

theorem FdAt.close_file (hat : FdAt table h) : FdAt (table.set fd none) (.closed fd :: h) where
  files x hx := by
    unfold fileOf
    split
    · rename_i e
      subst e
      rw [List.getElem?_set, if_pos rfl]
      split <;> rfl
    · rename_i hne
      rw [hat.files x hx, List.getElem?_set_ne (Ne.symm hne)]
  inode x file hx hentry := by
    rw [List.getElem?_set] at hentry
    split at hentry
    · split at hentry <;> cases hentry
    · exact hat.inode x file hx hentry
  below x hmem := by
    rw [List.length_set]
    exact hat.below x hmem
  console := by
    rw [List.length_set]
    exact hat.console

/-- A table in which one file has moved. -/
theorem FdAt.move_file (hat : FdAt table h) (hlen : table'.length = table.length)
    (hother : ∀ x, x ≠ fd → table'[x]? = table[x]?)
    (hself : stddebug < fd → table'[fd]? = table[fd]?.map (Option.map (·.advance n))) :
    FdAt table' (.moved fd n :: h) where
  files x hx := by
    unfold fileOf
    split
    · rename_i e
      subst e
      rw [hself hx, hat.files x hx]
      cases table[x]? with
      | none => rfl
      | some o => rfl
    · rename_i hne
      rw [hat.files x hx, hother x hne]
  inode x file hx hentry := by
    by_cases e : x = fd
    · subst e
      rw [hself hx, Option.map_eq_some_iff] at hentry
      obtain ⟨o, ho, hmap⟩ := hentry
      obtain ⟨file', rfl, rfl⟩ := Option.map_eq_some_iff.mp hmap
      exact hat.inode x file' hx ho
    · rw [hother x e] at hentry
      exact hat.inode x file hx hentry
  below x hmem := by
    rw [hlen]
    exact hat.below x hmem
  console := by
    rw [hlen]
    exact hat.console

theorem map_advance_zero (entry : Option (Option FileHandle)) : entry.map (Option.map (·.advance 0)) = entry := by
  cases entry with
  | none => rfl
  | some o => cases o <;> rfl

/-! ## Each call on the table -/

theorem copyTable_eq (l acc : List (Option FileHandle)) : copyTable l acc = acc ++ l := by
  induction l generalizing acc with
  | nil => exact (List.append_nil acc).symm
  | cons o l ih => cases o <;> simp [copyTable, ih]

/-- A child has the table of its parent. -/
theorem UserProcess.fork_fdTable {heap heap' : Heap} {kernel : AddressSpace} {pid : ProcId} {p q : UserProcess}
    (hf : p.fork A heap kernel pid = .ok (q, heap')) : q.fdTable = p.fdTable := by
  obtain ⟨⟨image, h1⟩, -, hf⟩ := bind_eq_ok.mp hf
  cases hf
  exact copyTable_eq _ _

/-- A new process has the console. -/
theorem UserProcess.fromElf_fdTable {heap heap' : Heap} {kernel : AddressSpace} {pid : ProcId} {elf : Elf} {q : UserProcess}
    (hf : UserProcess.fromElf R A heap kernel pid elf = .ok (some (q, heap'))) :
    q.fdTable = [some (.empty true false), some (.empty false true), some (.empty false true)] := by
  unfold UserProcess.fromElf at hf
  split at hf
  · cases hf
  · obtain ⟨x1, -, hf⟩ := bind_eq_ok.mp hf
    obtain ⟨x2, -, hf⟩ := bind_eq_ok.mp hf
    obtain ⟨x3, -, hf⟩ := bind_eq_ok.mp hf
    obtain ⟨x4, -, hf⟩ := bind_eq_ok.mp hf
    cases hf
    rfl

theorem writeLoop_table {buf : UserBuffer} {total total' : Nat} {file' : FileHandle}
    (hw : FileHandle.writeLoop efs inode buf file total s = .ok (total', file', s')) : s'.fdTable = s.fdTable := by
  induction buf generalizing file total s with
  | nil =>
    cases hw
    rfl
  | cons v buf ih =>
    obtain ⟨⟨size, disk⟩, -, hw⟩ := bind_eq_ok.mp hw
    dsimp only at hw
    split at hw
    · cases hw
    · have hrest := ih hw
      exact hrest

theorem readLoop_table {buf : UserBuffer} {total total' : Nat} {file' : FileHandle}
    (hr : FileHandle.readLoop efs inode buf file total s = .ok (total', file', s')) : s'.fdTable = s.fdTable := by
  induction buf generalizing file total s with
  | nil =>
    cases hr
    rfl
  | cons v buf ih =>
    obtain ⟨⟨⟨size, data⟩, disk⟩, -, hr⟩ := bind_eq_ok.mp hr
    dsimp only at hr
    split at hr
    · cases hr
      rfl
    · have hrest := ih hr
      exact hrest

/-- Only the entry of the descriptor changes. -/
def SameBut (fd : Nat) (table table' : List (Option FileHandle)) : Prop :=
  table'.length = table.length ∧ ∀ x, x ≠ fd → table'[x]? = table[x]?

theorem SameBut.refl : SameBut fd table table := ⟨rfl, fun _ _ => rfl⟩

theorem SameBut.setFile (ht : s'.fdTable = s.fdTable) : SameBut fd s.fdTable (s'.setFile fd file).fdTable := by
  constructor
  · rw [IoState.setFile, List.length_set, ht]
  · intro x hx
    rw [IoState.setFile, List.getElem?_set_ne (Ne.symm hx), ht]

theorem writeBuffer_table {buf : UserBuffer} {file' : FileHandle}
    (hw : file.writeBuffer efs buf s = .ok (ret, file', s')) : s'.fdTable = s.fdTable := by
  unfold FileHandle.writeBuffer at hw
  split at hw
  · obtain ⟨⟨total, f1, s1⟩, h1, hw⟩ := bind_eq_ok.mp hw
    cases hw
    exact writeLoop_table h1
  · cases hw
    rfl

theorem readBuffer_table {buf : UserBuffer} {file' : FileHandle}
    (hr : file.readBuffer efs buf s = .ok (ret, file', s')) : s'.fdTable = s.fdTable := by
  unfold FileHandle.readBuffer at hr
  split at hr
  · obtain ⟨⟨total, f1, s1⟩, h1, hr⟩ := bind_eq_ok.mp hr
    cases hr
    exact readLoop_table h1
  · cases hr
    rfl

theorem write_same (hw : s.write R efs fd buf count = .ok (ret, s')) : SameBut fd s.fdTable s'.fdTable := by
  unfold IoState.write at hw
  split at hw
  · split at hw
    · obtain ⟨v, -, hw⟩ := bind_eq_ok.mp hw
      cases hw
      exact .refl
    · split at hw
      · split at hw
        · obtain ⟨v, -, hw⟩ := bind_eq_ok.mp hw
          obtain ⟨x, hx, hw⟩ := bind_eq_ok.mp hw
          cases hw
          exact .setFile (writeBuffer_table hx)
        · cases hw
          exact .refl
      · cases hw
        exact .refl
      · cases hw
  · cases hw
    exact .refl

theorem read_same (hr : s.read R efs fd buf count = .ok (ret, s')) : SameBut fd s.fdTable s'.fdTable := by
  unfold IoState.read at hr
  split at hr
  · split at hr
    · cases hr
      exact .refl
    · split at hr
      · split at hr
        · obtain ⟨v, -, hr⟩ := bind_eq_ok.mp hr
          obtain ⟨x, hx, hr⟩ := bind_eq_ok.mp hr
          cases hr
          exact .setFile (readBuffer_table hx)
        · cases hr
          exact .refl
      · cases hr
        exact .refl
      · cases hr
  · cases hr
    exact .refl

/-! ## Each call on a descriptor -/

/-- A `write` that the file is not open for. -/
theorem write_refused (hfd : stddebug < fd) (hlt : fd < s.fdTable.length)
    (hf : ∀ file, s.fdTable[fd]? = some (some file) → file.write = false) : s.write R efs fd buf count = .ok (-1, s) := by
  unfold IoState.write
  cases AddressSpace.translate R s.heap s.space buf readable with
  | none => rfl
  | some ptr =>
    dsimp only
    rw [if_neg (not_console hfd).1]
    rw [List.getElem?_eq_getElem hlt] at hf ⊢
    cases hentry : s.fdTable[fd] with
    | none => rfl
    | some file =>
      have hw := hf file (by rw [hentry])
      simp [FileHandle.writable, hw]

theorem read_refused (hfd : stddebug < fd) (hlt : fd < s.fdTable.length)
    (hf : ∀ file, s.fdTable[fd]? = some (some file) → file.read = false) : s.read R efs fd buf count = .ok (-1, s) := by
  unfold IoState.read
  cases AddressSpace.translate R s.heap s.space buf writeable with
  | none => rfl
  | some ptr =>
    dsimp only
    rw [if_neg (not_console hfd).2]
    rw [List.getElem?_eq_getElem hlt] at hf ⊢
    cases hentry : s.fdTable[fd] with
    | none => rfl
    | some file =>
      have hr := hf file (by rw [hentry])
      simp [FileHandle.readable, hr]

/-- The kernel stops when it indexes the table past its end. -/
theorem write_past_end {ptr : Nat} (hfd : stddebug < fd) (hlt : s.fdTable.length ≤ fd)
    (ht : AddressSpace.translate R s.heap s.space buf readable = some ptr) :
    s.write R efs fd buf count = .error .panic := by
  unfold IoState.write
  rw [ht]
  dsimp only
  rw [if_neg (not_console hfd).1, List.getElem?_eq_none hlt]

theorem read_past_end {ptr : Nat} (hfd : stddebug < fd) (hlt : s.fdTable.length ≤ fd)
    (ht : AddressSpace.translate R s.heap s.space buf writeable = some ptr) :
    s.read R efs fd buf count = .error .panic := by
  unfold IoState.read
  rw [ht]
  dsimp only
  rw [if_neg (not_console hfd).2, List.getElem?_eq_none hlt]

theorem ValidBuffer.first {flags : VmFlags} (hv : ValidBuffer R s flags buf count) :
    ∃ ptr, AddressSpace.translate R s.heap s.space buf flags = some ptr := by
  cases ht : AddressSpace.translate R s.heap s.space buf flags with
  | some ptr => exact ⟨ptr, rfl⟩
  | none => exact absurd ⟨0, hv.pos, ht⟩ hv.mapped

theorem FdAt.file_of (hat : FdAt table h) (hfd : stddebug < fd) (hentry : table[fd]? = some (some file)) :
    fileOf h fd = some file := by
  rw [hat.files fd hfd, hentry]
  rfl

theorem FdAt.writeMeets_iff (hat : FdAt s.fdTable h) (hfd : stddebug < fd) (hv : ValidBuffer R s readable buf count) :
    WriteMeets R efs s h fd buf count ↔ fd < s.fdTable.length := by
  obtain ⟨ptr, ht⟩ := hv.first
  constructor
  · intro hm
    by_contra hge
    have hnone := hat.past_end (Nat.le_of_not_lt hge)
    have hrefused := hm.refused fun file hf => by
      rw [hnone] at hf
      cases hf
    rw [write_past_end hfd (Nat.le_of_not_lt hge) ht] at hrefused
    cases hrefused
  · intro hlt
    refine ⟨fun hf => write_refused hfd hlt fun file hentry => hf file (hat.file_of hfd hentry), ?_⟩
    intro file hf hw ret s'
    have hentry := hat.entry hfd hf
    obtain ⟨inode, hi⟩ := hat.inode fd file hfd hentry
    rw [write_iff ⟨hfd, hentry, hi⟩ hw ht]
    constructor
    · rintro ⟨-, disk, hrun, rfl, rfl⟩
      exact ⟨inode, ptr, disk, hi, ht, hrun, rfl, rfl⟩
    · rintro ⟨inode', ptr', disk, hi', ht', hrun, rfl, rfl⟩
      rw [hi] at hi'
      rw [ht] at ht'
      cases hi'
      cases ht'
      exact ⟨hv.short, disk, hrun, rfl, rfl⟩

theorem FdAt.readMeets_iff (hat : FdAt s.fdTable h) (hfd : stddebug < fd) (hv : ValidBuffer R s writeable buf count) :
    ReadMeets R efs s h fd buf count ↔ fd < s.fdTable.length := by
  obtain ⟨ptr, ht⟩ := hv.first
  constructor
  · intro hm
    by_contra hge
    have hnone := hat.past_end (Nat.le_of_not_lt hge)
    have hrefused := hm.refused fun file hf => by
      rw [hnone] at hf
      cases hf
    rw [read_past_end hfd (Nat.le_of_not_lt hge) ht] at hrefused
    cases hrefused
  · intro hlt
    refine ⟨fun hf => read_refused hfd hlt fun file hentry => hf file (hat.file_of hfd hentry), ?_⟩
    intro file hf hr ret s'
    have hentry := hat.entry hfd hf
    obtain ⟨inode, hi⟩ := hat.inode fd file hfd hentry
    rw [read_iff ⟨hfd, hentry, hi⟩ hr ht]
    constructor
    · rintro ⟨-, n, data, disk, hrun, rfl, rfl⟩
      exact ⟨inode, ptr, n, data, disk, hi, ht, hrun, rfl, rfl⟩
    · rintro ⟨inode', ptr', n, data, disk, hi', ht', hrun, rfl, rfl⟩
      rw [hi] at hi'
      rw [ht] at ht'
      cases hi'
      cases ht'
      exact ⟨hv.short, n, data, disk, hrun, rfl, rfl⟩

/-- An entry that is not open, or is not there, is refused by `close` and `fstat`. -/
theorem FdAt.not_open (hat : FdAt table h) (hfd : stddebug < fd) (hf : fileOf h fd = none) :
    table[fd]? = some none ∨ table[fd]? = none := by
  rw [hat.files fd hfd] at hf
  cases he : table[fd]? with
  | none => exact .inr rfl
  | some o =>
    rw [he] at hf
    exact .inl (congrArg some hf)

theorem FdAt.closeMeets (hat : FdAt s.fdTable h) (hfd : stddebug < fd) : CloseMeets s h fd where
  refused hf := by
    unfold IoState.close
    rcases hat.not_open hfd hf with he | he <;> rw [he]
  acts file hf := by
    unfold IoState.close
    rw [hat.entry hfd hf]

theorem FdAt.fstatMeets (hat : FdAt s.fdTable h) (hfd : stddebug < fd) (st : Nat) : FstatMeets R efs s h fd st where
  refused hf := by
    unfold IoState.fstat
    cases ho : fileOf h fd with
    | none => rcases hat.not_open hfd ho with he | he <;> rw [he]
    | some file =>
      rw [hat.entry hfd ho]
      dsimp only
      rcases hf file ho with hi | ht
      · rw [hi]
      · rw [ht]
        cases file.inode <;> rfl
  acts file inode ptr hf hi ht ret s' := by
    unfold IoState.fstat
    rw [hat.entry hfd hf]
    dsimp only
    rw [hi]
    dsimp only
    rw [ht]
    constructor
    · intro hok
      obtain ⟨⟨stat, disk⟩, hrun, hok⟩ := bind_eq_ok.mp hok
      cases hok
      exact ⟨stat, disk, hrun, rfl, rfl⟩
    · rintro ⟨stat, disk, hrun, rfl, rfl⟩
      exact bind_eq_ok.mpr ⟨_, hrun, rfl⟩

/-! ## Open -/

/-- The handle of `FileSystem::open` is new, and has an inode. -/
theorem openFile_inode {t t' : Store Block} (ho : (fs.openFile string f).run t = .ok (some file, t')) :
    ∃ inode, file = .new f.readWrite.1 f.readWrite.2 inode := by
  unfold FileSystem.openFile at ho
  dsimp only at ho
  split at ho
  · obtain ⟨found, t1, -, ho⟩ := run_bind_ok.mp ho
    cases found with
    | some inode =>
      obtain ⟨-, t2, -, ho⟩ := run_bind_ok.mp ho
      cases ho
      exact ⟨inode, rfl⟩
    | none =>
      obtain ⟨inode, t2, -, ho⟩ := run_bind_ok.mp ho
      cases ho
      exact ⟨inode, rfl⟩
  · obtain ⟨found, t1, -, ho⟩ := run_bind_ok.mp ho
    cases found with
    | some inode =>
      dsimp only at ho
      split at ho
      · obtain ⟨-, t2, -, ho⟩ := run_bind_ok.mp ho
        cases ho
        exact ⟨inode, rfl⟩
      · cases ho
        exact ⟨inode, rfl⟩
    | none => cases ho

/-- No file is opened when none is found, and none is to be made. -/
theorem openFile_none {t t' : Store Block} : (fs.openFile string f).run t = .ok (none, t') ↔
    f.contains .create = false ∧ (fs.find string).run t = .ok (none, t') := by
  unfold FileSystem.openFile
  dsimp only
  cases hc : f.contains .create with
  | true =>
    refine iff_of_false (fun ho => ?_) (fun h => Bool.noConfusion h.1)
    rw [if_pos rfl] at ho
    obtain ⟨found, t1, -, ho⟩ := run_bind_ok.mp ho
    cases found with
    | some inode =>
      obtain ⟨-, t2, -, ho⟩ := run_bind_ok.mp ho
      cases ho
    | none =>
      obtain ⟨inode, t2, -, ho⟩ := run_bind_ok.mp ho
      cases ho
  | false =>
    rw [if_neg Bool.false_ne_true]
    constructor
    · intro ho
      obtain ⟨found, t1, hfind, ho⟩ := run_bind_ok.mp ho
      cases found with
      | some inode =>
        dsimp only at ho
        split at ho
        · obtain ⟨-, t2, -, ho⟩ := run_bind_ok.mp ho
          cases ho
        · cases ho
      | none =>
        cases ho
        exact ⟨rfl, hfind⟩
    · rintro ⟨-, hfind⟩
      exact (run_bind_of hfind).trans rfl

/-- What a call of `open` does, from what `FileSystem::open` does. -/
theorem openFile_known (hp : PathAt R s path string) (hf : OpenFlags.fromBits (flags.setWidth 32) = some f) :
    s.openFile R fs path flags = .ok (ret, s') ↔
      ∃ file disk, (fs.openFile string f).run s.disk = .ok (file, disk) ∧ NewEntry s disk file ret s' := by
  obtain ⟨ptr, ht, hread⟩ := hp
  unfold IoState.openFile
  rw [ht]
  dsimp only
  rw [hread, hf]
  constructor
  · intro ho
    obtain ⟨_, hstring, ho⟩ := bind_eq_ok.mp ho
    cases hstring
    obtain ⟨⟨file, disk⟩, hrun, ho⟩ := bind_eq_ok.mp ho
    refine ⟨file, disk, hrun, ?_⟩
    cases file with
    | none =>
      cases ho
      exact .missing
    | some file =>
      cases ho
      exact .file file
  · rintro ⟨file, disk, hrun, ho⟩
    refine bind_eq_ok.mpr ⟨string, rfl, bind_eq_ok.mpr ⟨(file, disk), hrun, ?_⟩⟩
    cases ho with
    | missing => rfl
    | file file => rfl

/-- The flags are unwrapped. -/
theorem openFile_unknown (hp : PathAt R s path string) (hf : OpenFlags.fromBits (flags.setWidth 32) = none) :
    s.openFile R fs path flags = .error .panic := by
  obtain ⟨ptr, ht, hread⟩ := hp
  unfold IoState.openFile
  rw [ht]
  dsimp only
  rw [hread, hf]
  rfl

/-- The low half of flags that have names. -/
theorem setWidth_known (hf : f.bits.setWidth 64 = flags) : OpenFlags.fromBits (flags.setWidth 32) = some f := by
  rw [OpenFlags.fromBits_eq_some, ← hf, BitVec.setWidth_setWidth_of_le _ (by decide), BitVec.setWidth_eq]

theorem openMeets_iff (hp : PathAt R s path string) (flags : BitVec 64) :
    OpenMeets R fs s path string flags ↔ FlagsMeet fs s string flags := by
  cases hlow : OpenFlags.fromBits (flags.setWidth 32) with
  | none =>
    refine iff_of_false (fun hm => ?_) fun ⟨f, hf, _⟩ => ?_
    · obtain ⟨s', ho⟩ := hm.unknown fun f hf => by
        rw [setWidth_known hf] at hlow
        cases hlow
      rw [openFile_unknown hp hlow] at ho
      cases ho
    · rw [hlow] at hf
      cases hf
  | some f =>
    constructor
    · intro hm
      refine ⟨f, hlow, ?_⟩
      by_cases hwide : f.bits.setWidth 64 = flags
      · exact .inl hwide
      · obtain ⟨s', ho⟩ := hm.unknown fun f' hf' => by
          rw [setWidth_known hf'] at hlow
          cases hlow
          exact hwide hf'
        obtain ⟨file, disk, hrun, ho⟩ := (openFile_known hp hlow).mp ho
        cases ho
        obtain ⟨hc, hfind⟩ := openFile_none.mp hrun
        exact .inr ⟨hc, disk, hfind⟩
    · rintro ⟨f', hf', hcase⟩
      rw [hlow] at hf'
      cases hf'
      refine ⟨fun hno => ?_, fun f' hf' ret s' => ?_⟩
      · rcases hcase with hwide | ⟨hc, disk, hfind⟩
        · exact absurd hwide (hno f)
        · exact ⟨_, (openFile_known hp hlow).mpr ⟨none, disk, openFile_none.mpr ⟨hc, hfind⟩, .missing⟩⟩
      · rw [setWidth_known hf'] at hlow
        cases hlow
        exact openFile_known hp (setWidth_known hf')

/-- What a call of `open` did to the table: nothing, or it has one entry more. -/
theorem openFile_table (ho : s.openFile R fs path flags = .ok (ret, s')) :
    (s.openedFile R fs path flags = none ∧ ret = -1 ∧ s'.fdTable = s.fdTable) ∨
    ∃ file inode, s.openedFile R fs path flags = some file ∧ file.inode = some inode ∧ ret = s.fdTable.length ∧
      s'.fdTable = s.fdTable ++ [some file] := by
  cases ht : AddressSpace.translate R s.heap s.space path readable with
  | none =>
    unfold IoState.openFile at ho
    unfold IoState.openedFile
    rw [ht] at ho ⊢
    cases ho
    exact .inl ⟨rfl, rfl, rfl⟩
  | some ptr =>
    cases hread : s.readPath (2 ^ 64 - ptr) ptr "" with
    | error e =>
      unfold IoState.openFile at ho
      rw [ht] at ho
      dsimp only at ho
      rw [hread] at ho
      cases ho
    | ok string =>
      have hp : PathAt R s path string := ⟨ptr, ht, hread⟩
      cases hf : OpenFlags.fromBits (flags.setWidth 32) with
      | none =>
        rw [openFile_unknown hp hf] at ho
        cases ho
      | some f =>
        obtain ⟨file, disk, hrun, ho⟩ := (openFile_known hp hf).mp ho
        have hopened : s.openedFile R fs path flags = file := by
          unfold IoState.openedFile
          rw [ht, hf]
          simp only [Option.bind_eq_bind, Option.bind_some]
          rw [hread]
          simp only [Except.toOption, Option.bind_some]
          rw [hrun]
          rfl
        cases ho with
        | missing => exact .inl ⟨hopened, rfl, rfl⟩
        | file file =>
          obtain ⟨inode, rfl⟩ := openFile_inode hrun
          exact .inr ⟨_, inode, hopened, rfl, rfl, rfl⟩

/-! ## Runs -/

/-- A call that was refused. -/
theorem unmoved {call : Except Halt (Int × IoState)} (hc : call = .ok (ret, s')) (hr : call = .ok (-1, s)) :
    s'.fdTable[fd]? = s.fdTable[fd]?.map (Option.map (·.advance ret.toNat)) := by
  rw [hr] at hc
  cases hc
  exact (map_advance_zero _).symm

/-- How far a `write` has moved its file. -/
theorem FdAt.write_self (hat : FdAt s.fdTable h) (hfd : stddebug < fd) (hw : s.write R efs fd buf count = .ok (ret, s')) :
    s'.fdTable[fd]? = s.fdTable[fd]?.map (Option.map (·.advance ret.toNat)) := by
  cases ht : AddressSpace.translate R s.heap s.space buf readable with
  | none =>
    apply unmoved hw
    unfold IoState.write
    rw [ht]
  | some ptr =>
    rcases Nat.lt_or_ge fd s.fdTable.length with hlt | hge
    · by_cases hopen : ∃ file, s.fdTable[fd]? = some (some file) ∧ file.write = true
      · obtain ⟨file, hentry, hwr⟩ := hopen
        obtain ⟨inode, hi⟩ := hat.inode fd file hfd hentry
        obtain ⟨-, disk, -, rfl, rfl⟩ := (write_iff ⟨hfd, hentry, hi⟩ hwr ht).mp hw
        rw [hentry, IoState.setFile]
        exact List.getElem?_set_self hlt
      · exact unmoved hw (write_refused hfd hlt fun file hentry => Bool.eq_false_iff.mpr fun hwr => hopen ⟨file, hentry, hwr⟩)
    · rw [write_past_end hfd hge ht] at hw
      cases hw

theorem FdAt.read_self (hat : FdAt s.fdTable h) (hfd : stddebug < fd) (hr : s.read R efs fd buf count = .ok (ret, s')) :
    s'.fdTable[fd]? = s.fdTable[fd]?.map (Option.map (·.advance ret.toNat)) := by
  cases ht : AddressSpace.translate R s.heap s.space buf writeable with
  | none =>
    apply unmoved hr
    unfold IoState.read
    rw [ht]
  | some ptr =>
    rcases Nat.lt_or_ge fd s.fdTable.length with hlt | hge
    · by_cases hopen : ∃ file, s.fdTable[fd]? = some (some file) ∧ file.read = true
      · obtain ⟨file, hentry, hrd⟩ := hopen
        obtain ⟨inode, hi⟩ := hat.inode fd file hfd hentry
        obtain ⟨-, n, data, disk, -, rfl, rfl⟩ := (read_iff ⟨hfd, hentry, hi⟩ hrd ht).mp hr
        rw [hentry, IoState.setFile]
        exact List.getElem?_set_self hlt
      · exact unmoved hr (read_refused hfd hlt fun file hentry => Bool.eq_false_iff.mpr fun hrd => hopen ⟨file, hentry, hrd⟩)
    · rw [read_past_end hfd hge ht] at hr
      cases hr

theorem fstat_table {st : Nat} (hf : s.fstat R efs fd st = .ok (ret, s')) : s'.fdTable = s.fdTable := by
  unfold IoState.fstat at hf
  split at hf
  · split at hf
    · cases hf
      rfl
    · split at hf
      · cases hf
        rfl
      · obtain ⟨x, -, hf⟩ := bind_eq_ok.mp hf
        cases hf
        rfl
  · cases hf
    rfl
  · cases hf
    rfl

/-- One call. -/
theorem FdAt.call (hat : FdAt s.fdTable h) {c : FdCall} (hc : c.exec R fs s = .ok (ret, s')) :
    FdAt s'.fdTable (c.events R fs s ret ++ h) := by
  cases c with
  | openFile path flags =>
    rcases openFile_table hc with ⟨hnone, -, ht⟩ | ⟨file, inode, hsome, hi, rfl, ht⟩
    · simp only [FdCall.events, hnone, ht]
      exact hat
    · simp only [FdCall.events, hsome, ht]
      exact hat.open_file hi
  | close fd =>
    have hclose : s.close fd = (ret, s') := Except.ok.inj hc
    unfold IoState.close at hclose
    split at hclose
    · cases hclose
      exact hat.close_file
    · cases hclose
      exact hat
    · cases hclose
      exact hat
  | read fd buf count =>
    obtain ⟨hlen, hother⟩ := read_same hc
    exact hat.move_file hlen hother fun hfd => hat.read_self hfd hc
  | write fd buf count =>
    obtain ⟨hlen, hother⟩ := write_same hc
    exact hat.move_file hlen hother fun hfd => hat.write_self hfd hc
  | fstat fd st =>
    rw [fstat_table hc]
    exact hat

/-- Every table says what the history of its process says. -/
theorem fdAt_run {k : FdKernel} {h : ProcId → List FdEvent} (hrun : FdRun R A fs k h) {pid : ProcId} {p : UserProcess}
    (hp : k.procs pid = some p) : FdAt p.fdTable (h pid) := by
  -- a step that puts `q` in the place of `pid'` and leaves the other processes alone
  have hput : ∀ {k : FdKernel} {h : ProcId → List FdEvent} {pid' : ProcId} {q : UserProcess} {l : List FdEvent},
      (∀ {pid p}, k.procs pid = some p → FdAt p.fdTable (h pid)) → FdAt q.fdTable l →
      ∀ {pid p}, Function.update k.procs pid' (some q) pid = some p → FdAt p.fdTable (Function.update h pid' l pid) := by
    intro k h pid' q l hrest hq pid p hp
    by_cases e : pid = pid'
    · subst e
      rw [Function.update_self] at hp ⊢
      cases hp
      exact hq
    · rw [Function.update_of_ne e] at hp ⊢
      exact hrest hp
  induction hrun generalizing pid p with
  | start hnone =>
    rw [hnone] at hp
    cases hp
  | spawn _ _ helf ih =>
    refine hput ih ?_ hp
    rw [UserProcess.fromElf_fdTable helf]
    exact .initial
  | fork _ hparent _ hfork ih =>
    refine hput ih ?_ hp
    rw [UserProcess.fork_fdTable hfork]
    exact ih hparent
  | @call k h pid' p' c ret s _ hcaller hok ih => exact hput ih (FdAt.call (s := k.io p') (ih hcaller) hok) hp
  | other _ hsame ih =>
    obtain ⟨p', hp', he⟩ := hsame pid p hp
    rw [he]
    exact ih hp'

end

/-- In every history of any processes, each call on descriptors does what it should exactly in its
    case: `close` and `fstat` always, `read` and `write` below the end of the table, `open` for
    the flags of `FlagsMeet`. -/
theorem descriptors_iff {R : Rounding} {A : FrameAllocator} {fs : FileSystem} {k : FdKernel} {h : ProcId → List FdEvent}
    (hrun : FdRun R A fs k h) {pid : ProcId} {p : UserProcess} (hp : k.procs pid = some p) :
    DescriptorLaw R fs (k.io p) (h pid) := by
  have hat : FdAt (k.io p).fdTable (h pid) := fdAt_run hrun hp
  refine ⟨?_, fun path string hpath flags => openMeets_iff hpath flags, fun fd hfd => hat.closeMeets hfd,
    fun fd st hfd => hat.fstatMeets hfd st, fun fd buf count hfd hv => hat.readMeets_iff hfd hv,
    fun fd buf count hfd hv => hat.writeMeets_iff hfd hv⟩
  intro path flags ret s' ho
  rcases openFile_table ho with ⟨-, rfl, -⟩ | ⟨file, inode, -, -, rfl, -⟩
  · exact .inl rfl
  · refine .inr ⟨_, rfl, hat.console, fun hmem => ?_, hat.past_end (Nat.le_refl _)⟩
    exact absurd (hat.below _ hmem) (Nat.lt_irrefl _)

/-! ### A process with a stack -/

/-- An executable without segments. -/
def emptyElf : Elf := ⟨[], true, 0, []⟩

theorem empty_spawned : ∃ m p h, Machine.boot bump bareHeap bareLayout 0x80020 = .ok m ∧
    UserProcess.fromElf shift bump m.heap m.kernel 0 emptyElf = .ok (some (p, h)) ∧
    AddressSpace.translate shift h p.image.space 0x3fffffe000 readable = some 0x80204000 ∧
    AddressSpace.translate shift h p.image.space 0x3fffffe000 writeable = some 0x80204000 := by
  have hrun : (Machine.boot bump bareHeap bareLayout 0x80020 >>= fun m =>
      UserProcess.fromElf shift bump m.heap m.kernel 0 emptyElf).map
      (fun x => x.map fun x => [readable, writeable].map (AddressSpace.translate shift x.2 x.1.image.space 0x3fffffe000)) =
      .ok (some [some 0x80204000, some 0x80204000]) := by
    rfl
  obtain ⟨x, hrun, hlies⟩ := map_eq_ok hrun
  obtain ⟨m, hboot, helf⟩ := bind_eq_ok.mp hrun
  obtain ⟨⟨p, h⟩, rfl, hboth⟩ := Option.map_eq_some_iff.mp hlies
  obtain ⟨hr, hrest⟩ := List.cons.inj hboth
  obtain ⟨hw, -⟩ := List.cons.inj hrest
  exact ⟨m, p, h, hboot, helf, hr, hw⟩

/-- A page of a process has room for one byte. -/
theorem validBuffer_one {R : Rounding} {s : IoState} {flags : VmFlags} {buf ptr : Nat}
    (ht : AddressSpace.translate R s.heap s.space buf flags = some ptr) : ValidBuffer R s flags buf 1 where
  pos := Nat.one_pos
  short := by norm_num
  mapped := by
    rintro ⟨i, hi, hnone⟩
    obtain rfl : i = 0 := by omega
    rw [Nat.add_zero, ht] at hnone
    cases hnone

/-- A path of one letter. -/
theorem pathAt_one {R : Rounding} {s : IoState} {path ptr : Nat} {ch : UInt8} (hptr : ptr + 2 < 2 ^ 64)
    (ht : AddressSpace.translate R s.heap s.space path readable = some ptr) (h0 : s.heap.mem ptr = ch) (hne : ch ≠ 0)
    (h1 : s.heap.mem (ptr + 1) = 0) : PathAt R s path (("" : String).push (Char.ofNat ch.toNat)) := by
  obtain ⟨n, hn⟩ := Nat.exists_eq_add_of_lt hptr
  refine ⟨ptr, ht, ?_⟩
  rw [show 2 ^ 64 - ptr = n + 1 + 1 + 1 by omega, IoState.readPath, h0, if_neg hne, IoState.readPath, h1]
  rfl

/-- A new process, with the name of a file on its stack. -/
theorem small_process : ∃ k h p, FdRun shift bump (Kernel.mounted Kernel.smallFs) k h ∧ k.procs 0 = some p ∧ h 0 = [] ∧
    p.fdTable.length = 3 ∧ ValidBuffer shift (k.io p) readable 0x3fffffe000 1 ∧
    ValidBuffer shift (k.io p) writeable 0x3fffffe000 1 ∧ PathAt shift (k.io p) 0x3fffffe000 "f" ∧
    ((Kernel.mounted Kernel.smallFs).openFile "f" .rdonly).run k.disk =
      .ok (some (.new true false (Kernel.smallFs.handle 1)), k.disk) := by
  obtain ⟨m, p, heap, -, helf, hr, hw⟩ := empty_spawned
  obtain ⟨_, t, _, -, hat, -⟩ := Kernel.small_file (G := fun _ _ _ => True) fun _ _ => trivial
  have hopen : ((Kernel.mounted Kernel.smallFs).openFile "f" .rdonly).run t =
      .ok (some (.new true false (Kernel.smallFs.handle 1)), t) := by
    unfold FileSystem.openFile
    exact (run_bind_of (Kernel.find_run_eq hat.here.idle hat.nsAt "f")).trans rfl
  let k : FdKernel := ⟨m.heap, m.kernel, t, fun _ => 0, [], [], fun _ => none⟩
  have hstart : FdRun shift bump (Kernel.mounted Kernel.smallFs) k fun _ => [] := .start fun _ => rfl
  have hspawn := hstart.spawn rfl helf
  let k' := FdKernel.setProc { k with heap := heap.write 0x80204000 [102, 0] } 0 p
  have hr : AddressSpace.translate shift (k'.io p).heap (k'.io p).space 0x3fffffe000 readable = some 0x80204000 := hr
  have hw : AddressSpace.translate shift (k'.io p).heap (k'.io p).space 0x3fffffe000 writeable = some 0x80204000 := hw
  have hrun : FdRun shift bump (Kernel.mounted Kernel.smallFs) k' _ := hspawn.other fun pid q hq => ⟨q, hq, rfl⟩
  have hf : (102 : UInt8) ≠ 0 := by decide
  refine ⟨k', _, p, hrun, rfl, Function.update_self .., ?_, validBuffer_one hr, validBuffer_one hw,
    pathAt_one (by norm_num) hr rfl hf rfl, hopen⟩
  rw [UserProcess.fromElf_fdTable helf]
  rfl

/-- A process that has opened a file to read it. -/
theorem descriptors_small : ∃ k h p, FdRun shift bump (Kernel.mounted Kernel.smallFs) k h ∧ k.procs 0 = some p ∧
    returned (h 0) = [3] ∧ fileOf (h 0) 3 = some (.new true false (Kernel.smallFs.handle 1)) ∧
    DescriptorLaw shift (Kernel.mounted Kernel.smallFs) (k.io p) (h 0) := by
  obtain ⟨k, h, p, hrun, hp, h0, hlen, -, -, hpath, hopen⟩ := small_process
  have hlow : OpenFlags.fromBits ((0#64).setWidth 32) = some .rdonly := rfl
  have hcall := (openFile_known (s := k.io p) hpath hlow).mpr ⟨_, _, hopen, .file _⟩
  obtain ⟨-, hret, -⟩ | ⟨file, -, hopened, -, hret, ht⟩ := openFile_table hcall
  · rw [show (k.io p).fdTable.length = 3 from hlen] at hret
    cases hret
  · cases List.append_cancel_left ht
    have hrun' := FdRun.call (c := .openFile 0x3fffffe000 0#64) hrun hp hcall
    have hevents : (FdCall.openFile 0x3fffffe000 0#64).events shift (Kernel.mounted Kernel.smallFs) (k.io p)
        ((k.io p).fdTable.length : Nat) = [.opened 3 (.new true false (Kernel.smallFs.handle 1))] := by
      simp only [FdCall.events, hopened, show (k.io p).fdTable.length = 3 from hlen]
      rfl
    rw [hevents, h0] at hrun'
    exact ⟨_, _, _, hrun', rfl, rfl, rfl, descriptors_iff hrun' rfl⟩

/-- A new process writes to descriptor 3, reads from it, and opens a file with flags 4: the kernel
    stops each time. With flags `1 << 32` it gets a descriptor. -/
theorem unchecked_descriptor : ∃ k h p, FdRun shift bump (Kernel.mounted Kernel.smallFs) k h ∧ k.procs 0 = some p ∧
    fileOf (h 0) 3 = none ∧ ValidBuffer shift (k.io p) readable 0x3fffffe000 1 ∧
    ValidBuffer shift (k.io p) writeable 0x3fffffe000 1 ∧ PathAt shift (k.io p) 0x3fffffe000 "f" ∧
    (k.io p).write shift Kernel.smallFs 3 0x3fffffe000 1 = .error .panic ∧
    (k.io p).read shift Kernel.smallFs 3 0x3fffffe000 1 = .error .panic ∧
    (k.io p).openFile shift (Kernel.mounted Kernel.smallFs) 0x3fffffe000 4 = .error .panic ∧
    (∃ s', (k.io p).openFile shift (Kernel.mounted Kernel.smallFs) 0x3fffffe000 0x100000000 = .ok (3, s')) ∧
    ¬ WriteMeets shift Kernel.smallFs (k.io p) (h 0) 3 0x3fffffe000 1 ∧
    ¬ ReadMeets shift Kernel.smallFs (k.io p) (h 0) 3 0x3fffffe000 1 ∧
    ¬ OpenMeets shift (Kernel.mounted Kernel.smallFs) (k.io p) 0x3fffffe000 "f" 4 ∧
    ¬ OpenMeets shift (Kernel.mounted Kernel.smallFs) (k.io p) 0x3fffffe000 "f" 0x100000000 := by
  obtain ⟨k, h, p, hrun, hp, h0, hlen, hr, hw, hpath, hopen⟩ := small_process
  have hat : FdAt (k.io p).fdTable (h 0) := fdAt_run hrun hp
  have hend : (k.io p).fdTable.length ≤ 3 := Nat.le_of_eq hlen
  obtain ⟨ptr, htr⟩ := hr.first
  obtain ⟨ptr', htw⟩ := hw.first
  have hregular : stddebug < 3 := by decide
  have hlow : OpenFlags.fromBits ((0x100000000 : BitVec 64).setWidth 32) = some .rdonly := rfl
  have hhigh := (openFile_known (s := k.io p) hpath hlow).mpr ⟨_, _, hopen, .file _⟩
  rw [show (k.io p).fdTable.length = 3 from hlen] at hhigh
  refine ⟨k, h, p, hrun, hp, hat.past_end hend, hr, hw, hpath, write_past_end hregular hend htr,
    read_past_end hregular hend htw, openFile_unknown hpath rfl, ⟨_, hhigh⟩, ?_, ?_, ?_, ?_⟩
  · rw [hat.writeMeets_iff hregular hr]
    exact Nat.not_lt.mpr hend
  · rw [hat.readMeets_iff hregular hw]
    exact Nat.not_lt.mpr hend
  · rw [openMeets_iff hpath]
    rintro ⟨f, hf, -⟩
    cases hf
  · rw [openMeets_iff hpath]
    rintro ⟨f, hf, hwide | ⟨-, disk, hnone⟩⟩
    · cases hf
      exact absurd hwide (by decide)
    · have hnone := hopen.symm.trans (openFile_none.mpr ⟨rfl, hnone⟩)
      cases hnone

end TgRcore.Vm
