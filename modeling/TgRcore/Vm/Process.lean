/-
  TgRcore.Vm.Process — the address spaces of the kernel and its processes, chapters 6 to 8
  (`kernel_space`, `map_portal`, `process.rs` and the calls that change a space).

  The machine is the heap of frames, the kernel's space and the live processes. An event is a
  call that changes a space: a new process, another image, a copy, `mmap`, `munmap`, `sbrk`,
  the stack of a new thread.
-/

import TgRcore.Sync.Semaphore
import TgRcore.Vm.AddressSpace

namespace TgRcore.Vm

open TgRcore.BlockProg TgRcore.Sync AddressSpace

/-! ## The kernel's space -/

/-- What the kernel maps for itself, each range of frames at its own page numbers: image, heap
    and devices. All of it lies below the last root entry, that of the portal. -/
structure KernelLayout where
  image : List (Nat × Nat × VmFlags)
  devices : List (Nat × Nat × VmFlags)
  low : ∀ r ∈ image ++ devices, r.2.1 ≤ 511 * 2 ^ 18
  valid : ∀ r ∈ image ++ devices, Flag.v ∈ r.2.2

def mapRegions (A : FrameAllocator) : List (Nat × Nat × VmFlags) → Heap → AddressSpace → Except Halt (AddressSpace × Heap)
  | [], h, s => .ok (s, h)
  | (first, last, flags) :: regions, h, s => do
    let (s, h) ← mapExtern A h s first last first flags
    mapRegions A regions h s

/-- `portal` is the frame of the portal page, "__G_XWRV" its flags. -/
def kernelSpace (A : FrameAllocator) (h : Heap) (layout : KernelLayout) (portal : Nat) : Except Halt (AddressSpace × Heap) := do
  let (s, h) ← AddressSpace.new A h
  let (s, h) ← mapRegions A layout.image h s
  let (s, h) ← mapExtern A h s vpnMax (vpnMax + 1) portal {.g, .x, .w, .r, .v}
  mapRegions A layout.devices h s

/-- The root entry of the portal is copied from the kernel's table. -/
def mapPortal (h : Heap) (kernel s : AddressSpace) : Heap :=
  h.setPte s.root (indexIn vpnMax maxLevel) (h.tables kernel.root (indexIn vpnMax maxLevel))

/-! ## Processes -/

/-- A LOAD segment; `data` is its part of the file. -/
structure Segment where
  offset : Nat
  virtualAddr : Nat
  memSize : Nat
  data : List UInt8
  execute : Bool
  write : Bool
  read : Bool

/-- `executable`: the header says so, for RISC-V and 64 bits. -/
structure ElfFile where
  executable : Bool
  segments : List Segment

structure Process where
  space : AddressSpace
  heapBottom : Nat
  programBrk : Nat

/-- "U___V" and the letters that apply. -/
def userFlags (execute write read : Bool) : VmFlags :=
  {.u, .v} ∪ (if execute then {.x} else ∅) ∪ (if write then {.w} else ∅) ∪ if read then {.r} else ∅

def mapSegments (R : Rounding) (A : FrameAllocator) : List Segment → Heap → AddressSpace → Nat →
    Except Halt (AddressSpace × Nat × Heap)
  | [], h, s, maxEndVa => .ok (s, maxEndVa, h)
  | seg :: segs, h, s, maxEndVa =>
    let endMem := seg.virtualAddr + seg.memSize
    if endMem ≥ 2 ^ 64 ∨ seg.offset % pageSize ≠ seg.virtualAddr % pageSize then .error .panic
    else do
      let (s, h) ← map A h s (R.floor seg.virtualAddr) (R.ceil endMem) seg.data (seg.virtualAddr % pageSize)
        (userFlags seg.execute seg.write seg.read)
      mapSegments R A segs h s (max maxEndVa endMem)

namespace Process

def fromElf (R : Rounding) (A : FrameAllocator) (h : Heap) (kernel : AddressSpace) (elf : ElfFile) :
    Except Halt (Option (Process × Heap)) :=
  if !elf.executable then .ok none
  else do
    let (s, h) ← AddressSpace.new A h
    let (s, maxEndVa, h) ← mapSegments R A elf.segments h s 0
    let heapBottom := R.base (R.ceil maxEndVa)
    let (stack, h) ← h.pageAlloc A 2
    let (s, h) ← mapExtern A h s (2 ^ 26 - 2) (2 ^ 26) stack {.u, .w, .r, .v}
    let h := mapPortal h kernel s
    .ok (some (⟨s, heapBottom, heapBottom⟩, h))

/-- The new image must be one. -/
def exec (R : Rounding) (A : FrameAllocator) (h : Heap) (kernel : AddressSpace) (elf : ElfFile) :
    Except Halt (Process × Heap) := do
  let image ← fromElf R A h kernel elf
  match image with
  | none => .error .panic
  | some (p, h) => .ok (p, h)

def fork (A : FrameAllocator) (h : Heap) (kernel : AddressSpace) (p : Process) : Except Halt (Process × Heap) := do
  let (s, h) ← AddressSpace.new A h
  let (s, h) ← cloneself A p.space p.space.areas h s
  let h := mapPortal h kernel s
  .ok (⟨s, p.heapBottom, p.programBrk⟩, h)

/-- The old break, or nothing when the new one would be below the heap. -/
def changeProgramBrk (R : Rounding) (A : FrameAllocator) (h : Heap) (p : Process) (size : Int) :
    Except Halt (Option Nat × Process × Heap) :=
  let newBrk := asIsize p.programBrk + size
  if newBrk < -2 ^ 63 ∨ newBrk ≥ 2 ^ 63 then .error .panic
  else if newBrk < asIsize p.heapBottom then .ok (none, p, h)
  else
    let newBrk := (newBrk % 2 ^ 64).toNat
    let oldBrkCeil := R.ceil p.programBrk
    let newBrkCeil := R.ceil newBrk
    if size > 0 ∧ newBrkCeil > oldBrkCeil then do
      let (s, h) ← map A h p.space oldBrkCeil newBrkCeil [] 0 {.u, .w, .r, .v}
      .ok (some p.programBrk, { p with space := s, programBrk := newBrk }, h)
    else if size < 0 ∧ oldBrkCeil > newBrkCeil then
      let (s, h) := unmap h p.space newBrkCeil oldBrkCeil
      .ok (some p.programBrk, { p with space := s, programBrk := newBrk }, h)
    else .ok (some p.programBrk, { p with programBrk := newBrk }, h)

/-- `sbrk` -/
def sbrk (R : Rounding) (A : FrameAllocator) (h : Heap) (p : Process) (size : Int) : Except Halt (Int × Process × Heap) := do
  let (old, p, h) ← changeProgramBrk R A h p size
  match old with
  | some oldBrk => .ok (asIsize oldBrk, p, h)
  | none => .ok (-1, p, h)

def mmap (R : Rounding) (A : FrameAllocator) (h : Heap) (p : Process) (addr len : Nat) (prot : Int) :
    Except Halt (Int × Process × Heap) :=
  if addr % pageSize ≠ 0 then .ok (-1, p, h)
  else if prot / 8 ≠ 0 ∨ prot = 0 then .ok (-1, p, h)
  else if addr + len ≥ 2 ^ 64 then .error .panic
  else
    let first := R.floor addr
    let last := R.ceil (addr + len)
    if haveMapped p.space first last then .ok (-1, p, h)
    else do
      let (s, h) ← mapAnonymous A h p.space first last
        (userFlags (prot / 4 % 2 = 1) (prot / 2 % 2 = 1) (prot % 2 = 1))
      .ok (0, { p with space := s }, h)

/-- Every page of the range must be mapped. -/
def munmap (R : Rounding) (h : Heap) (p : Process) (addr len : Nat) : Except Halt (Int × Process × Heap) :=
  if addr % pageSize ≠ 0 then .ok (-1, p, h)
  else if addr + len ≥ 2 ^ 64 then .error .panic
  else
    let first := R.floor addr
    let last := R.ceil (addr + len)
    if (List.range' first (last - first)).all fun x => haveMapped p.space x (x + 1) then
      let (s, h) := unmap h p.space first last
      .ok (0, { p with space := s }, h)
    else .ok (-1, p, h)

/-- `thread_create` looks for a root entry that is not in use, three pages down at a time. -/
def searchStack (h : Heap) (root : Nat) : Nat → Nat → Except Halt Nat
  | 0, _ => .error .panic
  | fuel + 1, vpn =>
    if !(h.tables root (indexIn vpn maxLevel)).isValid then .ok vpn
    else if vpn < 3 then .error .panic
    else searchStack h root fuel (vpn - 3)

/-- The stack of a new thread (chapter 8). -/
def threadStack (A : FrameAllocator) (h : Heap) (p : Process) : Except Halt (Process × Heap) := do
  let vpn ← searchStack h p.space.root (2 ^ 26) (2 ^ 26 - 2)
  let (stack, h) ← h.pageAlloc A 2
  let (s, h) ← mapExtern A h p.space vpn (vpn + 2) stack {.u, .w, .r, .v}
  .ok ({ p with space := s }, h)

section

variable {R : Rounding} {A : FrameAllocator} {h : Heap} {p : Process} (hA : ∀ h n, (A.alloc h n).isSome = true)

include hA

theorem mapSegments_served {segs : List Segment} {s : AddressSpace} {m : Nat} : Served (mapSegments R A segs h s m) := by
  induction segs generalizing h s m with
  | nil => exact served_ok
  | cons seg segs ih =>
    unfold mapSegments
    dsimp only
    split
    · exact served_panic
    · exact (map_served hA _ _ _ _ _).bind fun _ => ih

theorem fromElf_served (kernel : AddressSpace) (elf : ElfFile) : Served (fromElf R A h kernel elf) := by
  unfold fromElf
  split
  · exact served_ok
  · refine Served.bind ((pageAlloc_served hA h 1).bind fun _ => served_ok) fun _ => ?_
    refine (mapSegments_served hA).bind fun _ => (pageAlloc_served hA _ 2).bind fun _ => ?_
    exact (mapExtern_served hA _ _ _ _).bind fun _ => served_ok

theorem sbrk_served (size : Int) : Served (sbrk R A h p size) := by
  refine Served.bind ?_ fun x => ?_
  · unfold changeProgramBrk
    dsimp only
    split
    · exact served_panic
    · split
      · exact served_ok
      · split
        · exact (map_served hA _ _ _ _ _).bind fun _ => served_ok
        · split
          · exact served_ok
          · exact served_ok
  · obtain ⟨old, p', h'⟩ := x
    cases old with
    | some old => exact served_ok
    | none => exact served_ok

theorem mmap_served (addr len : Nat) (prot : Int) : Served (mmap R A h p addr len prot) := by
  unfold mmap
  split
  · exact served_ok
  · split
    · exact served_ok
    · split
      · exact served_panic
      · dsimp only
        split
        · exact served_ok
        · exact (mapAnonymous_served hA _ _ _).bind fun _ => served_ok

end

end Process

/-! ## The machine -/

structure Machine where
  heap : Heap
  kernel : AddressSpace
  procs : List Process

inductive Event where
  | spawn (elf : ElfFile)
  | exec (i : Nat) (elf : ElfFile)
  | fork (i : Nat)
  | mmap (i addr len : Nat) (prot : Int)
  | munmap (i addr len : Nat)
  | sbrk (i : Nat) (size : Int)
  | threadCreate (i : Nat)
  | exit (i : Nat)

namespace Machine

def boot (A : FrameAllocator) (h : Heap) (layout : KernelLayout) (portal : Nat) : Except Halt Machine := do
  let (kernel, h) ← kernelSpace A h layout portal
  .ok ⟨h, kernel, []⟩

/-- The process that makes the call. -/
def caller (s : Machine) (i : Nat) : Except Halt Process :=
  match s.procs[i]? with
  | some p => .ok p
  | none => .error .panic

def update (s : Machine) (i : Nat) (p : Process) (h : Heap) : Machine := { s with heap := h, procs := s.procs.set i p }

def step (R : Rounding) (A : FrameAllocator) (s : Machine) : Event → Except Halt Machine
  | .spawn elf => do
    let image ← Process.fromElf R A s.heap s.kernel elf
    match image with
    | none => .ok s
    | some (p, h) => .ok { s with heap := h, procs := s.procs ++ [p] }
  | .exec i elf => do
    let _ ← s.caller i
    let (p, h) ← Process.exec R A s.heap s.kernel elf
    .ok (s.update i p h)
  | .fork i => do
    let p ← s.caller i
    let (child, h) ← Process.fork A s.heap s.kernel p
    .ok { s with heap := h, procs := s.procs ++ [child] }
  | .mmap i addr len prot => do
    let p ← s.caller i
    let (_, p, h) ← Process.mmap R A s.heap p addr len prot
    .ok (s.update i p h)
  | .munmap i addr len => do
    let p ← s.caller i
    let (_, p, h) ← Process.munmap R s.heap p addr len
    .ok (s.update i p h)
  | .sbrk i size => do
    let p ← s.caller i
    let (_, p, h) ← Process.sbrk R A s.heap p size
    .ok (s.update i p h)
  | .threadCreate i => do
    let p ← s.caller i
    let (p, h) ← Process.threadStack A s.heap p
    .ok (s.update i p h)
  | .exit i => .ok { s with procs := s.procs.eraseIdx i }

end Machine

/-- A kernel that maps the portal page and nothing else. -/
def bareLayout : KernelLayout := ⟨[], [], by simp, by simp⟩

/-- A process with a stack and nothing else. -/
def bareElf : ElfFile := ⟨true, []⟩

end TgRcore.Vm
