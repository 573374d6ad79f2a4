/-
  TgRcore.Vm.ExecFile — `exec` and `spawn` of any file, chapter 6.

  `parse` is the parser of ELF files: nothing for bytes that are no ELF file. Both calls unwrap
  what it gives, `exec` also what `from_elf` gives, and `from_elf` asserts what it needs of the
  segments.
  - `Elf.Loads`: what `from_elf` needs of an executable.
  - `ExecMeets`, `SpawnMeets`: the calls change the image, or add a child, or return -1 and
    change nothing.
  - `file_calls`: `exec` does so exactly for an executable that loads, `spawn` also for an ELF
    file that is no executable. For any other file the kernel stops.
-/

import TgRcore.Task.ProcTable
import TgRcore.Vm.Elf

namespace TgRcore.Vm

open TgRcore.BlockProg TgRcore.Kernel TgRcore.Task TgRcore.Sync AddressSpace

/-! ## The process table -/

/-- `ProcManager` of chapter 6, with the processes as they are. -/
structure UserManager (queue : BinaryHeap StridePair StridePair.le) where
  tasks : BTreeMap ProcId UserProcess
  readyQueue : List StridePair

namespace UserManager

variable {queue : BinaryHeap StridePair StridePair.le}

def insert (m : UserManager queue) (id : ProcId) (task : UserProcess) : UserManager queue :=
  { m with tasks := m.tasks.insert id task }

def delete (m : UserManager queue) (id : ProcId) : UserManager queue := { m with tasks := m.tasks.remove id }

def getMut (m : UserManager queue) (id : ProcId) : Option UserProcess := m.tasks id

def add (m : UserManager queue) (id : ProcId) : Except Halt (UserManager queue) :=
  match m.tasks id with
  | none => .error .panic
  | some task => .ok { m with readyQueue := queue.push m.readyQueue ⟨id, task.stride⟩ }

def fetch (m : UserManager queue) : Except Halt (Option ProcId × UserManager queue) :=
  match queue.pop m.readyQueue with
  | none => .ok (none, m)
  | some (x, rest) =>
    match m.tasks x.id with
    | none => .error .panic
    | some task => do
      let stride ← task.stride.update
      .ok (some x.id, ⟨m.tasks.insert x.id { task with stride := stride }, rest⟩)

instance : Manage UserProcess (UserManager queue) := ⟨insert, delete, getMut⟩

instance : Schedule (UserManager queue) := ⟨add, fetch⟩

end UserManager

/-! ## The calls -/

/-- What the calls act on: memory, the kernel's space, the process manager and the number that
    `ProcId::new` gives next. -/
structure UserKernel (queue : BinaryHeap StridePair StridePair.le) where
  memory : Heap
  space : AddressSpace
  pm : PManager (UserManager queue)
  nextPid : ProcId

namespace UserKernel

variable {queue : BinaryHeap StridePair StridePair.le}

/-- `PROCESSOR.current().unwrap()` -/
def getCurrent (k : UserKernel queue) : Except Halt (ProcId × UserProcess) :=
  match k.pm.current with
  | none => .error .panic
  | some id =>
    match k.pm.manager.getMut id with
    | none => .error .panic
    | some current => .ok (id, current)

def setProc (pm : PManager (UserManager queue)) (id : ProcId) (task : UserProcess) : PManager (UserManager queue) :=
  { pm with manager := pm.manager.insert id task }

/-- `file` is what `read_all` gives of the file that the path names; nothing when the path cannot
    be read or names no file. -/
def exec (R : Rounding) (A : FrameAllocator) (parse : List UInt8 → Option Elf) (k : UserKernel queue)
    (file : Option (List UInt8)) : Except Halt (Int × UserKernel queue) := do
  let (id, current) ← k.getCurrent
  match file with
  | none => .ok (-1, k)
  | some data =>
    match parse data with
    | none => .error .panic
    | some elf => do
      let image ← UserProcess.fromElf R A k.memory k.space k.nextPid elf
      match image with
      | none => .error .panic
      | some (proc, memory) =>
        let current := { current with context := proc.context, satp := proc.satp, image := proc.image }
        .ok (0, { k with memory := memory, pm := setProc k.pm id current, nextPid := k.nextPid + 1 })

def spawn (R : Rounding) (A : FrameAllocator) (parse : List UInt8 → Option Elf) (k : UserKernel queue)
    (file : Option (List UInt8)) : Except Halt (Int × UserKernel queue) := do
  let (_, current) ← k.getCurrent
  match file with
  | none => .ok (-1, k)
  | some data =>
    match parse data with
    | none => .error .panic
    | some elf => do
      let child ← UserProcess.fromElf R A k.memory k.space k.nextPid elf
      match child with
      | none => .ok (-1, k)
      | some (child, memory) => do
        let pid := child.pid
        let child := { child with context := child.context.setA 0 pid }
        let pm ← k.pm.add pid child current.pid
        .ok (asIsize pid, { k with memory := memory, pm := pm, nextPid := k.nextPid + 1 })

/-- The process that makes the call: the current one, in the table under its own number, with its
    links (`PInv` says so of every run of the process manager). -/
structure Calls (k : UserKernel queue) (id : ProcId) (p : UserProcess) : Prop where
  current : k.pm.current = some id
  task : k.pm.manager.tasks id = some p
  pid : p.pid = id
  linked : (k.pm.relMap id).isSome = true
  real : id ≠ usizeMax

end UserKernel

/-! ## What the calls are to do -/

/-- What `from_elf` needs of an executable. -/
structure Elf.Loads (R : Rounding) (elf : Elf) : Prop where
  inFile : ∀ program ∈ elf.loads, program.InFile elf.input
  segments : Loadable R elf.segments

section

variable {queue : BinaryHeap StridePair StridePair.le}

/-- The process with another image; its number, its files and its place in the schedule stay. -/
def UserProcess.become (p : UserProcess) (elf : Elf) (image : Process) : UserProcess :=
  { p with context := (ofImage elf p.pid image).context, satp := satpOf image.space, image := image }

/-- A new process with its number in `a0`. -/
def UserProcess.child (elf : Elf) (pid : ProcId) (image : Process) : UserProcess :=
  { ofImage elf pid image with context := (ofImage elf pid image).context.setA 0 pid }

structure Replaced (R : Rounding) (parse : List UInt8 → Option Elf) (data : List UInt8) (k k' : UserKernel queue)
    (id : ProcId) (p : UserProcess) (elf : Elf) (image : Process) : Prop where
  parsed : parse data = some elf
  loaded : Image R k'.memory image elf.segments
  table : k'.pm = UserKernel.setProc k.pm id (p.become elf image)
  space : k'.space = k.space

/-- The table has one process more, a child of the caller. -/
structure Spawned (R : Rounding) (parse : List UInt8 → Option Elf) (data : List UInt8) (k k' : UserKernel queue)
    (id : ProcId) (elf : Elf) (image : Process) : Prop where
  parsed : parse data = some elf
  loaded : Image R k'.memory image elf.segments
  tasks : k'.pm.manager.tasks = k.pm.manager.tasks.insert k.nextPid (.child elf k.nextPid image)
  ready : k'.pm.manager.readyQueue = queue.push k.pm.manager.readyQueue ⟨k.nextPid, Stride.new⟩
  links : k'.pm.relMap = (k.pm.relMap.adjust id fun r => r.addChild k.nextPid).insert k.nextPid (.new id)
  current : k'.pm.current = k.pm.current
  space : k'.space = k.space

def ExecMeets (R : Rounding) (A : FrameAllocator) (parse : List UInt8 → Option Elf) (k : UserKernel queue) (id : ProcId)
    (p : UserProcess) (data : List UInt8) : Prop :=
  ∃ ret k', k.exec R A parse (some data) = .ok (ret, k') ∧
    (ret = 0 ∧ (∃ elf image, Replaced R parse data k k' id p elf image) ∨ ret = -1 ∧ k' = k)

def SpawnMeets (R : Rounding) (A : FrameAllocator) (parse : List UInt8 → Option Elf) (k : UserKernel queue) (id : ProcId)
    (data : List UInt8) : Prop :=
  ∃ ret k', k.spawn R A parse (some data) = .ok (ret, k') ∧
    (ret = asIsize k.nextPid ∧ (∃ elf image, Spawned R parse data k k' id elf image) ∨ ret = -1 ∧ k' = k)

end

section

variable {queue : BinaryHeap StridePair StridePair.le} {A : FrameAllocator} {R : Rounding} {kernel : Nat}
  {shared : List Nat} {label : Nat → Option Node} {h h' : Heap} {parse : List UInt8 → Option Elf} {k : UserKernel queue}
  {id pid : ProcId} {p q : UserProcess} {space : AddressSpace} {data : List UInt8} {elf : Elf}

theorem UserKernel.Calls.get (hc : k.Calls id p) : k.getCurrent = .ok (id, p) := by
  unfold UserKernel.getCurrent UserManager.getMut
  simp only [hc.current, hc.task]

/-- `from_elf` returns a process for exactly the executables that load. -/
theorem Tree.fromElf_loads (hT : Tree (UserPage kernel) kernel shared label h)
    (hok : UserProcess.fromElf R A h space pid elf = .ok (some (q, h'))) :
    elf.executable = true ∧ elf.Loads R ∧ ∃ image, q = .ofImage elf pid image ∧ Image R h' image elf.segments := by
  have hexec : elf.executable = true := by
    cases he : elf.executable with
    | true => rfl
    | false =>
      unfold UserProcess.fromElf at hok
      rw [he] at hok
      cases hok
  obtain ⟨hfile, image, himage, rfl⟩ := fromElf_ok.mp hok
  obtain ⟨hl, hi⟩ := hT.fromElf_done himage
  exact ⟨hexec, ⟨hfile, hl⟩, image, rfl, hi⟩

theorem Tree.fromElf_made (hR : R.Lawful) (hserved : Served (UserProcess.fromElf R A h space pid elf))
    (hT : Tree (UserPage kernel) kernel shared label h) (hexec : elf.executable = true) (hl : elf.Loads R) :
    ∃ image h', Image R h' image elf.segments ∧
      UserProcess.fromElf R A h space pid elf = .ok (some (.ofImage elf pid image, h')) := by
  rw [served_iff hl.inFile] at hserved
  obtain ⟨image, h', hok⟩ := hT.fromElf_total hR hserved hexec hl.segments
  obtain ⟨-, hi⟩ := hT.fromElf_done hok
  exact ⟨image, h', hi, fromElf_ok.mpr ⟨hl.inFile, image, hok, rfl⟩⟩

/-! ## `exec` -/

/-- What `exec` read of a file, if it returned. -/
theorem exec_reads (hT : Tree (UserPage kernel) kernel shared label k.memory) {x : Int × UserKernel queue}
    (hok : k.exec R A parse (some data) = .ok x) : ∃ elf, parse data = some elf ∧ elf.executable = true ∧ elf.Loads R := by
  obtain ⟨⟨id, p⟩, -, hok⟩ := bind_eq_ok.mp hok
  dsimp only at hok
  split at hok
  · cases hok
  · rename_i elf helf
    obtain ⟨image, hfrom, hok⟩ := bind_eq_ok.mp hok
    cases image with
    | none => cases hok
    | some image =>
      obtain ⟨hexec, hl, -⟩ := hT.fromElf_loads hfrom
      exact ⟨elf, helf, hexec, hl⟩

theorem UserKernel.Calls.exec_done (hR : R.Lawful) (hserved : Served (k.exec R A parse (some data)))
    (hT : Tree (UserPage kernel) kernel shared label k.memory) (hc : k.Calls id p) (helf : parse data = some elf)
    (hexec : elf.executable = true) (hl : elf.Loads R) : ExecMeets R A parse k id p data := by
  have hserved := hserved.next hc.get
  dsimp only at hserved
  rw [helf] at hserved
  obtain ⟨image, h', hi, hok⟩ := hT.fromElf_made hR hserved.first hexec hl
  refine ⟨0, { k with memory := h', pm := setProc k.pm id (p.become elf image), nextPid := k.nextPid + 1 }, ?_,
    .inl ⟨rfl, elf, image, helf, hi, rfl, rfl⟩⟩
  refine bind_eq_ok.mpr ⟨(id, p), hc.get, ?_⟩
  dsimp only
  rw [helf]
  exact bind_eq_ok.mpr ⟨_, hok, rfl⟩

/-- `exec` asks for the frames of `from_elf`. -/
theorem UserKernel.Calls.exec_served (hc : k.Calls id p) (helf : parse data = some elf)
    (hserved : Served (UserProcess.fromElf R A k.memory k.space k.nextPid elf)) : Served (k.exec R A parse (some data)) := by
  unfold UserKernel.exec
  rw [hc.get]
  refine served_bind.mpr ⟨served_ok, fun x hx => ?_⟩
  cases hx
  dsimp only
  rw [helf]
  refine hserved.bind fun image => ?_
  cases image with
  | none => exact served_panic
  | some image => exact served_ok

/-! ## `spawn` -/

/-- What `spawn` read of a file, if it returned. -/
theorem spawn_reads (hT : Tree (UserPage kernel) kernel shared label k.memory) {x : Int × UserKernel queue}
    (hok : k.spawn R A parse (some data) = .ok x) :
    ∃ elf, parse data = some elf ∧ (elf.executable = true → elf.Loads R) := by
  obtain ⟨⟨id, p⟩, -, hok⟩ := bind_eq_ok.mp hok
  dsimp only at hok
  split at hok
  · cases hok
  · rename_i elf helf
    obtain ⟨child, hfrom, hok⟩ := bind_eq_ok.mp hok
    refine ⟨elf, helf, fun hexec => ?_⟩
    cases child with
    | none =>
      unfold UserProcess.fromElf at hfrom
      rw [hexec] at hfrom
      obtain ⟨_, -, hfrom⟩ := bind_eq_ok.mp hfrom
      obtain ⟨_, -, hfrom⟩ := bind_eq_ok.mp hfrom
      obtain ⟨_, -, hfrom⟩ := bind_eq_ok.mp hfrom
      obtain ⟨_, -, hfrom⟩ := bind_eq_ok.mp hfrom
      cases hfrom
    | some child => exact (hT.fromElf_loads hfrom).2.1

/-- The manager takes a child of a process that it knows. -/
theorem UserKernel.Calls.add_child (hc : k.Calls id p) (pid : ProcId) (child : UserProcess) :
    ∃ pm, k.pm.add pid child p.pid = .ok pm ∧ pm.manager.tasks = k.pm.manager.tasks.insert pid child ∧
      pm.manager.readyQueue = queue.push k.pm.manager.readyQueue ⟨pid, child.stride⟩ ∧
      pm.relMap = (k.pm.relMap.adjust id fun r => r.addChild pid).insert pid (.new id) ∧ pm.current = k.pm.current := by
  have hadd : Schedule.add (Manage.insert k.pm.manager pid child) pid =
      .ok ⟨k.pm.manager.tasks.insert pid child, queue.push k.pm.manager.readyQueue ⟨pid, child.stride⟩⟩ := by
    show UserManager.add _ _ = _
    unfold UserManager.add
    rw [show (Manage.insert k.pm.manager pid child).tasks pid = some child from if_pos rfl]
    rfl
  have hmodify : k.pm.relMap.modify id (fun r => r.addChild pid) = .ok (k.pm.relMap.adjust id fun r => r.addChild pid) :=
    if_pos hc.linked
  refine ⟨{
    relMap := (k.pm.relMap.adjust id fun r => r.addChild pid).insert pid (.new id)
    manager := ⟨k.pm.manager.tasks.insert pid child, queue.push k.pm.manager.readyQueue ⟨pid, child.stride⟩⟩
    current := k.pm.current }, ?_, rfl, rfl, rfl, rfl⟩
  unfold PManager.add
  rw [hc.pid]
  refine bind_eq_ok.mpr ⟨_, hadd, ?_⟩
  rw [if_pos hc.real, hmodify]
  rfl

theorem UserKernel.Calls.spawn_done (hR : R.Lawful) (hserved : Served (k.spawn R A parse (some data)))
    (hT : Tree (UserPage kernel) kernel shared label k.memory) (hc : k.Calls id p) (helf : parse data = some elf)
    (hl : elf.executable = true → elf.Loads R) : SpawnMeets R A parse k id data := by
  have hserved := hserved.next hc.get
  dsimp only at hserved
  rw [helf] at hserved
  cases hexec : elf.executable with
  | false =>
    refine ⟨-1, k, bind_eq_ok.mpr ⟨(id, p), hc.get, ?_⟩, .inr ⟨rfl, rfl⟩⟩
    have hnone : UserProcess.fromElf R A k.memory k.space k.nextPid elf = .ok none := by
      unfold UserProcess.fromElf
      rw [hexec]
      rfl
    dsimp only
    rw [helf]
    exact bind_eq_ok.mpr ⟨none, hnone, rfl⟩
  | true =>
    obtain ⟨image, h', hi, hok⟩ := hT.fromElf_made hR hserved.first hexec (hl hexec)
    obtain ⟨pm, hadd, htasks, hready, hlinks, hcur⟩ := hc.add_child k.nextPid (.child elf k.nextPid image)
    refine ⟨asIsize k.nextPid, { k with memory := h', pm := pm, nextPid := k.nextPid + 1 },
      bind_eq_ok.mpr ⟨(id, p), hc.get, ?_⟩, .inl ⟨rfl, elf, image, helf, hi, htasks, hready, hlinks, hcur, rfl⟩⟩
    dsimp only
    rw [helf]
    exact bind_eq_ok.mpr ⟨_, hok, bind_eq_ok.mpr ⟨pm, hadd, rfl⟩⟩

/-- So does `spawn`. -/
theorem UserKernel.Calls.spawn_served (hc : k.Calls id p) (helf : parse data = some elf)
    (hserved : Served (UserProcess.fromElf R A k.memory k.space k.nextPid elf)) : Served (k.spawn R A parse (some data)) := by
  unfold UserKernel.spawn
  rw [hc.get]
  refine served_bind.mpr ⟨served_ok, fun x hx => ?_⟩
  cases hx
  dsimp only
  rw [helf]
  refine hserved.bind fun image => ?_
  cases image with
  | none => exact served_ok
  | some image =>
    obtain ⟨pm, hadd, -⟩ := hc.add_child image.1.pid { image.1 with context := image.1.context.setA 0 image.1.pid }
    refine served_bind.mpr ⟨?_, fun _ _ => served_ok⟩
    rw [hadd]
    exact served_ok

end

/-- For every process that calls, with memory as in any state that the kernel reaches and the frames
    of the call there: `exec` of a file meets its description exactly when the file is an
    executable that loads, and `spawn` exactly when it is an ELF file that loads if it is an
    executable. -/
theorem file_calls {queue : BinaryHeap StridePair StridePair.le} {R : Rounding} {A : FrameAllocator} {h : Heap}
    {layout : KernelLayout} {portal : Nat} {s t : Machine} {es : List Event} (hR : R.Lawful)
    (hboot : Machine.boot A h layout portal = .ok s) (hrun : Runs R A s es t) {k : UserKernel queue}
    (hk : k.memory = t.heap ∧ k.space = t.kernel) {id : ProcId} {p : UserProcess} (hc : k.Calls id p)
    (parse : List UInt8 → Option Elf) (data : List UInt8) :
    (Served (k.exec R A parse (some data)) →
      (ExecMeets R A parse k id p data ↔ ∃ elf, parse data = some elf ∧ elf.executable = true ∧ elf.Loads R)) ∧
    (Served (k.spawn R A parse (some data)) →
      (SpawnMeets R A parse k id data ↔ ∃ elf, parse data = some elf ∧ (elf.executable = true → elf.Loads R))) := by
  obtain ⟨-, -, shared, label, hi⟩ := sInv_run (P := False) hR hboot hrun False.elim
  have hT := hi.tree
  rw [← hk.1] at hT
  refine ⟨fun hserved => ⟨?_, ?_⟩, fun hserved => ⟨?_, ?_⟩⟩
  · intro ⟨ret, k', hok, _⟩
    exact exec_reads hT hok
  · intro ⟨elf, helf, hexec, hl⟩
    exact hc.exec_done hR hserved hT helf hexec hl
  · intro ⟨ret, k', hok, _⟩
    exact spawn_reads hT hok
  · intro ⟨elf, helf, hl⟩
    exact hc.spawn_done hR hserved hT helf hl

/-- A table with one process, which runs. -/
def oneCaller (memory : Heap) (space : AddressSpace) (p : UserProcess) : UserKernel strideHeap where
  memory := memory
  space := space
  pm := { relMap := BTreeMap.empty.insert 0 (.new usizeMax), manager := ⟨BTreeMap.empty.insert 0 p, []⟩, current := some 0 }
  nextPid := 1

theorem oneCaller_calls (memory : Heap) (space : AddressSpace) {p : UserProcess} (hp : p.pid = 0) :
    (oneCaller memory space p).Calls 0 p := ⟨rfl, rfl, hp, rfl, by decide⟩

/-- A program of one instruction, `ecall`, after its header and the one program header. -/
def programFile : List UInt8 :=
  [0x7f, 0x45, 0x4c, 0x46, 2, 1, 1, 0, 0, 0, 0, 0, 0, 0, 0, 0, 2, 0, 0xf3, 0, 1, 0, 0, 0,
   0x78, 0, 1, 0, 0, 0, 0, 0, 0x40, 0, 0, 0, 0, 0, 0, 0, 0, 0, 0, 0, 0, 0, 0, 0,
   0, 0, 0, 0, 0x40, 0, 0x38, 0, 1, 0, 0, 0, 0, 0, 0, 0,
   1, 0, 0, 0, 5, 0, 0, 0, 0, 0, 0, 0, 0, 0, 0, 0, 0, 0, 1, 0, 0, 0, 0, 0, 0, 0, 1, 0, 0, 0, 0, 0,
   0x7c, 0, 0, 0, 0, 0, 0, 0, 0x7c, 0, 0, 0, 0, 0, 0, 0, 0, 0x10, 0, 0, 0, 0, 0, 0,
   0x73, 0, 0, 0]

/-- What its headers say. -/
def programElf : Elf where
  input := programFile
  executable := true
  entryPoint := 0x10078
  programs := [
    { load := true, offset := 0, fileSize := 124, virtualAddr := 0x10000, memSize := 124, execute := true, write := false, read := true }]

/-- A parser for this file; other bytes are none. -/
def parseProgram (data : List UInt8) : Option Elf := if data = programFile then some programElf else none

theorem programElf_wellFormed : programElf.WellFormed := by
  refine ⟨rfl, ?_, ?_, ?_, ?_, ?_⟩
  · simp [Elf.loads, programElf]
  · simp [Elf.loads, programElf, pageSize]
  · simp [Elf.loads, programElf, ProgramHeader.InFile, programFile]
  · simp [Elf.loads, programElf, ProgramHeader.first, ProgramHeader.last, pagesOf, pageSize]
  · simp [Elf.loads, programElf]

theorem file_calls_program : ∃ (k : UserKernel strideHeap) (p : UserProcess),
    ExecMeets shift bump parseProgram k 0 p programFile ∧ SpawnMeets shift bump parseProgram k 0 programFile := by
  obtain ⟨s, t, p, hboot, hrun, -, -⟩ := bare_spawned
  let caller := UserProcess.ofImage programElf 0 p
  let k := oneCaller t.heap t.kernel caller
  have hc : k.Calls 0 caller := oneCaller_calls t.heap t.kernel (p := caller) rfl
  have hl : programElf.Loads shift := ⟨programElf_wellFormed.inFile, programElf_wellFormed.loadable shift_exact⟩
  have hparse : parseProgram programFile = some programElf := if_pos rfl
  have himage : Served (UserProcess.fromElf shift bump k.memory k.space k.nextPid programElf) :=
    (served_iff hl.inFile).mpr (Process.fromElf_served bump_total k.space programElf.file)
  obtain ⟨hexec, hspawn⟩ := file_calls shift_lawful hboot hrun (k := k) ⟨rfl, rfl⟩ hc parseProgram programFile
  exact ⟨k, caller, (hexec (hc.exec_served hparse himage)).mpr ⟨programElf, hparse, rfl, hl⟩,
    (hspawn (hc.spawn_served hparse himage)).mpr ⟨programElf, hparse, fun _ => hl⟩⟩

/-- A parser gives nothing for an empty file. -/
def parseEmpty (_ : List UInt8) : Option Elf := none

/-- `exec` and `spawn` of an empty file stop the kernel. -/
theorem empty_file_stops : ∃ (s t : Machine) (k : UserKernel strideHeap) (p : UserProcess),
    Machine.boot bump bareHeap bareLayout 0x80020 = .ok s ∧ Runs shift bump s [.spawn bareElf] t ∧
    k.memory = t.heap ∧ k.space = t.kernel ∧ k.Calls 0 p ∧
    k.exec shift bump parseEmpty (some []) = .error .panic ∧ k.spawn shift bump parseEmpty (some []) = .error .panic ∧
    ¬ ExecMeets shift bump parseEmpty k 0 p [] ∧ ¬ SpawnMeets shift bump parseEmpty k 0 [] := by
  obtain ⟨s, t, p, hboot, hrun, -, -⟩ := bare_spawned
  let caller := UserProcess.ofImage programElf 0 p
  refine ⟨s, t, oneCaller t.heap t.kernel caller, caller, hboot, hrun, rfl, rfl,
    oneCaller_calls t.heap t.kernel (p := caller) rfl, rfl, rfl, ?_, ?_⟩
  · intro ⟨ret, k', hok, _⟩
    cases hok
  · intro ⟨ret, k', hok, _⟩
    cases hok

end TgRcore.Vm
