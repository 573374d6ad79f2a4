/-
  TgRcore.Vm.FileIo — `read` and `write` of chapter 6 (`IO` in `main.rs`, `FileHandle` in
  `file.rs`), between the memory of the process that calls and the file system.

  A call translates the first address of the buffer and passes on one slice of physical memory
  that starts there. The bytes that the kernel loads and stores for the process are kept in a
  log, in order.
  - `write_iff`, `read_iff`: when a call on an open file returns, and what it did.
  - `user_buffers`: the bytes moved are those at the virtual addresses, and nothing is moved for
    a buffer that is not all there, exactly when the first page is not there or the bytes lie
    one after the other in physical memory, too.
-/

import TgRcore.EasyFs.Vfs
import TgRcore.Vm.Permissions

namespace TgRcore.Vm

open TgRcore.Bytes TgRcore.BlockProg TgRcore.BlockProg.Prog TgRcore.EasyFs TgRcore.Sync

/-! ## The state of a call -/

/-- A byte of physical memory that the kernel uses for a process. -/
inductive Access where
  | load (addr : Nat)
  | store (addr : Nat)
  deriving DecidableEq, Repr

structure FileHandle where
  inode : Option Inode
  read : Bool
  write : Bool
  offset : Nat

namespace FileHandle

def new (read write : Bool) (inode : Inode) : FileHandle := ⟨some inode, read, write, 0⟩

def empty (read write : Bool) : FileHandle := ⟨none, read, write, 0⟩

def readable (file : FileHandle) : Bool := file.read

def writable (file : FileHandle) : Bool := file.write

/-- The handle after `n` bytes. -/
def advance (file : FileHandle) (n : Nat) : FileHandle := { file with offset := file.offset + n }

end FileHandle

/-- The process that calls and what its calls act on. `input` is what `console_getchar` returns,
    call by call. -/
structure IoState where
  heap : Heap
  space : AddressSpace
  fdTable : List (Option FileHandle)
  disk : Store Block
  input : Nat → UInt8
  output : List UInt8
  log : List Access

abbrev stdin : Nat := 0

abbrev stdout : Nat := 1

abbrev stddebug : Nat := 2

/-- The slices of a user's buffer: where each starts in physical memory, and how long it is. -/
abbrev UserBuffer := List (Nat × Nat)

/-- `from_raw_parts_mut`: no slice is longer than `isize::MAX`. -/
def fromRawParts (ptr len : Nat) : Except Halt (Nat × Nat) := if len < 2 ^ 63 then .ok (ptr, len) else .error .panic

namespace IoState

def bytes (s : IoState) (addr len : Nat) : List UInt8 := (List.range len).map fun i => s.heap.mem (addr + i)

/-- The kernel has read the bytes. -/
def loaded (s : IoState) (addr len : Nat) : IoState := { s with log := s.log ++ (List.range' addr len).map .load }

/-- The kernel has written the bytes. -/
def stored (s : IoState) (addr : Nat) (data : List UInt8) : IoState :=
  { s with heap := s.heap.write addr data, log := s.log ++ (List.range' addr data.length).map .store }

end IoState

/-! ## File handles -/

namespace FileHandle

variable (efs : EasyFileSystem)

/-- The loop of `write`, `total` bytes in. `write_at` has checked that the offset does not
    overflow. -/
def writeLoop (inode : Inode) : UserBuffer → FileHandle → Nat → IoState →
    Except Halt (Nat × FileHandle × IoState)
  | [], file, total, s => .ok (total, file, s)
  | (addr, len) :: buffers, file, total, s => do
    let (writeSize, disk) ← (Inode.writeAt efs inode file.offset (s.bytes addr len)).run s.disk
    if writeSize ≠ len then .error .panic
    else
      writeLoop inode buffers { file with offset := file.offset + writeSize } (total + writeSize)
        { s.loaded addr len with disk := disk }

/-- The loop of `read`, `total` bytes in. `read_at` fills the front of the slice. -/
def readLoop (inode : Inode) : UserBuffer → FileHandle → Nat → IoState →
    Except Halt (Nat × FileHandle × IoState)
  | [], file, total, s => .ok (total, file, s)
  | (addr, len) :: buffers, file, total, s => do
    let ((readSize, data), disk) ← (Inode.readAt efs inode file.offset (s.bytes addr len)).run s.disk
    if readSize = 0 then .ok (total, file, { s with disk := disk })
    else
      readLoop inode buffers { file with offset := file.offset + readSize } (total + readSize)
        { s.stored addr (data.take readSize) with disk := disk }

/-- `FileHandle::write` -/
def writeBuffer (file : FileHandle) (buf : UserBuffer) (s : IoState) : Except Halt (Int × FileHandle × IoState) :=
  match file.inode with
  | some inode => do
    let (total, file, s) ← writeLoop efs inode buf file 0 s
    .ok (asIsize total, file, s)
  | none => .ok (-1, file, s)

/-- `FileHandle::read` -/
def readBuffer (file : FileHandle) (buf : UserBuffer) (s : IoState) : Except Halt (Int × FileHandle × IoState) :=
  match file.inode with
  | some inode => do
    let (total, file, s) ← readLoop efs inode buf file 0 s
    .ok (asIsize total, file, s)
  | none => .ok (-1, file, s)

end FileHandle

/-! ## The calls -/

namespace IoState

def setFile (s : IoState) (fd : Nat) (file : FileHandle) : IoState :=
  { s with fdTable := s.fdTable.set fd (some file) }

/-- `IO::write` -/
def write (R : Rounding) (efs : EasyFileSystem) (s : IoState) (fd buf count : Nat) : Except Halt (Int × IoState) :=
  match AddressSpace.translate R s.heap s.space buf Vm.readable with
  | some ptr =>
    if fd = stdout ∨ fd = stddebug then do
      let (ptr, len) ← fromRawParts ptr count
      .ok (asIsize count, { s.loaded ptr len with output := s.output ++ s.bytes ptr len })
    else
      match s.fdTable[fd]? with
      | some (some file) =>
        if file.writable then do
          let v ← fromRawParts ptr count
          let (size, file, s) ← file.writeBuffer efs [v] s
          .ok (size, s.setFile fd file)
        else .ok (-1, s)
      | some none => .ok (-1, s)
      | none => .error .panic
  | none => .ok (-1, s)

/-- `IO::read` -/
def read (R : Rounding) (efs : EasyFileSystem) (s : IoState) (fd buf count : Nat) : Except Halt (Int × IoState) :=
  match AddressSpace.translate R s.heap s.space buf writeable with
  | some ptr =>
    if fd = stdin then
      .ok (asIsize count, { s.stored ptr ((List.range count).map s.input) with input := fun i => s.input (i + count) })
    else
      match s.fdTable[fd]? with
      | some (some file) =>
        if file.readable then do
          let v ← fromRawParts ptr count
          let (size, file, s) ← file.readBuffer efs [v] s
          .ok (size, s.setFile fd file)
        else .ok (-1, s)
      | some none => .ok (-1, s)
      | none => .error .panic
  | none => .ok (-1, s)

end IoState

/-! ## What a call did -/

/-- The descriptor of an open regular file; the first three are the console's. -/
structure OpenFile (s : IoState) (fd : Nat) (file : FileHandle) (inode : Inode) : Prop where
  regular : stddebug < fd
  entry : s.fdTable[fd]? = some (some file)
  inode : file.inode = some inode

/-- The size that the inode has on the disk. -/
def fileSize (efs : EasyFileSystem) (s : IoState) (inode : Inode) : Nat :=
  (DiskInode.load efs.crate (s.disk.blk inode.blockId) inode.blockOffset).size

section

variable {R : Rounding} {efs : EasyFileSystem} {s s' : IoState} {fd buf count : Nat} {file : FileHandle} {inode : Inode}
  {ret : Int}

theorem readLoop_length {d : DiskInode} {t t' : Store Block} {fin start sb : Nat} {acc l : List UInt8}
    (hlt : start < fin) (hr : (d.readLoop sb start fin acc).run t = .ok (l, t')) :
    l.length = acc.length + (fin - start) := by
  induction hm : fin - start using Nat.strong_induction_on generalizing start sb acc t with
  | _ m ih =>
    rw [DiskInode.readLoop] at hr
    obtain ⟨id, t1, -, hr⟩ := run_bind_ok.mp hr
    obtain ⟨src, t2, hsrc, hr⟩ := run_bind_ok.mp hr
    obtain ⟨-, t3, hsrc, -⟩ := run_readBlock_ok.mp hsrc
    cases hsrc
    split at hr
    · rename_i he
      cases hr
      simp only [List.length_append, List.length_map, List.length_range]
      omega
    · rename_i he
      have hrec := ih _ (by omega) (by omega) hr rfl
      rw [hrec]
      simp only [List.length_append, List.length_map, List.length_range]
      omega

/-- How much `read_at` reads. -/
theorem readAt_size {off n : Nat} {bytes data : List UInt8} {t : Store Block}
    (hr : (Inode.readAt efs inode off bytes).run s.disk = .ok ((n, data), t)) :
    n = min (off + bytes.length) (fileSize efs s inode) - off ∧ n ≤ data.length := by
  obtain ⟨-, t1, hr, -⟩ := run_withMutex_ok.mp hr
  obtain ⟨-, t2, hr, -⟩ := run_readBlock_ok.mp hr
  obtain ⟨-, hr⟩ := run_assert_bind_ok.mp hr
  obtain ⟨-, hr⟩ := run_assert_bind_ok.mp hr
  have hsize : (DiskInode.load efs.crate (s.disk.blk inode.blockId) inode.blockOffset).size =
      fileSize efs s inode := rfl
  dsimp only at hr
  rw [hsize] at hr
  split at hr
  · cases hr
    omega
  · obtain ⟨l, t3, hl, hr⟩ := run_bind_ok.mp hr
    cases hr
    have hlen := readLoop_length (by omega) hl
    simp only [List.length_nil, List.length_append, List.length_drop] at hlen ⊢
    omega

@[simp] theorem Heap.write_nil (h : Heap) (addr : Nat) : h.write addr [] = h := by
  unfold Heap.write
  congr 1
  funext a
  exact if_neg fun e => absurd e.2 (Nat.not_lt.mpr e.1)

theorem Heap.write_inside {h : Heap} {addr i : Nat} {data : List UInt8} (hi : i < data.length) :
    some ((h.write addr data).mem (addr + i)) = data[i]? := by
  simp [Heap.write, hi, List.getD_eq_getElem?_getD]

theorem Heap.write_outside {h : Heap} {addr a : Nat} {data : List UInt8} (ha : a ∉ List.range' addr data.length) :
    (h.write addr data).mem a = h.mem a :=
  if_neg fun e => ha (List.mem_range'_1.mpr e)

theorem asIsize_of_lt {n : Nat} (hn : n < 2 ^ 63) : asIsize n = n := if_pos hn

/-- The descriptors of files are not the console's. -/
theorem not_console (hfd : stddebug < fd) : ¬ (fd = stdout ∨ fd = stddebug) ∧ ¬ fd = stdin := by
  have hlt : 2 < fd := hfd
  refine ⟨fun h => ?_, fun h => ?_⟩
  · rcases h with rfl | rfl <;> exact absurd hlt (by decide)
  · subst h
    exact absurd hlt (by decide)

/-- A `write` to an open file returns when `write_at` takes the slice from the translation of `buf`
    on. -/
theorem write_iff {ptr : Nat} (ho : OpenFile s fd file inode) (hw : file.write = true)
    (ht : AddressSpace.translate R s.heap s.space buf readable = some ptr) :
    s.write R efs fd buf count = .ok (ret, s') ↔ count < 2 ^ 63 ∧ ∃ disk,
      (Inode.writeAt efs inode file.offset (s.bytes ptr count)).run s.disk = .ok (count, disk) ∧ ret = count ∧
      s' = ({ s.loaded ptr count with disk := disk } : IoState).setFile fd (file.advance count) := by
  have hcall : s.write R efs fd buf count = (do
      let v ← fromRawParts ptr count
      let (size, file, s) ← file.writeBuffer efs [v] s
      .ok (size, s.setFile fd file)) := by
    unfold IoState.write
    simp only [ht, if_neg (not_console ho.regular).1, ho.entry, FileHandle.writable, hw, if_true]
  rw [hcall]
  unfold FileHandle.writeBuffer
  simp only [ho.inode]
  constructor
  · intro h
    obtain ⟨v, hv, h⟩ := bind_eq_ok.mp h
    unfold fromRawParts at hv
    split at hv
    · rename_i hcount
      cases hv
      obtain ⟨x, hx, h⟩ := bind_eq_ok.mp h
      cases h
      obtain ⟨y, hy, hx⟩ := bind_eq_ok.mp hx
      cases hx
      obtain ⟨⟨size, disk⟩, hz, hy⟩ := bind_eq_ok.mp hy
      dsimp only at hy
      split at hy
      · cases hy
      · rename_i hlen
        rw [not_ne_iff] at hlen
        subst hlen
        cases hy
        refine ⟨hcount, disk, hz, ?_, rfl⟩
        simp only [Nat.zero_add]
        exact asIsize_of_lt hcount
    · cases hv
  · rintro ⟨hcount, disk, hz, rfl, rfl⟩
    have hloop : FileHandle.writeLoop efs inode [(ptr, count)] file 0 s =
        .ok (count, file.advance count, { s.loaded ptr count with disk := disk }) := by
      refine bind_eq_ok.mpr ⟨_, hz, ?_⟩
      simp [FileHandle.writeLoop, FileHandle.advance]
    refine bind_eq_ok.mpr ⟨(ptr, count), if_pos hcount, bind_eq_ok.mpr ⟨_, bind_eq_ok.mpr ⟨_, hloop, rfl⟩, ?_⟩⟩
    rw [asIsize_of_lt hcount]

/-- What a `write` to an open file did, if it returned: nothing was moved, or the slice from the
    translation of `buf` on went to the file. -/
theorem write_ok (ho : OpenFile s fd file inode) (hw : s.write R efs fd buf count = .ok (ret, s')) :
    (ret = -1 ∧ s' = s ∧ (file.write = true → AddressSpace.translate R s.heap s.space buf readable = none)) ∨
    ∃ ptr, file.write = true ∧ AddressSpace.translate R s.heap s.space buf readable = some ptr ∧ ret = count ∧
      s'.heap = s.heap ∧ s'.log = s.log ++ (List.range' ptr count).map .load ∧
      (Inode.writeAt efs inode file.offset (s.bytes ptr count)).run s.disk = .ok (count, s'.disk) := by
  cases ht : AddressSpace.translate R s.heap s.space buf readable with
  | none =>
    unfold IoState.write at hw
    rw [ht] at hw
    cases hw
    exact .inl ⟨rfl, rfl, fun _ => rfl⟩
  | some ptr =>
    by_cases hwr : file.write = true
    · obtain ⟨-, disk, hrun, rfl, rfl⟩ := (write_iff ho hwr ht).mp hw
      exact .inr ⟨ptr, hwr, rfl, rfl, rfl, rfl, hrun⟩
    · unfold IoState.write at hw
      simp only [ht, if_neg (not_console ho.regular).1, ho.entry, FileHandle.writable, hwr, Bool.false_eq_true, if_false] at hw
      cases hw
      exact .inl ⟨rfl, rfl, fun h => absurd h hwr⟩

/-- A `read` of an open file returns when `read_at` does; what it put at the front of its buffer is
    in memory from the translation of `buf` on. -/
theorem read_iff {ptr : Nat} (ho : OpenFile s fd file inode) (hrd : file.read = true)
    (ht : AddressSpace.translate R s.heap s.space buf writeable = some ptr) :
    s.read R efs fd buf count = .ok (ret, s') ↔ count < 2 ^ 63 ∧ ∃ n data disk,
      (Inode.readAt efs inode file.offset (s.bytes ptr count)).run s.disk = .ok ((n, data), disk) ∧ ret = (n : Nat) ∧
      s' = ({ s.stored ptr (data.take n) with disk := disk } : IoState).setFile fd (file.advance n) := by
  have hcall : s.read R efs fd buf count = (do
      let v ← fromRawParts ptr count
      let (size, file, s) ← file.readBuffer efs [v] s
      .ok (size, s.setFile fd file)) := by
    unfold IoState.read
    simp only [ht, if_neg (not_console ho.regular).2, ho.entry, FileHandle.readable, hrd, if_true]
  have hloop : ∀ {n : Nat} {data : List UInt8} {disk : Store Block},
      (Inode.readAt efs inode file.offset (s.bytes ptr count)).run s.disk = .ok ((n, data), disk) →
      FileHandle.readLoop efs inode [(ptr, count)] file 0 s =
        .ok (n, file.advance n, { s.stored ptr (data.take n) with disk := disk }) := by
    intro n data disk hz
    refine bind_eq_ok.mpr ⟨_, hz, ?_⟩
    dsimp only
    split
    · rename_i h0
      simp [h0, FileHandle.advance, IoState.stored]
    · simp [FileHandle.readLoop, FileHandle.advance]
  have hsize : ∀ {n : Nat} {data : List UInt8} {disk : Store Block},
      (Inode.readAt efs inode file.offset (s.bytes ptr count)).run s.disk = .ok ((n, data), disk) → n ≤ count := by
    intro n data disk hz
    obtain ⟨hn, -⟩ := readAt_size hz
    simp only [IoState.bytes, List.length_map, List.length_range] at hn
    omega
  rw [hcall]
  unfold FileHandle.readBuffer
  simp only [ho.inode]
  constructor
  · intro h
    obtain ⟨v, hv, h⟩ := bind_eq_ok.mp h
    unfold fromRawParts at hv
    split at hv
    · rename_i hcount
      cases hv
      obtain ⟨x, hx, h⟩ := bind_eq_ok.mp h
      cases h
      obtain ⟨y, hy, hx⟩ := bind_eq_ok.mp hx
      cases hx
      obtain ⟨⟨⟨n, data⟩, disk⟩, hz, -⟩ := bind_eq_ok.mp hy
      rw [hloop hz] at hy
      cases hy
      exact ⟨hcount, n, data, disk, hz, asIsize_of_lt (Nat.lt_of_le_of_lt (hsize hz) hcount), rfl⟩
    · cases hv
  · rintro ⟨hcount, n, data, disk, hz, rfl, rfl⟩
    refine bind_eq_ok.mpr ⟨(ptr, count), if_pos hcount, bind_eq_ok.mpr ⟨_, bind_eq_ok.mpr ⟨_, hloop hz, rfl⟩, ?_⟩⟩
    rw [asIsize_of_lt (Nat.lt_of_le_of_lt (hsize hz) hcount)]

/-- What a `read` of an open file did, if it returned: nothing was moved, or what `read_at` put at
    the front of its buffer is in memory from the translation of `buf` on. -/
theorem read_ok (ho : OpenFile s fd file inode) (hr : s.read R efs fd buf count = .ok (ret, s')) :
    (ret = -1 ∧ s' = s ∧ (file.read = true → AddressSpace.translate R s.heap s.space buf writeable = none)) ∨
    ∃ (ptr n : Nat) (data : List UInt8), file.read = true ∧
      AddressSpace.translate R s.heap s.space buf writeable = some ptr ∧ ret = n ∧
      n = min (file.offset + count) (fileSize efs s inode) - file.offset ∧ data.length = n ∧
      s'.heap = s.heap.write ptr data ∧ s'.log = s.log ++ (List.range' ptr n).map .store ∧
      ∃ rest, (Inode.readAt efs inode file.offset (s.bytes ptr count)).run s.disk =
        .ok ((n, data ++ rest), s'.disk) := by
  cases ht : AddressSpace.translate R s.heap s.space buf writeable with
  | none =>
    unfold IoState.read at hr
    rw [ht] at hr
    cases hr
    exact .inl ⟨rfl, rfl, fun _ => rfl⟩
  | some ptr =>
    by_cases hrd : file.read = true
    · obtain ⟨-, n, data, disk, hrun, rfl, rfl⟩ := (read_iff ho hrd ht).mp hr
      obtain ⟨hn, hle⟩ := readAt_size hrun
      simp only [IoState.bytes, List.length_map, List.length_range] at hn
      have hsplit : data.take n ++ data.drop n = data := List.take_append_drop n data
      refine .inr ⟨ptr, n, data.take n, hrd, rfl, rfl, hn, List.length_take_of_le hle, rfl, ?_, data.drop n, ?_⟩
      · simp only [IoState.setFile, IoState.stored, List.length_take_of_le hle]
      · rw [hsplit]
        exact hrun
    · unfold IoState.read at hr
      simp only [ht, if_neg (not_console ho.regular).2, ho.entry, FileHandle.readable, hrd, Bool.false_eq_true, if_false] at hr
      cases hr
      exact .inl ⟨rfl, rfl, fun h => absurd h hrd⟩

end

/-! ## By virtual address -/

/-- The bytes from the virtual address `buf` on are at `addrs`, each translated by its own page. -/
def IsAt (R : Rounding) (s : IoState) (flags : VmFlags) (buf : Nat) (addrs : List Nat) : Prop :=
  ∀ i, i < addrs.length → AddressSpace.translate R s.heap s.space (buf + i) flags = addrs[i]?

/-- A page of the buffer is not there, or lacks the flags. -/
def Missing (R : Rounding) (s : IoState) (flags : VmFlags) (buf count : Nat) : Prop :=
  ∃ i, i < count ∧ AddressSpace.translate R s.heap s.space (buf + i) flags = none

/-- The first `n` bytes of the buffer lie one after the other in physical memory. -/
def Straight (R : Rounding) (s : IoState) (flags : VmFlags) (buf n ptr : Nat) : Prop :=
  ∀ i, i < n → AddressSpace.translate R s.heap s.space (buf + i) flags = some (ptr + i)

/-- A call that returned `ret` and left `s'` went by the virtual addresses of its buffer: `ret` bytes
    were used, those from `buf` on; no byte was used that is not in the buffer; and none at all when
    a page is missing. `given` says where the bytes went, or came from. -/
structure ByVirtualAddress (R : Rounding) (s s' : IoState) (flags : VmFlags) (access : Nat → Access)
    (given : List Nat → Prop) (buf count : Nat) (ret : Int) : Prop where
  moved : 0 ≤ ret → ∃ addrs : List Nat, (addrs.length : Int) = ret ∧ IsAt R s flags buf addrs ∧
    s'.log = s.log ++ addrs.map access ∧ given addrs
  inside : ∀ x ∈ s'.log.drop s.log.length, ∃ i a, i < count ∧
    AddressSpace.translate R s.heap s.space (buf + i) flags = some a ∧ access a = x
  refused : Missing R s flags buf count → ret = -1 ∧ s' = s

/-- `write_at` got the bytes at `addrs`. -/
def WentToFile (efs : EasyFileSystem) (s s' : IoState) (file : FileHandle) (inode : Inode) (addrs : List Nat) : Prop :=
  s'.heap = s.heap ∧
  (Inode.writeAt efs inode file.offset (addrs.map s.heap.mem)).run s.disk = .ok (addrs.length, s'.disk)

/-- What `read_at` returned for a buffer of `count` bytes is at `addrs`, and no other byte of memory
    has changed. -/
def CameFromFile (efs : EasyFileSystem) (s s' : IoState) (file : FileHandle) (inode : Inode) (count : Nat)
    (addrs : List Nat) : Prop :=
  s'.heap.tables = s.heap.tables ∧ (∀ a, a ∉ addrs → s'.heap.mem a = s.heap.mem a) ∧
  ∃ bytes data rest : List UInt8, bytes.length = count ∧ addrs.map s'.heap.mem = data ∧
    (Inode.readAt efs inode file.offset bytes).run s.disk = .ok ((addrs.length, data ++ rest), s'.disk)

section

variable {R : Rounding} {efs : EasyFileSystem} {s s' : IoState} {flags : VmFlags} {access : Nat → Access}
  {given : List Nat → Prop} {fd buf count n ptr : Nat} {file : FileHandle} {inode : Inode} {ret : Int}

/-- A call that moved nothing and said so. -/
theorem byVirtualAddress_refused : ByVirtualAddress R s s flags access given buf count (-1) where
  moved h := absurd h (by decide)
  inside x hx := by
    rw [List.drop_length] at hx
    cases hx
  refused _ := ⟨rfl, rfl⟩

/-- A call that used one slice, where the slice is the buffer. -/
theorem Straight.byVirtualAddress (h : Straight R s flags buf n ptr) (hm : ¬ Missing R s flags buf count)
    (hn : n ≤ count) (hlog : s'.log = s.log ++ (List.range' ptr n).map access) (hg : given (List.range' ptr n)) :
    ByVirtualAddress R s s' flags access given buf count n where
  moved _ := by
    refine ⟨List.range' ptr n, by rw [List.length_range'], ?_, hlog, hg⟩
    intro i hi
    rw [List.length_range'] at hi
    rw [h i hi, List.getElem?_range' hi, Nat.one_mul]
  inside x hx := by
    rw [hlog, List.drop_left] at hx
    obtain ⟨a, ha, rfl⟩ := List.mem_map.mp hx
    obtain ⟨hle, hlt⟩ := List.mem_range'_1.mp ha
    refine ⟨a - ptr, a, by omega, ?_, rfl⟩
    rw [h (a - ptr) (by omega), Nat.add_sub_cancel' hle]
  refused h := absurd h hm

/-- And the other way round. -/
theorem ByVirtualAddress.straight (h : ByVirtualAddress R s s' flags access given buf count n)
    (hinj : Function.Injective access) (hlog : s'.log = s.log ++ (List.range' ptr n).map access) :
    Straight R s flags buf n ptr ∧ ¬ Missing R s flags buf count := by
  constructor
  · obtain ⟨addrs, hlen, hat, hlog', -⟩ := h.moved (Int.natCast_nonneg n)
    have hmap : addrs.map access = (List.range' ptr n).map access := List.append_cancel_left (hlog'.symm.trans hlog)
    have haddrs := List.map_injective_iff.mpr hinj hmap
    intro i hi
    rw [hat i (by omega), haddrs, List.getElem?_range' hi, Nat.one_mul]
  · intro hm
    have hret := (h.refused hm).1
    omega

theorem bytes_eq (s : IoState) (ptr n : Nat) : s.bytes ptr n = (List.range' ptr n).map s.heap.mem := by
  rw [IoState.bytes, List.range'_eq_map_range, List.map_map]
  rfl

theorem map_write (h : Heap) (ptr : Nat) (data : List UInt8) :
    (List.range' ptr data.length).map (h.write ptr data).mem = data := by
  apply List.ext_getElem?
  intro i
  by_cases hi : i < data.length
  · rw [List.getElem?_map, List.getElem?_range' hi, Option.map_some, Nat.one_mul, Heap.write_inside hi]
  · rw [List.getElem?_eq_none (by simpa using hi), List.getElem?_eq_none (by simpa using hi)]

theorem Straight.not_missing (h : Straight R s flags buf count ptr) : ¬ Missing R s flags buf count := by
  rintro ⟨i, hi, hnone⟩
  rw [h i hi] at hnone
  cases hnone

end

/-- A `write` to, or a `read` of, an open file that returns goes by the virtual addresses of its
    buffer exactly when the descriptor does not allow it, or the first page is missing, or: no page
    is, and what is moved lies in physical memory as it does in the process's. -/
theorem user_buffers {R : Rounding} {efs : EasyFileSystem} {s : IoState} {fd : Nat} {file : FileHandle} {inode : Inode}
    (ho : OpenFile s fd file inode) (buf count : Nat) :
    (∀ ret s', s.write R efs fd buf count = .ok (ret, s') →
      (ByVirtualAddress R s s' readable .load (WentToFile efs s s' file inode) buf count ret ↔
        (file.write = true → ∀ ptr, AddressSpace.translate R s.heap s.space buf readable = some ptr →
          Straight R s readable buf count ptr))) ∧
    ∀ ret s', s.read R efs fd buf count = .ok (ret, s') →
      (ByVirtualAddress R s s' writeable .store (CameFromFile efs s s' file inode count) buf count ret ↔
        (file.read = true → ∀ ptr, AddressSpace.translate R s.heap s.space buf writeable = some ptr →
          ¬ Missing R s writeable buf count ∧
          Straight R s writeable buf (min (file.offset + count) (fileSize efs s inode) - file.offset) ptr)) := by
  constructor
  · intro ret s' hw
    rcases write_ok ho hw with ⟨rfl, rfl, hnone⟩ | ⟨ptr, hwr, ht, rfl, hheap, hlog, hrun⟩
    · refine iff_of_true byVirtualAddress_refused fun hwr ptr ht => ?_
      rw [hnone hwr] at ht
      cases ht
    · constructor
      · intro h _ ptr' ht'
        rw [ht] at ht'
        cases ht'
        exact (h.straight (fun a b e => Access.load.inj e) hlog).1
      · intro h
        have hst := h hwr ptr ht
        refine hst.byVirtualAddress hst.not_missing (Nat.le_refl _) hlog ⟨hheap, ?_⟩
        rw [← bytes_eq, List.length_range']
        exact hrun
  · intro ret s' hr
    rcases read_ok ho hr with ⟨rfl, rfl, hnone⟩ |
      ⟨ptr, n, data, hrd, ht, rfl, hn, hlen, hheap, hlog, rest, hrun⟩
    · refine iff_of_true byVirtualAddress_refused fun hrd ptr ht => ?_
      rw [hnone hrd] at ht
      cases ht
    · rw [← hn]
      constructor
      · intro h _ ptr' ht'
        rw [ht] at ht'
        cases ht'
        exact (h.straight (fun a b e => Access.store.inj e) hlog).symm
      · intro h
        obtain ⟨hm, hst⟩ := h hrd ptr ht
        refine hst.byVirtualAddress hm (by omega) hlog ⟨by rw [hheap]; rfl, ?_, ?_⟩
        · intro a ha
          rw [hheap]
          exact Heap.write_outside (by rwa [hlen])
        · refine ⟨s.bytes ptr count, data, rest, ?_, ?_, ?_⟩
          · rw [IoState.bytes, List.length_map, List.length_range]
          · rw [hheap, ← hlen, map_write]
          · rw [List.length_range']
            exact hrun

/-! ## Runs -/

/-- A file of three bytes in block 1059. -/
def smallInode : DiskInode := ⟨3, fun i => if i.val = 0 then 1059 else 0, 0, 0, DiskInodeType.file.discr, 1⟩

/-- Its inode is the second of block 2. -/
def smallDisk : Store Block :=
  ⟨1200, 16, fun b => if b = 2 then DiskInode.store .ch6 (Blk.zero 512) 132 smallInode else Blk.zero 512, [], false⟩

def smallFs : EasyFileSystem := ⟨.ch6, ⟨1, 1⟩, ⟨1058, 1⟩, 2, 1059⟩

def smallHandle : Inode := ⟨2, 132⟩

theorem load_small : DiskInode.load .ch6 (smallDisk.blk 2) 132 = smallInode := by
  have hfits : smallInode.Fits .ch6 := by
    refine ⟨by decide, ?_, by decide, by decide, by decide, fun h => by cases h⟩
    intro i
    unfold DiskInode.directAt smallInode
    split
    · dsimp only
      split <;> decide
    · decide
  exact DiskInode.load_store (Blk.zero 512) (by decide) hfits

/-- The disk inside the file-system mutex. -/
def busyDisk : Store Block := { smallDisk with busy := true }

theorem small_data {bytes : List UInt8} (hb : bytes.length = 2) :
    ∃ x, (smallInode.writeAt 0 bytes).run (busyDisk.pin 2) =
      .ok (2, (busyDisk.pin 2).withBlk (Function.update smallDisk.blk 1059 x)) := by
  have hfree : (busyDisk.pin 2).Free 1059 := ⟨by simp [busyDisk, smallDisk], by decide, by decide⟩
  have htake : bytes.take 2 = bytes := by rw [List.take_of_length_le (by omega)]
  have hid : (smallInode.getBlockId (0 / 512)).run (busyDisk.pin 2) = .ok (1059, busyDisk.pin 2) := rfl
  refine ⟨Block.patch (smallDisk.blk 1059) 0 bytes, ?_⟩
  rw [DiskInode.writeAt, assert_true (by omega), ret_bind]
  dsimp only
  rw [assert_true (Nat.zero_le _), ret_bind, DiskInode.writeLoop, run_bind_of hid,
    run_bind_of (run_modifyBlock_ret _ hfree), hb]
  simp [htake, smallInode, busyDisk]

/-- Two bytes go to the front of the file. -/
theorem small_write {bytes : List UInt8} (hb : bytes.length = 2) :
    ∃ t, (Inode.writeAt smallFs smallHandle 0 bytes).run smallDisk = .ok (2, t) := by
  have hgrow : (Inode.increaseSize smallFs (asU32 (0 + bytes.length)) smallInode).run (busyDisk.pin 2) =
      .ok (smallInode, busyDisk.pin 2) := by
    rw [hb]
    rfl
  obtain ⟨x, hx⟩ := small_data hb
  have hmod : (Inode.modifyDiskInode smallFs smallHandle fun d => do
      assert (0 + bytes.length < 2 ^ 64)
      let d ← Inode.increaseSize smallFs (asU32 (0 + bytes.length)) d
      let size ← d.writeAt 0 bytes
      return (size, d)).run busyDisk = .ok (2, busyDisk.withBlk
        (Function.update (Function.update smallDisk.blk 1059 x) 2
          (DiskInode.store .ch6 (smallDisk.blk 2) 132 smallInode))) := by
    refine run_modifyBlock ⟨by simp [busyDisk, smallDisk], by decide, by decide⟩ ?_
    have hload : DiskInode.load smallFs.crate (busyDisk.blk smallHandle.blockId) smallHandle.blockOffset =
        smallInode := load_small
    have hbody : ((assert (0 + bytes.length < 2 ^ 64) >>= fun _ =>
        Inode.increaseSize smallFs (asU32 (0 + bytes.length)) smallInode >>= fun d =>
        d.writeAt 0 bytes >>= fun size => ret (size, d)) : Fs (Nat × DiskInode)).run (busyDisk.pin 2) =
        .ok ((2, smallInode), (busyDisk.pin 2).withBlk (Function.update smallDisk.blk 1059 x)) := by
      rw [assert_true (by omega), ret_bind, run_bind_of hgrow, run_bind_of hx]
      rfl
    rw [assert_true (by decide), ret_bind, hload]
    exact (run_bind_of hbody).trans rfl
  exact ⟨_, run_withMutex rfl ((run_bind_of hmod).trans rfl)⟩

/-! ### Two mapped pages -/

def consoleFile (read write : Bool) : FileHandle := ⟨none, read, write, 0⟩

def smallFile : FileHandle := ⟨some smallHandle, true, true, 0⟩

/-- The process has opened the file. -/
def smallIo (m : Machine) (p : Process) : IoState where
  heap := m.heap
  space := p.space
  fdTable := [some (consoleFile true false), some (consoleFile false true), some (consoleFile false true),
    some smallFile]
  disk := smallDisk
  input := fun _ => 0
  output := []
  log := []

theorem smallIo_open (m : Machine) (p : Process) : OpenFile (smallIo m p) 3 smallFile smallHandle :=
  ⟨by decide, rfl, rfl⟩

/-- Two bytes are written where the first can be read. -/
theorem smallIo_write {m : Machine} {p : Process} {buf ptr : Nat}
    (ht : AddressSpace.translate shift m.heap p.space buf readable = some ptr) :
    ∃ t, (smallIo m p).write shift smallFs 3 buf 2 = .ok (2, t) := by
  have hbytes : ((smallIo m p).bytes ptr 2).length = 2 := by simp [IoState.bytes]
  obtain ⟨d, hd⟩ := small_write hbytes
  exact ⟨_, (write_iff (smallIo_open m p) rfl ht).mpr ⟨by norm_num, d, hd, rfl, rfl⟩⟩

/-- Where the process's addresses lie. -/
def behind (s : Machine) (addrs : List Nat) : List (List (Option Nat)) :=
  s.procs.map fun p => addrs.map fun a => AddressSpace.translate shift s.heap p.space a readable

/-- A process with a stack of two pages maps two more, side by side. -/
theorem mapped_run : ∃ s s' p, Machine.boot bump bareHeap bareLayout 0x80020 = .ok s ∧
    Runs shift bump s [.spawn bareElf, .mmap 0 0x10000000 4096 3, .mmap 0 0x10001000 4096 3] s' ∧ s'.procs = [p] ∧
    behind s' [0x3fffffefff, 0x3ffffff000, 0x10000fff, 0x10001000] =
      [[some 0x80204fff, some 0x80205000, some 0x80208fff, some 0x8020b000]] := by
  have hrun : (Machine.boot bump bareHeap bareLayout 0x80020 >>= fun s =>
      s.step shift bump (.spawn bareElf) >>= fun s =>
      s.step shift bump (.mmap 0 0x10000000 4096 3) >>= fun s => s.step shift bump (.mmap 0 0x10001000 4096 3)).map
      (fun s => (s.procs.length, behind s [0x3fffffefff, 0x3ffffff000, 0x10000fff, 0x10001000])) =
      .ok (1, [[some 0x80204fff, some 0x80205000, some 0x80208fff, some 0x8020b000]]) := by
    rfl
  obtain ⟨s', hrun, hs'⟩ := map_eq_ok hrun
  obtain ⟨s, hboot, hrun⟩ := bind_eq_ok.mp hrun
  obtain ⟨s1, h1, hrun⟩ := bind_eq_ok.mp hrun
  obtain ⟨s2, h2, h3⟩ := bind_eq_ok.mp hrun
  obtain ⟨hlen, hsee⟩ := Prod.mk.inj hs'
  obtain ⟨p, hp⟩ := List.length_eq_one_iff.mp hlen
  exact ⟨s, s', p, hboot, .snoc (.snoc (.single h1) h2) h3, hp, hsee⟩

theorem behind_eq {s : Machine} {p : Process} {addrs : List Nat} {l : List (Option Nat)} (hp : s.procs = [p])
    (h : behind s addrs = [l]) {i a : Nat} (ha : addrs[i]? = some a) :
    l[i]? = some (AddressSpace.translate shift s.heap p.space a readable) := by
  rw [behind, hp, List.map_singleton, List.singleton_inj] at h
  rw [← h, List.getElem?_map, ha, Option.map_some]

/-- The two pages of a stack have neighbouring frames: two bytes across their border are written
    as they should be. -/
theorem user_buffers_stack : ∃ (m : Machine) (p : Process) (t : IoState), m.procs = [p] ∧
    (smallIo m p).write shift smallFs 3 0x3fffffefff 2 = .ok (2, t) ∧
    ByVirtualAddress shift (smallIo m p) t readable .load (WentToFile smallFs (smallIo m p) t smallFile smallHandle)
      0x3fffffefff 2 2 := by
  obtain ⟨-, m, p, -, -, hp, hsee⟩ := mapped_run
  have h0 := Option.some.inj (behind_eq hp hsee (i := 0) rfl)
  have h1 := Option.some.inj (behind_eq hp hsee (i := 1) rfl)
  obtain ⟨t, ht⟩ := smallIo_write h0.symm
  refine ⟨m, p, t, hp, ht, ((user_buffers (smallIo_open m p) _ _).1 _ _ ht).mpr fun _ ptr hptr i hi => ?_⟩
  have hptr : some 0x80204fff = some ptr := h0.trans hptr
  cases hptr
  obtain rfl | rfl : i = 0 ∨ i = 1 := by omega
  · exact h0.symm
  · exact h1.symm

/-- Two pages that were mapped one after the other have the frames of page tables between them:
    `write(3, 0x10000fff, 2)` returns 2, but its second byte is not that of the process. -/
theorem wrong_frame : ∃ (s m : Machine) (p : Process) (t : IoState),
    Machine.boot bump bareHeap bareLayout 0x80020 = .ok s ∧
    Runs shift bump s [.spawn bareElf, .mmap 0 0x10000000 4096 3, .mmap 0 0x10001000 4096 3] m ∧ m.procs = [p] ∧
    OpenFile (smallIo m p) 3 smallFile smallHandle ∧
    ¬ Missing shift (smallIo m p) readable 0x10000fff 2 ∧
    (smallIo m p).write shift smallFs 3 0x10000fff 2 = .ok (2, t) ∧
    ¬ ByVirtualAddress shift (smallIo m p) t readable .load (WentToFile smallFs (smallIo m p) t smallFile smallHandle)
      0x10000fff 2 2 := by
  obtain ⟨s, m, p, hboot, hrun, hp, hsee⟩ := mapped_run
  have h0 := Option.some.inj (behind_eq hp hsee (i := 2) rfl)
  have h1 := Option.some.inj (behind_eq hp hsee (i := 3) rfl)
  obtain ⟨t, ht⟩ := smallIo_write h0.symm
  refine ⟨s, m, p, t, hboot, hrun, hp, smallIo_open m p, ?_, ht, fun h => ?_⟩
  · rintro ⟨i, hi, hnone⟩
    obtain rfl | rfl : i = 0 ∨ i = 1 := by omega
    · cases h0.trans hnone
    · cases h1.trans hnone
  · rcases write_ok (smallIo_open m p) ht with ⟨hret, -⟩ | ⟨ptr, -, hptr, -, -, hlog, -⟩
    · cases hret
    · have hst := (h.straight (n := 2) (fun a b e => Access.load.inj e) hlog).1
      have hptr : some 0x80208fff = some ptr := h0.trans hptr
      cases hptr
      have h2 : some 0x8020b000 = some (0x80208fff + 1) := h1.trans (hst 1 (by decide))
      exact absurd h2 (by decide)

end TgRcore.Vm
