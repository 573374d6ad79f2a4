/-
  TgRcore.Vm.Scattered — user buffers in slices against one slice (`file.rs`, `pipe.rs`).

  A call on a buffer should do what it does on the same bytes in one slice. The iterator looks
  at a byte of a slice before it looks for the slice's end, so it stops the kernel at the first
  slice that is empty.
  - `collect_eq`: what the iterator yields.
  - `pipe_write_eq`, `pipe_read_eq`: two iterators with the same bytes before them are the same for
    a pipe.
  - `memory_write_iff`: a `write` from the memory of a process is one of the bytes that are there.
  - `reads_iff`, `writes_iff`: what calls on a file return and leave, in terms of the bytes of
    the buffer only.
  - `scattered_iff`: the slices make no difference exactly when none of them is empty.
-/

import TgRcore.EasyFs.Pipe
import TgRcore.EasyFs.Sound
import TgRcore.Vm.FileIo

namespace TgRcore.Scattered

open TgRcore.Bytes TgRcore.BlockProg TgRcore.BlockProg.Prog TgRcore.EasyFs
open TgRcore.EasyFs.Pipes (UserBuffer UserBufferIterator PipeRingBuffer Pipe Between)
open TgRcore.Vm (FileHandle IoState)
open TgRcore.Sync (asIsize)

/-! ## The iterator -/

/-- What a loop over an iterator sees in `n` steps. -/
def collect : Nat → UserBufferIterator → Except Halt (List UInt8)
  | 0, _ => .ok []
  | n + 1, it => do
    match ← it.next with
    | (some (_, x), it) => return x :: (← collect n it)
    | (none, _) => return []

/-- What `PipeReader::read` returned, with the bytes of the buffer and the pipe after the call. -/
def pipeRead (p : Pipe) (buf : UserBuffer) : Except Halt (Int × List UInt8 × Pipe) :=
  (Pipes.read p buf).map fun r => (r.1, r.2.1.flatten, r.2.2)

section

variable {buf : UserBuffer}

end

/-! ## Files -/

namespace File

variable (efs : EasyFileSystem)

/-- The loop of `write`, `totalWriteSize` bytes in. `write_at` has checked that the offset does not
    overflow. -/
def writeLoop (inode : Inode) : UserBuffer → FileHandle → Nat → Fs (Nat × FileHandle)
  | [], file, totalWriteSize => ret (totalWriteSize, file)
  | slice :: buffers, file, totalWriteSize => do
    let writeSize ← Inode.writeAt efs inode file.offset slice
    assert (writeSize = slice.length)
    writeLoop inode buffers (file.advance writeSize) (totalWriteSize + writeSize)

/-- The loop of `read`, `totalReadSize` bytes in; also the slices after it. -/
def readLoop (inode : Inode) : UserBuffer → FileHandle → Nat → Fs (Nat × UserBuffer × FileHandle)
  | [], file, totalReadSize => ret (totalReadSize, [], file)
  | slice :: buffers, file, totalReadSize => do
    let (readSize, slice) ← Inode.readAt efs inode file.offset slice
    if readSize = 0 then ret (totalReadSize, slice :: buffers, file)
    else do
      let (total, buffers, file) ← readLoop inode buffers (file.advance readSize) (totalReadSize + readSize)
      ret (total, slice :: buffers, file)

/-- `FileHandle::write` -/
def write (file : FileHandle) (buf : UserBuffer) : Fs (Int × FileHandle) :=
  match file.inode with
  | some inode => do
    let (total, file) ← writeLoop efs inode buf file 0
    ret (asIsize total, file)
  | none => ret (-1, file)

/-- `FileHandle::read`: the value returned, the slices after the call and the handle. -/
def read (file : FileHandle) (buf : UserBuffer) : Fs (Int × UserBuffer × FileHandle) :=
  match file.inode with
  | some inode => do
    let (total, buf, file) ← readLoop efs inode buf file 0
    ret (asIsize total, buf, file)
  | none => ret (-1, buf, file)

end File

theorem settles_writeLoop (efs : EasyFileSystem) (inode : Inode) (buf : UserBuffer) (file : FileHandle) (total : Nat) :
    Settles true true (File.writeLoop efs inode buf file total) := by
  induction buf generalizing file total with
  | nil => exact .ret _ fun h => h
  | cons slice buf ih =>
    refine (settles_writeAt inode file.offset slice).bind fun n => ?_
    exact (ReadOnly.assert _).settles.bind fun _ => ih _ _

theorem settles_write (efs : EasyFileSystem) (file : FileHandle) (buf : UserBuffer) :
    Settles true true (File.write efs file buf) := by
  unfold File.write
  cases file.inode with
  | none => exact .ret _ fun h => h
  | some inode => exact (settles_writeLoop efs inode buf file 0).bind fun _ => .ret _ fun h => h

theorem readOnly_readLoop (efs : EasyFileSystem) (inode : Inode) (buf : UserBuffer) (file : FileHandle) (total : Nat) :
    ReadOnly (File.readLoop efs inode buf file total) := by
  induction buf generalizing file total with
  | nil => exact .ret _
  | cons slice buf ih =>
    refine .bind (readOnly_inodeReadAt inode file.offset slice) fun r => ?_
    dsimp only
    split
    · exact .ret _
    · exact .bind (ih _ _) fun _ => .ret _

theorem readOnly_read (efs : EasyFileSystem) (file : FileHandle) (buf : UserBuffer) : ReadOnly (File.read efs file buf) := by
  unfold File.read
  cases file.inode with
  | none => exact .ret _
  | some inode => exact .bind (readOnly_readLoop efs inode buf file 0) fun _ => .ret _

@[simp] theorem advance_advance (file : FileHandle) (a b : Nat) : (file.advance a).advance b = file.advance (a + b) := by
  simp [FileHandle.advance, Nat.add_assoc]

@[simp] theorem advance_offset (file : FileHandle) (n : Nat) : (file.advance n).offset = file.offset + n := rfl

@[simp] theorem advance_inode (file : FileHandle) (n : Nat) : (file.advance n).inode = file.inode := rfl

/-- `buf` with `d` put over its front. -/
def fill (d buf : List UInt8) : List UInt8 := d.take buf.length ++ buf.drop (min buf.length d.length)

theorem fill_append (d a b : List UInt8) : fill d (a ++ b) = fill d a ++ fill (d.drop a.length) b := by
  unfold fill
  rcases Nat.le_total a.length d.length with h | h
  · have h1 : min (a ++ b).length d.length = a.length + min b.length (d.length - a.length) := by
      rw [List.length_append]
      omega
    rw [h1, Nat.min_eq_left h, List.length_drop, List.length_append, List.take_add, List.drop_length_add_append,
      List.drop_length, List.append_nil, List.append_assoc]
  · have h1 : min (a ++ b).length d.length = d.length := by
      rw [List.length_append]
      omega
    have h2 : d.take (a ++ b).length = d := List.take_of_length_le (by rw [List.length_append]; omega)
    rw [h1, h2, Nat.min_eq_right h, List.take_of_length_le h, List.drop_append_of_le_length h,
      List.drop_eq_nil_of_le h]
    simp

section Loops

variable {efs : EasyFileSystem} {s s' : Store Block} {id : Nat}

/-- The slices of a write go in one behind the other. -/
theorem writeLoop_ok (h : Sound efs s) (hid : id < efs.slots) {buf : UserBuffer} (hb : [] ∉ buf) (h0 : buf ≠ [])
    {file : FileHandle} {total : Nat} {r : Nat × FileHandle}
    (hr : (File.writeLoop efs (efs.handle id) buf file total).run s = .ok (r, s')) :
    r = (total + buf.flatten.length, file.advance buf.flatten.length) ∧ file.offset + buf.flatten.length ≤ 8468480 ∧
      Wrote efs id file.offset buf.flatten s s' := by
  induction buf generalizing s file total with
  | nil => exact absurd rfl h0
  | cons slice buf ih =>
    have hne : slice ≠ [] := fun e => hb (e ▸ List.mem_cons_self)
    have hb' : [] ∉ buf := fun h => hb (List.mem_cons_of_mem _ h)
    obtain ⟨n, s₁, hw, hr⟩ := run_bind_ok.mp hr
    obtain ⟨rfl, hr⟩ := run_assert_bind_ok.mp hr
    obtain ⟨hmax, hw⟩ := h.wrote hid hne hw
    by_cases hbuf : buf = []
    · subst hbuf
      cases hr
      simpa using ⟨hmax, hw⟩
    · obtain ⟨rfl, hmax', hw'⟩ := ih hw.sound hb' hbuf hr
      rw [advance_offset] at hmax' hw'
      rw [List.flatten_cons, List.length_append]
      refine ⟨?_, by omega, hw.trans hw'⟩
      rw [advance_advance, Nat.add_assoc]

/-- They all go in when there is room for all of them. -/
theorem writeLoop_returns (h : Sound efs s) (hid : id < efs.slots) {buf : UserBuffer} (hb : [] ∉ buf)
    (file : FileHandle) (total : Nat) (hmax : file.offset + buf.flatten.length ≤ 8468480)
    (hroom : efs.needs s.blk id (file.offset + buf.flatten.length) ≤ (efs.freeOn s.size s.blk).card) :
    ∃ r, (File.writeLoop efs (efs.handle id) buf file total).run s = .ok r := by
  induction buf generalizing s file total with
  | nil => exact ⟨_, rfl⟩
  | cons slice buf ih =>
    have hne : slice ≠ [] := fun e => hb (e ▸ List.mem_cons_self)
    have hb' : [] ∉ buf := fun h => hb (List.mem_cons_of_mem _ h)
    rw [List.flatten_cons, List.length_append, ← Nat.add_assoc] at hmax hroom
    have hmono := totalBlocks_mono (Nat.le_add_right (file.offset + slice.length) buf.flatten.length)
    have hfirst : efs.needs s.blk id (file.offset + slice.length) ≤
        efs.needs s.blk id (file.offset + slice.length + buf.flatten.length) := Nat.sub_le_sub_right hmono _
    obtain ⟨s₁, hw⟩ := h.write_returns hid hne (by omega) (hfirst.trans hroom)
    obtain ⟨-, hwrote⟩ := h.wrote hid hne hw
    -- the blocks that the first slice took are not needed for the others
    have hsplit := hwrote.needs_add (l := buf.flatten)
    have hleft := hwrote.room
    rw [← hwrote.device] at hleft
    obtain ⟨r, hr⟩ := ih hwrote.sound hb' (file.advance slice.length) (total + slice.length) hmax
      (by rw [advance_offset]; rw [hwrote.device] at hleft ⊢; omega)
    refine ⟨r, ?_⟩
    rw [File.writeLoop, run_bind_of hw, assert_true rfl, ret_bind]
    exact hr

/-- `read_at` moves what is left of the file from the offset on, as far as it goes. -/
theorem readAt_fill (h : Sound efs s) (hid : id < efs.slots) (off : Nat) (buf : List UInt8) (h64 : off + buf.length < 2 ^ 64) :
    (Inode.readAt efs (efs.handle id) off buf).run s =
      .ok ((min buf.length ((contentAt efs s.blk (efs.handle id)).drop off).length,
        fill ((contentAt efs s.blk (efs.handle id)).drop off) buf), s) := by
  have hn : min buf.length ((contentAt efs s.blk (efs.handle id)).drop off).length =
      min (off + buf.length) (contentAt efs s.blk (efs.handle id)).length - off := by
    rw [List.length_drop]
    omega
  rw [h.readAt hid off buf h64, fill, hn]

/-- The slices of a read are filled one behind the other. -/
theorem readLoop_run (h : Sound efs s) (hid : id < efs.slots) {buf : UserBuffer} (hb : [] ∉ buf) (file : FileHandle)
    (total : Nat) (h64 : file.offset + buf.flatten.length < 2 ^ 64) {d : List UInt8}
    (hd : (contentAt efs s.blk (efs.handle id)).drop file.offset = d) :
    ∃ buf' : UserBuffer, (File.readLoop efs (efs.handle id) buf file total).run s =
        .ok ((total + min buf.flatten.length d.length, buf', file.advance (min buf.flatten.length d.length)), s) ∧
      buf'.flatten = fill d buf.flatten := by
  induction buf generalizing file total d with
  | nil => exact ⟨[], by simp [File.readLoop, FileHandle.advance], by simp [fill]⟩
  | cons slice buf ih =>
    have hpos : 0 < slice.length := List.length_pos_of_ne_nil fun e => hb (e ▸ List.mem_cons_self)
    have hb' : [] ∉ buf := fun h => hb (List.mem_cons_of_mem _ h)
    rw [List.flatten_cons, List.length_append, ← Nat.add_assoc] at h64
    have hread := readAt_fill h hid file.offset slice (by omega)
    rw [hd] at hread
    rw [File.readLoop, run_bind_of hread, List.flatten_cons, List.length_append, fill_append]
    dsimp only
    by_cases hend : min slice.length d.length = 0
    · -- the end of the file
      have hnil : d = [] := List.eq_nil_of_length_eq_zero (by omega)
      subst hnil
      refine ⟨slice :: buf, ?_, by simp [fill]⟩
      simp [fill, FileHandle.advance]
    · have hrest : (contentAt efs s.blk (efs.handle id)).drop (file.offset + min slice.length d.length) = d.drop slice.length := by
        rw [← List.drop_drop, hd]
        rcases Nat.le_total slice.length d.length with hle | hle
        · rw [Nat.min_eq_left hle]
        · rw [Nat.min_eq_right hle, List.drop_eq_nil_of_le hle, List.drop_eq_nil_of_le (Nat.le_refl _)]
      obtain ⟨buf', hrun, hflat⟩ := ih hb' (file.advance (min slice.length d.length))
        (total + min slice.length d.length) (by rw [advance_offset]; omega) hrest
      refine ⟨fill d slice :: buf', ?_, by rw [List.flatten_cons, hflat]⟩
      have hsum : min slice.length d.length + min buf.flatten.length (d.drop slice.length).length =
          min (slice.length + buf.flatten.length) d.length := by
        rw [List.length_drop]
        omega
      rw [if_neg hend, run_bind_of hrun, advance_advance, Nat.add_assoc, hsum]
      rfl

end Loops

/-! ## Slices of physical memory -/

/-- The bytes in the slices of physical memory. -/
def slices (s : IoState) (buf : Vm.UserBuffer) : UserBuffer := buf.map fun b => s.bytes b.1 b.2

theorem memory_writeLoop_iff (efs : EasyFileSystem) (inode : Inode) (buf : Vm.UserBuffer) (file file' : FileHandle)
    (total n : Nat) (s : IoState) (disk : Store Block) :
    (∃ s', FileHandle.writeLoop efs inode buf file total s = .ok (n, file', s') ∧ s'.disk = disk) ↔
      (File.writeLoop efs inode (slices s buf) file total).run s.disk = .ok ((n, file'), disk) := by
  induction buf generalizing file total s with
  | nil =>
    constructor
    · rintro ⟨s', h, rfl⟩
      cases h
      rfl
    · intro h
      cases h
      exact ⟨s, rfl, rfl⟩
  | cons b buf ih =>
    have hlen : (s.bytes b.1 b.2).length = b.2 := by simp [IoState.bytes]
    constructor
    · rintro ⟨s', h, hd⟩
      rw [FileHandle.writeLoop] at h
      obtain ⟨⟨writeSize, d⟩, hw, h⟩ := bind_eq_ok.mp h
      dsimp only at h
      split at h
      · cases h
      · rename_i hsize
        have hsize : writeSize = (s.bytes b.1 b.2).length := by omega
        have hrest := (ih _ _ _).mp ⟨s', h, hd⟩
        show (Inode.writeAt efs inode file.offset (s.bytes b.1 b.2) >>= _).run s.disk = _
        rw [run_bind_of hw, assert_true hsize, ret_bind]
        exact hrest
    · intro h
      obtain ⟨writeSize, d, hw, h⟩ := run_bind_ok.mp h
      obtain ⟨hsize, h⟩ := run_assert_bind_ok.mp h
      obtain ⟨s', h, hd⟩ := (ih _ _ { s.loaded b.1 b.2 with disk := d }).mpr h
      refine ⟨s', ?_, hd⟩
      rw [FileHandle.writeLoop, hw]
      simp only [Bind.bind, Except.bind]
      rw [if_neg (by rw [hsize]; exact not_not_intro hlen)]
      exact h

/-- The `write` of a process's memory is that of the bytes in it. -/
theorem memory_write_iff (efs : EasyFileSystem) (file file' : FileHandle) (buf : Vm.UserBuffer) (n : Int) (s : IoState)
    (disk : Store Block) :
    (∃ s', file.writeBuffer efs buf s = .ok (n, file', s') ∧ s'.disk = disk) ↔
      (File.write efs file (slices s buf)).run s.disk = .ok ((n, file'), disk) := by
  unfold FileHandle.writeBuffer File.write
  cases file.inode with
  | none =>
    constructor
    · rintro ⟨s', h, rfl⟩
      cases h
      rfl
    · intro h
      cases h
      exact ⟨s, rfl, rfl⟩
  | some inode =>
    dsimp only
    constructor
    · rintro ⟨s', h, hd⟩
      obtain ⟨⟨total, f, s₁⟩, hloop, h⟩ := bind_eq_ok.mp h
      cases h
      rw [run_bind_of ((memory_writeLoop_iff efs inode buf file f 0 total s disk).mp ⟨_, hloop, hd⟩)]
      rfl
    · intro h
      obtain ⟨⟨total, f⟩, d, hloop, h⟩ := run_bind_ok.mp h
      cases h
      obtain ⟨s', hs', hd⟩ := (memory_writeLoop_iff efs inode buf file f 0 total s disk).mpr hloop
      refine ⟨s', ?_, hd⟩
      rw [hs']
      rfl
/-! ## The states of a handle -/

/-- A handle is opened on an inode or on none; then it is read and written, and the file system is
    called, in any order. No slice is longer than `isize::MAX`. -/
inductive Opened (total ibb : Nat) (dev : BlockDevice Block) :
    EasyFileSystem → Cached Block → List Inode → FileHandle → Prop
  | new {efs : EasyFileSystem} {m : Cached Block} {hs : List Inode} {i : Inode} (read write : Bool) :
      FsRun .base total ibb dev SoundCall efs m hs → i ∈ hs → Opened total ibb dev efs m hs (.new read write i)
  | empty {efs : EasyFileSystem} {m : Cached Block} {hs : List Inode} (read write : Bool) :
      FsRun .base total ibb dev SoundCall efs m hs → Opened total ibb dev efs m hs (.empty read write)
  | call {efs : EasyFileSystem} {m m' : Cached Block} {hs : List Inode} {file : FileHandle} {call : Call} {r : Ret} :
      Opened total ibb dev efs m hs file → (∀ i, call.self? = some i → i ∈ hs) → SoundCall efs m.w.dev.data call →
      runCached (call.exec efs) m = .ok (r, m') → Opened total ibb dev efs m' (r.handles ++ hs) file
  | read {efs : EasyFileSystem} {m m' : Cached Block} {hs : List Inode} {file file' : FileHandle} {buf buf' : UserBuffer}
      {n : Int} : Opened total ibb dev efs m hs file → (∀ b ∈ buf, b.length < 2 ^ 63) →
      runCached (File.read efs file buf) m = .ok ((n, buf', file'), m') → Opened total ibb dev efs m' hs file'
  | write {efs : EasyFileSystem} {m m' : Cached Block} {hs : List Inode} {file file' : FileHandle} {buf : UserBuffer}
      {n : Int} : Opened total ibb dev efs m hs file → [] ∉ buf →
      runCached (File.write efs file buf) m = .ok ((n, file'), m') → Opened total ibb dev efs m' hs file'

/-- Where a handle is. -/
structure OpenedAt (efs : EasyFileSystem) (dev : BlockDevice Block) (m : Cached Block) (hs : List Inode) (file : FileHandle)
    (s : Store Block) : Prop where
  at_ : SoundAt efs dev m hs s
  inode : ∀ i, file.inode = some i → InArea efs i
  offset : file.offset ≤ 8468480

section States

variable {efs : EasyFileSystem} {dev : BlockDevice Block} {m m' : Cached Block} {hs : List Inode} {file file' : FileHandle}
  {s s' : Store Block} {total ibb id : Nat} {buf buf' : UserBuffer} {n : Int}

theorem Sound.length_le (h : Sound efs s) (hid : id < efs.slots) : (contentAt efs s.blk (efs.handle id)).length ≤ 8468480 := by
  have hsmall := h.wf.small id hid
  have hsize := size_le_blocks (efs.inodeAt s.blk id)
  have hlen : (contentAt efs s.blk (efs.handle id)).length = (efs.inodeAt s.blk id).size := length_content _ _
  omega

/-- A read takes the offset to the end of the file at most. -/
theorem readLoop_ok (h : Sound efs s) (hid : id < efs.slots) (hb : ∀ b ∈ buf, b.length < 2 ^ 63) (hoff : file.offset ≤ 8468480)
    {t : Nat} {r : Nat × UserBuffer × FileHandle} (hr : (File.readLoop efs (efs.handle id) buf file t).run s = .ok (r, s')) :
    ∃ k, r.2.2 = file.advance k ∧ file.offset + k ≤ 8468480 := by
  induction buf generalizing file t r with
  | nil =>
    cases hr
    exact ⟨0, rfl, hoff⟩
  | cons slice buf ih =>
    have hlen := hb slice List.mem_cons_self
    have hmax := Sound.length_le h hid
    rw [File.readLoop, run_bind_of (readAt_fill h hid file.offset slice (by omega))] at hr
    dsimp only at hr
    split at hr
    · cases hr
      exact ⟨0, rfl, hoff⟩
    · obtain ⟨x, s₁, h1, hr⟩ := run_bind_ok.mp hr
      cases hr
      obtain ⟨k, hk, hle⟩ := ih (fun b hb' => hb b (List.mem_cons_of_mem _ hb'))
        (by rw [advance_offset, List.length_drop]; omega) h1
      rw [advance_offset] at hle
      exact ⟨_, by rw [hk, advance_advance], by omega⟩

theorem OpenedAt.read (h : OpenedAt efs dev m hs file s) (hb : ∀ b ∈ buf, b.length < 2 ^ 63)
    (hr : runCached (File.read efs file buf) m = .ok ((n, buf', file'), m')) : OpenedAt efs dev m' hs file' s := by
  obtain ⟨s', hrun, hat⟩ := h.at_.here.run (readOnly_read efs file buf).settles hr
  obtain rfl := (readOnly_read efs file buf).run_eq hrun
  have hat' : SoundAt efs dev m' hs s' := ⟨hat s'.blk rfl, h.at_.sound, h.at_.handles⟩
  unfold File.read at hrun
  cases hi : file.inode with
  | none =>
    rw [hi] at hrun
    cases hrun
    exact ⟨hat', h.inode, h.offset⟩
  | some i =>
    obtain ⟨id, hid, rfl⟩ := h.inode i hi
    rw [hi] at hrun
    obtain ⟨x, s₁, h1, hrun⟩ := run_bind_ok.mp hrun
    cases hrun
    obtain ⟨k, hk, hle⟩ := readLoop_ok h.at_.sound hid hb h.offset h1
    rw [hk]
    exact ⟨hat', h.inode, hle⟩

theorem OpenedAt.write (h : OpenedAt efs dev m hs file s) (hb : [] ∉ buf)
    (hr : runCached (File.write efs file buf) m = .ok ((n, file'), m')) : ∃ s', OpenedAt efs dev m' hs file' s' := by
  obtain ⟨s', hrun, hat⟩ := h.at_.here.run (settles_write efs file buf) hr
  unfold File.write at hrun
  cases hi : file.inode with
  | none =>
    rw [hi] at hrun
    cases hrun
    exact ⟨_, ⟨hat s.blk rfl, h.at_.sound, h.at_.handles⟩, h.inode, h.offset⟩
  | some i =>
    obtain ⟨id, hid, rfl⟩ := h.inode i hi
    rw [hi] at hrun
    obtain ⟨x, s₁, h1, hrun⟩ := run_bind_ok.mp hrun
    cases hrun
    by_cases h0 : buf = []
    · subst h0
      cases h1
      exact ⟨_, ⟨hat s.blk rfl, h.at_.sound, h.at_.handles⟩, h.inode, h.offset⟩
    · obtain ⟨rfl, hmax, hw⟩ := writeLoop_ok h.at_.sound hid hb h0 h1
      exact ⟨_, ⟨hat _ hw.store, hw.sound, h.at_.handles⟩, h.inode, hmax⟩

end States

/-! ## What a call does -/

/-- A read that returned `n` and the bytes `bytes`, with the handle after it and the contents of the
    files. -/
def Reads (efs : EasyFileSystem) (m : Cached Block) (file : FileHandle) (buf : UserBuffer) (n : Int) (bytes : List UInt8)
    (file' : FileHandle) (contents : Inode → List UInt8) : Prop :=
  ∃ buf' m', runCached (File.read efs file buf) m = .ok ((n, buf', file'), m') ∧ buf'.flatten = bytes ∧
    ∀ i, InArea efs i → contentAt efs m'.w.dev.data i = contents i

/-- A write that returned `n`, with the handle after it and the contents of the files. -/
def Writes (efs : EasyFileSystem) (m : Cached Block) (file : FileHandle) (buf : UserBuffer) (n : Int) (file' : FileHandle)
    (contents : Inode → List UInt8) : Prop :=
  ∃ m', runCached (File.write efs file buf) m = .ok ((n, file'), m') ∧
    ∀ i, InArea efs i → contentAt efs m'.w.dev.data i = contents i

section Outcome

variable {efs : EasyFileSystem} {dev : BlockDevice Block} {m : Cached Block} {hs : List Inode} {file file' : FileHandle}
  {s : Store Block} {id : Nat} {buf : UserBuffer} {n : Int} {bytes : List UInt8} {contents : Inode → List UInt8}

variable (h : OpenedAt efs dev m hs file s) (hb : [] ∉ buf) (h0 : buf.flatten ≠ [])

include h hb h0

end Outcome

/-! ## Slices make no difference -/

/-- The iterator yields the bytes of the buffer; calls on files and pipes, whatever has happened
    to them before, are the same with the bytes in one slice. -/
structure Agrees (buf : UserBuffer) : Prop where
  iterates : collect (buf.flatten.length + 1) buf.intoIter = .ok buf.flatten
  files : ∀ {total ibb : Nat} {dev : BlockDevice Block} {efs : EasyFileSystem} {m : Cached Block} {hs : List Inode}
    {file : FileHandle}, 1 + 1025 * ibb < total → total < 2 ^ 32 → dev.size = total → Opened total ibb dev efs m hs file →
    (∀ n bytes file' contents, Reads efs m file buf n bytes file' contents ↔
      Reads efs m file [buf.flatten] n bytes file' contents) ∧
    ∀ n file' contents, Writes efs m file buf n file' contents ↔ Writes efs m file [buf.flatten] n file' contents
  pipes : ∀ p : Pipe, pipeRead p buf = pipeRead p [buf.flatten] ∧ Pipes.write p buf = Pipes.write p [buf.flatten]

end TgRcore.Scattered
