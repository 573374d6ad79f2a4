/-
  TgRcore.EasyFs.Pipe — pipes (`pipe.rs`, with `UserBuffer` of `file.rs`).

  The ring buffer keeps `head`, `tail` and a status that tells a full buffer from an empty
  one; `queue` is the byte string it stands for.
  - `write_spec`, `read_spec`: a call moves bytes between the user's buffer and the end or
    the front of `queue`, and returns the count or code for what it found.
  - `pipe_fifo`: over every run, the bytes read are a prefix of the bytes written, at most
    32 bytes behind, and every call returns what it should.
-/

import Mathlib.Data.List.GetD
import TgRcore.Lib.BlockProg
import TgRcore.Lib.Exec

namespace TgRcore.EasyFs.Pipes

open TgRcore.BlockProg

/-! ## User buffers -/

/-- The slices of a user's buffer, in order. -/
abbrev UserBuffer := List (List UInt8)

namespace UserBuffer

def len (buffers : UserBuffer) : Nat := buffers.foldl (fun total b => total + b.length) 0

/-- Store through the pointer to byte `i` of slice `b`. -/
def put (buffers : UserBuffer) (p : Nat × Nat) (x : UInt8) : UserBuffer := buffers.modify p.1 fun s => s.set p.2 x

end UserBuffer

structure UserBufferIterator where
  buffers : UserBuffer
  currentBuffer : Nat
  currentIdx : Nat

def UserBuffer.intoIter (buffers : UserBuffer) : UserBufferIterator := ⟨buffers, 0, 0⟩

/-- The next pointer (slice and index). Indexing an empty slice panics. -/
def UserBufferIterator.next (it : UserBufferIterator) : Except Halt (Option ((Nat × Nat) × UInt8) × UserBufferIterator) :=
  match it.buffers[it.currentBuffer]? with
  | none => .ok (none, it)
  | some b =>
    match b[it.currentIdx]? with
    | none => .error .panic
    | some x =>
      let p := (it.currentBuffer, it.currentIdx)
      if it.currentIdx + 1 = b.length then
        .ok (some (p, x), { it with currentIdx := 0, currentBuffer := it.currentBuffer + 1 })
      else .ok (some (p, x), { it with currentIdx := it.currentIdx + 1 })

/-! ## The ring buffer -/

abbrev ringBufferSize : Nat := 32

inductive RingBufferStatus where
  | full
  | empty
  | normal
  deriving DecidableEq, Repr

/-- `writeEnd`: the weak reference to the write end has been set. -/
structure PipeRingBuffer where
  arr : Nat → UInt8
  head : Nat
  tail : Nat
  status : RingBufferStatus
  writeEnd : Bool

namespace PipeRingBuffer

def new : PipeRingBuffer := ⟨fun _ => 0, 0, 0, .empty, false⟩

def setWriteEnd (r : PipeRingBuffer) : PipeRingBuffer := { r with writeEnd := true }

def writeByte (r : PipeRingBuffer) (byte : UInt8) : PipeRingBuffer :=
  let tail := (r.tail + 1) % ringBufferSize
  { r with
    arr := Function.update r.arr r.tail byte
    tail := tail
    status := if tail = r.head then .full else .normal }

def readByte (r : PipeRingBuffer) : UInt8 × PipeRingBuffer :=
  let head := (r.head + 1) % ringBufferSize
  (r.arr r.head, { r with head := head, status := if head = r.tail then .empty else .normal })

def availableRead (r : PipeRingBuffer) : Nat :=
  if r.status = .empty then 0
  else if r.head < r.tail then r.tail - r.head
  else r.tail + ringBufferSize - r.head

def availableWrite (r : PipeRingBuffer) : Nat :=
  if r.status = .full then 0 else ringBufferSize - r.availableRead

/-- `writers` is the number of references to the write end. -/
def allWriteEndsClosed (r : PipeRingBuffer) (writers : Nat) : Except Halt Bool :=
  if r.writeEnd then .ok (writers == 0) else .error .panic

end PipeRingBuffer

/-! ## The ends -/

/-- A pipe: the shared buffer and the references to the write end. -/
structure Pipe where
  buffer : PipeRingBuffer
  writers : Nat

/-- `for _ in 0..n`, with `alreadyRead` bytes read. -/
def readLoop (wantToRead : Nat) : Nat → UserBufferIterator → PipeRingBuffer → Nat →
    Except Halt (Nat × UserBuffer × PipeRingBuffer)
  | 0, it, r, alreadyRead => .ok (alreadyRead, it.buffers, r)
  | n + 1, it, r, alreadyRead => do
    match ← it.next with
    | (some (p, _), it) =>
      let (x, r) := r.readByte
      let it := { it with buffers := UserBuffer.put it.buffers p x }
      if alreadyRead + 1 = wantToRead then .ok (wantToRead, it.buffers, r)
      else readLoop wantToRead n it r (alreadyRead + 1)
    | (none, it) => .ok (alreadyRead, it.buffers, r)

/-- `PipeReader::read`: the value returned and the user's buffer after the call. -/
def read (p : Pipe) (buf : UserBuffer) : Except Halt (Int × UserBuffer × Pipe) := do
  let loopRead := p.buffer.availableRead
  if loopRead = 0 then
    if ← p.buffer.allWriteEndsClosed p.writers then .ok (0, buf, p) else .ok (-2, buf, p)
  else
    let (n, buf, r) ← readLoop buf.len loopRead buf.intoIter p.buffer 0
    .ok (n, buf, { p with buffer := r })

/-- `for _ in 0..n`, with `alreadyWrite` bytes written. -/
def writeLoop (wantToWrite : Nat) : Nat → UserBufferIterator → PipeRingBuffer → Nat → Except Halt (Nat × PipeRingBuffer)
  | 0, _, r, alreadyWrite => .ok (alreadyWrite, r)
  | n + 1, it, r, alreadyWrite => do
    match ← it.next with
    | (some (_, x), it) =>
      let r := r.writeByte x
      if alreadyWrite + 1 = wantToWrite then .ok (wantToWrite, r)
      else writeLoop wantToWrite n it r (alreadyWrite + 1)
    | (none, _) => .ok (alreadyWrite, r)

/-- `PipeWriter::write` -/
def write (p : Pipe) (buf : UserBuffer) : Except Halt (Int × Pipe) := do
  let loopWrite := p.buffer.availableWrite
  if loopWrite = 0 then .ok (-2, p)
  else
    let (n, r) ← writeLoop buf.len loopWrite buf.intoIter p.buffer 0
    .ok (n, { p with buffer := r })

def makePipe : Pipe := ⟨PipeRingBuffer.new.setWriteEnd, 1⟩

/-! ## The byte string in the ring buffer -/

/-- The bytes from `head` on, in the order in which they are read. -/
def PipeRingBuffer.queue (r : PipeRingBuffer) : List UInt8 :=
  (List.range r.availableRead).map fun i => r.arr ((r.head + i) % 32)

/-- `head = tail` is told apart by the status. -/
structure RingOk (r : PipeRingBuffer) : Prop where
  head : r.head < 32
  tail : r.tail < 32
  status : r.head = r.tail ↔ r.status ≠ .normal
  writeEnd : r.writeEnd = true

section Ring

variable {r : PipeRingBuffer}

@[simp] theorem length_queue (r : PipeRingBuffer) : r.queue.length = r.availableRead := by
  simp [PipeRingBuffer.queue]

theorem availableRead_cases (h : RingOk r) :
    (r.status = .empty ∧ r.availableRead = 0 ∧ r.head = r.tail) ∨ (r.status = .full ∧ r.availableRead = 32 ∧ r.head = r.tail) ∨
      (r.status = .normal ∧ 0 < r.availableRead ∧ r.availableRead < 32 ∧ r.tail = (r.head + r.availableRead) % 32) := by
  have h1 := h.head
  have h2 := h.tail
  have h3 := h.status
  unfold PipeRingBuffer.availableRead ringBufferSize
  cases hs : r.status with
  | empty =>
    have : r.head = r.tail := h3.mpr (by simp [hs])
    simp [this]
  | full =>
    have : r.head = r.tail := h3.mpr (by simp [hs])
    simp [this]
  | normal =>
    have hne : r.head ≠ r.tail := fun e => h3.mp e hs
    right
    right
    simp only [reduceCtorEq, if_false]
    split
    · refine ⟨trivial, ?_, ?_, ?_⟩ <;> omega
    · refine ⟨trivial, ?_, ?_, ?_⟩ <;> omega

theorem availableRead_le (h : RingOk r) : r.availableRead ≤ 32 := by
  rcases availableRead_cases h with ⟨-, h1, -⟩ | ⟨-, h1, -⟩ | ⟨-, -, h1, -⟩ <;> omega

theorem availableWrite_eq (h : RingOk r) : r.availableWrite = 32 - r.availableRead := by
  unfold PipeRingBuffer.availableWrite ringBufferSize
  rcases availableRead_cases h with ⟨h1, -⟩ | ⟨h1, h2, -⟩ | ⟨h1, -⟩
  · simp [h1]
  · simp [h1, h2]
  · simp [h1]

theorem tail_eq (h : RingOk r) : r.tail = (r.head + r.availableRead) % 32 := by
  have := h.head
  rcases availableRead_cases h with ⟨-, h1, h2⟩ | ⟨-, h1, h2⟩ | ⟨-, -, -, h1⟩
  · omega
  · omega
  · exact h1

theorem writeByte_availableRead (h : RingOk r) (hlt : r.availableRead < 32) (x : UInt8) :
    (r.writeByte x).availableRead = r.availableRead + 1 := by
  have h1 := h.head
  have h2 := tail_eq h
  unfold PipeRingBuffer.writeByte
  simp only [ringBufferSize]
  generalize hn : r.availableRead = n at *
  unfold PipeRingBuffer.availableRead ringBufferSize
  dsimp only
  by_cases hf : (r.tail + 1) % 32 = r.head
  · simp only [hf, if_true, reduceCtorEq, if_false, Nat.lt_irrefl]
    omega
  · simp only [hf, reduceCtorEq, if_false]
    split <;> omega

/-- A byte written goes to the end. -/
theorem writeByte_spec (h : RingOk r) (hlt : r.availableRead < 32) (x : UInt8) :
    RingOk (r.writeByte x) ∧ (r.writeByte x).queue = r.queue ++ [x] := by
  have h1 := h.head
  have h2 := tail_eq h
  refine ⟨⟨h1, Nat.mod_lt _ (by decide), ?_, h.writeEnd⟩, ?_⟩
  · unfold PipeRingBuffer.writeByte
    simp only [ringBufferSize]
    by_cases e : (r.tail + 1) % 32 = r.head
    · simp [e]
    · rw [if_neg e]
      simpa using fun e' => e e'.symm
  · rw [PipeRingBuffer.queue, writeByte_availableRead h hlt, List.range_succ, List.map_append, List.map_singleton]
    congr 1
    · refine List.map_congr_left ?_
      intro i hi
      have := List.mem_range.mp hi
      show Function.update r.arr r.tail x ((r.head + i) % 32) = _
      rw [Function.update_of_ne (by omega)]
    · show [Function.update r.arr r.tail x ((r.head + r.availableRead) % 32)] = [x]
      rw [← h2, Function.update_self]

/-- A byte is read from the front. -/
theorem readByte_spec (h : RingOk r) (hpos : 0 < r.availableRead) :
    RingOk r.readByte.2 ∧ r.queue = r.readByte.1 :: r.readByte.2.queue := by
  have h1 := h.head
  have h2 := h.tail
  have h3 := tail_eq h
  have hle := availableRead_le h
  have hav : r.readByte.2.availableRead + 1 = r.availableRead := by
    unfold PipeRingBuffer.readByte
    simp only [ringBufferSize]
    generalize hn : r.availableRead = n at *
    unfold PipeRingBuffer.availableRead ringBufferSize
    dsimp only
    by_cases he : (r.head + 1) % 32 = r.tail
    · simp only [he, if_true]
      omega
    · simp only [he, reduceCtorEq, if_false]
      split <;> omega
  refine ⟨⟨Nat.mod_lt _ (by decide), h2, ?_, h.writeEnd⟩, ?_⟩
  · unfold PipeRingBuffer.readByte
    simp only [ringBufferSize]
    by_cases e : (r.head + 1) % 32 = r.tail
    · simp [e]
    · rw [if_neg e]
      simpa using e
  · rw [PipeRingBuffer.queue, ← hav, List.range_succ_eq_map, List.map_cons, List.map_map, PipeRingBuffer.queue]
    congr 1
    · show r.arr ((r.head + 0) % 32) = r.arr r.head
      rw [Nat.add_zero, Nat.mod_eq_of_lt h1]
    · refine List.map_congr_left ?_
      intro i _
      show r.arr ((r.head + (i + 1)) % 32) = r.arr (((r.head + 1) % 32 + i) % 32)
      congr 1
      omega

end Ring

/-! ## The iterator -/

/-- `it` has passed the bytes `done` and has `rest` before it. -/
inductive Between : UserBufferIterator → List UInt8 → List UInt8 → Prop
  | mid (pre : UserBuffer) (a : List UInt8) (x : UInt8) (c : List UInt8) (post : UserBuffer) : (∀ b ∈ post, b ≠ []) →
      Between ⟨pre ++ (a ++ x :: c) :: post, pre.length, a.length⟩ (pre.flatten ++ a) (x :: (c ++ post.flatten))
  | fin (pre : UserBuffer) : Between ⟨pre, pre.length, 0⟩ pre.flatten []

/-- At the start of a slice. -/
theorem Between.slice {post : UserBuffer} (h : ∀ b ∈ post, b ≠ []) (pre : UserBuffer) :
    Between ⟨pre ++ post, pre.length, 0⟩ pre.flatten post.flatten := by
  rcases post with _ | ⟨b, post⟩
  · rw [List.append_nil]
    exact .fin pre
  · rcases b with _ | ⟨x, c⟩
    · exact absurd rfl (h [] List.mem_cons_self)
    · have := Between.mid pre [] x c post fun b hb => h b (List.mem_cons_of_mem _ hb)
      simpa using this

theorem Between.start {buf : UserBuffer} (h : ∀ b ∈ buf, b ≠ []) : Between buf.intoIter [] buf.flatten :=
  Between.slice h []

theorem Between.flatten_eq {it : UserBufferIterator} {dn rs : List UInt8} (h : Between it dn rs) :
    it.buffers.flatten = dn ++ rs := by
  cases h <;> simp

theorem Between.next_nil {it : UserBufferIterator} {dn : List UInt8} (h : Between it dn []) : it.next = .ok (none, it) := by
  cases h with
  | fin pre => simp [UserBufferIterator.next]

theorem Between.next_cons {it : UserBufferIterator} {dn rs : List UInt8} {x : UInt8} (h : Between it dn (x :: rs)) :
    ∃ p it', it.next = .ok (some (p, x), it') ∧ Between it' (dn ++ [x]) rs ∧
      ∀ y, Between { it' with buffers := UserBuffer.put it'.buffers p y } (dn ++ [y]) rs := by
  cases h with
  | mid pre a x c post hp =>
    -- the slice with `y` in the place of `x`
    have hput : ∀ y, UserBuffer.put (pre ++ (a ++ x :: c) :: post) (pre.length, a.length) y = pre ++ (a ++ y :: c) :: post := by
      intro y
      simp [UserBuffer.put, List.modify_eq_take_cons_drop]
    rcases c with _ | ⟨z, c⟩
    · refine ⟨(pre.length, a.length), ⟨pre ++ (a ++ [x]) :: post, pre.length + 1, 0⟩, ?_, ?_, ?_⟩
      · simp [UserBufferIterator.next]
      · have := Between.slice hp (pre ++ [a ++ [x]])
        simpa using this
      · intro y
        have := Between.slice hp (pre ++ [a ++ [y]])
        simpa [hput] using this
    · refine ⟨(pre.length, a.length), ⟨pre ++ (a ++ x :: z :: c) :: post, pre.length, a.length + 1⟩, ?_, ?_, ?_⟩
      · simp [UserBufferIterator.next]
      · have := Between.mid pre (a ++ [x]) z c post hp
        simpa using this
      · intro y
        have := Between.mid pre (a ++ [y]) z c post hp
        simpa [hput] using this

/-! ## The calls -/

theorem len_eq (buf : UserBuffer) : UserBuffer.len buf = buf.flatten.length := by
  have h : ∀ (buf : UserBuffer) (n : Nat), buf.foldl (fun total b => total + b.length) n = n + buf.flatten.length := by
    intro buf
    induction buf with
    | nil => simp
    | cons b buf ih =>
      intro n
      rw [List.foldl_cons, ih, List.flatten_cons, List.length_append]
      omega
  rw [UserBuffer.len, h, Nat.zero_add]

theorem writeLoop_spec {want : Nat} : ∀ (n : Nat) {it : UserBufferIterator} {dn rs : List UInt8} {r : PipeRingBuffer} {k : Nat},
    RingOk r → Between it dn rs → n + r.queue.length ≤ 32 → k + rs.length = want →
    ∃ r', writeLoop want n it r k = .ok (k + min n rs.length, r') ∧ RingOk r' ∧ r'.queue = r.queue ++ rs.take n := by
  intro n
  induction n with
  | zero =>
    intro it dn rs r k hr _ _ _
    exact ⟨r, by simp [writeLoop], hr, by simp⟩
  | succ n ih =>
    intro it dn rs r k hr hb hn hk
    rcases rs with _ | ⟨x, rs⟩
    · refine ⟨r, ?_, hr, by simp⟩
      rw [writeLoop, hb.next_nil]
      rfl
    · obtain ⟨p, it', hnext, hb', -⟩ := hb.next_cons
      rw [length_queue] at hn
      obtain ⟨hr', hq⟩ := writeByte_spec hr (by omega) x
      rw [List.length_cons] at hk
      rw [writeLoop, hnext]
      simp only [Except.bind, bind]
      by_cases hw : k + 1 = want
      · -- the user's buffer ends here
        have hnil : rs = [] := List.eq_nil_of_length_eq_zero (by omega)
        subst hnil
        refine ⟨r.writeByte x, ?_, hr', by simp [hq]⟩
        rw [if_pos hw, ← hw, List.length_singleton, Nat.min_eq_right (by omega)]
      · obtain ⟨r', h1, h2, h3⟩ := ih (k := k + 1) hr' hb' (by rw [hq, List.length_append, length_queue, List.length_singleton]; omega)
          (by omega)
        refine ⟨r', ?_, h2, by rw [h3, hq, List.append_assoc]; rfl⟩
        rw [if_neg hw, h1, List.length_cons, Nat.succ_min_succ]
        congr 2
        omega

theorem readLoop_spec {want : Nat} : ∀ (n : Nat) {it : UserBufferIterator} {dn rs : List UInt8} {r : PipeRingBuffer} {k : Nat},
    RingOk r → Between it dn rs → n ≤ r.queue.length → k + rs.length = want →
    ∃ buf r', readLoop want n it r k = .ok (k + min n rs.length, buf, r') ∧ RingOk r' ∧
      r'.queue = r.queue.drop (min n rs.length) ∧
      buf.flatten = dn ++ r.queue.take (min n rs.length) ++ rs.drop (min n rs.length) := by
  intro n
  induction n with
  | zero =>
    intro it dn rs r k hr hb _ _
    exact ⟨it.buffers, r, by simp [readLoop], hr, by simp, by simp [hb.flatten_eq]⟩
  | succ n ih =>
    intro it dn rs r k hr hb hn hk
    rcases rs with _ | ⟨x, rs⟩
    · refine ⟨it.buffers, r, ?_, hr, by simp, by simp [hb.flatten_eq]⟩
      rw [readLoop, hb.next_nil]
      rfl
    · obtain ⟨p, it', hnext, -, hput⟩ := hb.next_cons
      rw [length_queue] at hn
      obtain ⟨hr', hq⟩ := readByte_spec hr (by omega)
      have hb' := hput r.readByte.1
      have hlen : r.queue.length = r.readByte.2.queue.length + 1 := by rw [hq, List.length_cons]
      rw [length_queue] at hlen
      rw [List.length_cons] at hk
      rw [readLoop, hnext]
      simp only [Except.bind, bind]
      rw [List.length_cons, Nat.succ_min_succ]
      by_cases hw : k + 1 = want
      · have hnil : rs = [] := List.eq_nil_of_length_eq_zero (by omega)
        subst hnil
        refine ⟨UserBuffer.put it'.buffers p r.readByte.1, r.readByte.2, ?_, hr', ?_, ?_⟩
        · rw [if_pos hw, ← hw, List.length_nil, Nat.min_zero]
        · rw [hq]
          simp
        · rw [hb'.flatten_eq, hq]
          simp
      · obtain ⟨buf, r', h1, h2, h3, h4⟩ := ih (k := k + 1) hr' hb' (by omega) (by omega)
        refine ⟨buf, r', ?_, h2, ?_, ?_⟩
        · rw [if_neg hw, h1]
          congr 2
          omega
        · rw [h3, hq, List.drop_succ_cons]
        · rw [h4, hq, List.take_succ_cons, List.drop_succ_cons]
          simp

/-- A write into a buffer that is not full takes what fits. -/
theorem write_spec {p : Pipe} (h : RingOk p.buffer) {buf : UserBuffer} (hb : ∀ b ∈ buf, b ≠ []) :
    (p.buffer.queue.length = 32 ∧ write p buf = .ok (-2, p)) ∨
    (p.buffer.queue.length < 32 ∧ ∃ r', RingOk r' ∧
      r'.queue = p.buffer.queue ++ buf.flatten.take (32 - p.buffer.queue.length) ∧
      write p buf = .ok (((min (UserBuffer.len buf) (32 - p.buffer.queue.length) : Nat) : Int), { p with buffer := r' })) := by
  have hle := availableRead_le h
  have hw := availableWrite_eq h
  unfold write
  rw [hw, length_queue]
  by_cases hf : p.buffer.availableRead = 32
  · left
    refine ⟨hf, ?_⟩
    rw [if_pos (by omega)]
  · right
    refine ⟨by omega, ?_⟩
    obtain ⟨r', h1, h2, h3⟩ := writeLoop_spec (32 - p.buffer.availableRead) (k := 0) h (Between.start hb)
      (by rw [length_queue]; omega) rfl
    refine ⟨r', h2, h3, ?_⟩
    rw [if_neg (by omega)]
    rw [Nat.zero_add, ← len_eq] at h1
    rw [h1, Nat.zero_add, Nat.min_comm]
    rfl

/-- A read takes what there is, or says whether more can come. -/
theorem read_spec {p : Pipe} (h : RingOk p.buffer) {buf : UserBuffer} (hb : ∀ b ∈ buf, b ≠ []) :
    (p.buffer.queue = [] ∧ read p buf = .ok (if p.writers = 0 then 0 else -2, buf, p)) ∨
    (p.buffer.queue ≠ [] ∧ ∃ buf' r', RingOk r' ∧
      r'.queue = p.buffer.queue.drop (min (UserBuffer.len buf) p.buffer.queue.length) ∧
      buf'.flatten.take (min (UserBuffer.len buf) p.buffer.queue.length) =
        p.buffer.queue.take (min (UserBuffer.len buf) p.buffer.queue.length) ∧
      read p buf = .ok (((min (UserBuffer.len buf) p.buffer.queue.length : Nat) : Int), buf', { p with buffer := r' })) := by
  unfold read
  by_cases he : p.buffer.availableRead = 0
  · left
    refine ⟨List.eq_nil_of_length_eq_zero (by rw [length_queue]; exact he), ?_⟩
    rw [if_pos he, PipeRingBuffer.allWriteEndsClosed, if_pos h.writeEnd]
    by_cases hz : p.writers = 0
    · simp [hz, bind, Except.bind]
    · simp [hz, bind, Except.bind]
  · right
    refine ⟨fun e => he (by rw [← length_queue, e]; rfl), ?_⟩
    obtain ⟨buf', r', h1, h2, h3, h4⟩ := readLoop_spec p.buffer.availableRead (k := 0) h (Between.start hb)
      (by rw [length_queue]) rfl
    rw [Nat.zero_add, ← len_eq, Nat.min_comm] at h1
    rw [← len_eq, Nat.min_comm] at h3 h4
    rw [length_queue]
    refine ⟨buf', r', h2, h3, ?_, ?_⟩
    · rw [h4, List.nil_append, List.take_append_of_le_length, List.take_take, Nat.min_self]
      rw [List.length_take, length_queue]
      omega
    · rw [if_neg he, h1, Nat.zero_add]
      rfl

/-! ## Runs -/

/-- What the holders of the ends can do; a call with the value it returned. -/
inductive Event where
  | write (buf : UserBuffer) (ret : Int)
  | read (buf buf' : UserBuffer) (ret : Int)
  | cloneWriter
  | dropWriter

inductive Step : Pipe → Event → Pipe → Prop
  | write {p p' : Pipe} {buf : UserBuffer} {ret : Int} : 0 < p.writers → (∀ b ∈ buf, b ≠ []) →
      write p buf = .ok (ret, p') → Step p (.write buf ret) p'
  | read {p p' : Pipe} {buf buf' : UserBuffer} {ret : Int} : (∀ b ∈ buf, b ≠ []) →
      read p buf = .ok (ret, buf', p') → Step p (.read buf buf' ret) p'
  | cloneWriter {p : Pipe} : 0 < p.writers → Step p .cloneWriter { p with writers := p.writers + 1 }
  | dropWriter {p : Pipe} : 0 < p.writers → Step p .dropWriter { p with writers := p.writers - 1 }

/-- The bytes taken by writes. -/
def accepted (es : List Event) : List UInt8 :=
  es.flatMap fun
    | .write buf ret => buf.flatten.take ret.toNat
    | _ => []

/-- The bytes put into the buffers of readers. -/
def delivered (es : List Event) : List UInt8 :=
  es.flatMap fun
    | .read _ buf' ret => buf'.flatten.take ret.toNat
    | _ => []

/-- What has been accepted is delivered or in the buffer. -/
structure PipeInv (es : List Event) (p : Pipe) : Prop where
  ring : RingOk p.buffer
  bytes : accepted es = delivered es ++ p.buffer.queue

theorem pipeInv_makePipe : PipeInv [] makePipe := by
  refine ⟨⟨by decide, by decide, by simp [makePipe, PipeRingBuffer.new, PipeRingBuffer.setWriteEnd], rfl⟩, ?_⟩
  simp [accepted, delivered, makePipe, PipeRingBuffer.new, PipeRingBuffer.setWriteEnd, PipeRingBuffer.queue,
    PipeRingBuffer.availableRead]

theorem PipeInv.step {es : List Event} {p p' : Pipe} {e : Event} (h : PipeInv es p) (hs : Step p e p') :
    PipeInv (es ++ [e]) p' := by
  have hb := h.bytes
  cases hs with
  | write _ hne hw =>
    rcases write_spec h.ring hne with ⟨-, h1⟩ | ⟨hlt, r', hr', hq, h1⟩
    · rw [h1] at hw
      cases hw
      exact ⟨h.ring, by simpa [accepted, delivered] using hb⟩
    · rw [h1] at hw
      cases hw
      refine ⟨hr', ?_⟩
      rw [accepted, delivered, List.flatMap_append, List.flatMap_append, ← accepted, ← delivered, hb, hq]
      simp only [List.flatMap_cons, List.flatMap_nil, List.append_nil, Int.toNat_natCast, List.append_assoc]
      congr 2
      rw [len_eq, Nat.min_comm, ← List.take_eq_take_min]
  | read hne hw =>
    rcases read_spec h.ring hne with ⟨hq, h1⟩ | ⟨-, buf', r', hr', hq, ht, h1⟩
    · rw [h1] at hw
      cases hw
      refine ⟨h.ring, ?_⟩
      rw [accepted, delivered, List.flatMap_append, List.flatMap_append, ← accepted, ← delivered, hb]
      split <;> simp
    · rw [h1] at hw
      cases hw
      refine ⟨hr', ?_⟩
      rw [accepted, delivered, List.flatMap_append, List.flatMap_append, ← accepted, ← delivered, hb, hq]
      simp only [List.flatMap_cons, List.flatMap_nil, List.append_nil, Int.toNat_natCast, ht, List.append_assoc,
        List.take_append_drop]
  | cloneWriter => exact ⟨h.ring, by simpa [accepted, delivered] using hb⟩
  | dropWriter => exact ⟨h.ring, by simpa [accepted, delivered] using hb⟩

theorem pipe_fifo {es : List Event} {p : Pipe} (h : Exec Step makePipe es p) :
    delivered es <+: accepted es ∧ (accepted es).length ≤ (delivered es).length + 32 ∧
      (∀ buf : UserBuffer, (∀ b ∈ buf, b ≠ []) → ∃ ret p', write p buf = .ok (ret, p') ∧
        (ret = -2 ↔ (accepted es).length - (delivered es).length = 32) ∧
        ((accepted es).length - (delivered es).length ≠ 32 →
          ret = ((min (UserBuffer.len buf) (32 - ((accepted es).length - (delivered es).length)) : Nat) : Int))) ∧
      (∀ buf : UserBuffer, (∀ b ∈ buf, b ≠ []) → ∃ ret buf' p', read p buf = .ok (ret, buf', p') ∧
        (0 < (accepted es).length - (delivered es).length →
          ret = ((min (UserBuffer.len buf) ((accepted es).length - (delivered es).length) : Nat) : Int)) ∧
        ((accepted es).length - (delivered es).length = 0 → (ret = 0 ↔ p.writers = 0) ∧ (ret = -2 ↔ 0 < p.writers))) := by
  have hi : PipeInv es p := h.inv pipeInv_makePipe PipeInv.step
  have hlen : (accepted es).length = (delivered es).length + p.buffer.queue.length := by rw [hi.bytes, List.length_append]
  have hout : (accepted es).length - (delivered es).length = p.buffer.queue.length := by omega
  have hle := availableRead_le hi.ring
  rw [← length_queue] at hle
  rw [hout]
  refine ⟨⟨p.buffer.queue, hi.bytes.symm⟩, by omega, ?_, ?_⟩
  · intro buf hb
    rcases write_spec hi.ring hb with ⟨hf, h1⟩ | ⟨hlt, r', -, -, h1⟩
    · exact ⟨-2, p, h1, by simp [hf], fun hne => absurd hf hne⟩
    · refine ⟨_, _, h1, ⟨fun e => ?_, fun e => ?_⟩, fun _ => rfl⟩ <;> omega
  · intro buf hb
    rcases read_spec hi.ring hb with ⟨hq, h1⟩ | ⟨hq, buf', r', -, -, -, h1⟩
    · refine ⟨_, _, _, h1, fun hpos => ?_, fun _ => ?_⟩
      · rw [hq] at hpos
        cases hpos
      · by_cases hz : p.writers = 0
        · simp [hz]
        · simp [hz, Nat.pos_of_ne_zero hz]
    · refine ⟨_, _, _, h1, fun _ => rfl, fun hz => ?_⟩
      exact absurd (List.eq_nil_of_length_eq_zero hz) hq

/-- Three bytes are written in two slices and two of them read back: a byte is left. -/
theorem pipe_fifo_three : ∃ p, Exec Step makePipe [.write [[1, 2], [3]] 3, .read [[0, 0]] [[1, 2]] 2] p ∧
    ∃ ret buf' p', read p [[0, 0, 0]] = .ok (ret, buf', p') ∧ ret = 1 := by
  have h1 : Exec Step makePipe [.write [[1, 2], [3]] 3] _ := .single (.write (by decide) (by decide) rfl)
  have h2 := h1.snoc (Step.read (show ∀ b ∈ [[0, 0]], b ≠ [] by decide) rfl)
  obtain ⟨-, -, -, hread⟩ := pipe_fifo h2
  obtain ⟨ret, buf', p', hr, hpos, -⟩ := hread [[0, 0, 0]] (by decide)
  exact ⟨_, h2, ret, buf', p', hr, hpos (by decide)⟩

end TgRcore.EasyFs.Pipes
