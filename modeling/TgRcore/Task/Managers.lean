/-
  TgRcore.Task.Managers — the stores with a ready queue of the kernels (`processor.rs`).

  Chapters 5 and 6 take the process with the smallest stride from a heap (`ProcManager`);
  chapter 7 (processes) and chapter 8 (threads) have a queue (`FifoManager`).
-/

import TgRcore.Lib.BinaryHeap
import TgRcore.Task.PManager

namespace TgRcore.Task

open TgRcore.BlockProg

/-! ## Stride scheduling -/

def bigStride : Nat := 200

structure Stride where
  priority : Nat
  stride : Nat
  deriving DecidableEq, Repr

def Stride.new : Stride := ⟨16, 0⟩

def Stride.getPass (s : Stride) : Except Halt Nat :=
  if s.priority = 0 then .error .panic else .ok (bigStride / s.priority)

/-- `stride += get_pass()`, which stops the kernel on overflow. -/
def Stride.update (s : Stride) : Except Halt Stride := do
  let pass ← s.getPass
  if s.stride + pass < 2 ^ 64 then .ok { s with stride := s.stride + pass } else .error .panic

/-- The part of a process that the scheduler reads. -/
structure Process where
  stride : Stride
  deriving DecidableEq, Repr

structure StridePair where
  id : ProcId
  stride : Stride
  deriving DecidableEq, Repr

/-- The order of `StridePair` turns the comparison of the strides around. -/
def StridePair.le (a b : StridePair) : Prop := b.stride.stride ≤ a.stride.stride

structure ProcManager (heap : BinaryHeap StridePair StridePair.le) where
  tasks : BTreeMap ProcId Process
  readyQueue : List StridePair

namespace ProcManager

variable {heap : BinaryHeap StridePair StridePair.le}

def new : ProcManager heap := ⟨.empty, []⟩

def insert (m : ProcManager heap) (id : ProcId) (task : Process) : ProcManager heap :=
  { m with tasks := m.tasks.insert id task }

def delete (m : ProcManager heap) (id : ProcId) : ProcManager heap := { m with tasks := m.tasks.remove id }

def getMut (m : ProcManager heap) (id : ProcId) : Option Process := m.tasks id

def add (m : ProcManager heap) (id : ProcId) : Except Halt (ProcManager heap) :=
  match m.tasks id with
  | none => .error .panic
  | some task => .ok { m with readyQueue := heap.push m.readyQueue ⟨id, task.stride⟩ }

def fetch (m : ProcManager heap) : Except Halt (Option ProcId × ProcManager heap) :=
  match heap.pop m.readyQueue with
  | none => .ok (none, m)
  | some (x, queue) =>
    match m.tasks x.id with
    | none => .error .panic
    | some task => do
      let stride ← task.stride.update
      .ok (some x.id, ⟨m.tasks.insert x.id { task with stride := stride }, queue⟩)

instance : Manage Process (ProcManager heap) := ⟨insert, delete, getMut⟩

instance : Schedule (ProcManager heap) := ⟨add, fetch⟩

/-- The processes in the heap. -/
def ready (m : ProcManager heap) : List ProcId := m.readyQueue.map StridePair.id

variable {m m' : ProcManager heap} {id : ProcId}

theorem add_ok (h : Schedule.add m id = .ok m') : (m.tasks id).isSome = true ∧ m'.tasks = m.tasks ∧
    m'.ready.Perm (id :: m.ready) := by
  change add m id = .ok m' at h
  unfold add at h
  split at h
  · cases h
  · rename_i task ht
    cases h
    exact ⟨by rw [ht]; rfl, rfl, heap.push_perm.map StridePair.id⟩

theorem fetch_ok {next : Option ProcId} (h : Schedule.fetch m = .ok (next, m')) :
    next = none ∧ m' = m ∧ m.ready = [] ∨
      ∃ id, next = some id ∧ (m.tasks id).isSome = true ∧ (m'.tasks id).isSome = true ∧ m.ready.Perm (id :: m'.ready) ∧
        ∀ q, (m'.tasks q).isSome = (m.tasks q).isSome := by
  change fetch m = .ok (next, m') at h
  unfold fetch at h
  split at h
  · rename_i hp
    cases h
    exact .inl ⟨rfl, rfl, by rw [ready, heap.pop_none.mp hp]; rfl⟩
  · rename_i x queue hp
    split at h
    · cases h
    · rename_i task ht
      obtain ⟨stride, -, h⟩ := bind_eq_ok.mp h
      cases h
      refine .inr ⟨x.id, rfl, by rw [ht]; rfl, by simp, (heap.pop_perm hp).map StridePair.id, ?_⟩
      intro q
      show (m.tasks.insert x.id _ q).isSome = (m.tasks q).isSome
      rw [BTreeMap.insert_apply]
      split
      · rename_i e
        rw [e, ht]
        rfl
      · rfl

instance : LawfulManager (ProcManager heap) where
  insert m k t q := m.tasks.isSome_insert k q t
  delete m k q := m.tasks.isSome_remove k q
  add h q := by
    show (ProcManager.tasks _ q).isSome = _
    rw [(add_ok h).2.1]
    rfl
  fetch h q := by
    rcases fetch_ok h with ⟨-, rfl, -⟩ | ⟨id, -, -, -, -, hq⟩
    · rfl
    · exact hq q

end ProcManager

/-! ## First in, first out -/

structure FifoManager (T : Type) where
  tasks : BTreeMap Nat T
  readyQueue : List Nat

namespace FifoManager

variable {T : Type}

def new : FifoManager T := ⟨.empty, []⟩

def insert (m : FifoManager T) (id : Nat) (task : T) : FifoManager T := { m with tasks := m.tasks.insert id task }

def delete (m : FifoManager T) (id : Nat) : FifoManager T := { m with tasks := m.tasks.remove id }

def getMut (m : FifoManager T) (id : Nat) : Option T := m.tasks id

def add (m : FifoManager T) (id : Nat) : Except Halt (FifoManager T) :=
  .ok { m with readyQueue := m.readyQueue ++ [id] }

def fetch (m : FifoManager T) : Except Halt (Option Nat × FifoManager T) :=
  .ok (m.readyQueue.head?, { m with readyQueue := m.readyQueue.tail })

instance : Manage T (FifoManager T) := ⟨insert, delete, getMut⟩

instance : Schedule (FifoManager T) := ⟨add, fetch⟩

instance : LawfulManager (FifoManager T) where
  insert m k t q := m.tasks.isSome_insert k q t
  delete m k q := m.tasks.isSome_remove k q
  add h q := by
    cases h
    rfl
  fetch h q := by
    cases h
    rfl

end FifoManager

end TgRcore.Task
