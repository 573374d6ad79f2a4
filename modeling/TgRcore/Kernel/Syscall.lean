/-
  TgRcore.Kernel.Syscall — `handle` of tg-syscall, and the counters of chapters 3 and 4.

  `handle` sends a number to a method of one of nine traits. A trait nobody initialised makes the
  number unsupported; a method left at its default panics (`unimplemented!`).
-/

import TgRcore.Sync.Semaphore

namespace TgRcore.Syscall

open TgRcore.Sync

abbrev SyscallId := Nat

-- From syscall.h.in; the loops themselves test only these three.
abbrev SyscallId.EXIT : SyscallId := 93
abbrev SyscallId.SCHED_YIELD : SyscallId := 124
abbrev SyscallId.TRACE : SyscallId := 410

/-- The registers a0..a5. -/
structure Args where
  a0 : Nat
  a1 : Nat
  a2 : Nat
  a3 : Nat
  a4 : Nat
  a5 : Nat
  deriving DecidableEq, Repr

def Args.zero : Args := ⟨0, 0, 0, 0, 0, 0⟩

inductive Trait
  | process | io | memory | scheduling | clock | signal | thread | syncMutex | trace
  deriving DecidableEq, Repr

inductive Method
  | exit | fork | exec | wait | getpid | spawn | sbrk
  | read | write | open | close | linkat | pipe | unlinkat | fstat
  | mmap | munmap
  | schedYield | setPriority
  | clockGettime
  | kill | sigaction | sigprocmask | sigreturn
  | threadCreate | waittid | gettid
  | semaphoreCreate | semaphoreUp | semaphoreDown | mutexCreate | mutexLock | mutexUnlock
  | condvarCreate | condvarSignal | condvarWait | enableDeadlockDetect
  | trace
  deriving DecidableEq, Repr

def Method.tr : Method → Trait
  | exit | fork | exec | wait | getpid | spawn | sbrk => .process
  | read | write | .open | close | linkat | pipe | unlinkat | fstat => .io
  | mmap | munmap => .memory
  | schedYield | setPriority => .scheduling
  | clockGettime => .clock
  | kill | sigaction | sigprocmask | sigreturn => .signal
  | threadCreate | waittid | gettid => .thread
  | semaphoreCreate | semaphoreUp | semaphoreDown | mutexCreate | mutexLock | mutexUnlock
  | condvarCreate | condvarSignal | condvarWait | enableDeadlockDetect => .syncMutex
  | trace => .trace

/-- The arm of `handle` that the number takes. -/
def method : SyscallId → Option Method
  | 64 => some .write
  | 63 => some .read
  | 56 => some .open
  | 57 => some .close
  | 37 => some .linkat
  | 35 => some .unlinkat
  | 80 => some .fstat
  | 93 => some .exit
  | 220 => some .fork
  | 221 => some .exec
  | 260 => some .wait
  | 172 => some .getpid
  | 113 => some .clockGettime
  | 124 => some .schedYield
  | 215 => some .munmap
  | 222 => some .mmap
  | 129 => some .kill
  | 134 => some .sigaction
  | 135 => some .sigprocmask
  | 139 => some .sigreturn
  | 95 => some .waittid
  | 178 => some .gettid
  | 1000 => some .threadCreate
  | 1020 => some .semaphoreCreate
  | 1021 => some .semaphoreUp
  | 1022 => some .semaphoreDown
  | 1010 => some .mutexCreate
  | 1011 => some .mutexLock
  | 1012 => some .mutexUnlock
  | 1030 => some .condvarCreate
  | 1031 => some .condvarSignal
  | 1032 => some .condvarWait
  | 469 => some .enableDeadlockDetect
  | 410 => some .trace
  | 400 => some .spawn
  | 140 => some .setPriority
  | 214 => some .sbrk
  | 59 => some .pipe
  | _ => none

/-- Why the kernel panicked. -/
inductive Panic
  /-- `syscall_count[id.0]` is out of bounds. -/
  | countIndex
  /-- `syscall_count[id.0] += 1` overflows. -/
  | countOverflow
  /-- `syscall_count[id]` of a query is out of bounds. -/
  | queryIndex
  /-- A method with the default body. -/
  | unimplemented
  /-- `tcbs[i]` is out of bounds. -/
  | taskIndex
  /-- The handler of another call panicked. -/
  | handler
  deriving DecidableEq, Repr

inductive SyscallResult
  | done (ret : Int)
  | unsupported (id : SyscallId)
  deriving DecidableEq, Repr

/-- What a chapter installs: the traits it initialises, and the methods it writes itself. -/
structure SyscallContext where
  traits : List Trait
  methods : List Method

def handle (cx : SyscallContext) (call : Method → Except Panic Int) (id : SyscallId) : Except Panic SyscallResult :=
  match method id with
  | none => .ok (.unsupported id)
  | some m =>
    if m.tr ∈ cx.traits then
      if m ∈ cx.methods then (call m).map .done else .error .unimplemented
    else .ok (.unsupported id)

/-! ## The counters -/

abbrev MAX_SYSCALL_NUM : Nat := 500

/-- `syscall_count[id.0] += 1`, for counters up to `max`. -/
def count (max : Nat) (counts : List Nat) (id : SyscallId) : Except Panic (List Nat) :=
  match counts[id]? with
  | none => .error .countIndex
  | some k => if k < max then .ok (counts.set id (k + 1)) else .error .countOverflow

/-- `syscall_count[id] as isize`. -/
def query (counts : List Nat) (id : SyscallId) : Except Panic Int :=
  match counts[id]? with
  | none => .error .queryIndex
  | some k => .ok (asIsize k)

/-- The body of a handler that this model leaves open: its result, or a panic. -/
def answered : Option Int → Except Panic Int
  | some ret => .ok ret
  | none => .error .handler

/-- Requests 0 and 1 access the memory of the program. -/
def trace (counts : List Nat) (answer : Option Int) (traceRequest id : Nat) : Except Panic Int :=
  match traceRequest with
  | 0 | 1 => answered answer
  | 2 => query counts id
  | _ => .ok (-1)

/-- The methods as chapters 3 and 4 write them. -/
def serve (counts : List Nat) (args : Args) (answer : Option Int) : Method → Except Panic Int
  | .trace => trace counts answer args.a0 args.a1
  | .exit | .schedYield => .ok 0
  | _ => answered answer

/-! ## Laws -/

section

variable {max n id i : Nat} {counts counts' : List Nat} {p : Panic} {ret : Int} {answer : Option Int} {args : Args}
  {cx : SyscallContext} {m : Method} {r : SyscallResult}

theorem map_ok_iff {α β : Type} {x : Except Panic α} {f : α → β} : (∃ r, x.map f = .ok r) ↔ ∃ r, x = .ok r := by
  cases x with
  | error e => simp [Except.map]
  | ok r => simp [Except.map]

theorem count_ok_iff : count max counts id = .ok counts' ↔
    ∃ k, counts[id]? = some k ∧ k < max ∧ counts' = counts.set id (k + 1) := by
  unfold count
  cases h : counts[id]? with
  | none => simp
  | some k =>
    by_cases hk : k < max
    · simp [hk, eq_comm]
    · simp [hk]

/-- Only the counter of the number moves, and by one. -/
theorem count_get (h : count max counts id = .ok counts') (i : Nat) :
    counts'[i]? = counts[i]?.map fun k => k + if i = id then 1 else 0 := by
  obtain ⟨k, hk, -, rfl⟩ := count_ok_iff.mp h
  rw [List.getElem?_set]
  by_cases hi : id = i
  · subst hi
    obtain ⟨hlt, rfl⟩ := List.getElem?_eq_some_iff.mp hk
    simp [hlt]
  · have hne : i ≠ id := Ne.symm hi
    simp [hi, hne]

theorem count_length (h : count max counts id = .ok counts') : counts'.length = counts.length := by
  obtain ⟨k, -, -, rfl⟩ := count_ok_iff.mp h
  simp

theorem count_panics (h : count max counts id = .error p) : p = .countIndex ∨ p = .countOverflow := by
  unfold count at h
  split at h
  · exact .inl (Except.error.inj h).symm
  · split at h
    · cases h
    · exact .inr (Except.error.inj h).symm

theorem method_trace : method id = some .trace ↔ id = SyscallId.TRACE := by
  constructor
  · intro h
    unfold method at h
    split at h <;> first | rfl | cases h
  · rintro rfl
    rfl

theorem serve_trace (hreq : args.a0 = 2) : serve counts args answer .trace = query counts args.a1 := by
  simp [serve, trace, hreq]

theorem answered_panics (h : answered answer = .error p) : p = .handler ∧ answer = none := by
  cases answer with
  | none => exact ⟨(Except.error.inj h).symm, rfl⟩
  | some ret => cases h

/-- Only a query panics in a query. -/
theorem serve_panics (h : serve counts args answer m = .error p) :
    p = .handler ∧ answer = none ∨ p = .queryIndex ∧ m = .trace ∧ args.a0 = 2 ∧ counts[args.a1]? = none := by
  unfold serve at h
  split at h
  · unfold trace at h
    split at h
    · exact .inl (answered_panics h)
    · exact .inl (answered_panics h)
    · rename_i hreq
      unfold query at h
      split at h
      · rename_i hnone
        exact .inr ⟨(Except.error.inj h).symm, rfl, hreq, hnone⟩
      · cases h
    · cases h
  · cases h
  · cases h
  · exact .inl (answered_panics h)

theorem handle_panics (h : handle cx (serve counts args answer) id = .error p) :
    p = .unimplemented ∨ p = .handler ∨
      p = .queryIndex ∧ id = SyscallId.TRACE ∧ args.a0 = 2 ∧ counts[args.a1]? = none := by
  unfold handle at h
  split at h
  · cases h
  · rename_i m hm
    split at h
    · split at h
      · cases hserve : serve counts args answer m with
        | error e =>
          rw [hserve] at h
          cases h
          rcases serve_panics hserve with ⟨rfl, -⟩ | ⟨rfl, rfl, hreq⟩
          · exact .inr (.inl rfl)
          · exact .inr (.inr ⟨rfl, method_trace.mp hm, hreq⟩)
        | ok ret => rw [hserve] at h; cases h
      · exact .inl (Except.error.inj h).symm
    · cases h

theorem serve_ok_iff {a : Int} : (∃ ret, serve counts args (some a) m = .ok ret) ↔
    (m = .trace → args.a0 = 2 → args.a1 < counts.length) := by
  cases hserve : serve counts args (some a) m with
  | ok ret =>
    refine ⟨fun _ => ?_, fun _ => ⟨ret, rfl⟩⟩
    rintro rfl hreq
    by_contra hge
    have hnone := List.getElem?_eq_none (Nat.le_of_not_lt hge)
    rw [serve_trace hreq, query, hnone] at hserve
    cases hserve
  | error e =>
    refine ⟨by simp, fun hall => ?_⟩
    rcases serve_panics hserve with ⟨-, hanswer⟩ | ⟨-, rfl, hreq, hnone⟩
    · cases hanswer
    · rw [List.getElem?_eq_getElem (hall rfl hreq)] at hnone
      cases hnone

/-- Where the open handlers return, a call is dispatched if its method is written, and its counter
    is found if it queries. -/
theorem handle_ok_iff {a : Int} : (∃ r, handle cx (serve counts args (some a)) id = .ok r) ↔
    ∀ m, method id = some m → m.tr ∈ cx.traits →
      m ∈ cx.methods ∧ (m = .trace → args.a0 = 2 → args.a1 < counts.length) := by
  unfold handle
  cases hm : method id with
  | none => simp
  | some m =>
    by_cases htr : m.tr ∈ cx.traits
    · by_cases hmem : m ∈ cx.methods
      · have hserve : (∃ ret, serve counts args (some a) m = .ok ret) ↔ _ := serve_ok_iff
        cases h : serve counts args (some a) m with
        | ok ret => simpa [htr, hmem, h, Except.map] using hserve
        | error e => simpa [htr, hmem, h, Except.map] using hserve
      · simp [htr, hmem]
    · simp [htr]

end

end TgRcore.Syscall
