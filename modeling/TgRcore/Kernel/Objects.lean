/-
  TgRcore.Kernel.Objects — the calls on the mutexes, semaphores and condition variables that a
  process has.

  `Process.slots` says which entries of the lists of a process have an object.
  - `operation_ok`: a call on an object changes objects of the current process in place, and
    wakes one thread at most; nothing happens to its signals.
-/

import TgRcore.Kernel.ReadyQueue

namespace TgRcore.Kernel

open TgRcore.BlockProg TgRcore.Sync TgRcore.Task

inductive Kind where
  | mutex
  | semaphore
  | condvar
  deriving DecidableEq

/-- Which entries of the lists have an object. -/
def Process.slots (p : Process) : Kind → List Bool
  | .mutex => p.mutexList.map Option.isSome
  | .semaphore => p.semaphoreList.map Option.isSome
  | .condvar => p.condvarList.map Option.isSome

/-- The calls that take the number of an object. -/
def Operation : Syscall → Prop
  | .semaphoreUp _ | .semaphoreDown _ | .mutexLock _ | .mutexUnlock _ | .condvarSignal _ | .condvarWait _ _ => True
  | _ => False

section

variable {α : Type} {l : List (Option α)} {id : Nat} {x y : α}

/-- An object is changed in place. -/
theorem slots_set (h : l[id]? = some (some x)) : (l.set id (some y)).map Option.isSome = l.map Option.isSome := by
  apply List.ext_getElem?
  intro j
  simp only [List.getElem?_map, List.getElem?_set]
  split
  · rename_i e
    subst e
    rw [if_pos (List.getElem?_eq_some_iff.mp h).1, h]
    rfl
  · rfl

end

section

variable {tm tm' : Manager} {call : Syscall} {ret : Option Int} {proc : Process}

theorem slots_mutex {l : List (Option MutexBlocking)} (h : l.map Option.isSome = proc.mutexList.map Option.isSome) :
    Process.slots { proc with mutexList := l } = proc.slots := by
  funext k
  cases k with
  | mutex => exact h
  | semaphore => rfl
  | condvar => rfl

theorem slots_semaphore {l : List (Option Semaphore)} (h : l.map Option.isSome = proc.semaphoreList.map Option.isSome) :
    Process.slots { proc with semaphoreList := l } = proc.slots := by
  funext k
  cases k with
  | mutex => rfl
  | semaphore => exact h
  | condvar => rfl

theorem slots_condvar {l : List (Option Condvar)} (h : l.map Option.isSome = proc.condvarList.map Option.isSome) :
    Process.slots { proc with condvarList := l } = proc.slots := by
  funext k
  cases k with
  | mutex => rfl
  | semaphore => rfl
  | condvar => exact h

/-- The object is in its list, and is changed there; a thread that the call takes off a queue is
    woken. -/
theorem operation_ok (h : Manager.handle tm call = .ok (ret, tm')) (hop : Operation call) :
    ∃ pid proc proc' woken, Manager.getCurrentProc tm = .ok (pid, proc) ∧ proc'.slots = proc.slots ∧
      proc'.signal = proc.signal ∧ Manager.wake (Manager.setProc tm pid proc') woken = .ok tm' := by
  cases call with
  | semaphoreUp semId =>
    obtain ⟨r, hx, rfl⟩ := done_ok h
    obtain ⟨⟨pid, proc⟩, hproc, hx⟩ := bind_eq_ok.mp hx
    obtain ⟨sem, hsem, hx⟩ := bind_eq_ok.mp hx
    obtain ⟨⟨woken, sem'⟩, -, hx⟩ := bind_eq_ok.mp hx
    obtain ⟨tm1, hwake, hx⟩ := bind_eq_ok.mp hx
    cases hx
    exact ⟨pid, proc, _, woken, hproc, slots_semaphore (slots_set (slot_ok hsem)), rfl, hwake⟩
  | semaphoreDown semId =>
    obtain ⟨r, hx, rfl⟩ := done_ok h
    obtain ⟨⟨tid, context⟩, -, hx⟩ := bind_eq_ok.mp hx
    obtain ⟨⟨pid, proc⟩, hproc, hx⟩ := bind_eq_ok.mp hx
    obtain ⟨sem, hsem, hx⟩ := bind_eq_ok.mp hx
    obtain ⟨⟨passed, sem'⟩, -, hx⟩ := bind_eq_ok.mp hx
    cases hx
    exact ⟨pid, proc, _, none, hproc, slots_semaphore (slots_set (slot_ok hsem)), rfl, rfl⟩
  | mutexLock mutexId =>
    obtain ⟨r, hx, rfl⟩ := done_ok h
    obtain ⟨⟨tid, context⟩, -, hx⟩ := bind_eq_ok.mp hx
    obtain ⟨⟨pid, proc⟩, hproc, hx⟩ := bind_eq_ok.mp hx
    obtain ⟨mutex, hmutex, hx⟩ := bind_eq_ok.mp hx
    cases hx
    exact ⟨pid, proc, _, none, hproc, slots_mutex (slots_set (slot_ok hmutex)), rfl, rfl⟩
  | mutexUnlock mutexId =>
    obtain ⟨r, hx, rfl⟩ := done_ok h
    obtain ⟨⟨pid, proc⟩, hproc, hx⟩ := bind_eq_ok.mp hx
    obtain ⟨mutex, hmutex, hx⟩ := bind_eq_ok.mp hx
    obtain ⟨⟨woken, mutex'⟩, -, hx⟩ := bind_eq_ok.mp hx
    obtain ⟨tm1, hwake, hx⟩ := bind_eq_ok.mp hx
    cases hx
    exact ⟨pid, proc, _, woken, hproc, slots_mutex (slots_set (slot_ok hmutex)), rfl, hwake⟩
  | condvarSignal condvarId =>
    obtain ⟨r, hx, rfl⟩ := done_ok h
    obtain ⟨⟨pid, proc⟩, hproc, hx⟩ := bind_eq_ok.mp hx
    obtain ⟨condvar, hcondvar, hx⟩ := bind_eq_ok.mp hx
    obtain ⟨tm1, hwake, hx⟩ := bind_eq_ok.mp hx
    cases hx
    exact ⟨pid, proc, _, _, hproc, slots_condvar (slots_set (slot_ok hcondvar)), rfl, hwake⟩
  | condvarWait condvarId mutexId =>
    obtain ⟨r, hx, rfl⟩ := done_ok h
    obtain ⟨⟨tid, context⟩, -, hx⟩ := bind_eq_ok.mp hx
    obtain ⟨⟨pid, proc⟩, hproc, hx⟩ := bind_eq_ok.mp hx
    obtain ⟨condvar, -, hx⟩ := bind_eq_ok.mp hx
    obtain ⟨mutex, hmutex, hx⟩ := bind_eq_ok.mp hx
    obtain ⟨⟨⟨flag, wakingTid⟩, mutex'⟩, -, hx⟩ := bind_eq_ok.mp hx
    obtain ⟨tm1, hwake, hx⟩ := bind_eq_ok.mp hx
    cases hx
    exact ⟨pid, proc, _, wakingTid, hproc, slots_mutex (slots_set (slot_ok hmutex)), rfl, hwake⟩
  | _ => exact hop.elim

end

end TgRcore.Kernel
