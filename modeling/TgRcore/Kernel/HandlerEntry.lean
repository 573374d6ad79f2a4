/-
  TgRcore.Kernel.HandlerEntry — how a handler of chapter 7 begins.

  `handle_signals` puts the number of the signal into `a0`; the loop then writes the result of
  the system call there. Both write through the reference that `find_next` gave, which `fork`
  leaves behind when the insertion of the child moves the entry of its parent in the table.
  - `TableStep`: the steps of the loop with that in view.
  - `Waits`: nobody changes the context of a process that waits for its turn.
  - `handler_entry_iff`: a handler begins with the number of its signal in `a0` iff that was also
    the result of the call, and the entry was not moved.
-/

import TgRcore.Kernel.Interrupted

namespace TgRcore.Kernel.ProcessLoop

open TgRcore.BlockProg TgRcore.Task

/-! ## The place of a process in the table -/

/-- The context of a process in the table. -/
def putBack (pm : Processor) (pid : ProcId) (context : LocalContext) : Processor :=
  { pm with manager := { pm.manager with tasks := pm.manager.tasks.adjust pid fun proc => { proc with context := context } } }

/-- A step, and whether the call in it has moved the entry of the current process. If so, what
    `handle_signals` and the loop write to the context goes to where the entry was. The state of
    the signals is in a `Box`, to which both places lead. -/
inductive TableStep : State → Event × Bool → State → Prop
  | core {s t : State} {e : Event} : Step s e t → TableStep s (e, false) t
  | moved {s t : State} {pid child : ProcId} {proc : Process} {ret : Option Int} {result : SignalResult} :
      s.phase = .signals (.fork child) ret → getCurrent s.pm = .ok (pid, proc) → (s.tasks.remove child).Crowded →
      Step s (.signals pid result) t →
      TableStep s (.signals pid result, true) { t with pm := putBack t.pm pid proc.context }

/-! ## A process that waits for its turn -/

/-- Process `p`, if it lives, is not the current one and has the context. -/
structure Waits (s : State) (p : ProcId) (context : LocalContext) : Prop where
  used : p ∈ s.used
  other : s.pm.current ≠ some p
  kept : ∀ {proc}, s.tasks p = some proc → proc.context = context

section

variable {s t : State} {e : Event} {x : Event × Bool} {es : List (Event × Bool)} {p : ProcId} {proc : Process}
  {context : LocalContext} {k : SignalNo} {action : SignalAction} {result : SignalResult} {call : Syscall}
  {ret : Option Int} {moved : Bool}

theorem Waits.step (h : Waits s p context) (hs : Step s e t) (hno : e ≠ .dispatch p) : Waits t p context := by
  refine ⟨hs.used_mono h.used, ?_, fun {proc} hp => ?_⟩
  · cases hs with
    | boot => cases h.used
    | dispatch hph hf hc =>
      rw [hc]
      intro e
      cases e
      exact hno rfl
    | syscall hph hc hfresh hcall =>
      obtain ⟨proc, hcur⟩ := current_task (.syscall hph hc hfresh hcall)
      have hother := h.other
      rwa [← (syscall_did hcur hcall).2] at hother
    | signals hph hc hsig =>
      obtain ⟨proc, hcur⟩ := signals_task (.signals hph hc hsig)
      obtain ⟨-, -, -, hnone, -⟩ := signals_did hcur hsig
      rw [hnone]
      exact fun e => by cases e
    | fault hph hc hexit =>
      rw [(exited_tasks hc hexit).2]
      exact fun e => by cases e
  · have hmine : ∀ {regs call ret}, e ≠ .syscall p regs call ret := by
      rintro regs call ret rfl
      cases hs with
      | syscall _ hc => exact h.other hc
    cases hs.became hp with
    | boot =>
      cases hs with
      | boot => cases h.used
    | still hq | kill hq =>
      have hkept := h.kept hq
      exact hkept
    | fork =>
      cases hs with
      | syscall _ _ hfresh => exact absurd h.used hfresh.1
    | signals =>
      cases hs with
      | signals _ hc => exact absurd hc h.other
    | trap | exec | sigaction | sigprocmask | sigreturn | killSelf => exact absurd rfl hmine

theorem TableStep.used_mono (h : TableStep s x t) (hused : p ∈ s.used) : p ∈ t.used := by
  cases h with
  | core hs => exact hs.used_mono hused
  | moved _ _ _ hs => exact hs.used_mono hused

/-- A process id that was given away names no second process. -/
theorem TableStep.gone (h : TableStep s x t) (hused : p ∈ s.used) (hnone : s.tasks p = none) : t.tasks p = none := by
  cases h with
  | core hs => exact hs.gone hused hnone
  | @moved t pid _ proc _ _ _ _ _ hs =>
    have hgone := hs.gone hused hnone
    show t.tasks.adjust pid _ p = none
    rw [BTreeMap.adjust_apply, hgone, Option.map_none, ite_self]

theorem Waits.table (h : Waits s p context) (hs : TableStep s x t) (hno : x.1 ≠ .dispatch p) : Waits t p context := by
  cases hs with
  | core hs => exact h.step hs hno
  | @moved t pid _ proc _ _ _ hcur _ hs =>
    have hwaits := h.step hs hno
    have hne : p ≠ pid := by
      intro e
      rw [e] at h
      exact h.other (getCurrent_ok.mp hcur).1
    refine ⟨hwaits.used, hwaits.other, fun {q} hq => hwaits.kept ?_⟩
    change t.tasks.adjust pid _ p = some q at hq
    rw [BTreeMap.adjust_apply, if_neg hne] at hq
    exact hq

theorem Waits.run (h : Waits s p context) (hs : Exec TableStep s es t) (hno : ∀ y ∈ es, y.1 ≠ .dispatch p) :
    Waits t p context := by
  induction hs with
  | nil => exact h
  | snoc _ hs ih =>
    have hwaits := ih fun y hy => hno y (List.mem_append_left _ hy)
    exact hwaits.table hs (hno _ (List.mem_append_right _ (List.mem_singleton_self _)))

theorem gone_run (hs : Exec TableStep s es t) (hused : p ∈ s.used) (hnone : s.tasks p = none) :
    p ∈ t.used ∧ t.tasks p = none := by
  induction hs with
  | nil => exact ⟨hused, hnone⟩
  | snoc _ hs ih => exact ⟨hs.used_mono ih.1, hs.gone ih.1 ih.2⟩

/-! ## The first instruction of a handler -/

/-- The trap is to take the signal, which has a handler. -/
structure Caught (signal : SignalImpl) (k : SignalNo) (action : SignalAction) : Prop where
  free : signal.handling = none
  first : First signal k
  catchable : k ≠ SignalNo.SIGKILL ∧ k ≠ SignalNo.SIGSTOP
  installed : signal.actions[k.val]? = some (some action)

/-- The process is at the start of its handler for the signal, and has the other registers of the
    program. -/
def AtHandler (s : State) (p : ProcId) (program : LocalContext) (k : SignalNo) (action : SignalAction) : Prop :=
  ∃ proc, s.tasks p = some proc ∧ proc.context.sepc = action.handler ∧ proc.context.x 10 = k.val ∧
    ∀ n, n ≠ 10 → proc.context.x n = program.x n

theorem Caught.handled {signal signal' : SignalImpl} {ctx ctx' : LocalContext} (h : Caught signal k action)
    (hs : signal.handleSignals ctx = .ok (result, signal', ctx')) :
    result = .handled ∧ ctx' = { ctx with sepc := action.handler }.setA 0 k := by
  rw [handle_first h.free h.first] at hs
  unfold SignalImpl.deliver at hs
  rw [if_neg h.catchable.1, if_neg h.catchable.2, h.installed] at hs
  cases hs
  exact ⟨rfl, rfl⟩

/-- What the process waits with after the trap, if it comes back from its call. -/
theorem Caught.waits (h : Caught proc.signal k action) (hs : Step s (.signals p result) t)
    (hcur : getCurrent s.pm = .ok (p, proc)) (hph : s.phase = .signals call ret) (hexit : ∀ code, call ≠ .exit code)
    (hused : p ∈ s.used) : (∃ r, ret = some r ∧
      Waits t p (setRet ({ proc.context with sepc := action.handler }.setA 0 k) r)) ∨ ret = none ∧ t.tasks p = none := by
  have hnone : t.pm.current = none := by
    cases hs with
    | signals _ _ hsig =>
      obtain ⟨-, -, -, hnone, -⟩ := signals_did hcur hsig
      exact hnone
  have hmono := hs.used_mono hused
  obtain ⟨proc', call', ret', signal, context, hcur', hph', hh, hor⟩ := signals_step hs
  rw [hcur] at hcur'
  cases hcur'
  rw [hph] at hph'
  cases hph'
  obtain ⟨rfl, rfl⟩ := h.handled hh
  rcases hor with ⟨hl, ht⟩ | ⟨-, r, rfl, ht, -⟩
  · rcases hl with ⟨code, e⟩ | e | ⟨code, e⟩
    · cases e
    · exact .inr ⟨e, by rw [ht, BTreeMap.remove_apply, if_pos rfl]⟩
    · exact absurd e (hexit code)
  · refine .inl ⟨r, rfl, hmono, fun e => ?_, fun {q} hq => ?_⟩
    · rw [hnone] at e
      cases e
    rw [ht, BTreeMap.insert_apply, if_pos rfl] at hq
    cases hq
    rfl

/-- The same, with a parent whose entry was moved: its context is that of the program. -/
theorem Caught.table (h : Caught proc.signal k action) (hs : TableStep s (.signals p result, moved) t)
    (hcur : getCurrent s.pm = .ok (p, proc)) (hph : s.phase = .signals call ret) (hexit : ∀ code, call ≠ .exit code)
    (hused : p ∈ s.used) : (∃ r, ret = some r ∧ moved = false ∧
      Waits t p (setRet ({ proc.context with sepc := action.handler }.setA 0 k) r)) ∨
      (moved = true ∧ Waits t p proc.context) ∨ t.tasks p = none := by
  cases hs with
  | core hs =>
    rcases h.waits hs hcur hph hexit hused with ⟨r, hr, hwaits⟩ | ⟨-, hgone⟩
    · exact .inl ⟨r, hr, rfl, hwaits⟩
    · exact .inr (.inr hgone)
  | @moved t _ _ _ _ _ _ hcur' _ hs =>
    rw [hcur] at hcur'
    cases hcur'
    rcases h.waits hs hcur hph hexit hused with ⟨r, -, hwaits⟩ | ⟨-, hgone⟩
    · refine .inr (.inl ⟨rfl, hwaits.used, hwaits.other, fun {q} hq => ?_⟩)
      change t.tasks.adjust p _ p = some q at hq
      rw [BTreeMap.adjust_apply, if_pos rfl] at hq
      obtain ⟨q', -, rfl⟩ := Option.map_eq_some_iff.mp hq
      rfl
    · refine .inr (.inr ?_)
      show t.tasks.adjust p _ p = none
      rw [BTreeMap.adjust_apply, if_pos rfl, hgone]
      rfl

theorem setRet_entry (program : LocalContext) (r : Int) : (setRet (program.setA 0 k) r).sepc = program.sepc ∧
    (∀ n, n ≠ 10 → (setRet (program.setA 0 k) r).x n = program.x n) ∧
    ((setRet (program.setA 0 k) r).x 10 = k.val ↔ r % 2 ^ 64 = k.val) := by
  refine ⟨rfl, fun n hn => ?_, ?_⟩
  · unfold setRet LocalContext.setA LocalContext.setX
    dsimp only
    rw [if_neg hn, if_neg hn]
  · show (r % 2 ^ 64).toNat = k.val ↔ _
    omega

end

/-- The process that a dispatch finds is one that was there. -/
theorem dispatched {s t : State} {p : ProcId} (h : TableStep s (.dispatch p, false) t) :
    ∃ q, s.tasks p = some q ∧ t.tasks p = some q := by
  cases h with
  | core h =>
    cases h with
    | dispatch _ hf hc =>
      obtain ⟨hm, hq⟩ := dispatch_did hf hc
      exact ⟨_, hq, (congrFun hm p).trans hq⟩

/-- From any state: a trap of process `p` that is of no `exit` takes a signal with a handler. When
    the process runs next it is at the handler, with the number of the signal in `a0` and the other
    registers of the program, iff its entry was not moved and the result of the call is that
    number, or it was moved and the program is there already. -/
theorem handler_entry_iff {s t : State} {es : List (Event × Bool)} {moved : Bool} {p : ProcId} {proc : Process}
    {call : Syscall} {ret : Option Int} {result : SignalResult} {k : SignalNo} {action : SignalAction}
    (h : Exec TableStep s ((.signals p result, moved) :: (es ++ [(.dispatch p, false)])) t) (hused : p ∈ s.used)
    (hcur : getCurrent s.pm = .ok (p, proc)) (hph : s.phase = .signals call ret) (hexit : ∀ code, call ≠ .exit code)
    (hcaught : Caught proc.signal k action) (hnext : ∀ y ∈ es, y.1 ≠ .dispatch p) :
    AtHandler t p proc.context k action ↔
      (moved = false ∧ ∃ r, ret = some r ∧ r % 2 ^ 64 = k.val) ∨
      (moved = true ∧ proc.context.sepc = action.handler ∧ proc.context.x 10 = k.val) := by
  obtain ⟨s1, hs, hrest⟩ := Exec.uncons h
  obtain ⟨u, hmid, hlast⟩ := Exec.split hrest
  obtain ⟨v, hdispatch, hend⟩ := Exec.uncons hlast
  cases Exec.eq_of_nil hend
  obtain ⟨q, hq, hsame⟩ := dispatched hdispatch
  have hat : ∀ {context}, Waits s1 p context → (AtHandler t p proc.context k action ↔
      context.sepc = action.handler ∧ context.x 10 = k.val ∧ ∀ n, n ≠ 10 → context.x n = proc.context.x n) := by
    intro context hwaits
    have hcontext := (hwaits.run hmid hnext).kept hq
    rw [← hcontext]
    constructor
    · intro ⟨q', hq', hentry⟩
      rw [hsame] at hq'
      cases hq'
      exact hentry
    · intro hentry
      exact ⟨q, hsame, hentry⟩
  rcases hcaught.table hs hcur hph hexit hused with ⟨r, rfl, rfl, hwaits⟩ | ⟨rfl, hwaits⟩ | hgone
  · obtain ⟨hpc, hregs, ha0⟩ := setRet_entry (k := k) { proc.context with sepc := action.handler } r
    rw [hat hwaits]
    constructor
    · intro ⟨_, h10, _⟩
      exact .inl ⟨rfl, r, rfl, ha0.mp h10⟩
    · rintro (⟨-, r', e, hr⟩ | ⟨e, -⟩)
      · cases e
        exact ⟨hpc, ha0.mpr hr, hregs⟩
      · cases e
  · rw [hat hwaits]
    constructor
    · intro ⟨hpc, h10, _⟩
      exact .inr ⟨rfl, hpc, h10⟩
    · rintro (⟨e, -⟩ | ⟨-, hpc, h10⟩)
      · cases e
      · exact ⟨hpc, h10, fun n _ => rfl⟩
  · -- the process has ended
    have hnone := (gone_run hmid (hs.used_mono hused) hgone).2
    rw [hq] at hnone
    cases hnone

/-- Process 0, with a handler for signal 10 at 4096, has its call answered with 10 when process 1 has
    sent it the signal. -/
theorem handler_entry_ten : ∃ (s t : State) (es : List (Event × Bool)) (proc : Process), (∃ es', Exec TableStep State.new es' s) ∧
    Exec TableStep s ((.signals 0 .handled, false) :: (es ++ [(.dispatch 0, false)])) t ∧
    AtHandler t 0 proc.context 10 ⟨4096, 0⟩ := by
  have h1 : Exec TableStep State.new _ _ := .single (.core (@Step.boot (.user 0) _ rfl))
  -- process 0 installs the handler
  have h2 := h1.snoc (.core (@Step.dispatch _ 0 _ _ rfl rfl rfl))
  have h3 := h2.snoc (.core (@Step.syscall _ 0 (.user 0) (.sigaction 10 (some (some ⟨4096, 0⟩)) none) _ _ rfl rfl trivial rfl))
  have h4 := h3.snoc (.core (@Step.signals _ 0 _ _ _ _ rfl rfl rfl))
  -- it forks
  have h5 := h4.snoc (.core (@Step.dispatch _ 0 _ _ rfl rfl rfl))
  have h6 := h5.snoc (.core (@Step.syscall _ 0 (.user 4) (.fork 1) _ _ rfl rfl (by decide) rfl))
  have h7 := h6.snoc (.core (@Step.signals _ 0 _ _ _ _ rfl rfl rfl))
  -- process 1 sends the signal
  have h8 := h7.snoc (.core (@Step.dispatch _ 1 _ _ rfl rfl rfl))
  have h9 := h8.snoc (.core (@Step.syscall _ 1 (.user 8) (.kill 0 10) _ _ rfl rfl trivial rfl))
  have h10 := h9.snoc (.core (@Step.signals _ 1 _ _ _ _ rfl rfl rfl))
  -- the call of process 0
  have h11 := h10.snoc (.core (@Step.dispatch _ 0 _ _ rfl rfl rfl))
  have h12 := h11.snoc (.core (@Step.syscall _ 0 (.user 8) (.other 10) _ _ rfl rfl trivial rfl))
  have h13 := h12.next (.core (@Step.signals _ 0 _ _ _ _ rfl rfl rfl))
  -- process 1 comes first
  have k1 := (h12.append h13).next (.core (@Step.dispatch _ 1 _ _ rfl rfl rfl))
  have k2 := k1.snoc (.core (@Step.syscall _ 1 (.user 12) (.other 0) _ _ rfl rfl trivial rfl))
  have k3 := k2.snoc (.core (@Step.signals _ 1 _ _ _ _ rfl rfl rfl))
  have k4 := h13.append (k3.snoc (.core (@Step.dispatch _ 0 _ _ rfl rfl rfl)))
  refine ⟨_, _, _, _, ⟨_, h12⟩, k4, (handler_entry_iff k4 (by decide) rfl rfl (fun _ e => by cases e)
    ⟨rfl, first_iff.mp rfl, by decide, rfl⟩ ?_).mpr (.inl ⟨rfl, 10, rfl, by decide⟩)⟩
  simp

/-- `kill` returns 0, and so begins the handler for signal 10 that it sends to its own process. -/
theorem entry_overwritten : ¬ ∀ es s t fs moved p proc call ret result k action, Exec TableStep State.new es s →
    Exec TableStep s ((.signals p result, moved) :: (fs ++ [(.dispatch p, false)])) t →
    getCurrent s.pm = .ok (p, proc) → s.phase = .signals call ret → (∀ code, call ≠ .exit code) →
    Caught proc.signal k action → (∀ y ∈ fs, y.1 ≠ .dispatch p) → AtHandler t p proc.context k action := by
  intro hall
  have h1 : Exec TableStep State.new _ _ := .single (.core (@Step.boot (.user 0) _ rfl))
  have h2 := h1.snoc (.core (@Step.dispatch _ 0 _ _ rfl rfl rfl))
  have h3 := h2.snoc (.core (@Step.syscall _ 0 (.user 0) (.sigaction 10 (some (some ⟨4096, 0⟩)) none) _ _ rfl rfl trivial rfl))
  have h4 := h3.snoc (.core (@Step.signals _ 0 _ _ _ _ rfl rfl rfl))
  have h5 := h4.snoc (.core (@Step.dispatch _ 0 _ _ rfl rfl rfl))
  have h6 := h5.snoc (.core (@Step.syscall _ 0 (.user 4) (.kill 0 10) _ _ rfl rfl trivial rfl))
  have h7 := h6.next (.core (@Step.signals _ 0 _ _ _ _ rfl rfl rfl))
  have h8 := (h6.append h7).next (.core (@Step.dispatch _ 0 _ _ rfl rfl rfl))
  have k1 := h7.append h8
  obtain ⟨proc, hproc, -, h10, -⟩ := hall _ _ _ [] false 0 _ _ _ _ 10 ⟨4096, 0⟩ h6 k1 rfl rfl (fun _ e => by cases e)
    ⟨rfl, first_iff.mp rfl, by decide, rfl⟩ (fun _ e => by cases e)
  cases hproc
  cases h10

end TgRcore.Kernel.ProcessLoop
