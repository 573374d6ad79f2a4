/-
  TgRcore.Kernel.Interrupted — processes of chapter 7 that a signal stops or interrupts, over
  every run.

  - `stopped_process`: a process that SIGSTOP stopped does not run before SIGCONT when each such
    trap ends the process; after any other it is ready.
  - `caught_signal`: the context in which a program goes on after a handler is the one without
    the signal, up to `a0`; there it is 0 and not the result of the call.
-/

import TgRcore.Kernel.ProcessLoop

namespace TgRcore.Kernel.ProcessLoop

open TgRcore.BlockProg TgRcore.Task

/-! ## A process in the runs -/

section

variable {s t : State} {e : Event} {es : List Turn} {p : ProcId} {proc : Process}

theorem Turns.uncons {x : Turn} (h : Turns s (x :: es) t) :
    x.before = s ∧ Step s x.event x.after ∧ Turns x.after es t := by
  obtain ⟨u, ⟨hb, ha, hs⟩, hrest⟩ := Exec.uncons h
  subst ha
  exact ⟨hb, hs, hrest⟩

/-- A process id that was given away names no second process. -/
theorem Step.gone (h : Step s e t) (hused : p ∈ s.used) (hnone : s.tasks p = none) : t.tasks p = none := by
  cases hp : t.tasks p with
  | none => rfl
  | some proc =>
    cases h.became hp with
    | boot =>
      cases h with
      | boot => cases hused
    | fork =>
      cases h with
      | syscall _ _ hfresh => exact absurd hused hfresh.1
    | still hs | trap hs | exec hs | sigaction hs | sigprocmask hs | sigreturn hs | killSelf hs | kill hs | signals hs =>
      rw [hnone] at hs
      cases hs

theorem Turns.gone (h : Turns s es t) (hused : p ∈ s.used) (hnone : s.tasks p = none) :
    p ∈ t.used ∧ t.tasks p = none := by
  induction h with
  | nil => exact ⟨hused, hnone⟩
  | snoc _ hs ih => exact ⟨hs.2.2.used_mono ih.1, hs.2.2.gone ih.1 ih.2⟩

/-! ## Stopped processes -/

/-- The next call of `handle_signals` stops the process, or leaves it stopped. -/
def Stops (signal : SignalImpl) : Prop :=
  signal.handling = some .frozen ∧ ¬ Deliverable signal SignalNo.SIGCONT ∨
    signal.handling = none ∧ First signal SignalNo.SIGSTOP

theorem stops_iff {signal signal' : SignalImpl} {ctx ctx' : LocalContext} {result : SignalResult}
    (h : signal.handleSignals ctx = .ok (result, signal', ctx')) : result = .processSuspended ↔ Stops signal := by
  rcases handle_cases h with ⟨old, hh, rfl, _⟩ | ⟨hh, hd, rfl, _⟩ | ⟨hh, hd, rfl, _⟩ | ⟨hh, hno, rfl, _⟩ | ⟨k, hh, hf, _, hd⟩
  · refine iff_of_false (fun e => by cases e) ?_
    rintro (⟨h, _⟩ | ⟨h, _⟩)
    · rw [hh] at h
      cases h
    · rw [hh] at h
      cases h
  · refine iff_of_false (fun e => by cases e) ?_
    rintro (⟨_, h⟩ | ⟨h, _⟩)
    · exact h hd
    · rw [hh] at h
      cases h
  · exact iff_of_true rfl (.inl ⟨hh, hd⟩)
  · refine iff_of_false (fun e => by cases e) ?_
    rintro (⟨h, _⟩ | ⟨_, h⟩)
    · rw [hh] at h
      cases h
    · exact hno _ h.1
  · have hfirst : Stops signal ↔ k = SignalNo.SIGSTOP := by
      constructor
      · rintro (⟨h, _⟩ | ⟨_, h⟩)
        · rw [hh] at h
          cases h
        · exact hf.unique h
      · rintro rfl
        exact .inr ⟨hh, hf⟩
    rw [hfirst]
    rcases hd with ⟨rfl, rfl, _⟩ | ⟨hk, rfl, _⟩ | ⟨⟨_, hk⟩, ⟨_, _, rfl, _⟩ | ⟨_, rfl, _⟩⟩
    · exact iff_of_false (fun e => by cases e) (by decide)
    · exact iff_of_true rfl hk
    · exact iff_of_false (fun e => by cases e) hk
    · refine iff_of_false ?_ hk
      unfold SignalImpl.defaultAction
      split
      · exact fun e => by cases e
      · exact fun e => by cases e

/-- The process does not come back from the call. -/
def Departs (call : Syscall) : Prop := (∃ code, call = .exit code) ∨ call = .unsupported

/-- Process `p` runs, or a call of it takes effect. -/
def Acts (e : Turn) (p : ProcId) : Prop :=
  e.event = .dispatch p ∨ e.event = .fault p ∨ ∃ regs call ret, e.event = .syscall p regs call ret

/-- Some process sends SIGCONT to process `p`. -/
def Continues (e : Turn) (p : ProcId) : Prop :=
  ∃ pid regs, e.event = .syscall pid regs (.kill p SignalNo.SIGCONT.val) (some 0)

/-- From the trap that stops a process until SIGCONT is sent to it, it does not act. -/
def StaysStopped (es : List Turn) : Prop :=
  ∀ es1 e es2 x es3 p, es = es1 ++ e :: (es2 ++ x :: es3) → e.event = .signals p .processSuspended →
    (∀ y ∈ es2, ¬ Continues y p) → ¬ Acts x p

/-- The trap stops no process, or one that does not come back from its call. -/
def Heeds (e : Turn) : Prop :=
  ∀ p result call ret proc, e.event = .signals p result → e.before.phase = .signals call ret →
    getCurrent e.before.pm = .ok (p, proc) → Stops proc.signal → Departs call

theorem acts_alive {x : Turn} (hi : SInv s) (hb : x.before = s) (h : Step s x.event x.after) (hx : Acts x p) :
    ∃ proc, s.tasks p = some proc := by
  rcases hx with hx | hx | ⟨regs, call, ret, hx⟩
  · rw [hx] at h
    generalize x.after = t at h
    cases h with
    | dispatch _ hf hc => exact ⟨_, (dispatch_did hf hc).2⟩
  · rw [hx] at h
    generalize x.after = t at h
    cases h with
    | fault hph hc =>
      obtain ⟨pid, proc, hcur⟩ := hi.current (by rw [hph]; intro e; cases e)
      obtain ⟨hpid, hproc⟩ := getCurrent_ok.mp hcur
      rw [hc] at hpid
      cases hpid
      exact ⟨proc, hproc⟩
  · rw [hx] at h
    obtain ⟨proc, hcur⟩ := current_task h
    exact ⟨proc, (getCurrent_ok.mp hcur).2⟩

/-- What `handle_signals` and `finish` did. -/
theorem signals_step {result : SignalResult} (h : Step s (.signals p result) t) : ∃ proc call ret signal context,
    getCurrent s.pm = .ok (p, proc) ∧ s.phase = .signals call ret ∧
      proc.signal.handleSignals proc.context = .ok (result, signal, context) ∧
      (Leaves call ret result ∧ t.tasks = s.tasks.remove p ∨
        ¬ Leaves call ret result ∧ ∃ r, ret = some r ∧ t.tasks = s.tasks.insert p ⟨setRet context r, signal⟩ ∧
          t.ready = s.ready ++ [p]) := by
  obtain ⟨proc, hcur⟩ := signals_task h
  cases h with
  | @signals _ pid call ret result pm hph hc hsig =>
    obtain ⟨signal, context, hs, -, hor⟩ := signals_did hcur hsig
    refine ⟨proc, call, ret, signal, context, hcur, hph, hs, ?_⟩
    rcases hor with ⟨hl, hm⟩ | ⟨hl, r, hr, hm⟩
    · exact .inl ⟨hl, hm⟩
    · refine .inr ⟨hl, r, hr, ?_, ?_⟩
      · unfold State.tasks
        dsimp only
        rw [hm]
      · unfold State.ready
        dsimp only
        rw [hm]

end

/-- In every run in which each trap that stops a process is of a call it does not come back from:
    a stopped process does not act before SIGCONT is sent to it. After a trap of any other call
    the stopped process is ready. -/
theorem stopped_process {es : List Turn} {s : State} (h : Run es s) :
    ((∀ e ∈ es, Heeds e) → StaysStopped es) ∧
      ∀ es1 e es2 p call ret, es = es1 ++ e :: es2 → e.event = .signals p .processSuspended →
        e.before.phase = .signals call ret → ¬ Departs call →
        (e.after.tasks p).isSome = true ∧ e.after.ready = e.before.ready ++ [p] := by
  constructor
  · rintro hheeds es1 e es2 x es3 p rfl he - hacts
    obtain ⟨hbefore, hs, -⟩ := h.at
    have hi := sInv_run hbefore
    rw [he] at hs
    obtain ⟨proc, call, ret, signal, context, hcur, hph, hh, hor⟩ := signals_step hs
    have hproc := (getCurrent_ok.mp hcur).2
    have hdeparts := hheeds e (by simp) p _ call ret proc he hph hcur ((stops_iff hh).mp rfl)
    have hleaves : Leaves call ret .processSuspended := by
      rcases hdeparts with hexit | hnone
      · exact .inr (.inr hexit)
      · exact .inr (.inl ((hi.answered hph).mpr hnone))
    -- the process has left, and its id is not given away again
    have hgone : e.after.tasks p = none := by
      rcases hor with ⟨-, ht⟩ | ⟨hno, -⟩
      · rw [ht, BTreeMap.remove_apply, if_pos rfl]
      · exact absurd hleaves hno
    have hused : p ∈ e.after.used := hs.used_mono (hi.used hproc)
    have hrest : Run ((es1 ++ e :: es2) ++ x :: es3) s := by
      rw [List.append_assoc, List.cons_append]
      exact h
    obtain ⟨hx, hxs, -⟩ := hrest.at
    obtain ⟨u, -, htail⟩ := Exec.split hx
    obtain ⟨-, -, htail⟩ := Turns.uncons htail
    obtain ⟨proc', hlive⟩ := acts_alive (sInv_run hx) rfl hxs hacts
    rw [(htail.gone hused hgone).2] at hlive
    cases hlive
  · rintro es1 e es2 p call ret rfl he hph hno
    obtain ⟨hbefore, hs, -⟩ := h.at
    rw [he] at hs
    obtain ⟨proc, call', ret', signal, context, hcur, hph', hh, hor⟩ := signals_step hs
    rw [hph] at hph'
    cases hph'
    rcases hor with ⟨hl, -⟩ | ⟨-, r, -, ht, hready⟩
    · rcases hl with ⟨code, hkilled⟩ | hnone | hexit
      · cases hkilled
      · exact absurd (.inr (((sInv_run hbefore).answered hph).mp hnone)) hno
      · exact absurd (.inl hexit) hno
    · rw [ht, BTreeMap.insert_apply, if_pos rfl]
      exact ⟨rfl, hready⟩

/-! ### Two runs -/

/-- Process 0 sends itself SIGSTOP and is dispatched again. -/
theorem stopped_run : ∃ es s, Run es s ∧ ¬ StaysStopped es := by
  have h1 : Run [⟨_, .boot, _⟩] _ := .single ⟨rfl, rfl, @Step.boot (.user 0) _ rfl⟩
  have h2 := h1.snoc (e := ⟨_, .dispatch 0, _⟩) ⟨rfl, rfl, .dispatch rfl rfl rfl⟩
  have h3 := h2.snoc (e := ⟨_, .syscall 0 (.user 0) (.kill 0 19) (some 0), _⟩)
    ⟨rfl, rfl, @Step.syscall _ 0 (.user 0) (.kill 0 19) _ _ rfl rfl trivial rfl⟩
  have h4 := h3.snoc (e := ⟨_, .signals 0 .processSuspended, _⟩) ⟨rfl, rfl, .signals rfl rfl rfl⟩
  have h5 := h4.snoc (e := ⟨_, .dispatch 0, _⟩) ⟨rfl, rfl, .dispatch rfl rfl rfl⟩
  refine ⟨_, _, h5, fun hstays => ?_⟩
  exact hstays _ _ [] _ [] 0 (List.append_assoc ..) rfl (fun _ hy => by cases hy) (.inl rfl)

/-- The trap stops no process, or one in a call that it does not come back from. -/
def Quits (e : Turn) : Prop :=
  ∀ p call ret, e.event = .signals p .processSuspended → e.before.phase = .signals call ret → Departs call

/-- The turns since boot, when none leaves a stopped process behind. -/
abbrev QuitRun (es : List Turn) (s : State) : Prop :=
  Exec (fun s e t => (e.before = s ∧ e.after = t ∧ Step s e.event t) ∧ Quits e) State.new es s

section

variable {s t : State} {e : Event} {es : List Turn}

theorem QuitRun.step (h : QuitRun es s) (hs : Step s e t) (he : ∀ p, e ≠ .signals p .processSuspended) :
    QuitRun (es ++ [⟨s, e, t⟩]) t :=
  h.snoc ⟨⟨rfl, rfl, hs⟩, fun p _ _ hp => absurd hp (he p)⟩

theorem QuitRun.heeds (h : QuitRun es s) : ∀ x ∈ es, Heeds x := by
  refine h.inv (P := fun es _ => ∀ x ∈ es, Heeds x) (by simp) ?_
  rintro es s x t ih ⟨⟨rfl, rfl, hs⟩, hquits⟩ y hy
  rcases List.mem_append.mp hy with hy | hy
  · exact ih y hy
  cases List.mem_singleton.mp hy
  intro p result call ret proc he hph hcur hstops
  rw [he] at hs
  obtain ⟨proc', call', ret', signal, context, hcur', -, hh, -⟩ := signals_step hs
  rw [hcur] at hcur'
  cases hcur'
  exact hquits p call ret (by rw [he, (stops_iff hh).mpr hstops]) hph

end

/-- Process 0 stops process 1, which exits in its next turn. -/
theorem stopped_leaves : ∃ es s, QuitRun es s ∧ ∃ e ∈ es, e.event = .signals 1 .processSuspended := by
  have h1 : QuitRun [⟨_, .boot, _⟩] _ := .single ⟨⟨rfl, rfl, @Step.boot (.user 0) _ rfl⟩, fun _ _ _ h => by cases h⟩
  have h2 := h1.step (.dispatch rfl rfl rfl) (by simp)
  have h3 := h2.step (@Step.syscall _ 0 (.user 0) (.fork 1) _ _ rfl rfl ⟨by decide, by decide⟩ rfl) (by simp)
  have h4 := h3.step (@Step.signals _ 0 _ _ .noSignal _ rfl rfl rfl) (by simp)
  have h5 := h4.step (.dispatch rfl rfl rfl) (by simp)
  have h6 := h5.step (@Step.syscall _ 1 (.user 0) (.other 0) _ _ rfl rfl trivial rfl) (by simp)
  have h7 := h6.step (@Step.signals _ 1 _ _ .noSignal _ rfl rfl rfl) (by simp)
  have h8 := h7.step (.dispatch rfl rfl rfl) (by simp)
  have h9 := h8.step (@Step.syscall _ 0 (.user 0) (.kill 1 19) _ _ rfl rfl trivial rfl) (by simp)
  have h10 := h9.step (@Step.signals _ 0 _ _ .noSignal _ rfl rfl rfl) (by simp)
  have h11 := h10.step (.dispatch rfl rfl rfl) (by simp)
  have h12 := h11.step (@Step.syscall _ 1 (.user 0) (.exit 5) _ _ rfl rfl trivial rfl) (by simp)
  have h13 : QuitRun (_ ++ [⟨_, .signals 1 .processSuspended, _⟩]) _ := h12.snoc ⟨⟨rfl, rfl, .signals rfl rfl rfl⟩,
    fun _ _ _ _ hph => by
      cases hph
      exact .inl ⟨5, rfl⟩⟩
  have h14 := h13.step (.dispatch rfl rfl rfl) (by simp)
  exact ⟨_, _, h14, _, List.mem_append_left _ (List.mem_append_right _ (List.mem_singleton_self _)), rfl⟩

/-- The one runs on; the other does not act again. -/
theorem stopped_process_turn : (∃ es s, Run es s ∧ ¬ ∀ e ∈ es, Heeds e) ∧
    ∃ es s, Run es s ∧ (∃ e ∈ es, e.event = .signals 1 .processSuspended) ∧ StaysStopped es := by
  constructor
  · obtain ⟨es, s, hrun, hno⟩ := stopped_run
    exact ⟨es, s, hrun, fun hheeds => hno ((stopped_process hrun).1 hheeds)⟩
  · obtain ⟨es, s, hquits, hstop⟩ := stopped_leaves
    have hrun : Run es s := hquits.mono fun h => h.1
    exact ⟨es, s, hrun, hstop, (stopped_process hrun).1 hquits.heeds⟩

/-- A stopped process has its next turn like any other. -/
theorem stopped_runs : ¬ ∀ es s, Run es s → StaysStopped es := by
  obtain ⟨es, s, hrun, hno⟩ := stopped_run
  exact fun h => hno (h es s hrun)

/-! ## Interrupted processes -/

/-- The same state with no signal pending for the process. -/
def quiet (s : State) (p : ProcId) : State :=
  { s with pm := { s.pm with manager := { s.pm.manager with
      tasks := s.tasks.adjust p fun proc => { proc with signal := { proc.signal with received := 0 } } } } }

/-- The context that the process has when the trap of its call is over. -/
def resumed (s : State) (p : ProcId) : Option LocalContext :=
  match s.phase with
  | .signals call ret =>
    match signals s.pm call ret with
    | .ok (_, pm) => (pm.manager.tasks p).map Process.context
    | .error _ => none
  | _ => none

/-- The trap enters a handler of the process. -/
def Catches (e : Turn) (p : ProcId) : Prop :=
  e.event = .signals p .handled ∧ ∃ proc old, e.after.tasks p = some proc ∧ proc.signal.handling = some (.userSignal old)

/-- The process gives the context back that was saved. -/
def Returns (e : Turn) (p : ProcId) : Prop := ∃ regs ret, e.event = .syscall p regs .sigreturn ret

/-- Two contexts agree up to `a0`. -/
def SameButA0 (c d : LocalContext) : Prop := c.sepc = d.sepc ∧ ∀ n, n ≠ 10 → c.x n = d.x n

section

variable {s t : State} {e : Event} {es : List Turn} {p : ProcId} {proc : Process} {old : LocalContext}

/-- The context that was saved for the process, if it lives. -/
def Saved (s : State) (p : ProcId) (old : LocalContext) : Prop :=
  p ∈ s.used ∧ ∀ proc, s.tasks p = some proc → proc.signal.handling = some (.userSignal old)

theorem Saved.step (hi : Saved s p old) (h : Step s e t) (hno : ∀ regs ret, e ≠ .syscall p regs .sigreturn ret) :
    Saved t p old := by
  refine ⟨h.used_mono hi.1, fun proc hp => ?_⟩
  cases h.became hp with
  | boot =>
    cases h with
    | boot => cases hi.1
  | fork =>
    cases h with
    | syscall _ _ hfresh => exact absurd hi.1 hfresh.1
  | sigreturn => exact absurd rfl (hno _ _)
  | still hs | trap hs | exec hs | sigaction hs | sigprocmask hs | killSelf hs | kill hs =>
    have hsaved := hi.2 _ hs
    exact hsaved
  | signals hs _ hh =>
    have hsaved := hi.2 _ hs
    rcases handle_cases hh with ⟨_, _, _, h, _⟩ | ⟨h, _⟩ | ⟨h, _⟩ | ⟨h, _⟩ | ⟨_, h, _⟩
    · rw [h]
      exact hsaved
    · rw [h] at hsaved
      cases hsaved
    · rw [h] at hsaved
      cases hsaved
    · rw [h] at hsaved
      cases hsaved
    · rw [h] at hsaved
      cases hsaved

theorem Saved.run (hi : Saved s p old) (h : Turns s es t) (hno : ∀ e ∈ es, ¬ Returns e p) : Saved t p old := by
  induction h with
  | nil => exact hi
  | snoc _ hs ih =>
    have hsaved := ih fun e he => hno e (List.mem_append_left _ he)
    have hlast := hno _ (List.mem_append_right _ (List.mem_singleton_self _))
    exact hsaved.step hs.2.2 fun regs ret he => hlast ⟨regs, ret, he⟩

/-- A trap that enters a handler saves the context as it is then. -/
theorem Catches.saved {x : Turn} (hx : Catches x p) (h : Step s x.event x.after) (hi : SInv s) :
    ∃ proc, getCurrent s.pm = .ok (p, proc) ∧ proc.signal.handling = none ∧ Saved x.after p proc.context := by
  obtain ⟨he, proc', old, hp', hold⟩ := hx
  have hstep := h
  rw [he] at h
  obtain ⟨proc, call, ret, signal, context, hcur, hph, hh, hor⟩ := signals_step h
  have hproc := (getCurrent_ok.mp hcur).2
  have hsignal : proc'.signal = signal := by
    rcases hor with ⟨-, ht⟩ | ⟨-, r, -, ht, -⟩
    · rw [ht, BTreeMap.remove_apply, if_pos rfl] at hp'
      cases hp'
    · rw [ht, BTreeMap.insert_apply, if_pos rfl] at hp'
      cases hp'
      rfl
  rw [hsignal] at hold
  have hsaved : proc.signal.handling = none ∧ old = proc.context := by
    rcases handle_cases hh with ⟨_, _, h, _⟩ | ⟨_, _, _, h, _⟩ | ⟨_, _, h, _⟩ | ⟨_, _, h, _⟩ | ⟨k, hn, _, _, hd⟩
    · cases h
    · rw [h] at hold
      cases hold
    · cases h
    · cases h
    · refine ⟨hn, ?_⟩
      rcases hd with ⟨_, h, _⟩ | ⟨_, h, _⟩ | ⟨_, ⟨_, _, _, h, _⟩ | ⟨_, _, h, _⟩⟩
      · cases h
      · cases h
      · rw [h] at hold
        cases hold
        rfl
      · rw [h] at hold
        cases hold
  refine ⟨proc, hcur, hsaved.1, hstep.used_mono (hi.used hproc), fun q hq => ?_⟩
  rw [hp'] at hq
  cases hq
  rw [hsignal, hold, hsaved.2]

/-- A call that comes back goes to the ready queue with its result. -/
theorem finish_returns {pm : Processor} {call : Syscall} {r : Int} (hcur : getCurrent pm = .ok (p, proc))
    (hcall : ∀ code, call ≠ .exit code) :
    finish pm call (some r) .noSignal = .ok { pm with
      manager := ⟨pm.manager.tasks.insert p { proc with context := setRet proc.context r }, pm.manager.readyQueue ++ [p]⟩
      current := none } := by
  have hsuspend : (getCurrent pm >>= fun x =>
      (setProc pm x.1 { x.2 with context := setRet x.2.context r }).makeCurrentSuspend) = .ok { pm with
        manager := ⟨pm.manager.tasks.insert p { proc with context := setRet proc.context r }, pm.manager.readyQueue ++ [p]⟩
        current := none } := by
    refine bind_eq_ok.mpr ⟨_, hcur, ?_⟩
    unfold PManager.makeCurrentSuspend setProc
    dsimp only
    rw [(getCurrent_ok.mp hcur).1]
    rfl
  cases call with
  | exit code => exact absurd rfl (hcall code)
  | fork | exec | wait | kill | sigaction | sigprocmask | sigreturn | other | unsupported => exact hsuspend

/-- Without a pending signal the process goes on with the result of its call in `a0`. -/
theorem quiet_signals {call : Syscall} {r : Int} (hcur : getCurrent s.pm = .ok (p, proc))
    (hn : proc.signal.handling = none) (hph : s.phase = .signals call (some r)) (hcall : ∀ code, call ≠ .exit code) :
    resumed (quiet s p) p = some (setRet proc.context r) := by
  obtain ⟨hc, hp⟩ := getCurrent_ok.mp hcur
  have hquiet : getCurrent (quiet s p).pm = .ok (p, ⟨proc.context, { proc.signal with received := 0 }⟩) := by
    refine getCurrent_ok.mpr ⟨hc, ?_⟩
    unfold quiet State.tasks
    dsimp only
    rw [BTreeMap.adjust_apply, if_pos rfl, hp]
    rfl
  have hset : getCurrent (setProc (quiet s p).pm p ⟨proc.context, { proc.signal with received := 0 }⟩) =
      .ok (p, ⟨proc.context, { proc.signal with received := 0 }⟩) := getCurrent_ok.mpr ⟨hc, if_pos rfl⟩
  have hidle := @handle_idle { proc.signal with received := 0 } hn rfl proc.context
  have hsig : signals (quiet s p).pm call (some r) = .ok (.noSignal, _) :=
    bind_eq_ok.mpr ⟨_, hquiet, bind_eq_ok.mpr ⟨_, hidle, bind_eq_ok.mpr ⟨_, finish_returns hset hcall, rfl⟩⟩⟩
  have hph' : (quiet s p).phase = .signals call (some r) := hph
  unfold resumed
  rw [hph']
  dsimp only
  rw [hsig]
  dsimp only
  rw [BTreeMap.insert_apply, if_pos rfl]
  rfl

/-- The loop is before `handle_signals` after a call. -/
theorem syscall_phase {regs : LocalContext} {call : Syscall} {ret : Option Int} (h : Step s (.syscall p regs call ret) t) :
    t.phase = .signals call ret := by
  cases h with
  | syscall => rfl

theorem setRet_sameButA0 (c : LocalContext) (a b : Int) : SameButA0 (setRet c a) (setRet c b) := by
  refine ⟨rfl, fun n hn => ?_⟩
  unfold setRet LocalContext.setA LocalContext.setX
  dsimp only
  rw [if_neg hn, if_neg hn]

theorem setRet_zero (c : LocalContext) (r : Int) : setRet c 0 = setRet c r ↔ r % 2 ^ 64 = 0 := by
  constructor
  · intro h
    have h10 := congrFun (congrArg LocalContext.x h) 10
    have h10 : ((0 : Int) % 2 ^ 64).toNat = (r % 2 ^ 64).toNat := h10
    omega
  · intro h
    unfold setRet
    rw [h]
    rfl

/-- The context that was saved is the one after `sigreturn`, with its result in `a0`. -/
theorem Saved.returned {x y : Turn} {result : SignalResult} (hi : Saved s p old) (hx : Returns x p)
    (h : Step s x.event x.after) (hy : y.event = .signals p result) (hquiet : result ≠ .handled)
    (h' : Step x.after y.event y.after) (halive : y.after.tasks p = some proc) : proc.context = setRet old 0 := by
  obtain ⟨regs, ret, he⟩ := hx
  rw [he] at h
  rw [hy] at h'
  obtain ⟨proc1, hcur⟩ := current_task h
  obtain ⟨proc2, call, ret', signal, context, hcur', hph, hh, hor⟩ := signals_step h'
  have hp2 := (getCurrent_ok.mp hcur').2
  have hold := hi.2 proc1 (getCurrent_ok.mp hcur).2
  have hreturned : proc2.context = old ∧ proc2.signal.handling = none ∧ ret' = some 0 := by
    generalize x.after = t at h hp2 hph
    cases h with
    | syscall _ _ _ hcall =>
      rcases (syscall_did hcur hcall).1 with ⟨old', hh', hr, ht⟩ | ⟨hno, -⟩
      · have hsame : proc1.signal.handling = some (.userSignal old') := hh'
        rw [hold] at hsame
        cases hsame
        dsimp only at hp2
        rw [ht, BTreeMap.insert_apply, if_pos rfl] at hp2
        cases hp2
        cases hph
        exact ⟨rfl, rfl, hr⟩
      · exact absurd hold (hno old)
  obtain ⟨hcontext, hn, rfl⟩ := hreturned
  have hkept : context = old := by
    rcases handle_cases hh with ⟨_, h, _⟩ | ⟨h, _⟩ | ⟨h, _⟩ | ⟨_, _, _, _, h⟩ | ⟨k, _, _, _, hd⟩
    · rw [hn] at h
      cases h
    · rw [hn] at h
      cases h
    · rw [hn] at h
      cases h
    · rw [h, hcontext]
    · rcases hd with ⟨_, _, _, h⟩ | ⟨_, _, _, h⟩ | ⟨_, ⟨_, _, h, _⟩ | ⟨_, _, _, h⟩⟩
      · rw [h, hcontext]
      · rw [h, hcontext]
      · exact absurd h hquiet
      · rw [h, hcontext]
  rcases hor with ⟨-, ht⟩ | ⟨-, r, hr, ht, -⟩
  · rw [ht, BTreeMap.remove_apply, if_pos rfl] at halive
    cases halive
  · rw [ht, BTreeMap.insert_apply, if_pos rfl] at halive
    cases halive
    cases hr
    rw [hkept]

end

/-- For every run in which a call of process `p` that is no `exit` has the result `r`, a handler is
    entered in the same trap, and the first `sigreturn` after that enters none: the program goes
    on with the context that it would have had without the signal, up to `a0`, and with the very
    same exactly when `r` is 0. -/
theorem caught_signal {es1 es2 : List Turn} {e1 e2 e3 e4 : Turn} {u : State} {p : ProcId} {regs : LocalContext}
    {call : Syscall} {r : Int} {result : SignalResult} {proc : Process}
    (h : Run (es1 ++ e1 :: e2 :: (es2 ++ [e3, e4])) u) (hcall : e1.event = .syscall p regs call (some r))
    (hexit : ∀ code, call ≠ .exit code) (hcatch : Catches e2 p) (hmeanwhile : ∀ e ∈ es2, ¬ Returns e p)
    (hreturn : Returns e3 p) (hlast : e4.event = .signals p result) (hquiet : result ≠ .handled)
    (halive : u.tasks p = some proc) :
    ∃ c, resumed (quiet e1.after p) p = some c ∧ SameButA0 proc.context c ∧ (proc.context = c ↔ r % 2 ^ 64 = 0) := by
  obtain ⟨hbefore, h1, hrun1⟩ := h.at
  obtain ⟨s1, -, hrest⟩ := Exec.split h
  obtain ⟨-, -, hrest⟩ := Turns.uncons hrest
  obtain ⟨-, h2, hrest⟩ := Turns.uncons hrest
  obtain ⟨s3, hmid, hrest⟩ := Exec.split hrest
  obtain ⟨-, h3, hrest⟩ := Turns.uncons hrest
  obtain ⟨-, h4, hrest⟩ := Turns.uncons hrest
  cases Exec.eq_of_nil hrest
  rw [hcall] at h1
  obtain ⟨proc2, hcur, hn, hsaved⟩ := hcatch.saved h2 (sInv_run hrun1)
  have hlate := hsaved.run hmid hmeanwhile
  have hback := hlate.returned hreturn h3 hlast hquiet h4 halive
  refine ⟨_, quiet_signals hcur hn (syscall_phase h1) hexit, ?_⟩
  rw [hback]
  exact ⟨setRet_sameButA0 _ _ _, setRet_zero _ _⟩

/-- Process 0 has a handler for signal 10 and sends it to itself while the mask holds it back. -/
def masked : List Round :=
  [⟨.user 0, .sigaction 10 (some (some ⟨4096, 0⟩)) none⟩, ⟨.user 4, .sigprocmask 1024⟩, ⟨.user 8, .kill 0 10⟩]

/-- It takes the mask off, which returns the old one, and its handler returns. -/
def interrupted : Except Halt (List Turn × List Turn × List Turn × List Turn × List Turn × State) := do
  let (es1, s) ← play (.user 0) masked
  let (es2, s) ← enter s ⟨.user 12, .sigprocmask 0⟩
  let (es3, s) ← leave s
  let (es4, s) ← enter s ⟨.user 4096, .sigreturn⟩
  let (es5, s) ← leave s
  .ok (es1, es2, es3, es4, es5, s)

/-- Whether process 0 is in a handler after the turn. -/
def inHandler (e : Turn) : Option Bool :=
  (e.after.tasks 0).map fun proc => match proc.signal.handling with
    | some (.userSignal _) => true
    | _ => false

theorem interrupted_run : ∃ es1 d e1 e2 d' e3 e4 u proc, ∃ c : LocalContext,
    Run (es1 ++ [d] ++ e1 :: e2 :: ([d'] ++ [e3, e4])) u ∧
    e1.event = .syscall 0 (.user 12) (.sigprocmask 0) (some 1024) ∧ Catches e2 0 ∧ ¬ Returns d' 0 ∧ Returns e3 0 ∧
    e4.event = .signals 0 .noSignal ∧ u.tasks 0 = some proc ∧ resumed (quiet e1.after 0) 0 = some c ∧ proc.context.x 10 = 0 ∧
    c.x 10 = 1024 := by
  have hsees : (interrupted.map fun x => (x.2.1.map callOf, x.2.1.map fun e => (resumed (quiet e.after 0) 0).map fun c => c.x 10)) =
      .ok ([none, some (some 1024)], [none, some 1024]) := by
    rfl
  have hcaught : (interrupted.map fun x => (x.2.2.1.map resultOf, x.2.2.1.map inHandler)) =
      .ok ([some .handled], [some true]) := by
    rfl
  have hback : (interrupted.map fun x => (x.2.2.2.1.map callOf, x.2.2.2.2.1.map resultOf,
      (x.2.2.2.2.2.tasks 0).map fun proc => proc.context.x 10)) = .ok ([none, some (some 0)], [some .noSignal], some 0) := by
    rfl
  obtain ⟨⟨es1, es2, es3, es4, es5, u⟩, hrun, hsees⟩ := map_eq_ok hsees
  rw [hrun] at hcaught hback
  have hcaught := Except.ok.inj hcaught
  have hback := Except.ok.inj hback
  obtain ⟨⟨_, s1⟩, h1, hrun⟩ := bind_eq_ok.mp hrun
  obtain ⟨⟨_, s2⟩, h2, hrun⟩ := bind_eq_ok.mp hrun
  obtain ⟨⟨_, s3⟩, h3, hrun⟩ := bind_eq_ok.mp hrun
  obtain ⟨⟨_, s4⟩, h4, hrun⟩ := bind_eq_ok.mp hrun
  obtain ⟨⟨_, s5⟩, h5, hrun⟩ := bind_eq_ok.mp hrun
  cases hrun
  obtain ⟨hplay, hidle1⟩ := play_run h1
  obtain ⟨ht2, d, e1, _, _, rfl, -, he1, -⟩ := enter_turns hidle1 h2
  obtain ⟨ht3, hidle3, e2, _, _, rfl, -, -⟩ := leave_turns h3
  obtain ⟨ht4, d', e3, _, _, rfl, hd', he3, -⟩ := enter_turns hidle3 h4
  obtain ⟨ht5, -, e4, _, _, rfl, -, -⟩ := leave_turns h5
  simp only [List.map_cons, List.map_nil, Prod.mk.injEq, List.cons.injEq, and_true] at hsees hcaught hback
  obtain ⟨⟨-, hcall⟩, -, hc⟩ := hsees
  obtain ⟨hhandled, hin⟩ := hcaught
  obtain ⟨⟨-, hret⟩, hlast, hproc⟩ := hback
  obtain ⟨c, hc, hc10⟩ := Option.map_eq_some_iff.mp hc
  obtain ⟨proc, hproc, hp10⟩ := Option.map_eq_some_iff.mp hproc
  obtain ⟨proc2, hproc2, hin⟩ := Option.map_eq_some_iff.mp hin
  have hall : Run (es1 ++ [d] ++ e1 :: e2 :: ([d'] ++ [e3, e4])) u := by
    have hjoined := (((hplay.append ht2).append ht3).append ht4).append ht5
    simpa using hjoined
  refine ⟨es1, d, e1, e2, d', e3, e4, u, proc, c, hall, callOf_eq he1 hcall, ?_, ?_, ?_, resultOf_eq hlast, hproc, hc,
    hp10, hc10⟩
  · refine ⟨resultOf_eq hhandled, proc2, ?_⟩
    split at hin
    · rename_i old hh
      exact ⟨old, hproc2, hh⟩
    · cases hin
  · rintro ⟨regs, ret, he⟩
    rw [hd'] at he
    cases he
  · exact ⟨_, _, callOf_eq he3 hret⟩

theorem caught_signal_mask : ∃ es u c proc, Run es u ∧ u.tasks 0 = some proc ∧ SameButA0 proc.context c ∧ proc.context ≠ c := by
  obtain ⟨es1, d, e1, e2, d', e3, e4, u, proc, c, hrun, hcall, hcatch, hd, hreturn, hlast, hproc, hc, -, -⟩ := interrupted_run
  obtain ⟨c', hc', hsame, hiff⟩ := caught_signal hrun hcall (fun _ e => by cases e) hcatch
    (fun e he => by rw [List.mem_singleton.mp he]; exact hd) hreturn hlast (fun e => by cases e) hproc
  refine ⟨_, u, c', proc, hrun, hproc, hsame, fun he => ?_⟩
  exact absurd (hiff.mp he) (by decide)

/-- `sigprocmask` returns 1024, and 0 after the handler. -/
theorem result_lost : ¬ ∀ es1 es2 e1 e2 e3 e4 u p regs call r proc, Run (es1 ++ e1 :: e2 :: (es2 ++ [e3, e4])) u →
    e1.event = .syscall p regs call (some r) → (∀ code, call ≠ .exit code) → (∀ image, call ≠ .exec image) →
    call ≠ .sigreturn → Catches e2 p → (∀ e ∈ es2, ¬ Returns e p) → Returns e3 p → e4.event = .signals p .noSignal →
    u.tasks p = some proc → resumed (quiet e1.after p) p = some proc.context := by
  obtain ⟨es1, d, e1, e2, d', e3, e4, u, proc, c, hrun, hcall, hcatch, hd, hreturn, hlast, hproc, hc, hp10, hc10⟩ :=
    interrupted_run
  intro h
  have hsame := h _ [d'] e1 e2 e3 e4 u 0 _ _ _ proc hrun hcall (fun _ e => by cases e) (fun _ e => by cases e)
    (fun e => by cases e) hcatch (fun e he => by rw [List.mem_singleton.mp he]; exact hd) hreturn hlast hproc
  rw [hc] at hsame
  rw [Option.some.inj hsame, hp10] at hc10
  cases hc10

end TgRcore.Kernel.ProcessLoop
