/-
  TgRcore.Kernel.Delivery — the signals of the processes of chapter 7 over every run.

  - `never_panics`: when `handle_signals` stops the kernel (`kill` never does).
  - `exec_dispositions`: when no handler and no mask survives an `exec`.
-/

import TgRcore.Kernel.ProcessLoop

namespace TgRcore.Kernel.ProcessLoop

open TgRcore.BlockProg TgRcore.Task

/-! ## Numbers past the table -/

/-- What `handle_signals` takes next is in the table of actions. -/
def InTable (signal : SignalImpl) : Prop := signal.handling.isNone = true → ∀ k, First signal k → k.val ≤ maxSig

/-- A signal number past the table is sent to no process. -/
def Bounded (e : Turn) : Prop :=
  ∀ pid regs target signum ret, e.event = .syscall pid regs (.kill target signum) ret →
    (e.before.tasks target).isSome = true → ¬ (maxSig < signum ∧ signum < 64)

/-- No pending signal is past the table. -/
def LowPending (s : State) : Prop :=
  ∀ q proc, s.tasks q = some proc → ∀ k, proc.signal.received.containBit k = true → k.val ≤ maxSig

section

variable {s t : State} {e : Turn} {es : List Turn}

theorem tryFrom_val {signum : Nat} {k : SignalNo} (h : SignalNo.tryFrom signum = some k) : k.val = signum := by
  unfold SignalNo.tryFrom at h
  split at h
  · cases h
    rfl
  · cases h

theorem handle_received {signal signal' : SignalImpl} {ctx ctx' : LocalContext} {result : SignalResult} {k : SignalNo}
    (h : signal.handleSignals ctx = .ok (result, signal', ctx')) (hk : signal'.received.containBit k = true) :
    signal.received.containBit k = true := by
  rcases handle_cases h with ⟨_, _, _, h, _⟩ | ⟨_, _, _, h, _⟩ | ⟨_, _, _, h, _⟩ | ⟨_, _, _, h, _⟩ | ⟨_, _, _, h, _⟩
  · rwa [h] at hk
  · rw [h, SignalSet.containBit_remove, Bool.and_eq_true] at hk
    exact hk.1
  · rwa [h] at hk
  · rwa [h] at hk
  · rw [h, SignalSet.containBit_remove, Bool.and_eq_true] at hk
    exact hk.1

theorem LowPending.added {proc : Process} {q : ProcId} {signum : Nat} {j k : SignalNo} (hi : LowPending s)
    (hs : s.tasks q = some proc) (hj : SignalNo.tryFrom signum = some j) (hb : ¬ (maxSig < signum ∧ signum < 64))
    (hk : (proc.signal.addSignal j).received.containBit k = true) : k.val ≤ maxSig := by
  unfold SignalImpl.addSignal at hk
  rw [SignalSet.containBit_add, Bool.or_eq_true, decide_eq_true_eq] at hk
  rcases hk with hk | rfl
  · exact hi _ _ hs k hk
  · have hval := tryFrom_val hj
    have hlt := k.isLt
    omega

theorem LowPending.step (hi : LowPending s) (h : Step s e.event t) (hb : e.before = s) (hbound : Bounded e) :
    LowPending t := by
  obtain ⟨b, event, a⟩ := e
  cases hb
  intro q proc hq k hk
  cases h.became hq with
  | boot =>
    have hk : SignalSet.containBit 0 k = true := hk
    rw [SignalSet.containBit_zero] at hk
    cases hk
  | fork =>
    have hk : SignalSet.containBit 0 k = true := hk
    rw [SignalSet.containBit_zero] at hk
    cases hk
  | still hs | trap hs | exec hs | sigaction hs | sigprocmask hs | sigreturn hs => exact hi _ _ hs k hk
  | signals hs _ hh => exact hi _ _ hs k (handle_received hh hk)
  | killSelf hs hj =>
    exact hi.added hs hj (hbound _ _ _ _ _ rfl (by rw [hs]; rfl)) hk
  | kill hs _ hj =>
    exact hi.added hs hj (hbound _ _ _ _ _ rfl (by rw [hs]; rfl)) hk

theorem lowPending_run (h : Run es s) (hbound : ∀ e ∈ es, Bounded e) : LowPending s := by
  induction h with
  | nil =>
    intro q proc hq
    cases hq
  | snoc _ hs ih =>
    have hlow := ih fun e he => hbound e (List.mem_append_left _ he)
    exact hlow.step hs.2.2 hs.1 (hbound _ (List.mem_append_right _ (List.mem_singleton_self _)))

theorem inTable_iff {signal : SignalImpl} {ctx : LocalContext} (hlen : signal.actions.length = maxSig + 1) :
    (∃ x, signal.handleSignals ctx = .ok x) ↔ InTable signal := by
  have hpanics := @handle_panics signal ctx hlen
  constructor
  · rintro ⟨x, hx⟩ hn k hk
    by_contra hlt
    rw [hpanics.mpr ⟨Option.isNone_iff_eq_none.mp hn, k, hk, not_le.mp hlt⟩] at hx
    cases hx
  · intro hin
    unfold SignalImpl.handleSignals
    split
    · split
      · exact ⟨_, rfl⟩
      · exact ⟨_, rfl⟩
    · exact ⟨_, rfl⟩
    · rename_i hn
      split
      · rename_i k hf
        have hk := hin (by rw [hn]; rfl) k (first_iff.mp hf)
        have hlt : k.val < signal.actions.length := by
          rw [hlen]
          omega
        exact @deliver_total { signal with received := signal.received.removeBit k } ctx k hlt
      · exact ⟨_, rfl⟩

end

/-- In every run: `kill` returns, whatever the process and the number are. A call of
    `handle_signals` returns exactly when no signal past the table comes first, and always does
    when no process was sent such a number. -/
theorem never_panics {es : List Turn} {s : State} (h : Run es s) :
    (∀ pid signum, ∃ r pm, handle s.pm (.kill pid signum) = .ok (some r, pm)) ∧
      ∀ call ret, s.phase = .signals call ret → ∃ pid proc, getCurrent s.pm = .ok (pid, proc) ∧
        ((∃ x, proc.signal.handleSignals proc.context = .ok x) ↔ InTable proc.signal) ∧
        ((∀ e ∈ es, Bounded e) → InTable proc.signal) := by
  refine ⟨fun pid signum => ⟨_, _, rfl⟩, fun call ret hph => ?_⟩
  have hi := sInv_run h
  obtain ⟨pid, proc, hcur⟩ := hi.current (by rw [hph]; intro e; cases e)
  have hproc := (getCurrent_ok.mp hcur).2
  refine ⟨pid, proc, hcur, inTable_iff (hi.table hproc), ?_⟩
  intro hbound _ k hk
  exact lowPending_run h hbound _ _ hproc k hk.1.1

/-- Process 0 has sent itself signal 40. -/
def forty : Except Halt (List Turn × State) := do
  let (es, s) ← play (.user 0) []
  let (es', s) ← enter s ⟨.user 0, .kill 0 40⟩
  .ok (es ++ es', s)

theorem forty_run : ∃ es s proc call ret, Run es s ∧ s.phase = .signals call ret ∧ getCurrent s.pm = .ok (0, proc) ∧
    ¬ ∃ x, proc.signal.handleSignals proc.context = .ok x := by
  have hsees : (forty >>= fun x => (getCurrent x.2.pm).map fun y =>
      (y.1, (y.2.signal.handleSignals y.2.context).map fun z => z.1)) = .ok (0, .error .panic) := by
    rfl
  obtain ⟨⟨es, s⟩, hrun, hsees⟩ := bind_eq_ok.mp hsees
  obtain ⟨⟨pid, proc⟩, hcur, hpanic⟩ := map_eq_ok hsees
  rw [Prod.mk.injEq] at hpanic
  obtain ⟨rfl, hpanic⟩ := hpanic
  obtain ⟨⟨es1, s1⟩, h1, hrun⟩ := bind_eq_ok.mp hrun
  obtain ⟨⟨es2, s2⟩, h2, hrun⟩ := bind_eq_ok.mp hrun
  cases hrun
  obtain ⟨hplay, hidle⟩ := play_run h1
  obtain ⟨henter, _, _, _, ret, _, _, _, _, hph, _⟩ := enter_turns hidle h2
  refine ⟨_, _, proc, _, ret, hplay.append henter, hph, hcur, ?_⟩
  rintro ⟨x, hx⟩
  rw [hx] at hpanic
  cases hpanic

theorem never_panics_forty : ∃ es s proc, Run es s ∧ getCurrent s.pm = .ok (0, proc) ∧ ¬ InTable proc.signal := by
  obtain ⟨es, s, proc, call, ret, hrun, hph, hcur, hpanic⟩ := forty_run
  obtain ⟨pid, proc', hcur', hiff, -⟩ := (never_panics hrun).2 call ret hph
  rw [hcur] at hcur'
  cases hcur'
  exact ⟨es, s, proc, hrun, hcur, fun hin => hpanic (hiff.mpr hin)⟩

/-- A signal that `kill` accepts and no table has an entry for. -/
theorem kill_crashes : ¬ ∀ es s call ret pid proc, Run es s → s.phase = .signals call ret →
    getCurrent s.pm = .ok (pid, proc) → ∃ x, proc.signal.handleSignals proc.context = .ok x := by
  obtain ⟨es, s, proc, call, ret, hrun, hph, hcur, hpanic⟩ := forty_run
  exact fun h => hpanic (h es s call ret 0 proc hrun hph hcur)

/-! ## The program image -/

/-- Process `p` replaces its program. -/
def Execs (e : Turn) (p : ProcId) : Prop := ∃ regs image, e.event = .syscall p regs (.exec (some image)) (some 0)

/-- Process `p` installs the action for the signal. -/
def Installs (e : Turn) (p : ProcId) (k : SignalNo) (a : SignalAction) : Prop :=
  ∃ regs signum oldAction, e.event = .syscall p regs (.sigaction signum (some (some a)) oldAction) (some 0) ∧
    SignalNo.tryFrom signum = some k

def Masks (e : Turn) (p : ProcId) : Prop := ∃ regs mask ret, e.event = .syscall p regs (.sigprocmask mask) ret

/-- What a process that replaced its program has for signals was set after that. -/
def SetSince (es : List Turn) (s : State) : Prop :=
  ∀ es1 e es2 p proc, es = es1 ++ e :: es2 → Execs e p → s.tasks p = some proc →
    (∀ k a, proc.signal.actions[k.val]? = some (some a) → ∃ x ∈ es2, Installs x p k a) ∧
      ∀ k, proc.signal.mask.containBit k = true → ∃ x ∈ es2, Masks x p

/-- A process that replaces its program has no action and no mask. -/
def Clean (e : Turn) : Prop :=
  ∀ p proc, Execs e p → e.before.tasks p = some proc →
    (∀ (k : SignalNo) a, proc.signal.actions[k.val]? ≠ some (some a)) ∧ proc.signal.mask = 0

section

variable {s t : State} {e : Turn} {es : List Turn} {p : ProcId}

theorem mask_zero {mask : SignalSet} : mask = 0 ↔ ∀ k, mask.containBit k = false := by
  constructor
  · intro h k
    rw [h, SignalSet.containBit_zero]
  · intro h
    apply BitVec.eq_of_getLsbD_eq
    intro i hi
    have hbit := h ⟨i, hi⟩
    rw [← @SignalSet.containBit_zero ⟨i, hi⟩] at hbit
    exact hbit

/-- The signals of the process stay. -/
theorem Execs.signal (hx : Execs e p) (h : Step e.before e.event e.after) : ∃ proc image,
    e.before.tasks p = some proc ∧ e.after.tasks p = some ⟨image, proc.signal⟩ := by
  obtain ⟨regs, image, he⟩ := hx
  rw [he] at h
  obtain ⟨proc, hcur⟩ := current_task h
  generalize hb : e.before = s at h hcur ⊢
  generalize ha : e.after = t at h ⊢
  cases h with
  | syscall hph hc hfresh hcall =>
    refine ⟨proc, image, (getCurrent_ok.mp hcur).2, ?_⟩
    unfold State.tasks
    dsimp only
    rw [(syscall_did hcur hcall).1.2, BTreeMap.insert_apply, if_pos rfl]

theorem execs_used (h : Run es s) (he : e ∈ es) (hx : Execs e p) : p ∈ s.used := by
  induction h with
  | nil => cases he
  | snoc hrun hs ih =>
    rcases List.mem_append.mp he with he | he
    · exact hs.2.2.used_mono (ih he)
    · rw [List.mem_singleton] at he
      subst he
      obtain ⟨hb, ha, hs⟩ := hs
      subst hb
      obtain ⟨proc, image, hp, -⟩ := hx.signal (by rw [ha]; exact hs)
      exact hs.used_mono ((sInv_run hrun).used hp)

/-- What was set since is still so after one more step. -/
theorem SetSince.step (hi : SetSince es s) (hrun : Run es s) (hb : e.before = s) (ha : e.after = t)
    (h : Step s e.event t) (hclean : Clean e) : SetSince (es ++ [e]) t := by
  intro es1 x es2 p proc hes hx hp
  rcases List.eq_nil_or_concat' es2 with rfl | ⟨es3, y, rfl⟩
  · -- the step is the `exec` itself
    obtain ⟨-, hlast⟩ := List.append_inj' hes rfl
    cases hlast
    subst hb
    subst ha
    obtain ⟨old, image, hold, hnew⟩ := hx.signal h
    rw [hnew] at hp
    cases hp
    obtain ⟨hactions, hmask⟩ := hclean p old hx hold
    refine ⟨fun k a hk => absurd hk (hactions k a), fun k hk => ?_⟩
    have hk : old.signal.mask.containBit k = true := hk
    rw [mask_zero.mp hmask k] at hk
    cases hk
  · rw [← List.cons_append, ← List.append_assoc] at hes
    obtain ⟨rfl, hlast⟩ := List.append_inj' hes rfl
    cases hlast
    have hused : p ∈ s.used := execs_used hrun (List.mem_append_right _ List.mem_cons_self) hx
    have hkeep : ∀ {old : Process}, s.tasks p = some old → (∀ k a, old.signal.actions[k.val]? = some (some a) →
          ∃ z ∈ es3 ++ [e], Installs z p k a) ∧
        ∀ k, old.signal.mask.containBit k = true → ∃ z ∈ es3 ++ [e], Masks z p := by
      intro old hold
      obtain ⟨hactions, hmask⟩ := hi es1 x es3 p old rfl hx hold
      constructor
      · intro k a hk
        obtain ⟨z, hz, hset⟩ := hactions k a hk
        exact ⟨z, List.mem_append_left _ hz, hset⟩
      · intro k hk
        obtain ⟨z, hz, hset⟩ := hmask k hk
        exact ⟨z, List.mem_append_left _ hz, hset⟩
    have hself : e ∈ es3 ++ [e] := List.mem_append_right _ (List.mem_singleton_self _)
    generalize hev : e.event = ev at h
    cases h.became hp with
    | boot =>
      cases h with
      | boot => cases hused
    | fork =>
      cases h with
      | syscall _ _ hfresh => exact absurd hused hfresh.1
    | still hs | trap hs | exec hs | sigreturn hs | killSelf hs | kill hs =>
      have hsame := hkeep hs
      exact hsame
    | signals hs _ hh =>
      have hsame := hkeep hs
      rw [← (handle_keeps hh).1, ← (handle_keeps hh).2] at hsame
      exact hsame
    | @sigaction old regs signum j b oldAction hs hj =>
      obtain ⟨hactions, hmask⟩ := hkeep hs
      refine ⟨fun k a hk => ?_, hmask⟩
      have hk : (old.signal.actions.set j.val (some b))[k.val]? = some (some a) := hk
      by_cases hjk : j.val = k.val
      · rw [hjk, List.getElem?_set] at hk
        split at hk
        · split at hk
          · cases hk
            exact ⟨e, hself, regs, signum, oldAction, hev, by rw [hj, Fin.ext hjk]⟩
          · cases hk
        · rename_i hne
          exact absurd rfl hne
      · rw [List.getElem?_set_ne hjk] at hk
        exact hactions k a hk
    | sigprocmask hs =>
      exact ⟨(hkeep hs).1, fun k _ => ⟨e, hself, _, _, _, hev⟩⟩

theorem setSince_run (h : Run es s) (hclean : ∀ e ∈ es, Clean e) : SetSince es s := by
  induction h with
  | nil =>
    intro es1 e es2 p proc hes
    exact absurd hes (by simp)
  | snoc hrun hs ih =>
    have hset := ih fun e he => hclean e (List.mem_append_left _ he)
    exact hset.step hrun hs.1 hs.2.1 hs.2.2 (hclean _ (List.mem_append_right _ (List.mem_singleton_self _)))

end

/-- In every run: the actions and the mask of a process that replaced its program were set after
    that, in all states of the run, exactly when it had none at each `exec`. -/
theorem exec_dispositions {es : List Turn} {s : State} (h : Run es s) :
    (∀ es1 e es2, es = es1 ++ e :: es2 → SetSince (es1 ++ [e]) e.after) ↔ ∀ e ∈ es, Clean e := by
  constructor
  · intro hset e he p proc hx hp
    obtain ⟨es1, es2, rfl⟩ := List.append_of_mem he
    obtain ⟨-, hs, -⟩ := h.at
    obtain ⟨proc', image, hp', hafter⟩ := hx.signal hs
    rw [hp] at hp'
    cases hp'
    obtain ⟨hactions, hmask⟩ := hset es1 e es2 rfl es1 e [] p _ rfl hx hafter
    constructor
    · intro k a hk
      obtain ⟨x, hx, -⟩ := hactions k a hk
      cases hx
    · refine mask_zero.mpr fun k => Bool.eq_false_iff.mpr fun hk => ?_
      obtain ⟨x, hx, -⟩ := hmask k hk
      cases hx
  · rintro hclean es1 e es2 rfl
    refine setSince_run h.at.2.2 fun x hx => hclean x ?_
    rcases List.mem_append.mp hx with hx | hx
    · exact List.mem_append_left _ hx
    · rw [List.mem_singleton.mp hx]
      exact List.mem_append_right _ List.mem_cons_self

/-- Process 0 has an action for signal 10 when it replaces its program. -/
def stale : Except Halt (List Turn × State) := do
  let (es, s) ← play (.user 0) [⟨.user 0, .sigaction 10 (some (some ⟨4096, 0⟩)) none⟩]
  let (es', s) ← enter s ⟨.user 0, .exec (some (.user 65536))⟩
  .ok (es ++ es', s)

theorem stale_run : ∃ es e s, Run (es ++ [e]) s ∧ e.after = s ∧ Execs e 0 ∧ ∃ proc, s.tasks 0 = some proc ∧
    proc.signal.actions[10]? = some (some ⟨4096, 0⟩) := by
  have hsees : (stale.map fun x => ((x.1.map callOf).getLast?, (x.2.tasks 0).bind fun proc => proc.signal.actions[10]?)) =
      .ok (some (some (some 0)), some (some ⟨4096, 0⟩)) := by
    rfl
  obtain ⟨⟨es, s⟩, hrun, hsees⟩ := map_eq_ok hsees
  rw [Prod.mk.injEq] at hsees
  obtain ⟨hcall, hactions⟩ := hsees
  obtain ⟨⟨es1, s1⟩, h1, hrun⟩ := bind_eq_ok.mp hrun
  obtain ⟨⟨es2, s2⟩, h2, hrun⟩ := bind_eq_ok.mp hrun
  cases hrun
  obtain ⟨hplay, hidle⟩ := play_run h1
  obtain ⟨henter, d, e, pid, ret, rfl, -, he, ha, -⟩ := enter_turns hidle h2
  obtain ⟨proc, hproc, hactions⟩ := Option.bind_eq_some_iff.mp hactions
  have hrun : Run ((es1 ++ [d]) ++ [e]) s := by
    rw [List.append_assoc]
    exact hplay.append henter
  refine ⟨es1 ++ [d], e, s, hrun, ha, ⟨.user 0, .user 65536, ?_⟩, proc, hproc, hactions⟩
  have hlast : callOf e = some (some 0) := by
    simpa using hcall
  exact callOf_eq he hlast

theorem exec_dispositions_stale : ∃ es s, Run es s ∧ ¬ ∀ e ∈ es, Clean e := by
  obtain ⟨es, e, s, hrun, ha, hx, proc, hproc, hk⟩ := stale_run
  refine ⟨es ++ [e], s, hrun, fun hclean => ?_⟩
  have hset := (exec_dispositions hrun).mpr hclean es e [] rfl
  rw [ha] at hset
  obtain ⟨x, hx, -⟩ := (hset es e [] 0 proc rfl hx hproc).1 10 ⟨4096, 0⟩ hk
  cases hx

/-- The handler is an address of the program before. -/
theorem handler_survives : ¬ ∀ es s, Run es s → SetSince es s := by
  obtain ⟨es, e, s, hrun, ha, hx, proc, hproc, hk⟩ := stale_run
  intro hall
  obtain ⟨x, hx, -⟩ := (hall _ _ hrun es e [] 0 proc rfl hx hproc).1 10 ⟨4096, 0⟩ hk
  cases hx

end TgRcore.Kernel.ProcessLoop
