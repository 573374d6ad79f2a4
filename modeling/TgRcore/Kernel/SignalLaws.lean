/-
  TgRcore.Kernel.SignalLaws — the signals of one process over every history of calls.

  - `Life`: the calls so far, each with its reply and the states around it.
  - `handle_cases`, `deliver_ok`: what one call of `handle_signals` can do.
  - `pending_law`: a signal is pending exactly when it was added and not acted on since; the
    least one that is not masked is acted on; one context is saved and given back.
  - `sigkill_law`: when a pending SIGKILL ends the process.
  - `stop_continue`: when a SIGSTOP and a later SIGCONT leave the process as it was.
-/

import TgRcore.Kernel.Signal
import TgRcore.Lib.Exec

namespace TgRcore.Kernel

open TgRcore.BlockProg

/-! ## Sets of signals -/

namespace SignalSet

variable {s mask : SignalSet} {j k : SignalNo}

@[simp] theorem containBit_zero : containBit 0 k = false := by simp [containBit]

theorem one_shift_bit : (1#64 <<< k.val).getLsbD j.val = decide (j = k) := by
  have hk := k.isLt
  have hj := j.isLt
  rw [BitVec.getLsbD_shiftLeft, BitVec.getLsbD_one, Bool.eq_iff_iff]
  simp only [Bool.and_eq_true, Bool.not_eq_true', decide_eq_true_eq, decide_eq_false_iff_not, Fin.ext_iff]
  omega

@[simp] theorem containBit_add : containBit (addBit s k) j = (containBit s j || decide (j = k)) := by
  unfold containBit addBit
  rw [BitVec.getLsbD_or, one_shift_bit]

@[simp] theorem containBit_remove : containBit (removeBit s k) j = (containBit s j && !decide (j = k)) := by
  unfold containBit removeBit
  rw [BitVec.getLsbD_and, BitVec.getLsbD_not, one_shift_bit]
  simp

/-- The least bit that is set and not masked, or none. -/
theorem findFirstOne_some : findFirstOne s mask = some k ↔
    (containBit s k = true ∧ containBit mask k = false) ∧
      ∀ j, j < k → ¬ (containBit s j = true ∧ containBit mask j = false) := by
  have hbit : ∀ j : SignalNo, containBit (s &&& ~~~mask) j = true ↔ containBit s j = true ∧ containBit mask j = false := by
    intro j
    unfold containBit
    rw [BitVec.getLsbD_and, BitVec.getLsbD_not]
    simp
  unfold findFirstOne
  rw [List.find?_eq_some_iff_getElem]
  constructor
  · rintro ⟨hk, i, hi, he, hbefore⟩
    refine ⟨(hbit k).mp hk, fun j hj hset => ?_⟩
    have hik : i = k.val := by
      rw [← he, List.getElem_finRange]
      simp
    have hlt : j.val < i := by
      rw [hik]
      exact hj
    have hno := hbefore j.val hlt
    rw [List.getElem_finRange] at hno
    have hjj : Fin.cast (List.length_finRange) ⟨j.val, by simp⟩ = j := Fin.ext rfl
    simp only [Bool.not_eq_true', hjj] at hno
    rw [(hbit j).mpr hset] at hno
    cases hno
  · rintro ⟨hk, hleast⟩
    refine ⟨(hbit k).mpr hk, k.val, by simp, ?_, ?_⟩
    · rw [List.getElem_finRange]
      exact Fin.ext rfl
    · intro j hj
      rw [List.getElem_finRange, Bool.not_eq_true', Bool.eq_false_iff]
      intro hset
      exact hleast _ hj ((hbit _).mp hset)

theorem findFirstOne_none : findFirstOne s mask = none ↔ ∀ k, ¬ (containBit s k = true ∧ containBit mask k = false) := by
  constructor
  · intro hnone k hk
    unfold findFirstOne at hnone
    rw [List.find?_eq_none] at hnone
    refine hnone k (List.mem_finRange k) ?_
    unfold containBit at *
    rw [BitVec.getLsbD_and, BitVec.getLsbD_not, hk.1, hk.2]
    simp
  · intro hno
    cases hf : findFirstOne s mask with
    | none => rfl
    | some k => exact absurd (findFirstOne_some.mp hf).1 (hno k)

end SignalSet

/-! ## One call -/

/-- A signal that a trap may take: it is pending and not masked. -/
def Deliverable (s : SignalImpl) (k : SignalNo) : Prop :=
  s.received.containBit k = true ∧ s.mask.containBit k = false

instance (s : SignalImpl) (k : SignalNo) : Decidable (Deliverable s k) := inferInstanceAs (Decidable (_ ∧ _))

/-- The signal that a trap takes when none is being handled. -/
def First (s : SignalImpl) (k : SignalNo) : Prop := Deliverable s k ∧ ∀ j, j < k → ¬ Deliverable s j

/-- What is done for a signal: how the call ends, what is handled then, and the context. -/
def Delivered (s : SignalImpl) (k : SignalNo) (ctx : LocalContext) (r : SignalResult) (handling : Option HandlingSignal)
    (ctx' : LocalContext) : Prop :=
  k = SignalNo.SIGKILL ∧ r = .processKilled (-9) ∧ handling = none ∧ ctx' = ctx ∨
  k = SignalNo.SIGSTOP ∧ r = .processSuspended ∧ handling = some .frozen ∧ ctx' = ctx ∨
  (k ≠ SignalNo.SIGKILL ∧ k ≠ SignalNo.SIGSTOP) ∧
    ((∃ action, s.actions[k.val]? = some (some action) ∧ r = .handled ∧ handling = some (.userSignal ctx) ∧
        ctx' = { ctx with sepc := action.handler }.setA 0 k) ∨
      s.actions[k.val]? = some none ∧ r = SignalImpl.defaultAction k ∧ handling = none ∧ ctx' = ctx)

section

variable {s s' : SignalImpl} {ctx ctx' : LocalContext} {r : SignalResult} {k j : SignalNo}

theorem first_iff : s.received.findFirstOne s.mask = some k ↔ First s k := SignalSet.findFirstOne_some

theorem First.unique (hk : First s k) (hj : First s j) : k = j := by
  rcases lt_trichotomy k j with h | h | h
  · exact absurd hk.1 (hj.2 k h)
  · exact h
  · exact absurd hj.1 (hk.2 j h)

/-- Some signal comes first when there is any. -/
theorem Deliverable.first (h : Deliverable s k) : ∃ j, First s j ∧ j ≤ k := by
  cases hf : s.received.findFirstOne s.mask with
  | none => exact absurd h (SignalSet.findFirstOne_none.mp hf k)
  | some j =>
    have hj := first_iff.mp hf
    exact ⟨j, hj, not_lt.mp fun hlt => hj.2 k hlt h⟩

theorem deliver_ok (hn : s.handling = none) (h : s.deliver k ctx = .ok (r, s', ctx')) :
    s' = { s with handling := s'.handling } ∧ Delivered s k ctx r s'.handling ctx' := by
  unfold SignalImpl.deliver at h
  split at h
  · rename_i hk
    cases h
    refine ⟨rfl, .inl ⟨hk, by rw [hk]; rfl, hn, rfl⟩⟩
  · rename_i hk
    split at h
    · rename_i hs
      cases h
      exact ⟨rfl, .inr (.inl ⟨hs, rfl, rfl, rfl⟩)⟩
    · rename_i hs
      split at h
      · cases h
      · rename_i action ha
        cases h
        exact ⟨rfl, .inr (.inr ⟨⟨hk, hs⟩, .inl ⟨action, ha, rfl, rfl, rfl⟩⟩)⟩
      · rename_i ha
        cases h
        exact ⟨rfl, .inr (.inr ⟨⟨hk, hs⟩, .inr ⟨ha, rfl, hn, rfl⟩⟩)⟩

/-- A signal that the table has an entry for is delivered. -/
theorem deliver_total (hk : k.val < s.actions.length) : ∃ x, s.deliver k ctx = .ok x := by
  unfold SignalImpl.deliver
  split
  · exact ⟨_, rfl⟩
  · split
    · exact ⟨_, rfl⟩
    · rw [List.getElem?_eq_getElem hk]
      cases s.actions[k.val] with
      | none => exact ⟨_, rfl⟩
      | some action => exact ⟨_, rfl⟩

theorem deliver_error (h1 : k ≠ SignalNo.SIGKILL) (h2 : k ≠ SignalNo.SIGSTOP) (hk : s.actions.length ≤ k.val) :
    s.deliver k ctx = .error .panic := by
  unfold SignalImpl.deliver
  rw [if_neg h1, if_neg h2, List.getElem?_eq_none hk]

/-- Everything that a call of `handle_signals` can do. -/
theorem handle_cases (h : s.handleSignals ctx = .ok (r, s', ctx')) :
    (∃ old, s.handling = some (.userSignal old) ∧ r = .isHandlingSignal ∧ s' = s ∧ ctx' = ctx) ∨
    (s.handling = some .frozen ∧ Deliverable s SignalNo.SIGCONT ∧ r = .handled ∧
      s' = { s with received := s.received.removeBit SignalNo.SIGCONT, handling := none } ∧ ctx' = ctx) ∨
    (s.handling = some .frozen ∧ ¬ Deliverable s SignalNo.SIGCONT ∧ r = .processSuspended ∧ s' = s ∧ ctx' = ctx) ∨
    (s.handling = none ∧ (∀ k, ¬ Deliverable s k) ∧ r = .noSignal ∧ s' = s ∧ ctx' = ctx) ∨
    ∃ k, s.handling = none ∧ First s k ∧
      s' = { s with received := s.received.removeBit k, handling := s'.handling } ∧
      Delivered s k ctx r s'.handling ctx' := by
  unfold SignalImpl.handleSignals at h
  split at h
  · rename_i hh
    split at h
    · rename_i hc
      rw [Bool.and_eq_true, Bool.not_eq_true'] at hc
      cases h
      exact .inr (.inl ⟨hh, hc, rfl, rfl, rfl⟩)
    · rename_i hc
      rw [Bool.and_eq_true, Bool.not_eq_true'] at hc
      cases h
      exact .inr (.inr (.inl ⟨hh, hc, rfl, rfl, rfl⟩))
  · rename_i old hh
    cases h
    exact .inl ⟨old, hh, rfl, rfl, rfl⟩
  · rename_i hh
    split at h
    · rename_i k hf
      obtain ⟨hs', hd⟩ := deliver_ok (s := { s with received := s.received.removeBit k }) hh h
      exact .inr (.inr (.inr (.inr ⟨k, hh, first_iff.mp hf, hs', hd⟩)))
    · rename_i hf
      cases h
      exact .inr (.inr (.inr (.inl ⟨hh, SignalSet.findFirstOne_none.mp hf, rfl, rfl, rfl⟩)))

/-- No call of `handle_signals` changes actions or mask. -/
theorem handle_keeps (h : s.handleSignals ctx = .ok (r, s', ctx')) : s'.actions = s.actions ∧ s'.mask = s.mask := by
  rcases handle_cases h with ⟨_, _, _, h, _⟩ | ⟨_, _, _, h, _⟩ | ⟨_, _, _, h, _⟩ | ⟨_, _, _, h, _⟩ | ⟨_, _, _, h, _⟩
  · rw [h]
    exact ⟨rfl, rfl⟩
  · rw [h]
    exact ⟨rfl, rfl⟩
  · rw [h]
    exact ⟨rfl, rfl⟩
  · rw [h]
    exact ⟨rfl, rfl⟩
  · rw [h]
    exact ⟨rfl, rfl⟩

theorem handle_first (hn : s.handling = none) (hf : First s k) :
    s.handleSignals ctx = SignalImpl.deliver { s with received := s.received.removeBit k } k ctx := by
  unfold SignalImpl.handleSignals
  rw [hn]
  dsimp only
  rw [first_iff.mpr hf]

/-- A call stops the kernel exactly when the signal that it takes is past the table. -/
theorem handle_panics (hlen : s.actions.length = maxSig + 1) :
    s.handleSignals ctx = .error .panic ↔ s.handling = none ∧ ∃ k, First s k ∧ maxSig < k.val := by
  constructor
  · intro h
    unfold SignalImpl.handleSignals at h
    split at h
    · split at h
      · cases h
      · cases h
    · cases h
    · rename_i hh
      split at h
      · rename_i k hf
        refine ⟨hh, k, first_iff.mp hf, ?_⟩
        by_contra hle
        obtain ⟨x, hx⟩ := @deliver_total { s with received := s.received.removeBit k } ctx k (by rw [hlen]; omega)
        rw [hx] at h
        cases h
      · cases h
  · rintro ⟨hh, k, hf, hlt⟩
    rw [handle_first hh hf]
    refine deliver_error ?_ ?_ ?_
    · intro e
      rw [e] at hlt
      exact absurd hlt (by decide)
    · intro e
      rw [e] at hlt
      exact absurd hlt (by decide)
    · rw [hlen]
      exact hlt

end

/-! ## Histories -/

/-- The calls on the signals of a process. -/
inductive SigOp where
  | addSignal (signal : SignalNo)
  | updateMask (mask : Nat)
  | setAction (signum : SignalNo) (action : SignalAction)
  | handleSignals (context : LocalContext)
  | sigReturn (context : LocalContext)

inductive Reply where
  | unit
  | mask (old : Nat)
  | done (done : Bool)
  | handled (result : SignalResult) (context : LocalContext)
  | returned (done : Bool) (context : LocalContext)

def SigOp.run (s : SignalImpl) : SigOp → Except Halt (Reply × SignalImpl)
  | .addSignal signal => .ok (.unit, s.addSignal signal)
  | .updateMask mask => .ok (.mask (s.updateMask mask).1, (s.updateMask mask).2)
  | .setAction signum action => do
    let (done, s) ← s.setAction signum action
    .ok (.done done, s)
  | .handleSignals context => do
    let (result, s, context) ← s.handleSignals context
    .ok (.handled result context, s)
  | .sigReturn context => .ok (.returned (s.sigReturn context).1 (s.sigReturn context).2.2, (s.sigReturn context).2.1)

/-- A call, its reply and the states before and after. -/
structure Call where
  before : SignalImpl
  op : SigOp
  reply : Reply
  after : SignalImpl

/-- The calls that lead from one state to another. -/
abbrev Life (s : SignalImpl) (es : List Call) (t : SignalImpl) : Prop :=
  Exec (fun s e t => e.before = s ∧ e.after = t ∧ e.op.run s = .ok (e.reply, t)) s es t

/-- The call takes the signal off the pending ones and does what is to be done for it: a
    process that is stopped goes on, or the signal is delivered. -/
structure ActsOn (e : Call) (k : SignalNo) : Prop where
  before : e.before.received.containBit k = true
  after : e.after.received.containBit k = false
  outcome : ∃ ctx r ctx', e.op = .handleSignals ctx ∧ e.reply = .handled r ctx' ∧
    (e.before.handling = some .frozen ∧ k = SignalNo.SIGCONT ∧ r = .handled ∧ e.after.handling = none ∧ ctx' = ctx ∨
      e.before.handling = none ∧ Delivered e.before k ctx r e.after.handling ctx')

/-- The signal was added, and not acted on since. -/
def Outstanding (es : List Call) (k : SignalNo) : Prop :=
  ∃ es1 e es2, es = es1 ++ e :: es2 ∧ e.op = .addSignal k ∧ ∀ x ∈ es2, ¬ ActsOn x k

/-- The context was given to the call that saved it, and a context has been saved ever since. -/
def SavedBy (es : List Call) (c : LocalContext) : Prop :=
  ∃ es1 e es2, es = es1 ++ e :: es2 ∧ e.op = .handleSignals c ∧ e.before.handling = none ∧
    ∀ x ∈ e :: es2, x.after.handling = some (.userSignal c)

section

variable {s s' t : SignalImpl} {ctx ctx' : LocalContext} {r : SignalResult} {k j : SignalNo} {es : List Call} {e : Call}

theorem outstanding_snoc : Outstanding (es ++ [e]) k ↔ e.op = .addSignal k ∨ Outstanding es k ∧ ¬ ActsOn e k :=
  since_snoc

theorem Call.handle_ok (h : e.op.run s = .ok (e.reply, t)) (ho : e.op = .handleSignals ctx) :
    ∃ r ctx', s.handleSignals ctx = .ok (r, t, ctx') ∧ e.reply = .handled r ctx' := by
  rw [ho] at h
  obtain ⟨⟨r, t', ctx'⟩, hh, h⟩ := bind_eq_ok.mp h
  rw [Except.ok.injEq, Prod.mk.injEq] at h
  exact ⟨r, ctx', by rw [hh, h.2], h.1.symm⟩

/-- What a call of `handle_signals` did to a signal that was pending. -/
theorem handle_actsOn (hb : e.before = s) (ha : e.after = t) (ho : e.op = .handleSignals ctx)
    (hh : s.handleSignals ctx = .ok (r, t, ctx')) (hr : e.reply = .handled r ctx') (j : SignalNo) :
    (ActsOn e j ↔ s.received.containBit j = true ∧ t.received.containBit j = false) ∧
      (t.received.containBit j = true → s.received.containBit j = true) := by
  subst hb
  subst ha
  have hcases := handle_cases hh
  have hmono : e.after.received.containBit j = true → e.before.received.containBit j = true := by
    intro hj
    rcases hcases with ⟨_, _, _, h, _⟩ | ⟨_, _, _, h, _⟩ | ⟨_, _, _, h, _⟩ | ⟨_, _, _, h, _⟩ | ⟨k, _, _, h, _⟩
    · rwa [h] at hj
    · rw [h, SignalSet.containBit_remove, Bool.and_eq_true] at hj
      exact hj.1
    · rwa [h] at hj
    · rwa [h] at hj
    · rw [h, SignalSet.containBit_remove, Bool.and_eq_true] at hj
      exact hj.1
  refine ⟨⟨fun hact => ⟨hact.before, hact.after⟩, ?_⟩, hmono⟩
  rintro ⟨hbefore, hafter⟩
  refine ⟨hbefore, hafter, ctx, r, ctx', ho, hr, ?_⟩
  rcases hcases with ⟨_, _, _, h, _⟩ | ⟨hm, _, hres, h, hc⟩ | ⟨_, _, _, h, _⟩ | ⟨_, _, _, h, _⟩ | ⟨k, hm, _, h, hd⟩
  · rw [h, hbefore] at hafter
    cases hafter
  · rw [h, SignalSet.containBit_remove, hbefore, Bool.true_and, Bool.not_eq_false', decide_eq_true_eq] at hafter
    exact .inl ⟨hm, hafter, hres, by rw [h], hc⟩
  · rw [h, hbefore] at hafter
    cases hafter
  · rw [h, hbefore] at hafter
    cases hafter
  · rw [h, SignalSet.containBit_remove, hbefore, Bool.true_and, Bool.not_eq_false', decide_eq_true_eq] at hafter
    rw [hafter]
    exact .inr ⟨hm, hd⟩

theorem run_other (h : e.op.run s = .ok (e.reply, t)) (hno : ∀ ctx, e.op ≠ .handleSignals ctx) :
    (∀ k, t.received.containBit k = true ↔ e.op = .addSignal k ∨ s.received.containBit k = true) ∧
      (t.handling = s.handling ∨ t.handling = none) ∧ t.actions.length = s.actions.length := by
  cases ho : e.op with
  | addSignal j =>
    rw [ho, SigOp.run, Except.ok.injEq, Prod.mk.injEq] at h
    rw [← h.2]
    refine ⟨fun k => ?_, .inl rfl, rfl⟩
    unfold SignalImpl.addSignal
    rw [SignalSet.containBit_add, Bool.or_eq_true, decide_eq_true_eq, SigOp.addSignal.injEq]
    exact or_comm.trans (or_congr_left ⟨fun e => e.symm, fun e => e.symm⟩)
  | updateMask mask =>
    rw [ho, SigOp.run, Except.ok.injEq, Prod.mk.injEq] at h
    rw [← h.2]
    refine ⟨fun k => ⟨.inr, fun hor => ?_⟩, .inl rfl, rfl⟩
    exact hor.resolve_left fun e => by cases e
  | setAction signum action =>
    rw [ho] at h
    obtain ⟨⟨done, s1⟩, hset, h⟩ := bind_eq_ok.mp h
    rw [Except.ok.injEq, Prod.mk.injEq] at h
    rw [← h.2]
    have hsame : s1.received = s.received ∧ s1.handling = s.handling ∧ s1.actions.length = s.actions.length := by
      unfold SignalImpl.setAction at hset
      split at hset
      · cases hset
        exact ⟨rfl, rfl, rfl⟩
      · split at hset
        · cases hset
          exact ⟨rfl, rfl, List.length_set⟩
        · cases hset
    rw [hsame.1, hsame.2.1, hsame.2.2]
    refine ⟨fun k => ⟨.inr, fun hor => ?_⟩, .inl rfl, rfl⟩
    exact hor.resolve_left fun e => by cases e
  | handleSignals ctx => exact absurd ho (hno ctx)
  | sigReturn ctx =>
    rw [ho, SigOp.run, Except.ok.injEq, Prod.mk.injEq] at h
    rw [← h.2]
    refine ⟨fun k => ⟨fun hk => .inr ?_, fun hor => ?_⟩, ?_, ?_⟩
    · unfold SignalImpl.sigReturn at hk
      split at hk
      · exact hk
      · exact hk
    · have hk := hor.resolve_left fun e => by cases e
      unfold SignalImpl.sigReturn
      split
      · exact hk
      · exact hk
    · unfold SignalImpl.sigReturn
      split
      · exact .inr rfl
      · exact .inl rfl
    · unfold SignalImpl.sigReturn
      split
      · rfl
      · rfl

theorem SavedBy.snoc {c : LocalContext} (h : SavedBy es c) (ha : e.after.handling = some (.userSignal c)) :
    SavedBy (es ++ [e]) c := by
  obtain ⟨es1, a, es2, rfl, ho, hb, hall⟩ := h
  refine ⟨es1, a, es2 ++ [e], by simp, ho, hb, ?_⟩
  intro x hx
  rw [← List.cons_append] at hx
  rcases List.mem_append.mp hx with hx | hx
  · exact hall x hx
  · rw [List.mem_singleton.mp hx]
    exact ha

structure LifeInv (es : List Call) (t : SignalImpl) : Prop where
  pending : ∀ k, t.received.containBit k = true ↔ Outstanding es k
  saved : ∀ c, t.handling = some (.userSignal c) → SavedBy es c
  table : t.actions.length = maxSig + 1

theorem LifeInv.step (hi : LifeInv es s) (hb : e.before = s) (ha : e.after = t) (h : e.op.run s = .ok (e.reply, t)) :
    LifeInv (es ++ [e]) t := by
  by_cases hop : ∃ ctx, e.op = .handleSignals ctx
  · obtain ⟨ctx, ho⟩ := hop
    obtain ⟨r, ctx', hh, hr⟩ := Call.handle_ok h ho
    refine ⟨fun k => ?_, fun c hc => ?_, ?_⟩
    · obtain ⟨hact, hmono⟩ := handle_actsOn hb ha ho hh hr k
      have hadd : e.op ≠ .addSignal k := by
        rw [ho]
        intro e
        cases e
      rw [outstanding_snoc, or_iff_right hadd, ← hi.pending k, hact]
      constructor
      · intro hk
        exact ⟨hmono hk, fun hno => by rw [hk] at hno; cases hno.2⟩
      · rintro ⟨hk, hno⟩
        by_contra hnot
        exact hno ⟨hk, Bool.eq_false_iff.mpr hnot⟩
    · rcases handle_cases hh with ⟨_, _, _, hs, _⟩ | ⟨_, _, _, hs, _⟩ | ⟨_, _, _, hs, _⟩ | ⟨_, _, _, hs, _⟩ |
        ⟨k, hn, _, _, hd⟩
      · rw [hs] at hc
        exact (hi.saved c hc).snoc (by rw [ha, hs, hc])
      · rw [hs] at hc
        cases hc
      · rw [hs] at hc
        exact (hi.saved c hc).snoc (by rw [ha, hs, hc])
      · rw [hs] at hc
        exact (hi.saved c hc).snoc (by rw [ha, hs, hc])
      · rw [hc] at hd
        rcases hd with ⟨_, _, hx, _⟩ | ⟨_, _, hx, _⟩ | ⟨_, ⟨_, _, _, hx, _⟩ | ⟨_, _, hx, _⟩⟩
        · cases hx
        · cases hx
        · cases hx
          refine ⟨es, e, [], rfl, ho, by rw [hb, hn], fun x hx => ?_⟩
          rw [List.mem_singleton.mp hx, ha, hc]
        · cases hx
    · rcases handle_cases hh with ⟨_, _, _, hs, _⟩ | ⟨_, _, _, hs, _⟩ | ⟨_, _, _, hs, _⟩ | ⟨_, _, _, hs, _⟩ |
        ⟨k, _, _, hs, _⟩
      all_goals
        rw [hs]
        exact hi.table
  · have hno : ∀ ctx, e.op ≠ .handleSignals ctx := fun ctx ho => hop ⟨ctx, ho⟩
    obtain ⟨hrec, hmode, htable⟩ := run_other h hno
    refine ⟨fun k => ?_, fun c hc => ?_, by rw [htable, hi.table]⟩
    · have hact : ¬ ActsOn e k := by
        rintro ⟨-, -, ctx, _, _, ho, -⟩
        exact hno ctx ho
      rw [hrec, outstanding_snoc, hi.pending k, and_iff_left hact]
    · rcases hmode with hm | hm
      · rw [hm] at hc
        exact (hi.saved c hc).snoc (by rw [ha, hm, hc])
      · rw [hm] at hc
        cases hc

theorem lifeInv_run (h : Life .new es t) : LifeInv es t := by
  refine h.inv (P := fun es t => LifeInv es t) ⟨fun k => ?_, ?_, ?_⟩ fun hi hs => hi.step hs.1 hs.2.1 hs.2.2
  · constructor
    · intro hk
      have hk : SignalSet.containBit 0 k = true := hk
      rw [SignalSet.containBit_zero] at hk
      cases hk
    · rintro ⟨es1, a, es2, he, -⟩
      cases es1 <;> cases he
  · intro c hc
    cases hc
  · exact List.length_replicate

/-- The calls before one of a history lead to the state that it was made in. -/
theorem Life.split {es1 es2 : List Call} (h : Life s (es1 ++ e :: es2) t) : Life s es1 e.before ∧
    e.op.run e.before = .ok (e.reply, e.after) := by
  generalize hes : es1 ++ e :: es2 = es at h
  induction h generalizing es2 with
  | nil => cases es1 <;> cases hes
  | snoc hl hstep ih =>
    rcases List.eq_nil_or_concat' es2 with rfl | ⟨es3, x, rfl⟩
    · obtain ⟨rfl, hx⟩ := List.append_inj' hes rfl
      cases hx
      obtain ⟨rfl, rfl, hok⟩ := hstep
      exact ⟨hl, hok⟩
    · rw [← List.cons_append, ← List.append_assoc] at hes
      obtain ⟨hes, -⟩ := List.append_inj' hes rfl
      exact ih hes

end

/-! ## The laws -/

/-- What holds of the signals of a process after the calls `es`. -/
structure PendingLaw (es : List Call) (t : SignalImpl) : Prop where
  /-- A signal stays pending until it is acted on, however often it is added in between. -/
  pending : ∀ k, t.received.containBit k = true ↔ Outstanding es k
  /-- What was acted on had been added since the last time, and was not masked then. -/
  acted : ∀ es1 e es2, es = es1 ++ e :: es2 → ∀ k, ActsOn e k → Outstanding es1 k ∧ e.before.mask.containBit k = false
  /-- With no signal being handled, the first one is acted on, and no other. -/
  idle : t.handling = none → ∀ ctx, ∃ r t' ctx', t.handleSignals ctx = .ok (r, t', ctx') ∧
    (r = .noSignal ↔ ∀ k, ¬ Deliverable t k) ∧
    ∀ k, ActsOn ⟨t, .handleSignals ctx, .handled r ctx', t'⟩ k ↔ First t k
  /-- In a handler nothing happens. -/
  busy : ∀ c, t.handling = some (.userSignal c) → ∀ ctx, t.handleSignals ctx = .ok (.isHandlingSignal, t, ctx)
  /-- The context that is saved is the one of the call that saved it. -/
  saved : ∀ c, t.handling = some (.userSignal c) → SavedBy es c
  /-- It is given back, and the handler is left. -/
  restored : ∀ c, t.handling = some (.userSignal c) → ∀ ctx, t.sigReturn ctx = (true, { t with handling := none }, c)
  refused : (∀ c, t.handling ≠ some (.userSignal c)) → ∀ ctx, t.sigReturn ctx = (false, t, ctx)

/-- The signal numbers that are added are 1 to 31. -/
def Numbered (es : List Call) : Prop := ∀ e ∈ es, ∀ k, e.op = .addSignal k → 1 ≤ k.val ∧ k.val ≤ maxSig

theorem defaultAction_ne (k : SignalNo) : SignalImpl.defaultAction k ≠ .noSignal := by
  unfold SignalImpl.defaultAction
  split
  · intro h
    cases h
  · intro h
    cases h

theorem Delivered.ne_noSignal {s : SignalImpl} {k : SignalNo} {ctx ctx' : LocalContext} {r : SignalResult}
    {m : Option HandlingSignal} (h : Delivered s k ctx r m ctx') : r ≠ .noSignal := by
  rcases h with ⟨_, rfl, _⟩ | ⟨_, rfl, _⟩ | ⟨_, ⟨_, _, rfl, _⟩ | ⟨_, rfl, _⟩⟩
  · intro h
    cases h
  · intro h
    cases h
  · intro h
    cases h
  · exact defaultAction_ne k

theorem pending_law {es : List Call} {t : SignalImpl} (hrun : Life .new es t) (hnum : Numbered es) : PendingLaw es t := by
  have hi := lifeInv_run hrun
  refine ⟨hi.pending, ?_, ?_, ?_, hi.saved, ?_, ?_⟩
  · rintro es1 e es2 rfl k hact
    obtain ⟨hlife, hok⟩ := Life.split hrun
    refine ⟨((lifeInv_run hlife).pending k).mp hact.before, ?_⟩
    obtain ⟨ctx, r, ctx', ho, hr, hout⟩ := hact.outcome
    obtain ⟨r', ctx'', hh, -⟩ := Call.handle_ok hok ho
    rcases handle_cases hh with ⟨_, _, _, hs, _⟩ | ⟨_, hd, _, hs, _⟩ | ⟨_, _, _, hs, _⟩ | ⟨_, _, _, hs, _⟩ |
      ⟨j, _, hf, hs, _⟩
    · have hafter := hact.after
      rw [hs, hact.before] at hafter
      cases hafter
    · have hafter := hact.after
      rw [hs, SignalSet.containBit_remove, hact.before, Bool.true_and, Bool.not_eq_false', decide_eq_true_eq] at hafter
      rw [hafter]
      exact hd.2
    · have hafter := hact.after
      rw [hs, hact.before] at hafter
      cases hafter
    · have hafter := hact.after
      rw [hs, hact.before] at hafter
      cases hafter
    · have hafter := hact.after
      rw [hs, SignalSet.containBit_remove, hact.before, Bool.true_and, Bool.not_eq_false', decide_eq_true_eq] at hafter
      rw [hafter]
      exact hf.1.2
  · intro hn ctx
    by_cases hany : ∃ k, First t k
    · obtain ⟨k, hf⟩ := hany
      -- The signal was added, so the table has an entry for it.
      obtain ⟨es1, a, es2, he, hadd, -⟩ := (hi.pending k).mp hf.1.1
      have hle := (hnum a (by rw [he]; simp) k hadd).2
      obtain ⟨⟨r, t', ctx'⟩, hdel⟩ := @deliver_total { t with received := t.received.removeBit k } ctx k
        (by rw [hi.table]; exact Nat.lt_succ_of_le hle)
      have hh := (handle_first hn hf).trans hdel
      refine ⟨r, t', ctx', hh, ?_, fun j => ?_⟩
      · obtain ⟨-, hd⟩ := deliver_ok (s := { t with received := t.received.removeBit k }) hn hdel
        exact ⟨fun e => absurd e hd.ne_noSignal, fun hno => absurd hf.1 (hno k)⟩
      · rw [(handle_actsOn (e := ⟨t, .handleSignals ctx, .handled r ctx', t'⟩) rfl rfl rfl hh rfl j).1]
        obtain ⟨hs, -⟩ := deliver_ok (s := { t with received := t.received.removeBit k }) hn hdel
        rw [hs, SignalSet.containBit_remove]
        constructor
        · rintro ⟨hj, hgone⟩
          rw [hj, Bool.true_and, Bool.not_eq_false', decide_eq_true_eq] at hgone
          rwa [hgone]
        · intro hj
          rw [hj.unique hf]
          simp [hf.1.1]
    · have hno : ∀ k, ¬ Deliverable t k := by
        intro k hk
        obtain ⟨j, hj, -⟩ := hk.first
        exact hany ⟨j, hj⟩
      have hh : t.handleSignals ctx = .ok (.noSignal, t, ctx) := by
        unfold SignalImpl.handleSignals
        rw [hn]
        dsimp only
        rw [SignalSet.findFirstOne_none.mpr hno]
      refine ⟨_, _, _, hh, ⟨fun _ => hno, fun _ => rfl⟩, fun k => ?_⟩
      rw [(handle_actsOn (e := ⟨t, .handleSignals ctx, .handled .noSignal ctx, t⟩) rfl rfl rfl hh rfl k).1]
      constructor
      · rintro ⟨h1, h2⟩
        rw [h1] at h2
        cases h2
      · intro hk
        exact absurd ⟨k, hk⟩ hany
  · intro c hc ctx
    unfold SignalImpl.handleSignals
    rw [hc]
  · intro c hc ctx
    unfold SignalImpl.sigReturn
    rw [hc]
  · intro hno ctx
    unfold SignalImpl.sigReturn
    split
    · rename_i c hc
      exact absurd hc (hno c)
    · rfl

/-- The calls one after the other. -/
def record (s : SignalImpl) : List SigOp → Except Halt (List Call × SignalImpl)
  | [] => .ok ([], s)
  | op :: ops => do
    let (reply, t) ← op.run s
    let (es, u) ← record t ops
    .ok (⟨s, op, reply, t⟩ :: es, u)

theorem record_life {s t : SignalImpl} {ops : List SigOp} {es : List Call} (h : record s ops = .ok (es, t)) :
    Life s es t ∧ es.map Call.op = ops := by
  induction ops generalizing s es with
  | nil =>
    cases h
    exact ⟨.nil _, rfl⟩
  | cons op ops ih =>
    obtain ⟨⟨reply, s1⟩, hrun, h⟩ := bind_eq_ok.mp h
    obtain ⟨⟨es1, u⟩, hrest, h⟩ := bind_eq_ok.mp h
    cases h
    obtain ⟨hlife, hops⟩ := ih hrest
    refine ⟨(Exec.single ⟨rfl, rfl, hrun⟩).append hlife, ?_⟩
    rw [List.map_cons, hops]

/-- A signal with a handler, and another one that comes in the handler. -/
theorem pending_law_handler : ∃ es t, Life .new es t ∧ t.handling = some (.userSignal (.user 4096)) ∧ PendingLaw es t := by
  have hrun : (record .new [.setAction 10 ⟨8192, 0⟩, .addSignal 10, .handleSignals (.user 4096), .addSignal 12]).map
      (fun x => x.2.handling) = .ok (some (.userSignal (.user 4096))) := by
    rfl
  obtain ⟨⟨es, t⟩, hrun, hmode⟩ := map_eq_ok hrun
  obtain ⟨hlife, hops⟩ := record_life hrun
  refine ⟨es, t, hlife, hmode, pending_law hlife ?_⟩
  intro e he k hadd
  have hm : e.op ∈ es.map Call.op := List.mem_map_of_mem he
  rw [hops, hadd] at hm
  simp only [List.mem_cons, SigOp.addSignal.injEq, reduceCtorEq, false_or, List.not_mem_nil, or_false] at hm
  rcases hm with rfl | rfl
  · decide
  · decide

/-! ## SIGKILL -/

/-- The signal has no handler and ends the process. -/
def Deadly (t : SignalImpl) (k : SignalNo) : Prop :=
  k ≠ SignalNo.SIGSTOP ∧ k ≠ SignalNo.SIGCHLD ∧ k ≠ SignalNo.SIGURG ∧ t.actions[k.val]? = some none

/-- Nothing saves a process from a pending SIGKILL: no signal is being handled, and either the
    mask lets SIGKILL through and no handler is entered before it, or another signal ends the
    process. -/
def Unblocked (t : SignalImpl) : Prop :=
  t.handling.isNone = true ∧
    (t.mask.containBit SignalNo.SIGKILL = false ∧ (∀ k, k < SignalNo.SIGKILL → First t k → t.actions[k.val]? = some none) ∨
      t.mask.containBit SignalNo.SIGKILL = true ∧ ∃ k, First t k ∧ Deadly t k)

theorem deliver_deadly {t : SignalImpl} {k : SignalNo} (h : Deadly t k) (ctx : LocalContext) :
    ∃ code t' ctx', t.deliver k ctx = .ok (.processKilled code, t', ctx') := by
  obtain ⟨h1, h2, h3, ha⟩ := h
  unfold SignalImpl.deliver
  by_cases hk : k = SignalNo.SIGKILL
  · rw [if_pos hk]
    exact ⟨_, _, _, rfl⟩
  · rw [if_neg hk, if_neg h1, ha]
    dsimp only
    unfold SignalImpl.defaultAction
    rw [if_neg (not_or.mpr ⟨h2, h3⟩)]
    exact ⟨_, _, _, rfl⟩

theorem low_deadly {t : SignalImpl} {k : SignalNo} (hk : k < SignalNo.SIGKILL) (ha : t.actions[k.val]? = some none) :
    Deadly t k :=
  ⟨ne_of_lt (lt_trans hk (by decide)), ne_of_lt (lt_trans hk (by decide)), ne_of_lt (lt_trans hk (by decide)), ha⟩

/-- In every state of the signals of a process in which SIGKILL is pending: the next call of
    `handle_signals` ends the process exactly when nothing saves it. -/
theorem sigkill_law {es : List Call} {t : SignalImpl} (_ : Life .new es t)
    (hpending : t.received.containBit SignalNo.SIGKILL = true) (ctx : LocalContext) :
    (∃ code t' ctx', t.handleSignals ctx = .ok (.processKilled code, t', ctx')) ↔ Unblocked t := by
  constructor
  · rintro ⟨code, t', ctx', hh⟩
    rcases handle_cases hh with ⟨_, _, hr, _⟩ | ⟨_, _, hr, _⟩ | ⟨_, _, hr, _⟩ | ⟨_, _, hr, _⟩ | ⟨j, hn, hf, _, hd⟩
    · cases hr
    · cases hr
    · cases hr
    · cases hr
    · have hkilled : j = SignalNo.SIGKILL ∨ Deadly t j := by
        rcases hd with ⟨hj, _⟩ | ⟨_, hr, _⟩ | ⟨⟨_, hstop⟩, ⟨_, _, hr, _⟩ | ⟨ha, hr, _⟩⟩
        · exact .inl hj
        · cases hr
        · cases hr
        · unfold SignalImpl.defaultAction at hr
          split at hr
          · cases hr
          · rename_i hdef
            exact .inr ⟨hstop, fun e => hdef (.inl e), fun e => hdef (.inr e), ha⟩
      refine ⟨by rw [hn]; rfl, ?_⟩
      by_cases hmask : t.mask.containBit SignalNo.SIGKILL = true
      · refine .inr ⟨hmask, j, hf, hkilled.resolve_left fun e => ?_⟩
        have hj := hf.1.2
        rw [e, hmask] at hj
        cases hj
      · refine .inl ⟨Bool.eq_false_iff.mpr hmask, fun k hk hfk => ?_⟩
        rw [hfk.unique hf] at hk ⊢
        exact (hkilled.resolve_left (ne_of_lt hk)).2.2.2
  · rintro ⟨hn, hor⟩
    have hn : t.handling = none := Option.isNone_iff_eq_none.mp hn
    rcases hor with ⟨hmask, hlow⟩ | ⟨-, k, hf, hdead⟩
    · -- Signals below SIGKILL come first.
      obtain ⟨j, hf, hle⟩ := Deliverable.first ⟨hpending, hmask⟩
      rw [handle_first hn hf]
      rcases lt_or_eq_of_le hle with hlt | rfl
      · exact deliver_deadly (low_deadly (t := { t with received := t.received.removeBit j }) hlt (hlow j hlt hf)) ctx
      · exact ⟨_, _, _, rfl⟩
    · rw [handle_first hn hf]
      exact deliver_deadly (t := { t with received := t.received.removeBit k }) hdead ctx

theorem sigkill_law_pending : ∃ es t, Life .new es t ∧ t.received.containBit SignalNo.SIGKILL = true ∧ Unblocked t := by
  have hrun : (record .new [.updateMask 4, .addSignal 9]).map (fun x => x.2.received.containBit SignalNo.SIGKILL) =
      .ok true := by
    rfl
  have hkilled : (record .new [.updateMask 4, .addSignal 9]).map (fun x =>
      (x.2.handleSignals (.user 0)).map fun y => y.1) = .ok (.ok (.processKilled (-9))) := by
    rfl
  obtain ⟨⟨es, t⟩, hrun, hpending⟩ := map_eq_ok hrun
  rw [hrun] at hkilled
  obtain ⟨⟨r, t', ctx'⟩, hh, hr⟩ := map_eq_ok (Except.ok.inj hkilled)
  have hr : r = .processKilled (-9) := hr
  rw [hr] at hh
  exact ⟨es, t, (record_life hrun).1, hpending, (sigkill_law (record_life hrun).1 hpending (.user 0)).mp ⟨_, _, _, hh⟩⟩

/-- The process masks SIGKILL before it comes. -/
theorem sigkill_masked : ∃ es t, Life .new es t ∧ t.received.containBit SignalNo.SIGKILL = true ∧
    ¬ ∃ code t' ctx', t.handleSignals (.user 0) = .ok (.processKilled code, t', ctx') := by
  have hrun : (record .new [.updateMask 512, .addSignal 9]).map (fun x => (x.2.received.containBit SignalNo.SIGKILL,
      (x.2.handleSignals (.user 0)).map fun y => y.1)) = .ok (true, .ok .noSignal) := by
    rfl
  obtain ⟨⟨es, t⟩, hrun, hsee⟩ := map_eq_ok hrun
  rw [Prod.mk.injEq] at hsee
  refine ⟨es, t, (record_life hrun).1, hsee.1, ?_⟩
  rintro ⟨code, t', ctx', hh⟩
  have hr := hsee.2
  rw [hh] at hr
  cases hr

/-! ## SIGSTOP and SIGCONT -/

/-- A trap of the process, with the context it left: the call is sigreturn, or another one. -/
inductive Trap where
  | other (ctx : LocalContext)
  | sigreturn (ctx : LocalContext)

def Trap.isReturn : Trap → Bool
  | .sigreturn _ => true
  | .other _ => false

/-- What a trap does to the signals: the call's part comes first. -/
def SignalImpl.trap (s : SignalImpl) : Trap → Except Halt (SignalResult × SignalImpl)
  | .other ctx => do
    let (r, s, _) ← s.handleSignals ctx
    .ok (r, s)
  | .sigreturn ctx => do
    let (_, s, ctx) := s.sigReturn ctx
    let (r, s, _) ← s.handleSignals ctx
    .ok (r, s)

/-- The traps of a process, one after the other: how they ended, and its signals then. -/
def traps (s : SignalImpl) : List Trap → Except Halt (List SignalResult × SignalImpl)
  | [] => .ok ([], s)
  | x :: xs => do
    let (r, s) ← s.trap x
    let (rs, s) ← traps s xs
    .ok (r :: rs, s)

/-- Traps, SIGSTOP, traps, SIGCONT, traps. -/
def stopCont (s : SignalImpl) (xs ys zs : List Trap) : Except Halt (List SignalResult × SignalImpl) := do
  let (r1, s) ← traps s xs
  let (r2, s) ← traps (s.addSignal SignalNo.SIGSTOP) ys
  let (r3, s) ← traps (s.addSignal SignalNo.SIGCONT) zs
  .ok (r1 ++ r2 ++ r3, s)

/-- The process lives, and when both signals are consumed it is not stopped. -/
def Composes (s : SignalImpl) (xs ys zs : List Trap) : Prop :=
  ∃ rs t, stopCont s xs ys zs = .ok (rs, t) ∧ (∀ code, .processKilled code ∉ rs) ∧
    (t.received.containBit SignalNo.SIGSTOP = false → t.received.containBit SignalNo.SIGCONT = false →
      ∀ c, t.handling = some c → ∃ ctx, c = .userSignal ctx)

/-- What the process is handling after traps that find no signal: a sigreturn ends a handler. -/
def handlingAtStop (h : Option HandlingSignal) (xs : List Trap) : Option HandlingSignal :=
  match h with
  | some (.userSignal old) => if xs.any Trap.isReturn then none else some (.userSignal old)
  | h => h

/-- When SIGSTOP comes the process is not stopped already, and before SIGCONT comes it traps
    outside a handler, or by the sigreturn that leaves it. -/
def Timely (s : SignalImpl) (xs ys : List Trap) : Prop :=
  match handlingAtStop s.handling xs with
  | none => ys ≠ []
  | some .frozen => False
  | some (.userSignal _) => ys.any Trap.isReturn = true

section

variable {s t : SignalImpl} {ctx : LocalContext} {r : SignalResult} {xs ys zs : List Trap} {k : SignalNo}

theorem trap_other {ctx' : LocalContext} (h : s.handleSignals ctx = .ok (r, t, ctx')) :
    s.trap (.other ctx) = .ok (r, t) :=
  bind_eq_ok.mpr ⟨_, h, rfl⟩

/-- The sigreturn that leaves a handler. -/
theorem trap_return {old ctx' : LocalContext} (hu : s.handling = some (.userSignal old))
    (h : { s with handling := none }.handleSignals old = .ok (r, t, ctx')) : s.trap (.sigreturn ctx) = .ok (r, t) := by
  unfold SignalImpl.trap SignalImpl.sigReturn
  rw [hu]
  exact bind_eq_ok.mpr ⟨_, h, rfl⟩

/-- Outside a handler a sigreturn is a trap like any other. -/
theorem trap_outside (hno : ∀ old, s.handling ≠ some (.userSignal old))
    (h : ∀ ctx, ∃ ctx', s.handleSignals ctx = .ok (r, t, ctx')) (x : Trap) : s.trap x = .ok (r, t) := by
  cases x with
  | other ctx =>
    obtain ⟨ctx', hh⟩ := h ctx
    exact trap_other hh
  | sigreturn ctx =>
    obtain ⟨ctx', hh⟩ := h ctx
    rcases s.sigReturn_cases ctx with ⟨old, hu, -⟩ | ⟨-, hret⟩
    · exact absurd hu (hno old)
    · unfold SignalImpl.trap
      dsimp only
      rw [hret]
      exact bind_eq_ok.mpr ⟨_, hh, rfl⟩

theorem traps_still (xs : List Trap) (h : ∀ x ∈ xs, s.trap x = .ok (r, s)) : traps s xs = .ok (List.replicate xs.length r, s) := by
  induction xs with
  | nil => rfl
  | cons x xs ih =>
    have hrest := ih fun y hy => h y (List.mem_cons_of_mem x hy)
    exact bind_eq_ok.mpr ⟨_, h x List.mem_cons_self, bind_eq_ok.mpr ⟨_, hrest, rfl⟩⟩

theorem traps_cons {s' : SignalImpl} {x : Trap} {rs : List SignalResult}
    (h : s.trap x = .ok (r, s')) (hrest : traps s' xs = .ok (rs, t)) : traps s (x :: xs) = .ok (r :: rs, t) :=
  bind_eq_ok.mpr ⟨_, h, bind_eq_ok.mpr ⟨_, hrest, rfl⟩⟩

theorem traps_append {s' : SignalImpl} {rs rs' : List SignalResult} (h : traps s xs = .ok (rs, s'))
    (hrest : traps s' ys = .ok (rs', t)) : traps s (xs ++ ys) = .ok (rs ++ rs', t) := by
  induction xs generalizing s rs with
  | nil =>
    cases h
    exact hrest
  | cons x xs ih =>
    obtain ⟨⟨r, s1⟩, hx, hk⟩ := bind_eq_ok.mp h
    obtain ⟨⟨rs1, s2⟩, hxs, hk⟩ := bind_eq_ok.mp hk
    cases hk
    exact traps_cons hx (ih hxs)

theorem stopCont_ok {s1 s2 s3 : SignalImpl} {r1 r2 r3 : List SignalResult} (h1 : traps s xs = .ok (r1, s1))
    (h2 : traps (s1.addSignal SignalNo.SIGSTOP) ys = .ok (r2, s2))
    (h3 : traps (s2.addSignal SignalNo.SIGCONT) zs = .ok (r3, s3)) : stopCont s xs ys zs = .ok (r1 ++ r2 ++ r3, s3) :=
  bind_eq_ok.mpr ⟨_, h1, bind_eq_ok.mpr ⟨_, h2, bind_eq_ok.mpr ⟨_, h3, rfl⟩⟩⟩

theorem handle_user {old : LocalContext} (h : s.handling = some (.userSignal old)) (ctx : LocalContext) :
    s.handleSignals ctx = .ok (.isHandlingSignal, s, ctx) := by
  unfold SignalImpl.handleSignals
  rw [h]

theorem handle_idle (hn : s.handling = none) (hrec : s.received = 0) (ctx : LocalContext) :
    s.handleSignals ctx = .ok (.noSignal, s, ctx) := by
  unfold SignalImpl.handleSignals
  rw [hn]
  dsimp only
  rw [SignalSet.findFirstOne_none.mpr]
  intro k hk
  rw [hrec, SignalSet.containBit_zero] at hk
  cases hk.1

theorem handle_frozen (hf : s.handling = some .frozen) (hrec : s.received.containBit SignalNo.SIGCONT = false)
    (ctx : LocalContext) : s.handleSignals ctx = .ok (.processSuspended, s, ctx) := by
  unfold SignalImpl.handleSignals
  rw [hf]
  dsimp only
  rw [hrec]
  rfl

theorem handle_cont (hf : s.handling = some .frozen) (hd : Deliverable s SignalNo.SIGCONT) (ctx : LocalContext) :
    s.handleSignals ctx =
      .ok (.handled, { s with received := s.received.removeBit SignalNo.SIGCONT, handling := none }, ctx) := by
  unfold SignalImpl.handleSignals
  rw [hf]
  dsimp only
  rw [hd.1, hd.2]
  rfl

/-- SIGSTOP, alone, stops the process. -/
theorem handle_stop (hn : s.handling = none) (hrec : s.received = SignalSet.addBit 0 SignalNo.SIGSTOP)
    (hmask : s.mask.containBit SignalNo.SIGSTOP = false) (ctx : LocalContext) :
    s.handleSignals ctx = .ok (.processSuspended, { s with received := 0, handling := some .frozen }, ctx) := by
  have hf : First s SignalNo.SIGSTOP := by
    refine ⟨⟨by rw [hrec]; rfl, hmask⟩, ?_⟩
    intro j hj hd
    have hset := hd.1
    rw [hrec, SignalSet.containBit_add, SignalSet.containBit_zero, Bool.false_or, decide_eq_true_eq] at hset
    exact absurd hset (ne_of_lt hj)
  rw [handle_first hn hf, hrec]
  rfl

/-- SIGCONT comes before SIGSTOP, and ends the process. -/
theorem handle_both (hn : s.handling = none)
    (hrec : s.received = SignalSet.addBit (SignalSet.addBit 0 SignalNo.SIGSTOP) SignalNo.SIGCONT)
    (hmask : s.mask.containBit SignalNo.SIGCONT = false) (hact : s.actions[SignalNo.SIGCONT.val]? = some none)
    (ctx : LocalContext) : s.handleSignals ctx =
      .ok (.processKilled (-18), { s with received := s.received.removeBit SignalNo.SIGCONT }, ctx) := by
  have hf : First s SignalNo.SIGCONT := by
    refine ⟨⟨by rw [hrec]; rfl, hmask⟩, ?_⟩
    intro j hj hd
    have hset := hd.1
    rw [hrec, SignalSet.containBit_add, SignalSet.containBit_add, SignalSet.containBit_zero, Bool.false_or,
      Bool.or_eq_true, decide_eq_true_eq, decide_eq_true_eq] at hset
    rcases hset with rfl | rfl
    · exact absurd hj (by decide)
    · exact absurd hj (by decide)
  rw [handle_first hn hf]
  unfold SignalImpl.deliver
  rw [if_neg (by decide), if_neg (by decide)]
  dsimp only
  rw [hact]
  rfl

@[simp] theorem contain_added : (s.addSignal k).received.containBit k = true := by
  unfold SignalImpl.addSignal
  simp

/-! Traps with nothing to take, and those that take SIGSTOP or SIGCONT: -/

theorem not_user_none : ∀ old, (none : Option HandlingSignal) ≠ some (.userSignal old) := by
  intro old h
  cases h

theorem not_user_frozen : ∀ old, some HandlingSignal.frozen ≠ some (.userSignal old) := by
  intro old h
  cases h

theorem trap_idle (hn : s.handling = none) (hrec : s.received = 0) (x : Trap) : s.trap x = .ok (.noSignal, s) :=
  trap_outside (hn ▸ not_user_none) (fun ctx => ⟨ctx, handle_idle hn hrec ctx⟩) x

theorem trap_frozen (hf : s.handling = some .frozen) (hrec : s.received.containBit SignalNo.SIGCONT = false) (x : Trap) :
    s.trap x = .ok (.processSuspended, s) :=
  trap_outside (hf ▸ not_user_frozen) (fun ctx => ⟨ctx, handle_frozen hf hrec ctx⟩) x

theorem trap_cont (hf : s.handling = some .frozen) (hd : Deliverable s SignalNo.SIGCONT) (x : Trap) :
    s.trap x = .ok (.handled, { s with received := s.received.removeBit SignalNo.SIGCONT, handling := none }) :=
  trap_outside (hf ▸ not_user_frozen) (fun ctx => ⟨ctx, handle_cont hf hd ctx⟩) x

theorem trap_stop (hn : s.handling = none) (hrec : s.received = SignalSet.addBit 0 SignalNo.SIGSTOP)
    (hmask : s.mask.containBit SignalNo.SIGSTOP = false) (x : Trap) :
    s.trap x = .ok (.processSuspended, { s with received := 0, handling := some .frozen }) :=
  trap_outside (hn ▸ not_user_none) (fun ctx => ⟨ctx, handle_stop hn hrec hmask ctx⟩) x

/-- In a handler nothing is taken until it returns. -/
theorem traps_user {old : LocalContext} (hu : s.handling = some (.userSignal old))
    (hno : xs.any Trap.isReturn = false) : traps s xs = .ok (List.replicate xs.length .isHandlingSignal, s) := by
  refine traps_still _ fun x hx => ?_
  cases x with
  | other ctx => exact trap_other (handle_user hu ctx)
  | sigreturn ctx => exact absurd rfl (List.any_eq_false.mp hno _ hx)

/-- The first sigreturn. -/
theorem first_return (h : xs.any Trap.isReturn = true) :
    ∃ as ctx bs, xs = as ++ .sigreturn ctx :: bs ∧ as.any Trap.isReturn = false := by
  induction xs with
  | nil => cases h
  | cons x xs ih =>
    cases x with
    | sigreturn ctx => exact ⟨[], ctx, xs, rfl, rfl⟩
    | other ctx =>
      obtain ⟨as, c, bs, rfl, has⟩ := ih (by simpa [Trap.isReturn] using h)
      exact ⟨.other ctx :: as, c, bs, rfl, by simpa [Trap.isReturn] using has⟩

/-- Before SIGSTOP: nothing is pending, so the traps only leave a handler. -/
theorem traps_before (hrec : s.received = 0) (xs : List Trap) :
    ∃ rs, traps s xs = .ok (rs, { s with handling := handlingAtStop s.handling xs }) ∧ ∀ code, .processKilled code ∉ rs := by
  cases hh : s.handling with
  | none =>
    refine ⟨List.replicate xs.length .noSignal, ?_, by simp⟩
    rw [traps_still _ fun x _ => trap_idle hh hrec x]
    simp [handlingAtStop, ← hh]
  | some c =>
    cases c with
    | frozen =>
      refine ⟨List.replicate xs.length .processSuspended, ?_, by simp⟩
      rw [traps_still _ fun x _ => trap_frozen hh (by rw [hrec, SignalSet.containBit_zero]) x]
      simp [handlingAtStop, ← hh]
    | userSignal old =>
      cases hret : xs.any Trap.isReturn with
      | false =>
        refine ⟨List.replicate xs.length .isHandlingSignal, ?_, by simp⟩
        rw [traps_user hh hret, handlingAtStop, if_neg (by simp [hret]), ← hh]
      | true =>
        obtain ⟨as, ctx, bs, rfl, has⟩ := first_return hret
        have hleave : s.trap (.sigreturn ctx) = .ok (.noSignal, { s with handling := none }) :=
          trap_return hh (handle_idle (s := { s with handling := none }) rfl hrec old)
        have hrest := traps_still bs fun x _ => trap_idle (s := { s with handling := none }) rfl hrec x
        have hall := traps_append (traps_user hh has) (traps_cons hleave hrest)
        rw [handlingAtStop, if_pos hret]
        exact ⟨_, hall, by simp⟩

/-- After the traps that follow a SIGSTOP that was consumed: SIGCONT lets the process go on. -/
theorem traps_after (hf : s.handling = some .frozen) (hrec : s.received = 0)
    (hcont : s.mask.containBit SignalNo.SIGCONT = false) (zs : List Trap) :
    ∃ rs t, traps (s.addSignal SignalNo.SIGCONT) zs = .ok (rs, t) ∧ (∀ code, .processKilled code ∉ rs) ∧
      (t.received.containBit SignalNo.SIGCONT = false → t.handling = none) := by
  cases zs with
  | nil =>
    refine ⟨[], _, rfl, by simp, fun hgone => ?_⟩
    rw [contain_added] at hgone
    cases hgone
  | cons z zs =>
    have hz := trap_cont (s := s.addSignal SignalNo.SIGCONT) hf ⟨contain_added, hcont⟩ z
    have hnone : (s.addSignal SignalNo.SIGCONT).received.removeBit SignalNo.SIGCONT = 0 := by
      unfold SignalImpl.addSignal
      rw [hrec]
      show SignalSet.removeBit (SignalSet.addBit 0 SignalNo.SIGCONT) SignalNo.SIGCONT = 0
      decide
    rw [hnone] at hz
    exact ⟨_, _, traps_cons hz (traps_still _ fun x _ => trap_idle rfl rfl x), by simp, fun _ => rfl⟩

theorem addSignal_alone (hrec : s.received = 0) : (s.addSignal k).received = SignalSet.addBit 0 k := by
  unfold SignalImpl.addSignal
  rw [hrec]

/-- Between the two: what makes the process take SIGSTOP leaves it stopped, with nothing pending. -/
theorem traps_between (hrec : s.received = 0) (hstop : s.mask.containBit SignalNo.SIGSTOP = false)
    (h : Timely s [] ys) : ∃ rs, traps (s.addSignal SignalNo.SIGSTOP) ys =
      .ok (rs, { s with received := 0, handling := some .frozen }) ∧ ∀ code, .processKilled code ∉ rs := by
  have hrest (ws : List Trap) := traps_still ws fun x _ =>
    trap_frozen (s := { s with received := 0, handling := some .frozen }) rfl SignalSet.containBit_zero x
  unfold Timely at h
  cases hh : s.handling with
  | none =>
    rw [hh] at h
    cases ys with
    | nil => exact absurd rfl h
    | cons y ys =>
      have hy := trap_stop (s := s.addSignal SignalNo.SIGSTOP) hh (addSignal_alone hrec) hstop y
      exact ⟨_, traps_cons hy (hrest ys), by simp⟩
  | some c =>
    rw [hh] at h
    cases c with
    | frozen => exact h.elim
    | userSignal old =>
      obtain ⟨as, ctx, bs, rfl, has⟩ := first_return h
      have hleave : (s.addSignal SignalNo.SIGSTOP).trap (.sigreturn ctx) =
          .ok (.processSuspended, { s with received := 0, handling := some .frozen }) :=
        trap_return hh (handle_stop (s := { s.addSignal SignalNo.SIGSTOP with handling := none }) rfl
          (addSignal_alone hrec) hstop old)
      exact ⟨_, traps_append (traps_user hh has) (traps_cons hleave (hrest bs)), by simp⟩

/-- With both pending, outside a handler a trap takes SIGCONT, and that ends the process; so
    does the sigreturn that leaves a handler. -/
theorem trap_both (hrec : s.received = SignalSet.addBit (SignalSet.addBit 0 SignalNo.SIGSTOP) SignalNo.SIGCONT)
    (hcont : s.mask.containBit SignalNo.SIGCONT = false) (hact : s.actions[SignalNo.SIGCONT.val]? = some none)
    (hf : s.handling ≠ some .frozen) : ∃ t, s.trap (.sigreturn (.user 0)) = .ok (.processKilled (-18), t) := by
  cases hh : s.handling with
  | none => exact ⟨_, trap_outside (hh ▸ not_user_none) (fun ctx => ⟨ctx, handle_both hh hrec hcont hact ctx⟩) _⟩
  | some c =>
    cases c with
    | frozen => exact absurd hh hf
    | userSignal old => exact ⟨_, trap_return hh (handle_both (s := { s with handling := none }) rfl hrec hcont hact old)⟩

theorem timely_after : Timely s xs ys ↔ Timely { s with handling := handlingAtStop s.handling xs } [] ys := by
  unfold Timely handlingAtStop
  cases hh : s.handling with
  | none => rfl
  | some c =>
    cases c with
    | frozen => rfl
    | userSignal old => by_cases hret : xs.any Trap.isReturn = true <;> simp [hret]

theorem stopCont_cases {rs : List SignalResult} (h : stopCont s xs ys zs = .ok (rs, t)) :
    ∃ r1 r2 r3 s1 s2, traps s xs = .ok (r1, s1) ∧ traps (s1.addSignal SignalNo.SIGSTOP) ys = .ok (r2, s2) ∧
      traps (s2.addSignal SignalNo.SIGCONT) zs = .ok (r3, t) ∧ rs = r1 ++ r2 ++ r3 := by
  obtain ⟨⟨r1, s1⟩, h1, h⟩ := bind_eq_ok.mp h
  obtain ⟨⟨r2, s2⟩, h2, h⟩ := bind_eq_ok.mp h
  obtain ⟨⟨r3, s3⟩, h3, h⟩ := bind_eq_ok.mp h
  obtain ⟨rfl, rfl⟩ := Prod.mk.inj (Except.ok.inj h)
  exact ⟨r1, r2, r3, s1, s2, h1, h2, h3, rfl⟩

theorem composes_iff {rs : List SignalResult} (h : traps s xs = .ok (rs, t)) (hlive : ∀ code, .processKilled code ∉ rs) :
    Composes s xs ys zs ↔ Composes t [] ys zs := by
  constructor
  · rintro ⟨rs', t', hall, hno, hmode⟩
    obtain ⟨r1, r2, r3, s1, s2, h1, h2, h3, rfl⟩ := stopCont_cases hall
    obtain ⟨rfl, rfl⟩ := Prod.mk.inj (Except.ok.inj (h.symm.trans h1))
    refine ⟨[] ++ r2 ++ r3, t', stopCont_ok rfl h2 h3, fun code hm => hno code ?_, hmode⟩
    rw [List.append_assoc]
    exact List.mem_append_right _ hm
  · rintro ⟨rs', t', hall, hno, hmode⟩
    obtain ⟨r1, r2, r3, s1, s2, h1, h2, h3, rfl⟩ := stopCont_cases hall
    obtain ⟨rfl, rfl⟩ := Prod.mk.inj (Except.ok.inj h1)
    refine ⟨rs ++ r2 ++ r3, t', stopCont_ok h h2 h3, fun code hm => ?_, hmode⟩
    rw [List.append_assoc] at hm
    rcases List.mem_append.mp hm with hm | hm
    · exact hlive code hm
    · exact hno code hm

/-- A stopped process takes SIGCONT first, and the SIGSTOP from before it stops it again. -/
theorem frozen_again (ys : List Trap) (hrec : s.received = 0) (hstop : s.mask.containBit SignalNo.SIGSTOP = false)
    (hcont : s.mask.containBit SignalNo.SIGCONT = false) (hf : s.handling = some .frozen) :
    ∃ rs, stopCont s [] ys [.other (.user 0), .other (.user 0)] = .ok (rs, { s with received := 0 }) := by
  have hno : (s.addSignal SignalNo.SIGSTOP).received.containBit SignalNo.SIGCONT = false := by
    rw [addSignal_alone hrec]
    decide
  have hboth : ((s.addSignal SignalNo.SIGSTOP).addSignal SignalNo.SIGCONT).received.removeBit SignalNo.SIGCONT =
      SignalSet.addBit 0 SignalNo.SIGSTOP := by
    unfold SignalImpl.addSignal
    rw [hrec]
    show SignalSet.removeBit (SignalSet.addBit (SignalSet.addBit 0 SignalNo.SIGSTOP) SignalNo.SIGCONT) SignalNo.SIGCONT = _
    decide
  have h2 := traps_still ys fun x _ => trap_frozen (s := s.addSignal SignalNo.SIGSTOP) hf hno x
  have h3 := trap_cont (s := (s.addSignal SignalNo.SIGSTOP).addSignal SignalNo.SIGCONT) hf ⟨contain_added, hcont⟩
    (.other (.user 0))
  rw [hboth] at h3
  have h4 := trap_stop (s := { s with received := SignalSet.addBit 0 SignalNo.SIGSTOP, handling := none }) rfl rfl hstop
    (.other (.user 0))
  rw [← hf] at h4
  exact ⟨_, stopCont_ok rfl h2 (traps_cons h3 (traps_cons h4 rfl))⟩

/-- The process when SIGSTOP comes, with nothing pending. -/
theorem composes_timely (hrec : s.received = 0) (hstop : s.mask.containBit SignalNo.SIGSTOP = false)
    (hcont : s.mask.containBit SignalNo.SIGCONT = false) (hact : s.actions[SignalNo.SIGCONT.val]? = some none) :
    (∀ zs, Composes s [] ys zs) ↔ Timely s [] ys := by
  constructor
  · intro h
    by_contra hlate
    by_cases hf : s.handling = some .frozen
    · obtain ⟨rs, hrun⟩ := frozen_again ys hrec hstop hcont hf
      obtain ⟨rs', t', hrun', -, hmode⟩ := h [.other (.user 0), .other (.user 0)]
      rw [hrun] at hrun'
      cases hrun'
      obtain ⟨ctx, hc⟩ := hmode SignalSet.containBit_zero SignalSet.containBit_zero .frozen hf
      cases hc
    · -- Nothing took SIGSTOP, and the next trap has both.
      have hquiet : ∃ rs, traps (s.addSignal SignalNo.SIGSTOP) ys = .ok (rs, s.addSignal SignalNo.SIGSTOP) := by
        unfold Timely at hlate
        cases hh : s.handling with
        | none =>
          rw [hh] at hlate
          cases not_not.mp hlate
          exact ⟨[], rfl⟩
        | some c =>
          cases c with
          | frozen => exact absurd hh hf
          | userSignal old =>
            rw [hh] at hlate
            exact ⟨_, traps_user hh (Bool.eq_false_iff.mpr hlate)⟩
      obtain ⟨rs, h2⟩ := hquiet
      obtain ⟨t, h3⟩ := trap_both (s := (s.addSignal SignalNo.SIGSTOP).addSignal SignalNo.SIGCONT)
        (by unfold SignalImpl.addSignal; rw [hrec]) hcont hact hf
      obtain ⟨rs', t', hrun, hlive, -⟩ := h [.sigreturn (.user 0)]
      rw [stopCont_ok rfl h2 (traps_cons h3 rfl)] at hrun
      cases hrun
      exact hlive (-18) (List.mem_append_right _ (List.mem_singleton_self _))
  · intro h zs
    obtain ⟨r2, h2, hlive2⟩ := traps_between hrec hstop h
    obtain ⟨r3, t, h3, hlive3, hgone⟩ := traps_after (s := { s with received := 0, handling := some .frozen }) rfl rfl hcont zs
    refine ⟨_, t, stopCont_ok rfl h2 h3, fun code hm => ?_, fun _ hc c hh => ?_⟩
    · rcases List.mem_append.mp hm with hm | hm
      · exact hlive2 code hm
      · exact hlive3 code hm
    · rw [hgone hc] at hh
      cases hh

end

/-- For every process whose mask lets SIGSTOP and SIGCONT through, that has no handler for
    SIGCONT and no other pending signal: a SIGSTOP and a later SIGCONT leave it alive and not
    stopped, whatever traps follow, exactly when it was not stopped before and takes SIGSTOP in
    between. -/
theorem stop_continue {s : SignalImpl} (hrec : s.received = 0) (hstop : s.mask.containBit SignalNo.SIGSTOP = false)
    (hcont : s.mask.containBit SignalNo.SIGCONT = false) (hact : s.actions[SignalNo.SIGCONT.val]? = some none)
    (xs ys : List Trap) : (∀ zs, Composes s xs ys zs) ↔ Timely s xs ys := by
  obtain ⟨rs, hbefore, hlive⟩ := traps_before hrec xs
  rw [timely_after]
  exact (forall_congr' fun zs => composes_iff hbefore hlive).trans (composes_timely hrec hstop hcont hact)

/-- A process that traps between the two, and one that leaves a handler there. -/
theorem stop_continue_between : Composes .new [] [.other (.user 0)] [.other (.user 0)] ∧
    Composes { SignalImpl.new with handling := some (.userSignal (.user 0)) } [.other (.user 0)]
      [.other (.user 0), .sigreturn (.user 0)] [.other (.user 0)] :=
  ⟨(stop_continue rfl rfl rfl rfl [] _).mpr (by simp [Timely, handlingAtStop, SignalImpl.new]) _,
    (stop_continue rfl rfl rfl rfl [.other (.user 0)] _).mpr (by simp [Timely, handlingAtStop, Trap.isReturn]) _⟩

/-- Both signals come before the next trap of the process. -/
theorem continue_kills : ¬ Composes .new [] [] [.other (.user 0)] := by
  rintro ⟨rs, t, hrun, hlive, -⟩
  have hrun' : (stopCont .new [] [] [.other (.user 0)]).map (fun x => x.1) = .ok [.processKilled (-18)] := by
    rfl
  rw [hrun] at hrun'
  cases hrun'
  exact hlive (-18) (List.mem_singleton_self _)

end TgRcore.Kernel
