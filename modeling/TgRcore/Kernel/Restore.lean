/-
  TgRcore.Kernel.Restore — `sigaction` saves the action of a signal and restores it.

  `get_action_ref` shows an absent action as one with handler 0, and `set_action` installs it so:
  what was a default becomes a handler.
  - `patch_run`: a call that neither sets nor takes a signal has nothing to do with its action.
  - `restores_iff`: saving and restoring changes nothing iff there was an action.
-/

import TgRcore.Kernel.SignalLaws

namespace TgRcore.Kernel

open TgRcore.BlockProg

/-! ## What is saved and restored -/

/-- The signals whose actions `sigaction` sets. -/
def Settable (k : SignalNo) : Prop :=
  k.val ≤ maxSig ∧ k ≠ SignalNo.ERR ∧ k ≠ SignalNo.SIGKILL ∧ k ≠ SignalNo.SIGSTOP

/-- The call takes the signal. -/
def Takes (e : Call) (k : SignalNo) : Prop :=
  (∃ ctx, e.op = .handleSignals ctx) ∧ e.before.handling = none ∧ First e.before k

/-- What a call that takes the signal is to do: enter the handler, or the default. -/
def reaction (action : Option SignalAction) (k : SignalNo) (ctx : LocalContext) : Reply :=
  match action with
  | some action => .handled .handled ({ ctx with sepc := action.handler }.setA 0 k)
  | none => .handled (SignalImpl.defaultAction k) ctx

def replies (s : SignalImpl) (ops : List SigOp) : Except Halt (List Reply) := (record s ops).map fun x => x.1.map Call.reply

/-- The action of the signal is stored in `old` and another installed; other calls; `old` is
    installed again. -/
structure Swaps (s : SignalImpl) (k : SignalNo) (new old : SignalAction) (mid : List Call) (s1 s2 t : SignalImpl) : Prop where
  store : s.getActionRef k = .ok (some old)
  install : s.setAction k new = .ok (true, s1)
  between : Life s1 mid s2
  others : ∀ e ∈ mid, ∀ a, e.op ≠ .setAction k a
  restore : s2.setAction k old = .ok (true, t)

/-- After it every trap that takes the signal does what it did before; and where none took it
    meanwhile, all calls go on as if neither action had been installed. -/
structure Restores (s : SignalImpl) (k : SignalNo) : Prop where
  reaction : ∀ {new old mid s1 s2 t late u e ctx}, Swaps s k new old mid s1 s2 t → Life t late u →
    (∀ x ∈ late, ∀ a, x.op ≠ .setAction k a) → e ∈ late → Takes e k → e.op = .handleSignals ctx →
    ∃ action, s.actions[k.val]? = some action ∧ e.reply = reaction action k ctx
  replies : ∀ {new old mid s1 s2 t}, Swaps s k new old mid s1 s2 t → (∀ e ∈ mid, ¬ Takes e k) →
    ∃ base b, Life s base b ∧ base.map Call.op = mid.map Call.op ∧ base.map Call.reply = mid.map Call.reply ∧
      ∀ ops, replies t ops = replies b ops

/-- The same signals with another action for `k`. -/
def SignalImpl.patch (s : SignalImpl) (k : SignalNo) (action : Option SignalAction) : SignalImpl :=
  { s with actions := s.actions.set k.val action }

section

variable {s t : SignalImpl} {k j : SignalNo} {action : Option SignalAction} {a new old : SignalAction} {op : SigOp}
  {reply : Reply} {ctx : LocalContext} {es : List Call} {e : Call}

theorem setAction_eq (hk : Settable k) (hlt : k.val < s.actions.length) : s.setAction k a = .ok (true, s.patch k (some a)) := by
  unfold SignalImpl.setAction SignalImpl.patch
  rw [if_neg (not_or.mpr hk.2.2), if_pos hlt]

theorem setAction_ok (hk : Settable k) (h : s.setAction k a = .ok (true, t)) :
    k.val < s.actions.length ∧ t = s.patch k (some a) := by
  unfold SignalImpl.setAction at h
  rw [if_neg (not_or.mpr hk.2.2)] at h
  split at h
  · rename_i hlt
    cases h
    exact ⟨hlt, rfl⟩
  · cases h

theorem getActionRef_eq (hk : Settable k) (ha : s.actions[k.val]? = some action) :
    s.getActionRef k = .ok (some (action.getD ⟨0, 0⟩)) := by
  unfold SignalImpl.getActionRef
  rw [if_neg (not_or.mpr hk.2.2), ha]

theorem deliver_patch {t : SignalImpl} {result : SignalResult} {ctx' : LocalContext} (hne : j ≠ k)
    (h : s.deliver j ctx = .ok (result, t, ctx')) : (s.patch k action).deliver j ctx = .ok (result, t.patch k action, ctx') := by
  have hentry : (s.patch k action).actions[j.val]? = s.actions[j.val]? :=
    List.getElem?_set_ne fun e => hne (Fin.ext e.symm)
  unfold SignalImpl.deliver at h ⊢
  rw [hentry]
  split at h
  · rename_i hkill
    cases h
    rw [if_pos hkill]
  · rename_i hkill
    rw [if_neg hkill]
    split at h
    · rename_i hstop
      cases h
      rw [if_pos hstop]
      rfl
    · rename_i hstop
      rw [if_neg hstop]
      split at h
      · cases h
      · cases h
        rfl
      · cases h
        rfl

/-- A call that neither sets nor takes the signal does the same whatever its action. -/
theorem patch_run (hset : ∀ a, op ≠ .setAction k a) (htakes : (∃ ctx, op = .handleSignals ctx) → s.handling = none → ¬ First s k)
    (h : op.run s = .ok (reply, t)) : op.run (s.patch k action) = .ok (reply, t.patch k action) := by
  cases op with
  | addSignal signal =>
    cases h
    rfl
  | updateMask mask =>
    cases h
    rfl
  | sigReturn ctx =>
    cases h
    refine congrArg Except.ok ?_
    rcases s.sigReturn_cases ctx with ⟨old, hold, e⟩ | ⟨hno, e⟩
    · rcases (s.patch k action).sigReturn_cases ctx with ⟨old', hold', e'⟩ | ⟨hno', -⟩
      · have hsame : s.handling = some (.userSignal old') := hold'
        rw [hold] at hsame
        cases hsame
        rw [e, e']
        rfl
      · exact absurd hold (hno' old)
    · rcases (s.patch k action).sigReturn_cases ctx with ⟨old', hold', -⟩ | ⟨-, e'⟩
      · exact absurd hold' (hno old')
      · rw [e, e']
  | setAction signum b =>
    have hne : k.val ≠ signum.val := fun e => hset b (by rw [Fin.ext e])
    obtain ⟨⟨done, u⟩, hu, h⟩ := bind_eq_ok.mp h
    cases h
    refine bind_eq_ok.mpr ⟨(done, t.patch k action), ?_, rfl⟩
    unfold SignalImpl.setAction at hu ⊢
    split at hu
    · rename_i hno
      cases hu
      rw [if_pos hno]
    · rename_i hno
      rw [if_neg hno]
      split at hu
      · rename_i hlt
        cases hu
        have hlt' : signum.val < (s.patch k action).actions.length := by
          rw [SignalImpl.patch, List.length_set]
          exact hlt
        rw [if_pos hlt']
        refine congrArg (fun l => Except.ok (true, ({ s with actions := l } : SignalImpl))) ?_
        exact List.set_comm _ _ hne
      · cases hu
  | handleSignals ctx =>
    obtain ⟨⟨result, u, ctx'⟩, hu, h⟩ := bind_eq_ok.mp h
    cases h
    refine bind_eq_ok.mpr ⟨(result, t.patch k action, ctx'), ?_, rfl⟩
    cases hh : s.handling with
    | none =>
      have hp : (s.patch k action).handling = none := hh
      cases hf : s.received.findFirstOne s.mask with
      | none =>
        have hfp : (s.patch k action).received.findFirstOne (s.patch k action).mask = none := hf
        unfold SignalImpl.handleSignals at hu ⊢
        rw [hh] at hu
        rw [hp]
        dsimp only at hu ⊢
        rw [hf] at hu
        rw [hfp]
        cases hu
        rfl
      | some signal =>
        have hfirst := first_iff.mp hf
        have hne : signal ≠ k := by
          rintro rfl
          exact htakes ⟨ctx, rfl⟩ hh hfirst
        rw [handle_first hh hfirst] at hu
        rw [handle_first hp hfirst]
        exact deliver_patch hne hu
    | some mode =>
      have hp : (s.patch k action).handling = some mode := hh
      unfold SignalImpl.handleSignals at hu ⊢
      rw [hh] at hu
      rw [hp]
      cases mode with
      | userSignal old =>
        cases hu
        rfl
      | frozen =>
        dsimp only at hu ⊢
        split at hu
        · rename_i hcont
          cases hu
          exact if_pos hcont
        · rename_i hcont
          cases hu
          exact if_neg hcont

/-- The same for any calls. -/
theorem patch_life (h : Life s es t) (hset : ∀ e ∈ es, ∀ a, e.op ≠ .setAction k a) (htakes : ∀ e ∈ es, ¬ Takes e k) :
    ∃ es', Life (s.patch k action) es' (t.patch k action) ∧ es'.map Call.op = es.map Call.op ∧
      es'.map Call.reply = es.map Call.reply := by
  induction h with
  | nil => exact ⟨[], .nil _, rfl, rfl⟩
  | @snoc u v es e h hs ih =>
    obtain ⟨es', hlife, hops, hreplies⟩ := ih (fun x hx => hset x (List.mem_append_left _ hx))
      (fun x hx => htakes x (List.mem_append_left _ hx))
    obtain ⟨hb, ha, hrun⟩ := hs
    have hlast : e ∈ es ++ [e] := List.mem_append_right _ (List.mem_singleton_self _)
    have hno : (∃ ctx, e.op = .handleSignals ctx) → u.handling = none → ¬ First u k := by
      rw [← hb]
      exact fun hop hnone hf => htakes e hlast ⟨hop, hnone, hf⟩
    have hrun' : e.op.run (u.patch k action) = .ok (e.reply, v.patch k action) := patch_run (hset e hlast) hno hrun
    refine ⟨es' ++ [⟨u.patch k action, e.op, e.reply, v.patch k action⟩], hlife.snoc ⟨rfl, rfl, hrun'⟩, ?_, ?_⟩
    · rw [List.map_append, List.map_append, hops]
      rfl
    · rw [List.map_append, List.map_append, hreplies]
      rfl

theorem run_kept (hset : ∀ a, op ≠ .setAction k a) (h : op.run s = .ok (reply, t)) :
    t.actions[k.val]? = s.actions[k.val]? := by
  cases op with
  | addSignal | updateMask =>
    cases h
    rfl
  | sigReturn ctx =>
    cases h
    rcases s.sigReturn_cases ctx with ⟨old, -, e⟩ | ⟨-, e⟩
    · rw [e]
    · rw [e]
  | setAction signum b =>
    obtain ⟨⟨done, u⟩, hu, h⟩ := bind_eq_ok.mp h
    cases h
    unfold SignalImpl.setAction at hu
    split at hu
    · cases hu
      rfl
    · split at hu
      · cases hu
        exact List.getElem?_set_ne fun e => hset b (by rw [Fin.ext e])
      · cases hu
  | handleSignals ctx =>
    obtain ⟨⟨result, u, ctx'⟩, hu, h⟩ := bind_eq_ok.mp h
    cases h
    rw [(handle_keeps hu).1]

/-- Calls that do not set the action of the signal keep it. -/
theorem actions_kept (h : Life s es t) (hset : ∀ e ∈ es, ∀ a, e.op ≠ .setAction k a) :
    t.actions[k.val]? = s.actions[k.val]? := by
  induction h with
  | nil => rfl
  | @snoc u v es e h hs ih =>
    rw [← ih fun x hx => hset x (List.mem_append_left _ hx)]
    exact run_kept (hset e (List.mem_append_right _ (List.mem_singleton_self _))) hs.2.2

theorem patch_patch (a b : Option SignalAction) : (s.patch k a).patch k b = s.patch k b := by
  unfold SignalImpl.patch
  dsimp only
  rw [List.set_set]

theorem patch_self (h : s.actions[k.val]? = some action) : s.patch k action = s := by
  obtain ⟨hlt, e⟩ := List.getElem?_eq_some_iff.mp h
  unfold SignalImpl.patch
  rw [← e, List.set_getElem_self]

theorem take_reply (hk : Settable k) (ht : Takes e k) (hop : e.op = .handleSignals ctx)
    (ha : e.before.actions[k.val]? = some action) (h : e.op.run e.before = .ok (e.reply, t)) : e.reply = reaction action k ctx := by
  obtain ⟨-, hnone, hfirst⟩ := ht
  rw [hop] at h
  obtain ⟨⟨result, u, ctx'⟩, hu, h⟩ := bind_eq_ok.mp h
  have hreply : Reply.handled result ctx' = e.reply := congrArg Prod.fst (Except.ok.inj h)
  rw [← hreply]
  rw [handle_first hnone hfirst] at hu
  unfold SignalImpl.deliver at hu
  rw [if_neg hk.2.2.1, if_neg hk.2.2.2, ha] at hu
  cases action with
  | none =>
    cases hu
    rfl
  | some action =>
    cases hu
    rfl

/-- An action that is there is restored. -/
theorem restores_present (hk : Settable k) (ha : s.actions[k.val]? = some (some a)) : Restores s k := by
  have hback : ∀ {new old mid s1 s2 t}, Swaps s k new old mid s1 s2 t → s1 = s.patch k (some new) ∧ old = a ∧
      t = s2.patch k (some a) ∧ k.val < s2.actions.length := by
    intro new old mid s1 s2 t h
    have hold := h.store
    rw [getActionRef_eq hk ha] at hold
    cases hold
    obtain ⟨hlt, hs1⟩ := setAction_ok hk h.install
    obtain ⟨hlt2, ht⟩ := setAction_ok hk h.restore
    exact ⟨hs1, rfl, ht, hlt2⟩
  constructor
  · intro new old mid s1 s2 t late u e ctx h hlate hset he htakes hop
    obtain ⟨-, -, rfl, hlt⟩ := hback h
    obtain ⟨l1, l2, rfl⟩ := List.append_of_mem he
    obtain ⟨hbefore, hrun⟩ := hlate.split
    have hentry := actions_kept hbefore fun x hx => hset x (List.mem_append_left _ hx)
    rw [SignalImpl.patch, List.getElem?_set_self hlt] at hentry
    exact ⟨some a, ha, take_reply hk htakes hop hentry hrun⟩
  · intro new old mid s1 s2 t h hno
    obtain ⟨rfl, -, rfl, -⟩ := hback h
    obtain ⟨base, hlife, hops, hreplies⟩ := patch_life h.between h.others hno
    rw [patch_patch, patch_self ha] at hlife
    exact ⟨base, _, hlife, hops, hreplies, fun _ => rfl⟩

/-! ## A default that is restored -/

/-- The mask that lets only one signal through. -/
def only (k : SignalNo) : Nat := (~~~ (1#64 <<< k.val)).toNat

/-- Calls after which no signal is being handled. -/
def settle (s : SignalImpl) : List SigOp :=
  match s.handling with
  | none => []
  | some (.userSignal _) => [.sigReturn (.user 0)]
  | some .frozen => [.updateMask 0, .addSignal SignalNo.SIGCONT, .handleSignals (.user 0)]

/-- The signal comes, and a trap takes it. -/
def probe (k : SignalNo) : List SigOp := [.updateMask (only k), .addSignal k, .handleSignals (.user 0)]

theorem containBit_only : SignalSet.containBit (BitVec.ofNat 64 (only k)) j = decide (j ≠ k) := by
  unfold only SignalSet.containBit
  rw [BitVec.ofNat_toNat, BitVec.setWidth_eq, BitVec.getLsbD_not, SignalSet.one_shift_bit]
  simp

theorem record_cons {ops : List SigOp} {u : SignalImpl} (h : op.run s = .ok (reply, t)) (hrest : record t ops = .ok (es, u)) :
    record s (op :: ops) = .ok (⟨s, op, reply, t⟩ :: es, u) :=
  bind_eq_ok.mpr ⟨_, h, bind_eq_ok.mpr ⟨_, hrest, rfl⟩⟩

theorem record_append {ops : List SigOp} {ops' : List SigOp} {es' : List Call} {u : SignalImpl}
    (h : record s ops = .ok (es, t)) (h' : record t ops' = .ok (es', u)) : record s (ops ++ ops') = .ok (es ++ es', u) := by
  induction ops generalizing s es with
  | nil =>
    cases h
    exact h'
  | cons op ops ih =>
    obtain ⟨⟨reply, v⟩, hrun, h⟩ := bind_eq_ok.mp h
    obtain ⟨⟨rest, w⟩, hrest, h⟩ := bind_eq_ok.mp h
    cases h
    exact record_cons hrun (ih hrest)

theorem settle_run : ∃ es t, record s (settle s) = .ok (es, t) ∧ t.handling = none ∧ t.actions = s.actions := by
  unfold settle
  split
  · rename_i hnone
    exact ⟨_, _, rfl, hnone, rfl⟩
  · rename_i old hold
    rcases s.sigReturn_cases (.user 0) with ⟨old', -, e⟩ | ⟨hno, -⟩
    · refine ⟨_, _, record_cons rfl rfl, ?_, ?_⟩
      · rw [e]
      · rw [e]
    · exact absurd hold (hno old)
  · rename_i hfrozen
    have hd : Deliverable (SignalImpl.addSignal (s.updateMask 0).2 SignalNo.SIGCONT) SignalNo.SIGCONT := by
      refine ⟨?_, SignalSet.containBit_zero⟩
      show SignalSet.containBit (SignalSet.addBit s.received _) _ = true
      rw [SignalSet.containBit_add]
      simp
    have hrun := @handle_cont (SignalImpl.addSignal (s.updateMask 0).2 SignalNo.SIGCONT) hfrozen hd (.user 0)
    exact ⟨_, _, record_cons rfl (record_cons rfl (record_cons (bind_eq_ok.mpr ⟨_, hrun, rfl⟩) rfl)), rfl, rfl⟩

theorem probe_run (hk : Settable k) (hnone : s.handling = none) (ha : s.actions[k.val]? = some action) :
    ∃ es t, record s (probe k) = .ok (es, t) ∧
      es.map Call.reply = [.mask s.mask.toNat, .unit, reaction action k (.user 0)] := by
  have hfirst : First (SignalImpl.addSignal (s.updateMask (only k)).2 k) k := by
    refine ⟨⟨?_, ?_⟩, fun j hj hd => ?_⟩
    · show SignalSet.containBit (SignalSet.addBit s.received k) k = true
      rw [SignalSet.containBit_add]
      simp
    · show SignalSet.containBit (BitVec.ofNat 64 (only k)) k = false
      rw [containBit_only]
      simp
    · have hopen : SignalSet.containBit (BitVec.ofNat 64 (only k)) j = false := hd.2
      rw [containBit_only, decide_eq_false_iff_not, not_not] at hopen
      exact absurd hj (by rw [hopen]; exact lt_irrefl k)
  have hfree : (SignalImpl.addSignal (s.updateMask (only k)).2 k).handling = none := hnone
  have hlt : k.val < s.actions.length := by
    obtain ⟨hlt, -⟩ := List.getElem?_eq_some_iff.mp ha
    exact hlt
  obtain ⟨⟨r, t, c⟩, hdeliver⟩ := @deliver_total { SignalImpl.addSignal (s.updateMask (only k)).2 k with
    received := (SignalImpl.addSignal (s.updateMask (only k)).2 k).received.removeBit k } (.user 0) k hlt
  have hrun := (handle_first hfree hfirst).trans hdeliver
  have htake : SigOp.run (SignalImpl.addSignal (s.updateMask (only k)).2 k) (.handleSignals (.user 0)) = .ok (.handled r c, t) :=
    bind_eq_ok.mpr ⟨_, hrun, rfl⟩
  refine ⟨_, t, record_cons rfl (record_cons rfl (record_cons htake rfl)), ?_⟩
  have hreply : Reply.handled r c = reaction action k (.user 0) :=
    @take_reply t k action (.user 0) ⟨_, .handleSignals (.user 0), .handled r c, t⟩ hk ⟨⟨_, rfl⟩, hfree, hfirst⟩ rfl ha htake
  rw [← hreply]
  rfl

/-- What the process sees when the signal comes. -/
theorem seen (hk : Settable k) (ha : s.actions[k.val]? = some action) :
    ∃ rs, replies s (settle s ++ probe k) = .ok (rs ++ [reaction action k (.user 0)]) := by
  obtain ⟨es, t, hsettle, hnone, hactions⟩ := @settle_run s
  rw [← hactions] at ha
  obtain ⟨es', u, hprobe, hreplies⟩ := probe_run hk hnone ha
  refine ⟨es.map Call.reply ++ [.mask t.mask.toNat, .unit], ?_⟩
  rw [replies, record_append hsettle hprobe]
  show Except.ok ((es ++ es').map Call.reply) = _
  rw [List.map_append, hreplies, List.append_assoc]
  rfl

theorem reaction_ne (new : SignalAction) : reaction none k ctx ≠ reaction (some new) k ctx := by
  intro h
  have hd : SignalImpl.defaultAction k = .handled := (Reply.handled.inj h).1
  unfold SignalImpl.defaultAction at hd
  split at hd
  · cases hd
  · cases hd

/-- A default that is restored is a handler at 0. -/
theorem not_restores (hk : Settable k) (ha : s.actions[k.val]? = some none) : ¬ Restores s k := by
  intro h
  obtain ⟨hlt, -⟩ := List.getElem?_eq_some_iff.mp ha
  have hlt' : k.val < (s.patch k (some ⟨0, 0⟩)).actions.length := by
    rw [SignalImpl.patch, List.length_set]
    exact hlt
  have hrestore := @setAction_eq _ _ ⟨0, 0⟩ hk hlt'
  rw [patch_patch] at hrestore
  have hswaps : Swaps s k ⟨0, 0⟩ ⟨0, 0⟩ [] _ _ _ := ⟨getActionRef_eq hk ha, setAction_eq hk hlt, .nil _, fun e he => (by cases he), hrestore⟩
  obtain ⟨base, b, hbase, hops, -, hsame⟩ := h.replies hswaps fun e he => by cases he
  rw [List.map_nil, List.map_eq_nil_iff] at hops
  subst hops
  cases Exec.eq_of_nil hbase
  obtain ⟨rs, hbefore⟩ := seen hk ha
  have hset : (s.patch k (some ⟨0, 0⟩)).actions[k.val]? = some (some ⟨0, 0⟩) := List.getElem?_set_self hlt
  obtain ⟨rs', hafter⟩ := seen hk hset
  have hsettle : settle (s.patch k (some ⟨0, 0⟩)) = settle s := rfl
  rw [hsettle, hsame, hbefore, Except.ok.injEq] at hafter
  have hlast := (List.append_inj' hafter rfl).2
  exact absurd (List.cons.inj hlast).1 (reaction_ne _)

end

/-- For every state and every signal that `sigaction` takes: saving its action and restoring it
    changes nothing iff there is one. -/
theorem restores_iff {s : SignalImpl} {k : SignalNo} (hlen : s.actions.length = maxSig + 1) (hk : Settable k) :
    Restores s k ↔ ∃ action, s.actions[k.val]? = some (some action) := by
  have hlt : k.val < s.actions.length := by
    rw [hlen]
    exact Nat.lt_succ_of_le hk.1
  have ha := List.getElem?_eq_getElem hlt
  cases hentry : s.actions[k.val] with
  | some action =>
    rw [hentry] at ha
    exact iff_of_true (restores_present hk ha) ⟨action, ha⟩
  | none =>
    rw [hentry] at ha
    refine iff_of_false (not_restores hk ha) ?_
    rintro ⟨action, ha'⟩
    rw [ha] at ha'
    cases ha'

theorem restores_iff_handler : Restores (SignalImpl.new.patch 10 (some ⟨4096, 0⟩)) 10 :=
  (restores_iff rfl ⟨by decide, by decide, by decide, by decide⟩).mpr ⟨⟨4096, 0⟩, rfl⟩

/-- Signal 10, which ended the process, has a handler at 0 after it. -/
theorem default_lost : ¬ ∀ s k, s.actions.length = maxSig + 1 → Settable k → Restores s k := by
  intro hall
  have hk : Settable 10 := ⟨by decide, by decide, by decide, by decide⟩
  exact not_restores hk rfl (hall .new 10 rfl hk)

end TgRcore.Kernel
