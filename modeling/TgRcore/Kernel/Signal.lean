/-
  TgRcore.Kernel.Signal — the signals of one process (`tg-rcore-tutorial-signal-impl`).

  - `SignalImpl`: pending signals, mask, the signal that is being handled, the actions.
  - `handleSignals`: what a trap does with them, and with the context of its thread.
  - `handleSignals_killed`: when that ends the thread.
  - `sigReturn_cases`: the saved context comes back, or nothing changes.
  - `handleSignals_saved`: a context is saved only when no signal is being handled.
-/

import TgRcore.Lib.BTreeMap

namespace TgRcore.Kernel

open TgRcore.BlockProg

/-- The part of a thread's context that the kernel reads and writes: registers and pc. -/
structure LocalContext where
  x : Nat → Nat
  sepc : Nat

namespace LocalContext

def user (pc : Nat) : LocalContext := ⟨fun _ => 0, pc⟩

def setX (c : LocalContext) (n v : Nat) : LocalContext := { c with x := fun k => if k = n then v else c.x k }

def setA (c : LocalContext) (n v : Nat) : LocalContext := c.setX (n + 10) v

def moveNext (c : LocalContext) : LocalContext := { c with sepc := (c.sepc + 4) % 2 ^ 64 }

end LocalContext

/-! ## Signal numbers and sets -/

/-- The enumeration has a name for every number below 64. -/
abbrev SignalNo := Fin 64

namespace SignalNo

abbrev ERR : SignalNo := 0
abbrev SIGKILL : SignalNo := 9
abbrev SIGCHLD : SignalNo := 17
abbrev SIGCONT : SignalNo := 18
abbrev SIGSTOP : SignalNo := 19
abbrev SIGURG : SignalNo := 23

def tryFrom (signum : Nat) : Option SignalNo := if h : signum < 64 then some ⟨signum, h⟩ else none

end SignalNo

abbrev maxSig : Nat := 31

abbrev SignalSet := BitVec 64

namespace SignalSet

def containBit (s : SignalSet) (kth : SignalNo) : Bool := s.getLsbD kth

def addBit (s : SignalSet) (kth : SignalNo) : SignalSet := s ||| (1#64 <<< kth.val)

def removeBit (s : SignalSet) (kth : SignalNo) : SignalSet := s &&& ~~~(1#64 <<< kth.val)

/-- The least bit that is set and not masked. -/
def findFirstOne (s mask : SignalSet) : Option SignalNo :=
  (List.finRange 64).find? fun k => containBit (s &&& ~~~mask) k

end SignalSet

structure SignalAction where
  handler : Nat
  mask : Nat
  deriving DecidableEq, Repr

inductive SignalResult where
  | noSignal
  | isHandlingSignal
  | ignored
  | handled
  | processKilled (exitCode : Int)
  | processSuspended
  deriving DecidableEq, Repr

inductive HandlingSignal where
  | frozen
  | userSignal (context : LocalContext)

structure SignalImpl where
  received : SignalSet
  mask : SignalSet
  handling : Option HandlingSignal
  actions : List (Option SignalAction)

namespace SignalImpl

def new : SignalImpl := ⟨0, 0, none, List.replicate (maxSig + 1) none⟩

def fromFork (s : SignalImpl) : SignalImpl := { s with received := 0, handling := none }

def addSignal (s : SignalImpl) (signal : SignalNo) : SignalImpl := { s with received := s.received.addBit signal }

/-- SIGKILL and SIGSTOP keep their actions. The table ends at `MAX_SIG`. -/
def setAction (s : SignalImpl) (signum : SignalNo) (action : SignalAction) : Except Halt (Bool × SignalImpl) :=
  if signum = SignalNo.SIGKILL ∨ signum = SignalNo.SIGSTOP then .ok (false, s)
  else if signum.val < s.actions.length then .ok (true, { s with actions := s.actions.set signum (some action) })
  else .error .panic

def getActionRef (s : SignalImpl) (signum : SignalNo) : Except Halt (Option SignalAction) :=
  if signum = SignalNo.SIGKILL ∨ signum = SignalNo.SIGSTOP then .ok none
  else
    match s.actions[signum.val]? with
    | some action => .ok (some (action.getD ⟨0, 0⟩))
    | none => .error .panic

/-- Whether `sigaction` wrote the old action, if it was asked for: none when it was not, else whether
    the place for it is writable. -/
def putOld (s : SignalImpl) (signum : SignalNo) : Option Bool → Except Halt Bool
  | none => .ok true
  | some false => .ok false
  | some true => do
    let old ← s.getActionRef signum
    .ok old.isSome

/-- The old mask. -/
def updateMask (s : SignalImpl) (mask : Nat) : Nat × SignalImpl :=
  (s.mask.toNat, { s with mask := BitVec.ofNat 64 mask })

def defaultAction (signal : SignalNo) : SignalResult :=
  if signal = SignalNo.SIGCHLD ∨ signal = SignalNo.SIGURG then .ignored else .processKilled (-(signal.val : Int))

/-- The signal is taken off the pending ones first. -/
def deliver (s : SignalImpl) (signal : SignalNo) (ctx : LocalContext) :
    Except Halt (SignalResult × SignalImpl × LocalContext) :=
  if signal = SignalNo.SIGKILL then .ok (.processKilled (-(signal.val : Int)), s, ctx)
  else if signal = SignalNo.SIGSTOP then .ok (.processSuspended, { s with handling := some .frozen }, ctx)
  else
    match s.actions[signal.val]? with
    | none => .error .panic
    | some (some action) =>
      .ok (.handled, { s with handling := some (.userSignal ctx) },
        { ctx with sepc := action.handler }.setA 0 signal)
    | some none => .ok (defaultAction signal, s, ctx)

def handleSignals (s : SignalImpl) (ctx : LocalContext) : Except Halt (SignalResult × SignalImpl × LocalContext) :=
  match s.handling with
  | some .frozen =>
    if s.received.containBit SignalNo.SIGCONT && !s.mask.containBit SignalNo.SIGCONT then
      .ok (.handled, { s with received := s.received.removeBit SignalNo.SIGCONT, handling := none }, ctx)
    else .ok (.processSuspended, s, ctx)
  | some (.userSignal _) => .ok (.isHandlingSignal, s, ctx)
  | none =>
    match s.received.findFirstOne s.mask with
    | some signal => deliver { s with received := s.received.removeBit signal } signal ctx
    | none => .ok (.noSignal, s, ctx)

def sigReturn (s : SignalImpl) (ctx : LocalContext) : Bool × SignalImpl × LocalContext :=
  match s.handling with
  | some (.userSignal old) => (true, { s with handling := none }, old)
  | _ => (false, s, ctx)

/-- The next trap of the process ends the thread: no signal is being handled, and the first
    pending signal is SIGKILL, or has neither a handler nor a default other than to end it. -/
def Fatal (s : SignalImpl) : Prop :=
  s.handling.isNone = true ∧ ∃ signal, s.received.findFirstOne s.mask = some signal ∧
    (signal = SignalNo.SIGKILL ∨ signal ≠ SignalNo.SIGSTOP ∧ s.actions[signal.val]? = some none ∧
      signal ≠ SignalNo.SIGCHLD ∧ signal ≠ SignalNo.SIGURG)

theorem handleSignals_killed {s s' : SignalImpl} {ctx ctx' : LocalContext} {code : Int}
    (h : s.handleSignals ctx = .ok (.processKilled code, s', ctx')) : s.Fatal := by
  unfold handleSignals at h
  split at h
  · split at h
    · cases h
    · cases h
  · cases h
  · rename_i hh
    split at h
    · rename_i signal hf
      refine ⟨by rw [hh]; rfl, signal, hf, ?_⟩
      unfold deliver at h
      split at h
      · rename_i hk
        exact .inl hk
      · split at h
        · cases h
        · rename_i hs
          split at h
          · cases h
          · cases h
          · rename_i ha
            refine .inr ⟨hs, ha, ?_⟩
            unfold defaultAction at h
            split at h
            · cases h
            · rename_i hd
              exact not_or.mp hd
    · cases h

/-- A signal that ends the process gives it its number, negated. -/
theorem killed_code {s s' : SignalImpl} {ctx ctx' : LocalContext} {code : Int}
    (h : s.handleSignals ctx = .ok (.processKilled code, s', ctx')) : ∃ signal : SignalNo, code = -(signal.val : Int) := by
  unfold handleSignals at h
  split at h
  · split at h
    · cases h
    · cases h
  · cases h
  · split at h
    · rename_i signal hf
      refine ⟨signal, ?_⟩
      unfold deliver at h
      split at h
      · cases h
        rfl
      · split at h
        · cases h
        · split at h
          · cases h
          · cases h
          · have hd := congrArg Prod.fst (Except.ok.inj h)
            dsimp only at hd
            unfold defaultAction at hd
            split at hd
            · cases hd
            · cases hd
              rfl
    · cases h

theorem sigReturn_cases (s : SignalImpl) (ctx : LocalContext) :
    (∃ old, s.handling = some (.userSignal old) ∧ s.sigReturn ctx = (true, { s with handling := none }, old)) ∨
      (∀ old, s.handling ≠ some (.userSignal old)) ∧ s.sigReturn ctx = (false, s, ctx) := by
  unfold sigReturn
  split
  · rename_i old hold
    exact .inl ⟨old, hold, rfl⟩
  · rename_i hno
    exact .inr ⟨hno, rfl⟩

/-- A saved context is the one from before, or no signal was being handled. -/
theorem handleSignals_saved {s s' : SignalImpl} {ctx ctx' : LocalContext} {result : SignalResult}
    (h : s.handleSignals ctx = .ok (result, s', ctx')) :
    s.handling = none ∨ ∀ old, s'.handling = some (.userSignal old) ↔ s.handling = some (.userSignal old) := by
  unfold handleSignals at h
  split at h
  · rename_i hfrozen
    refine .inr fun old => ?_
    split at h
    · cases h
      rw [hfrozen]
      exact iff_of_false (fun e => by cases e) (fun e => by cases e)
    · cases h
      exact Iff.rfl
  · cases h
    exact .inr fun _ => Iff.rfl
  · rename_i hnone
    exact .inl hnone

end SignalImpl

end TgRcore.Kernel
