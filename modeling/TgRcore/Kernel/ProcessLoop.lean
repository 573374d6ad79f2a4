/-
  TgRcore.Kernel.ProcessLoop — the kernel of chapter 7: processes with signals, their system
  calls and the scheduling loop (`main.rs`, `process.rs`, `processor.rs`).

  One turn of the loop is `Step.dispatch` (`find_next` chose a process, which runs until it
  traps with the registers as they are then), `Step.syscall`, and `Step.signals`
  (`handle_signals`, and what becomes of the process); or `Step.fault`. A call that leaves
  processes and signals alone (reads, writes, `getpid`, ..) is `Syscall.other` with its result.
  - `Did`: what each system call does to the processes.
  - `SInv`: what holds of the processes in every run.
-/

import TgRcore.Kernel.SignalLaws
import TgRcore.Sync.Semaphore
import TgRcore.Task.Managers

namespace TgRcore.Kernel.ProcessLoop

open TgRcore.BlockProg TgRcore.Sync TgRcore.Task

structure Process where
  context : LocalContext
  signal : SignalImpl

/-- The child of a process: 0 in `a0`, the same mask and actions, nothing pending. -/
def Process.fork (p : Process) : Process := ⟨p.context.setA 0 0, p.signal.fromFork⟩

abbrev Processor := PManager (FifoManager Process)

/-- The calls with what they read of user memory: the image of `exec` (none: no such file), the
    action (none: a null pointer; `some none`: not readable) and whether the place for the old
    action is writable. -/
inductive Syscall where
  | exit (exitCode : Int)
  | fork (pid : ProcId)
  | exec (image : Option LocalContext)
  | wait (pid : ProcId)
  | kill (pid : ProcId) (signum : Nat)
  | sigaction (signum : Nat) (action : Option (Option SignalAction)) (oldAction : Option Bool)
  | sigprocmask (mask : Nat)
  | sigreturn
  | other (ret : Int)
  | unsupported

/-! ## System calls -/

/-- `current().unwrap()` -/
def getCurrent (pm : Processor) : Except Halt (ProcId × Process) :=
  match pm.current with
  | none => .error .panic
  | some pid =>
    match pm.manager.getMut pid with
    | none => .error .panic
    | some proc => .ok (pid, proc)

def setProc (pm : Processor) (pid : ProcId) (proc : Process) : Processor :=
  { pm with manager := pm.manager.insert pid proc }

def fork (pm : Processor) (pid : ProcId) : Except Halt (Int × Processor) := do
  let (parentPid, proc) ← getCurrent pm
  let pm ← pm.add pid proc.fork parentPid
  .ok (asIsize pid, pm)

/-- The new image has a context of its own. -/
def exec (pm : Processor) (image : Option LocalContext) : Except Halt (Int × Processor) := do
  let (pid, proc) ← getCurrent pm
  match image with
  | none => .ok (-1, pm)
  | some context => .ok (0, setProc pm pid { proc with context := context })

def wait (pm : Processor) (pid : ProcId) : Except Halt (Int × Processor) := do
  let (ret, pm) ← pm.wait pid
  match ret with
  | some (deadPid, _) => .ok (asIsize deadPid, pm)
  | none => .ok (-1, pm)

def kill (pm : Processor) (pid : ProcId) (signum : Nat) : Int × Processor :=
  match pm.manager.getMut pid with
  | none => (-1, pm)
  | some target =>
    match SignalNo.tryFrom signum with
    | none => (-1, pm)
    | some signalNo =>
      if signalNo ≠ SignalNo.ERR then (0, setProc pm pid { target with signal := target.signal.addSignal signalNo })
      else (-1, pm)

def sigaction (pm : Processor) (signum : Nat) (action : Option (Option SignalAction)) (oldAction : Option Bool) :
    Except Halt (Int × Processor) := do
  if signum > maxSig then .ok (-1, pm)
  else
    let (pid, proc) ← getCurrent pm
    match SignalNo.tryFrom signum with
    | none => .ok (-1, pm)
    | some signalNo =>
      if signalNo = SignalNo.ERR then .ok (-1, pm)
      else do
        let put ← proc.signal.putOld signalNo oldAction
        if put then
          match action with
          | none => .ok (0, pm)
          | some none => .ok (-1, pm)
          | some (some action) => do
            let (done, signal) ← proc.signal.setAction signalNo action
            if done then .ok (0, setProc pm pid { proc with signal := signal }) else .ok (-1, pm)
        else .ok (-1, pm)

def sigprocmask (pm : Processor) (mask : Nat) : Except Halt (Int × Processor) := do
  let (pid, proc) ← getCurrent pm
  let (old, signal) := proc.signal.updateMask mask
  .ok (asIsize old, setProc pm pid { proc with signal := signal })

def sigreturn (pm : Processor) : Except Halt (Int × Processor) := do
  let (pid, proc) ← getCurrent pm
  let (done, signal, context) := proc.signal.sigReturn proc.context
  .ok (if done then 0 else -1, setProc pm pid ⟨context, signal⟩)

def done (x : Except Halt (Int × Processor)) : Except Halt (Option Int × Processor) := do
  let (ret, pm) ← x
  .ok (some ret, pm)

/-- The result of the call, or `Unsupported`. -/
def handle (pm : Processor) : Syscall → Except Halt (Option Int × Processor)
  | .exit exitCode => .ok (some exitCode, pm)
  | .fork pid => done (fork pm pid)
  | .exec image => done (exec pm image)
  | .wait pid => done (wait pm pid)
  | .kill pid signum => done (.ok (kill pm pid signum))
  | .sigaction signum action oldAction => done (sigaction pm signum action oldAction)
  | .sigprocmask mask => done (sigprocmask pm mask)
  | .sigreturn => done (sigreturn pm)
  | .other ret => .ok (some ret, pm)
  | .unsupported => .ok (none, pm)

/-! ## The loop -/

/-- `*ctx.a_mut(0) = ret as _` -/
def setRet (c : LocalContext) (ret : Int) : LocalContext := c.setA 0 (ret % 2 ^ 64).toNat

/-- The trap of a system call, up to `handle_signals`. -/
def syscall (pm : Processor) (regs : LocalContext) (call : Syscall) : Except Halt (Option Int × Processor) := do
  let (pid, proc) ← getCurrent pm
  handle (setProc pm pid { proc with context := regs.moveNext }) call

/-- What becomes of the current process after its call and the signals. The context is the one in
    the table as long as `ctx` leads there: `TableStep` is about a call that moves the entry. -/
def finish (pm : Processor) (call : Syscall) (syscallRet : Option Int) : SignalResult → Except Halt Processor
  | .processKilled exitCode => pm.makeCurrentExited exitCode
  | _ =>
    match syscallRet with
    | none => pm.makeCurrentExited (-2)
    | some ret =>
      match call with
      | .exit _ => pm.makeCurrentExited ret
      | _ => do
        let (pid, proc) ← getCurrent pm
        (setProc pm pid { proc with context := setRet proc.context ret }).makeCurrentSuspend

/-- The trap of a system call from `handle_signals` on. -/
def signals (pm : Processor) (call : Syscall) (syscallRet : Option Int) : Except Halt (SignalResult × Processor) := do
  let (pid, proc) ← getCurrent pm
  let (result, signal, context) ← proc.signal.handleSignals proc.context
  let pm ← finish (setProc pm pid ⟨context, signal⟩) call syscallRet result
  .ok (result, pm)

/-- Where the loop is: before `find_next`, in user mode, before `handle_signals`. -/
inductive Phase where
  | idle
  | user
  | signals (call : Syscall) (syscallRet : Option Int)

structure State where
  pm : Processor
  used : List ProcId
  phase : Phase

namespace State

def new : State := ⟨.new .new, [], .idle⟩

def tasks (s : State) : BTreeMap ProcId Process := s.pm.manager.tasks

def ready (s : State) : List ProcId := s.pm.manager.readyQueue

end State

inductive Event where
  | boot
  | dispatch (pid : ProcId)
  | syscall (pid : ProcId) (regs : LocalContext) (call : Syscall) (ret : Option Int)
  | signals (pid : ProcId) (result : SignalResult)
  | fault (pid : ProcId)

/-- The id that a call makes is new: `ProcId::new` counts up. -/
def Fresh (s : State) : Syscall → Prop
  | .fork pid => pid ∉ s.used ∧ pid < 2 ^ 64 - 2
  | _ => True

/-- The ids used after a call. -/
def mark (s : State) : Syscall → List ProcId
  | .fork pid => pid :: s.used
  | _ => s.used

inductive Step : State → Event → State → Prop
  | boot {context : LocalContext} {pm : Processor} : (PManager.new .new).add 0 (⟨context, .new⟩ : Process) usizeMax = .ok pm →
      Step State.new .boot ⟨pm, [0], .idle⟩
  | dispatch {s : State} {pid : ProcId} {proc : Process} {pm : Processor} : s.phase = .idle →
      s.pm.findNext = .ok (some proc, pm) → pm.current = some pid → Step s (.dispatch pid) ⟨pm, s.used, .user⟩
  | syscall {s : State} {pid : ProcId} {regs : LocalContext} {call : Syscall} {ret : Option Int} {pm : Processor} :
      s.phase = .user → s.pm.current = some pid → Fresh s call → syscall s.pm regs call = .ok (ret, pm) →
      Step s (.syscall pid regs call ret) ⟨pm, mark s call, .signals call ret⟩
  | signals {s : State} {pid : ProcId} {call : Syscall} {ret : Option Int} {result : SignalResult} {pm : Processor} :
      s.phase = .signals call ret → s.pm.current = some pid → signals s.pm call ret = .ok (result, pm) →
      Step s (.signals pid result) ⟨pm, s.used, .idle⟩
  | fault {s : State} {pid : ProcId} {pm : Processor} : s.phase = .user → s.pm.current = some pid →
      s.pm.makeCurrentExited (-3) = .ok pm → Step s (.fault pid) ⟨pm, s.used, .idle⟩

/-- A step with the states around it. -/
structure Turn where
  before : State
  event : Event
  after : State

/-- The turns since boot. -/
abbrev Run (es : List Turn) (s : State) : Prop :=
  Exec (fun s e t => e.before = s ∧ e.after = t ∧ Step s e.event t) State.new es s

/-! ## What a system call does to the processes -/

/-- `m` are the processes at the call, `proc` the calling one among them. -/
def Did (m : BTreeMap ProcId Process) (pid : ProcId) (proc : Process) (ret : Option Int) (m' : BTreeMap ProcId Process) :
    Syscall → Prop
  | .exit exitCode => ret = some exitCode ∧ m' = m
  | .fork child => ret = some (asIsize child) ∧ m' = m.insert child proc.fork
  | .exec none => ret = some (-1) ∧ m' = m
  | .exec (some context) => ret = some 0 ∧ m' = m.insert pid { proc with context := context }
  | .wait _ => ret.isSome = true ∧ m' = m
  | .kill target signum => ret = some (-1) ∧ m' = m ∨
      ∃ t k, m target = some t ∧ SignalNo.tryFrom signum = some k ∧ k ≠ SignalNo.ERR ∧ ret = some 0 ∧
        m' = m.insert target { t with signal := t.signal.addSignal k }
  | .sigaction signum action _ => ret.isSome = true ∧ m' = m ∨
      ∃ k a, SignalNo.tryFrom signum = some k ∧ k.val < proc.signal.actions.length ∧ action = some (some a) ∧ ret = some 0 ∧
        m' = m.insert pid { proc with signal := { proc.signal with actions := proc.signal.actions.set k (some a) } }
  | .sigprocmask mask => ret = some (asIsize proc.signal.mask.toNat) ∧
      m' = m.insert pid { proc with signal := { proc.signal with mask := BitVec.ofNat 64 mask } }
  | .sigreturn => (∃ old, proc.signal.handling = some (.userSignal old) ∧ ret = some 0 ∧
        m' = m.insert pid ⟨old, { proc.signal with handling := none }⟩) ∨
      (∀ old, proc.signal.handling ≠ some (.userSignal old)) ∧ ret = some (-1) ∧ m' = m
  | .other r => ret = some r ∧ m' = m
  | .unsupported => ret = none ∧ m' = m

section

variable {pm pm' : Processor} {pid : ProcId} {proc : Process} {call : Syscall} {ret : Option Int} {result : SignalResult}

theorem getCurrent_ok : getCurrent pm = .ok (pid, proc) ↔ pm.current = some pid ∧ pm.manager.tasks pid = some proc := by
  unfold getCurrent
  constructor
  · intro h
    split at h
    · cases h
    · rename_i id hc
      split at h
      · cases h
      · rename_i p hp
        cases h
        exact ⟨hc, hp⟩
  · rintro ⟨hc, hp⟩
    have hget : pm.manager.getMut pid = some proc := hp
    rw [hc]
    dsimp only
    rw [hget]

theorem done_ok {x : Except Halt (Int × Processor)} (h : done x = .ok (ret, pm')) :
    ∃ r, x = .ok (r, pm') ∧ ret = some r := by
  obtain ⟨⟨r, pm⟩, hx, h⟩ := bind_eq_ok.mp h
  cases h
  exact ⟨r, hx, rfl⟩

theorem sigaction_did {r : Int} {signum : Nat} {action : Option (Option SignalAction)} {oldAction : Option Bool}
    (hc : getCurrent pm = .ok (pid, proc)) (h : sigaction pm signum action oldAction = .ok (r, pm')) :
    Did pm.manager.tasks pid proc (some r) pm'.manager.tasks (.sigaction signum action oldAction) ∧ pm'.current = pm.current := by
  unfold sigaction at h
  split at h
  · cases h
    exact ⟨.inl ⟨rfl, rfl⟩, rfl⟩
  · rw [hc] at h
    change (match SignalNo.tryFrom signum with
      | none => _
      | some signalNo => _) = _ at h
    split at h
    · cases h
      exact ⟨.inl ⟨rfl, rfl⟩, rfl⟩
    · rename_i k hk
      split at h
      · cases h
        exact ⟨.inl ⟨rfl, rfl⟩, rfl⟩
      · obtain ⟨put, -, h⟩ := bind_eq_ok.mp h
        split at h
        · split at h
          · cases h
            exact ⟨.inl ⟨rfl, rfl⟩, rfl⟩
          · cases h
            exact ⟨.inl ⟨rfl, rfl⟩, rfl⟩
          · rename_i a _
            obtain ⟨⟨set, signal⟩, hset, h⟩ := bind_eq_ok.mp h
            unfold SignalImpl.setAction at hset
            split at hset
            · cases hset
              cases h
              exact ⟨.inl ⟨rfl, rfl⟩, rfl⟩
            · split at hset
              · rename_i hlt
                cases hset
                cases h
                exact ⟨.inr ⟨k, a, hk, hlt, rfl, rfl, rfl⟩, rfl⟩
              · cases hset
        · cases h
          exact ⟨.inl ⟨rfl, rfl⟩, rfl⟩

theorem kill_did {target : ProcId} {signum : Nat} :
    Did pm.manager.tasks pid proc (some (kill pm target signum).1) (kill pm target signum).2.manager.tasks (.kill target signum) ∧
      (kill pm target signum).2.current = pm.current := by
  unfold kill
  split
  · exact ⟨.inl ⟨rfl, rfl⟩, rfl⟩
  · rename_i t ht
    split
    · exact ⟨.inl ⟨rfl, rfl⟩, rfl⟩
    · rename_i k hk
      split
      · rename_i hne
        exact ⟨.inr ⟨t, k, ht, hk, hne, rfl, rfl⟩, rfl⟩
      · exact ⟨.inl ⟨rfl, rfl⟩, rfl⟩

theorem sigreturn_did {r : Int} (hc : getCurrent pm = .ok (pid, proc)) (h : sigreturn pm = .ok (r, pm')) :
    Did pm.manager.tasks pid proc (some r) pm'.manager.tasks .sigreturn ∧ pm'.current = pm.current := by
  unfold sigreturn at h
  rw [hc] at h
  cases h
  refine ⟨?_, rfl⟩
  split
  · rename_i old hh
    exact .inl ⟨old, hh, rfl, rfl⟩
  · rename_i hno
    exact .inr ⟨hno, rfl, BTreeMap.insert_self (getCurrent_ok.mp hc).2⟩

theorem fork_did {r : Int} {child : ProcId} (hc : getCurrent pm = .ok (pid, proc)) (h : fork pm child = .ok (r, pm')) :
    Did pm.manager.tasks pid proc (some r) pm'.manager.tasks (.fork child) ∧ pm'.current = pm.current := by
  unfold fork at h
  rw [hc] at h
  change (do
    let pm1 ← pm.add child proc.fork pid
    Except.ok (asIsize child, pm1)) = _ at h
  obtain ⟨pm1, hadd, h⟩ := bind_eq_ok.mp h
  cases h
  unfold PManager.add at hadd
  obtain ⟨manager, hm, hadd⟩ := bind_eq_ok.mp hadd
  obtain ⟨relMap, -, hadd⟩ := bind_eq_ok.mp hadd
  cases hadd
  cases hm
  exact ⟨⟨rfl, rfl⟩, rfl⟩

theorem wait_did {r : Int} {child : ProcId} (h : wait pm child = .ok (r, pm')) :
    Did pm.manager.tasks pid proc (some r) pm'.manager.tasks (.wait child) ∧ pm'.current = pm.current := by
  obtain ⟨⟨w, pm1⟩, hw, h⟩ := bind_eq_ok.mp h
  have hsame : pm1.manager = pm.manager ∧ pm1.current = pm.current := by
    unfold PManager.wait at hw
    split at hw
    · cases hw
    · split at hw
      · cases hw
      · cases hw
        exact ⟨rfl, rfl⟩
  cases w with
  | none =>
    cases h
    exact ⟨⟨rfl, by rw [hsame.1]⟩, hsame.2⟩
  | some d =>
    cases h
    exact ⟨⟨rfl, by rw [hsame.1]⟩, hsame.2⟩

/-- What every system call does; the current process stays the current one. -/
theorem handle_did (hc : getCurrent pm = .ok (pid, proc)) (h : handle pm call = .ok (ret, pm')) :
    Did pm.manager.tasks pid proc ret pm'.manager.tasks call ∧ pm'.current = pm.current := by
  cases call with
  | exit exitCode =>
    cases h
    exact ⟨⟨rfl, rfl⟩, rfl⟩
  | fork child =>
    obtain ⟨r, hx, rfl⟩ := done_ok h
    exact fork_did hc hx
  | exec image =>
    obtain ⟨r, hx, rfl⟩ := done_ok h
    unfold exec at hx
    rw [hc] at hx
    cases image with
    | none =>
      cases hx
      exact ⟨⟨rfl, rfl⟩, rfl⟩
    | some context =>
      cases hx
      exact ⟨⟨rfl, rfl⟩, rfl⟩
  | wait child =>
    obtain ⟨r, hx, rfl⟩ := done_ok h
    exact wait_did hx
  | kill target signum =>
    obtain ⟨r, hx, rfl⟩ := done_ok h
    have hk := @kill_did pm pid proc target signum
    rw [Except.ok.inj hx] at hk
    exact hk
  | sigaction signum action oldAction =>
    obtain ⟨r, hx, rfl⟩ := done_ok h
    exact sigaction_did hc hx
  | sigprocmask mask =>
    obtain ⟨r, hx, rfl⟩ := done_ok h
    unfold sigprocmask at hx
    rw [hc] at hx
    cases hx
    exact ⟨⟨rfl, rfl⟩, rfl⟩
  | sigreturn =>
    obtain ⟨r, hx, rfl⟩ := done_ok h
    exact sigreturn_did hc hx
  | other r =>
    cases h
    exact ⟨⟨rfl, rfl⟩, rfl⟩
  | unsupported =>
    cases h
    exact ⟨⟨rfl, rfl⟩, rfl⟩

theorem syscall_did {regs : LocalContext} (hc : getCurrent pm = .ok (pid, proc))
    (h : syscall pm regs call = .ok (ret, pm')) :
    Did (pm.manager.tasks.insert pid { proc with context := regs.moveNext }) pid { proc with context := regs.moveNext } ret
      pm'.manager.tasks call ∧ pm'.current = pm.current := by
  unfold syscall at h
  rw [hc] at h
  have hsaved : getCurrent (setProc pm pid { proc with context := regs.moveNext }) =
      .ok (pid, { proc with context := regs.moveNext }) := getCurrent_ok.mpr ⟨(getCurrent_ok.mp hc).1, if_pos rfl⟩
  exact handle_did hsaved h

/-- The process leaves after its call: it was killed, it exits, or the call is none. -/
def Leaves (call : Syscall) (ret : Option Int) (result : SignalResult) : Prop :=
  (∃ code, result = .processKilled code) ∨ ret = none ∨ ∃ code, call = .exit code

theorem exited_tasks {code : Int} (hc : pm.current = some pid) (h : pm.makeCurrentExited code = .ok pm') :
    pm'.manager = pm.manager.delete pid ∧ pm'.current = none := by
  obtain ⟨relMap, -, rfl⟩ := (exited_eq_ok hc).mp h
  exact ⟨rfl, rfl⟩

/-- The process leaves, or goes to the end of the ready queue with the result in `a0`. -/
theorem finish_did (hc : getCurrent pm = .ok (pid, proc)) (h : finish pm call ret result = .ok pm') :
    pm'.current = none ∧
      (Leaves call ret result ∧ pm'.manager = pm.manager.delete pid ∨
        ¬ Leaves call ret result ∧ ∃ r, ret = some r ∧
          pm'.manager = ⟨pm.manager.tasks.insert pid { proc with context := setRet proc.context r },
            pm.manager.readyQueue ++ [pid]⟩) := by
  have hcur := (getCurrent_ok.mp hc).1
  unfold finish at h
  split at h
  · obtain ⟨hm, hnone⟩ := exited_tasks hcur h
    exact ⟨hnone, .inl ⟨.inl ⟨_, rfl⟩, hm⟩⟩
  · rename_i hlive
    split at h
    · obtain ⟨hm, hnone⟩ := exited_tasks hcur h
      exact ⟨hnone, .inl ⟨.inr (.inl rfl), hm⟩⟩
    · rename_i r
      split at h
      · obtain ⟨hm, hnone⟩ := exited_tasks hcur h
        exact ⟨hnone, .inl ⟨.inr (.inr ⟨_, rfl⟩), hm⟩⟩
      · rename_i hcall
        rw [hc] at h
        change (setProc pm pid { proc with context := setRet proc.context r }).makeCurrentSuspend = .ok pm' at h
        obtain ⟨id, manager, hid, hm, rfl⟩ := suspend_ok h
        cases hm
        have hid : pm.current = some id := hid
        rw [hcur] at hid
        cases hid
        refine ⟨rfl, .inr ⟨?_, r, rfl, rfl⟩⟩
        rintro (⟨code, e⟩ | e | ⟨code, e⟩)
        · exact hlive code e
        · cases e
        · exact hcall code e

theorem signals_did (hc : getCurrent pm = .ok (pid, proc)) (h : signals pm call ret = .ok (result, pm')) :
    ∃ signal context, proc.signal.handleSignals proc.context = .ok (result, signal, context) ∧ pm'.current = none ∧
      (Leaves call ret result ∧ pm'.manager.tasks = pm.manager.tasks.remove pid ∨
        ¬ Leaves call ret result ∧ ∃ r, ret = some r ∧
          pm'.manager = ⟨pm.manager.tasks.insert pid ⟨setRet context r, signal⟩, pm.manager.readyQueue ++ [pid]⟩) := by
  unfold signals at h
  rw [hc] at h
  change (do
    let (result, signal, context) ← proc.signal.handleSignals proc.context
    let pm ← finish (setProc pm pid ⟨context, signal⟩) call ret result
    Except.ok (result, pm)) = _ at h
  obtain ⟨⟨result', signal, context⟩, hs, h⟩ := bind_eq_ok.mp h
  obtain ⟨pm1, hf, h⟩ := bind_eq_ok.mp h
  cases h
  have hc' : getCurrent (setProc pm pid ⟨context, signal⟩) = .ok (pid, ⟨context, signal⟩) :=
    getCurrent_ok.mpr ⟨(getCurrent_ok.mp hc).1, if_pos rfl⟩
  obtain ⟨hnone, hor⟩ := finish_did hc' hf
  refine ⟨signal, context, hs, hnone, ?_⟩
  rcases hor with ⟨hl, hm⟩ | ⟨hl, r, hr, hm⟩
  · refine .inl ⟨hl, ?_⟩
    rw [hm]
    exact BTreeMap.remove_insert _ _ _
  · refine .inr ⟨hl, r, hr, ?_⟩
    rw [hm]
    exact congrArg (fun m => FifoManager.mk m _) (BTreeMap.insert_insert _ _ _ _)

theorem dispatch_did (h : pm.findNext = .ok (some proc, pm')) (hc : pm'.current = some pid) :
    pm'.manager.tasks = pm.manager.tasks ∧ pm.manager.tasks pid = some proc := by
  obtain ⟨next, manager, hf, ⟨hn, -⟩ | ⟨id, task, -, ht, hr, rfl⟩⟩ := findNext_ok h
  · cases hn
  · cases hf
    cases hr
    cases hc
    exact ⟨rfl, ht⟩

end

/-! ## What a step does to one process -/

/-- What process `q` is after the step. -/
inductive Became (s : State) (q : ProcId) : Event → Process → Prop
  | boot {context : LocalContext} : Became s q .boot ⟨context, .new⟩
  | still {e : Event} {proc : Process} : s.tasks q = some proc → (∀ regs call ret, e ≠ .syscall q regs call ret) →
      (∀ result, e ≠ .signals q result) → Became s q e proc
  | trap {proc : Process} {regs : LocalContext} {call : Syscall} {ret : Option Int} : s.tasks q = some proc →
      (∀ image, call ≠ .exec (some image)) →
      (call = .sigreturn → ∀ old, proc.signal.handling ≠ some (.userSignal old)) →
      Became s q (.syscall q regs call ret) ⟨regs.moveNext, proc.signal⟩
  | exec {proc : Process} {regs image : LocalContext} : s.tasks q = some proc →
      Became s q (.syscall q regs (.exec (some image)) (some 0)) ⟨image, proc.signal⟩
  | sigaction {proc : Process} {regs : LocalContext} {signum : Nat} {k : SignalNo} {a : SignalAction}
      {oldAction : Option Bool} : s.tasks q = some proc → SignalNo.tryFrom signum = some k →
      Became s q (.syscall q regs (.sigaction signum (some (some a)) oldAction) (some 0))
        ⟨regs.moveNext, { proc.signal with actions := proc.signal.actions.set k (some a) }⟩
  | sigprocmask {proc : Process} {regs : LocalContext} {mask : Nat} {ret : Option Int} : s.tasks q = some proc →
      Became s q (.syscall q regs (.sigprocmask mask) ret)
        ⟨regs.moveNext, { proc.signal with mask := BitVec.ofNat 64 mask }⟩
  | sigreturn {proc : Process} {regs old : LocalContext} : s.tasks q = some proc →
      proc.signal.handling = some (.userSignal old) →
      Became s q (.syscall q regs .sigreturn (some 0)) ⟨old, { proc.signal with handling := none }⟩
  | killSelf {proc : Process} {regs : LocalContext} {signum : Nat} {k : SignalNo} : s.tasks q = some proc →
      SignalNo.tryFrom signum = some k → k ≠ SignalNo.ERR →
      Became s q (.syscall q regs (.kill q signum) (some 0)) ⟨regs.moveNext, proc.signal.addSignal k⟩
  | kill {proc : Process} {pid : ProcId} {regs : LocalContext} {signum : Nat} {k : SignalNo} : s.tasks q = some proc →
      pid ≠ q → SignalNo.tryFrom signum = some k → k ≠ SignalNo.ERR →
      Became s q (.syscall pid regs (.kill q signum) (some 0)) { proc with signal := proc.signal.addSignal k }
  | fork {proc : Process} {pid : ProcId} {regs : LocalContext} {ret : Option Int} : s.tasks pid = some proc →
      Became s q (.syscall pid regs (.fork q) ret) (Process.fork ⟨regs.moveNext, proc.signal⟩)
  | signals {proc : Process} {call : Syscall} {r : Int} {result : SignalResult} {signal : SignalImpl}
      {context : LocalContext} : s.tasks q = some proc → s.phase = .signals call (some r) →
      proc.signal.handleSignals proc.context = .ok (result, signal, context) → ¬ Leaves call (some r) result →
      Became s q (.signals q result) ⟨setRet context r, signal⟩

section

variable {s t : State} {e : Event} {pid q : ProcId} {proc : Process} {m m' : BTreeMap ProcId Process}
  {regs : LocalContext} {call : Syscall} {ret : Option Int} {result : SignalResult}

theorem current_task (h : Step s (.syscall pid regs call ret) t) : ∃ proc, getCurrent s.pm = .ok (pid, proc) := by
  cases h with
  | syscall _ hc _ hcall =>
    obtain ⟨⟨id, proc⟩, hcur, -⟩ := bind_eq_ok.mp hcall
    have hid := (getCurrent_ok.mp hcur).1
    rw [hc] at hid
    cases hid
    exact ⟨proc, hcur⟩

theorem signals_task (h : Step s (.signals pid result) t) : ∃ proc, getCurrent s.pm = .ok (pid, proc) := by
  cases h with
  | signals _ hc hcall =>
    obtain ⟨⟨id, proc⟩, hcur, -⟩ := bind_eq_ok.mp hcall
    have hid := (getCurrent_ok.mp hcur).1
    rw [hc] at hid
    cases hid
    exact ⟨proc, hcur⟩

/-- The processes before a call, once the registers are saved. -/
theorem saved_apply {ctx : LocalContext} {proc' : Process} (hq : q ≠ pid)
    (h : m.insert pid ⟨ctx, proc.signal⟩ q = some proc') : m q = some proc' := by
  rwa [BTreeMap.insert_apply, if_neg hq] at h

theorem Did.became {proc' : Process} (hp : s.tasks pid = some proc)
    (h : Did (s.tasks.insert pid ⟨regs.moveNext, proc.signal⟩) pid ⟨regs.moveNext, proc.signal⟩ ret m' call)
    (hq : m' q = some proc') : Became s q (.syscall pid regs call ret) proc' := by
  -- a call that leaves `q` alone, apart from its registers
  have hidle : (∀ image, call ≠ .exec (some image)) →
      (call = .sigreturn → ∀ old, proc.signal.handling ≠ some (.userSignal old)) →
      s.tasks.insert pid ⟨regs.moveNext, proc.signal⟩ q = some proc' → Became s q (.syscall pid regs call ret) proc' := by
    intro hexec hret hsame
    by_cases e : q = pid
    · subst e
      rw [BTreeMap.insert_apply, if_pos rfl] at hsame
      cases hsame
      exact .trap hp hexec hret
    · refine .still (saved_apply e hsame) ?_ ?_
      · intro regs' call' ret' he
        cases he
        exact e rfl
      · intro result he
        cases he
  -- a call that changes the process that makes it
  have hown : q ≠ pid → ∀ x, (s.tasks.insert pid ⟨regs.moveNext, proc.signal⟩).insert pid x q = some proc' →
      Became s q (.syscall pid regs call ret) proc' := by
    intro e x hsame
    rw [BTreeMap.insert_insert, BTreeMap.insert_apply, if_neg e] at hsame
    refine .still hsame ?_ ?_
    · intro regs' call' ret' he
      cases he
      exact e rfl
    · intro result he
      cases he
  cases call with
  | exit exitCode =>
    rw [h.2] at hq
    exact hidle (fun _ e => by cases e) (fun e => by cases e) hq
  | fork child =>
    rw [h.2, BTreeMap.insert_apply] at hq
    split at hq
    · rename_i e
      cases hq
      rw [e]
      exact .fork hp
    · exact hidle (fun _ e => by cases e) (fun e => by cases e) hq
  | exec image =>
    cases image with
    | none =>
      rw [h.2] at hq
      exact hidle (fun _ e => by cases e) (fun e => by cases e) hq
    | some image =>
      rw [h.2] at hq
      by_cases e : q = pid
      · rw [h.1]
        subst e
        rw [BTreeMap.insert_apply, if_pos rfl] at hq
        cases hq
        exact @Became.exec s q proc regs image hp
      · exact hown e _ hq
  | wait child =>
    rw [h.2] at hq
    exact hidle (fun _ e => by cases e) (fun e => by cases e) hq
  | kill target signum =>
    rcases h with ⟨-, hm⟩ | ⟨t, k, ht, hk, hne, hr, hm⟩
    · rw [hm] at hq
      exact hidle (fun _ e => by cases e) (fun e => by cases e) hq
    · rw [hm, BTreeMap.insert_apply] at hq
      split at hq
      · rename_i e
        cases hq
        rw [hr, ← e]
        rw [← e, BTreeMap.insert_apply] at ht
        split at ht
        · rename_i e'
          cases ht
          rw [← e'] at hp ⊢
          exact @Became.killSelf s _ proc regs signum k hp hk hne
        · rename_i e'
          exact .kill ht (Ne.symm e') hk hne
      · exact hidle (fun _ e => by cases e) (fun e => by cases e) hq
  | sigaction signum action oldAction =>
    rcases h with ⟨-, hm⟩ | ⟨k, a, hk, -, ha, hr, hm⟩
    · rw [hm] at hq
      exact hidle (fun _ e => by cases e) (fun e => by cases e) hq
    · rw [hm] at hq
      by_cases e : q = pid
      · rw [hr, ha]
        subst e
        rw [BTreeMap.insert_apply, if_pos rfl] at hq
        cases hq
        exact @Became.sigaction s q proc regs signum k a oldAction hp hk
      · exact hown e _ hq
  | sigprocmask mask =>
    rw [h.2] at hq
    by_cases e : q = pid
    · subst e
      rw [BTreeMap.insert_apply, if_pos rfl] at hq
      cases hq
      exact @Became.sigprocmask s q proc regs mask ret hp
    · exact hown e _ hq
  | sigreturn =>
    rcases h with ⟨old, hh, hr, hm⟩ | ⟨hno, -, hm⟩
    · rw [hm] at hq
      by_cases e : q = pid
      · rw [hr]
        subst e
        rw [BTreeMap.insert_apply, if_pos rfl] at hq
        cases hq
        exact @Became.sigreturn s q proc regs old hp hh
      · exact hown e _ hq
    · rw [hm] at hq
      exact hidle (fun _ e => by cases e) (fun _ => hno) hq
  | other r =>
    rw [h.2] at hq
    exact hidle (fun _ e => by cases e) (fun e => by cases e) hq
  | unsupported =>
    rw [h.2] at hq
    exact hidle (fun _ e => by cases e) (fun e => by cases e) hq

/-- Every process after a step is one from before it, changed as `Became` says, or a new one. -/
theorem Step.became {proc' : Process} (h : Step s e t) (hq : t.tasks q = some proc') : Became s q e proc' := by
  cases h with
  | @boot context pm hadd =>
    obtain ⟨manager, hm, hadd⟩ := bind_eq_ok.mp hadd
    obtain ⟨relMap, -, hadd⟩ := bind_eq_ok.mp hadd
    cases hadd
    cases hm
    have hq : (BTreeMap.insert BTreeMap.empty 0 (⟨context, .new⟩ : Process)) q = some proc' := hq
    rw [BTreeMap.insert_apply] at hq
    split at hq
    · cases hq
      exact .boot
    · cases hq
  | dispatch hph hf hc =>
    refine @Became.still s q _ proc' ?_ (fun _ _ _ e => by cases e) (fun _ e => by cases e)
    have hsame := (dispatch_did hf hc).1
    unfold State.tasks at hq ⊢
    rwa [hsame] at hq
  | @syscall _ pid regs call ret pm hph hc hfresh hcall =>
    obtain ⟨proc, hcur⟩ := current_task (.syscall hph hc hfresh hcall)
    exact (syscall_did hcur hcall).1.became (getCurrent_ok.mp hcur).2 hq
  | @signals _ pid call ret result pm hph hc hsig =>
    obtain ⟨proc, hcur⟩ := signals_task (.signals hph hc hsig)
    obtain ⟨signal, context, hs, -, ⟨-, hm⟩ | ⟨hl, r, hr, hm⟩⟩ := signals_did hcur hsig
    · unfold State.tasks at hq
      dsimp only at hq
      rw [hm, BTreeMap.remove_apply] at hq
      split at hq
      · cases hq
      · rename_i e
        exact .still hq (fun _ _ _ e => by cases e) fun _ he => by cases he; exact e rfl
    · unfold State.tasks at hq
      dsimp only at hq
      rw [hm] at hq
      dsimp only at hq
      rw [BTreeMap.insert_apply] at hq
      split at hq
      · rename_i e
        cases hq
        rw [e]
        subst hr
        exact .signals (getCurrent_ok.mp hcur).2 hph hs hl
      · rename_i e
        exact .still hq (fun _ _ _ e => by cases e) fun _ he => by cases he; exact e rfl
  | @fault _ pid pm hph hc hexit =>
    have hm := (exited_tasks hc hexit).1
    refine .still ?_ (fun _ _ _ e => by cases e) (fun _ e => by cases e)
    unfold State.tasks at hq
    dsimp only at hq
    rw [hm] at hq
    have hq : s.pm.manager.tasks.remove pid q = some proc' := hq
    rw [BTreeMap.remove_apply] at hq
    split at hq
    · cases hq
    · exact hq

end

/-! ## Runs -/

/-- What holds of the processes whenever the loop is between two steps. -/
structure SInv (s : State) : Prop where
  table : ∀ {q proc}, s.tasks q = some proc → proc.signal.actions.length = maxSig + 1
  used : ∀ {q proc}, s.tasks q = some proc → q ∈ s.used
  current : s.phase ≠ .idle → ∃ pid proc, getCurrent s.pm = .ok (pid, proc)
  answered : ∀ {call ret}, s.phase = .signals call ret → (ret = none ↔ call = .unsupported)

section

variable {s t : State} {e : Event} {pid q : ProcId} {proc : Process} {m m' : BTreeMap ProcId Process}
  {call : Syscall} {ret : Option Int} {es : List Turn}

theorem Did.alive (h : Did m pid proc ret m' call) (hq : (m q).isSome = true) : (m' q).isSome = true := by
  have hinsert : ∀ k x, (m.insert k x q).isSome = true := fun k x => (BTreeMap.isSome_insert m k q x).mpr (.inr hq)
  cases call with
  | exit | wait | other | unsupported => rwa [h.2]
  | fork | sigprocmask =>
    rw [h.2]
    exact hinsert _ _
  | exec image =>
    cases image with
    | none => rwa [h.2]
    | some image =>
      rw [h.2]
      exact hinsert _ _
  | kill =>
    rcases h with ⟨-, hm⟩ | ⟨_, _, _, _, _, _, hm⟩
    · rwa [hm]
    · rw [hm]
      exact hinsert _ _
  | sigaction =>
    rcases h with ⟨-, hm⟩ | ⟨_, _, _, _, _, _, hm⟩
    · rwa [hm]
    · rw [hm]
      exact hinsert _ _
  | sigreturn =>
    rcases h with ⟨_, _, _, hm⟩ | ⟨_, _, hm⟩
    · rw [hm]
      exact hinsert _ _
    · rwa [hm]

theorem Did.unsupported (h : Did m pid proc none m' call) : call = .unsupported := by
  cases call with
  | unsupported => rfl
  | exit | fork | sigprocmask | other => cases h.1
  | exec image =>
    cases image with
    | none => cases h.1
    | some image => cases h.1
  | wait => cases h.1
  | kill =>
    rcases h with ⟨h, -⟩ | ⟨_, _, _, _, _, h, _⟩
    · cases h
    · cases h
  | sigaction =>
    rcases h with ⟨h, -⟩ | ⟨_, _, _, _, _, h, _⟩
    · cases h
    · cases h
  | sigreturn =>
    rcases h with ⟨_, _, h, _⟩ | ⟨_, h, _⟩
    · cases h
    · cases h

theorem mem_mark (s : State) (call : Syscall) (h : q ∈ s.used) : q ∈ mark s call := by
  cases call with
  | fork => exact List.mem_cons_of_mem _ h
  | exit | exec | wait | kill | sigaction | sigprocmask | sigreturn | other | unsupported => exact h

/-- Process ids stay used. -/
theorem Step.used_mono (h : Step s e t) (hq : q ∈ s.used) : q ∈ t.used := by
  cases h with
  | boot => cases hq
  | dispatch => exact hq
  | syscall => exact mem_mark s _ hq
  | signals => exact hq
  | fault => exact hq

theorem sInv_new : SInv State.new := by
  refine ⟨?_, ?_, ?_, ?_⟩
  · intro q proc h
    cases h
  · intro q proc h
    cases h
  · intro h
    exact absurd rfl h
  · intro call ret h
    cases h

theorem SInv.step (hi : SInv s) (h : Step s e t) : SInv t := by
  refine ⟨?_, ?_, ?_, ?_⟩
  · intro q proc hq
    cases h.became hq with
    | boot => exact List.length_replicate
    | still hs | trap hs | exec hs | sigprocmask hs | sigreturn hs | killSelf hs | kill hs | fork hs =>
      have htable := hi.table hs
      exact htable
    | sigaction hs => exact List.length_set.trans (hi.table hs)
    | signals hs _ hh =>
      rw [(handle_keeps hh).1]
      exact hi.table hs
  · intro q proc hq
    cases h.became hq with
    | still hs | trap hs | exec hs | sigaction hs | sigprocmask hs | sigreturn hs | killSelf hs | kill hs | signals hs =>
      exact h.used_mono (hi.used hs)
    | fork hs =>
      cases h with
      | syscall => exact List.mem_cons_self
    | boot =>
      cases h with
      | boot hadd =>
        obtain ⟨manager, hm, hadd⟩ := bind_eq_ok.mp hadd
        obtain ⟨relMap, -, hadd⟩ := bind_eq_ok.mp hadd
        cases hadd
        cases hm
        have hq : BTreeMap.insert BTreeMap.empty 0 _ q = some _ := hq
        rw [BTreeMap.insert_apply] at hq
        split at hq
        · rename_i e
          rw [e]
          exact List.mem_singleton_self 0
        · cases hq
  · intro hph
    cases h with
    | boot | signals | fault => exact absurd rfl hph
    | @dispatch _ pid proc pm _ hf hc =>
      obtain ⟨hm, hp⟩ := dispatch_did hf hc
      refine ⟨pid, proc, getCurrent_ok.mpr ⟨hc, ?_⟩⟩
      rw [hm]
      exact hp
    | @syscall _ pid regs call ret pm hphase hc hfresh hcall =>
      obtain ⟨proc, hcur⟩ := current_task (.syscall hphase hc hfresh hcall)
      obtain ⟨hd, hcurrent⟩ := syscall_did hcur hcall
      have halive := hd.alive (q := pid) (by rw [BTreeMap.insert_apply, if_pos rfl]; rfl)
      obtain ⟨proc', hp⟩ := Option.isSome_iff_exists.mp halive
      exact ⟨pid, proc', getCurrent_ok.mpr ⟨hcurrent.trans hc, hp⟩⟩
  · intro call ret hph
    cases h with
    | boot | dispatch | signals | fault => cases hph
    | syscall hphase hc hfresh hcall =>
      obtain ⟨proc, hcur⟩ := current_task (.syscall hphase hc hfresh hcall)
      cases hph
      have hd := (syscall_did hcur hcall).1
      constructor
      · rintro rfl
        exact hd.unsupported
      · rintro rfl
        exact hd.1

theorem sInv_run (h : Run es s) : SInv s :=
  Exec.inv (P := fun _ s => SInv s) sInv_new (fun hi hs => hi.step hs.2.2) h

/-- A run up to a turn of it, and the turn. -/
theorem Run.at {es1 es2 : List Turn} {e : Turn} (h : Run (es1 ++ e :: es2) s) :
    Run es1 e.before ∧ Step e.before e.event e.after ∧ Run (es1 ++ [e]) e.after := by
  obtain ⟨u, h1, h2⟩ := Exec.split h
  obtain ⟨v, ⟨hb, ha, hs⟩, -⟩ := Exec.uncons h2
  subst hb
  subst ha
  exact ⟨h1, hs, .snoc h1 ⟨rfl, rfl, hs⟩⟩

end

/-! ## Replays -/

instance (s : State) (call : Syscall) : Decidable (Fresh s call) :=
  match call with
  | .fork pid => inferInstanceAs (Decidable (pid ∉ s.used ∧ pid < 2 ^ 64 - 2))
  | .exit _ | .exec _ | .wait _ | .kill _ _ | .sigaction _ _ _ | .sigprocmask _ | .sigreturn | .other _ | .unsupported =>
    isTrue trivial

/-- One round of the loop: the next process makes the call with these registers. -/
structure Round where
  regs : LocalContext
  call : Syscall

/-- `find_next` and the system call. -/
def enter (s : State) (r : Round) : Except Halt (List Turn × State) := do
  let (next, pm) ← s.pm.findNext
  match next, pm.current with
  | some _, some pid =>
    let s1 : State := ⟨pm, s.used, .user⟩
    if Fresh s1 r.call then do
      let (ret, pm) ← syscall s1.pm r.regs r.call
      let s2 : State := ⟨pm, mark s1 r.call, .signals r.call ret⟩
      .ok ([⟨s, .dispatch pid, s1⟩, ⟨s1, .syscall pid r.regs r.call ret, s2⟩], s2)
    else .error .panic
  | _, _ => .error .panic

/-- `handle_signals` and what becomes of the process. -/
def leave (s : State) : Except Halt (List Turn × State) :=
  match s.phase, s.pm.current with
  | .signals call ret, some pid => do
    let (result, pm) ← signals s.pm call ret
    let t : State := ⟨pm, s.used, .idle⟩
    .ok ([⟨s, .signals pid result, t⟩], t)
  | _, _ => .error .panic

def round (s : State) (r : Round) : Except Halt (List Turn × State) := do
  let (es, s) ← enter s r
  let (es', s) ← leave s
  .ok (es ++ es', s)

def rounds (s : State) : List Round → Except Halt (List Turn × State)
  | [] => .ok ([], s)
  | r :: rs => do
    let (es, s) ← round s r
    let (es', s) ← rounds s rs
    .ok (es ++ es', s)

/-- The result of the call, and of `handle_signals`, that the turn shows for process 0. -/
def callOf (e : Turn) : Option (Option Int) :=
  match e.event with
  | .syscall 0 _ _ ret => some ret
  | _ => none

def resultOf (e : Turn) : Option SignalResult :=
  match e.event with
  | .signals 0 result => some result
  | _ => none

/-- The boot and the rounds after it. -/
def play (context : LocalContext) (rs : List Round) : Except Halt (List Turn × State) := do
  let pm ← (PManager.new .new).add 0 (⟨context, .new⟩ : Process) usizeMax
  let s : State := ⟨pm, [0], .idle⟩
  let (es, t) ← rounds s rs
  .ok (⟨State.new, .boot, s⟩ :: es, t)

section

variable {s t : State} {es : List Turn}

theorem callOf_eq {e : Turn} {pid : ProcId} {regs : LocalContext} {call : Syscall} {ret ret' : Option Int}
    (he : e.event = .syscall pid regs call ret) (h : callOf e = some ret') : e.event = .syscall 0 regs call ret' := by
  unfold callOf at h
  rw [he] at h ⊢
  split at h
  · rename_i hev
    cases hev
    cases h
    rfl
  · cases h

theorem resultOf_eq {e : Turn} {result : SignalResult} (h : resultOf e = some result) : e.event = .signals 0 result := by
  unfold resultOf at h
  split at h
  · rename_i hev
    cases h
    exact hev
  · cases h

abbrev Turns (s : State) (es : List Turn) (t : State) : Prop :=
  Exec (fun s e t => e.before = s ∧ e.after = t ∧ Step s e.event t) s es t

theorem enter_turns {r : Round} (hph : s.phase = .idle) (h : enter s r = .ok (es, t)) :
    Turns s es t ∧ ∃ d e pid ret, es = [d, e] ∧ d.event = .dispatch pid ∧ e.event = .syscall pid r.regs r.call ret ∧
      e.after = t ∧ t.phase = .signals r.call ret ∧ t.pm.current = some pid := by
  obtain ⟨⟨next, pm⟩, hf, h⟩ := bind_eq_ok.mp h
  dsimp only at h
  split at h
  · rename_i proc pid hc
    split at h
    · rename_i hfresh
      obtain ⟨⟨ret, pm1⟩, hcall, h⟩ := bind_eq_ok.mp h
      cases h
      have h1 : Step s (.dispatch pid) ⟨pm, s.used, .user⟩ := .dispatch hph hf hc
      have h2 : Step ⟨pm, s.used, .user⟩ _ _ := .syscall rfl hc hfresh hcall
      have hfirst : Turns s [⟨s, .dispatch pid, ⟨pm, s.used, .user⟩⟩] ⟨pm, s.used, .user⟩ := Exec.single ⟨rfl, rfl, h1⟩
      obtain ⟨proc, hcur⟩ := current_task h2
      exact ⟨hfirst.snoc ⟨rfl, rfl, h2⟩, _, _, pid, ret, rfl, rfl, rfl, rfl, rfl, (syscall_did hcur hcall).2.trans hc⟩
    · cases h
  · cases h

theorem leave_turns (h : leave s = .ok (es, t)) : Turns s es t ∧ t.phase = .idle ∧
    ∃ e pid result, es = [e] ∧ e.event = .signals pid result ∧ e.after = t := by
  unfold leave at h
  split at h
  · rename_i call ret pid hph hc
    obtain ⟨⟨result, pm⟩, hsig, h⟩ := bind_eq_ok.mp h
    cases h
    exact ⟨Exec.single ⟨rfl, rfl, .signals hph hc hsig⟩, rfl, _, pid, result, rfl, rfl, rfl⟩
  · cases h

theorem round_turns {r : Round} (hph : s.phase = .idle) (h : round s r = .ok (es, t)) : Turns s es t ∧ t.phase = .idle := by
  obtain ⟨⟨es1, u⟩, h1, h⟩ := bind_eq_ok.mp h
  obtain ⟨⟨es2, v⟩, h2, h⟩ := bind_eq_ok.mp h
  cases h
  obtain ⟨hlast, hidle, -⟩ := leave_turns h2
  exact ⟨(enter_turns hph h1).1.append hlast, hidle⟩

theorem rounds_turns {rs : List Round} (hph : s.phase = .idle) (h : rounds s rs = .ok (es, t)) :
    Turns s es t ∧ t.phase = .idle := by
  induction rs generalizing s es with
  | nil =>
    cases h
    exact ⟨.nil _, hph⟩
  | cons r rs ih =>
    obtain ⟨⟨es1, u⟩, h1, h⟩ := bind_eq_ok.mp h
    obtain ⟨⟨es2, v⟩, h2, h⟩ := bind_eq_ok.mp h
    cases h
    obtain ⟨hrun, hidle⟩ := round_turns hph h1
    obtain ⟨hrest, hlast⟩ := ih hidle h2
    exact ⟨hrun.append hrest, hlast⟩

theorem play_run {context : LocalContext} {rs : List Round} (h : play context rs = .ok (es, s)) :
    Run es s ∧ s.phase = .idle := by
  obtain ⟨pm, hadd, h⟩ := bind_eq_ok.mp h
  obtain ⟨⟨es1, t⟩, hrest, h⟩ := bind_eq_ok.mp h
  cases h
  have hboot : Run [⟨State.new, .boot, ⟨pm, [0], .idle⟩⟩] ⟨pm, [0], .idle⟩ := Exec.single ⟨rfl, rfl, .boot hadd⟩
  obtain ⟨hrun, hph⟩ := rounds_turns (s := ⟨pm, [0], .idle⟩) rfl hrest
  exact ⟨hboot.append hrun, hph⟩

end

end TgRcore.Kernel.ProcessLoop
