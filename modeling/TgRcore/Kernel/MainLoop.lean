/-
  TgRcore.Kernel.MainLoop — the kernel of chapter 8: system calls, signals and the scheduling
  loop (`main.rs`, `process.rs`).

  One turn of the loop is `Step.dispatch` (`find_next` chose a thread) and `Step.trap` (its
  system call, the signals of its process, and what becomes of the thread) or `Step.fault`.
  A call with effects on other threads is modelled in full; one that leaves processes,
  threads and queues alone (reads, writes, `getpid`, ..) is `Syscall.other` with its result.
-/

import TgRcore.Kernel.Signal
import TgRcore.Sync.Condvar
import TgRcore.Sync.Semaphore
import TgRcore.Task.ThreadManager

namespace TgRcore.Kernel

open TgRcore.BlockProg TgRcore.Sync TgRcore.Task

structure Process where
  signal : SignalImpl
  semaphoreList : List (Option Semaphore)
  mutexList : List (Option MutexBlocking)
  condvarList : List (Option Condvar)

def Process.new : Process := ⟨.new, [], [], []⟩

/-- A child has the signal actions and no synchronisation objects. -/
def Process.fork (p : Process) : Process := ⟨p.signal.fromFork, [], [], []⟩

/-- Processes are stored under their own numbers, threads are their contexts. -/
abbrev Manager := PThreadManager Process LocalContext

/-- `sigaction` with what it reads of user memory: the action (none: a null pointer; `some none`:
    not readable) and whether the place for the old action is writable. -/
inductive Syscall where
  | exit (exitCode : Int)
  | fork (pid : ProcId) (tid : Task.ThreadId)
  | exec (context : LocalContext)
  | wait (pid : ProcId)
  | threadCreate (tid : Task.ThreadId) (context : LocalContext)
  | waittid (tid : Task.ThreadId)
  | semaphoreCreate (resCount : Nat)
  | semaphoreUp (semId : Nat)
  | semaphoreDown (semId : Nat)
  | mutexCreate (blocking : Bool)
  | mutexLock (mutexId : Nat)
  | mutexUnlock (mutexId : Nat)
  | condvarCreate
  | condvarSignal (condvarId : Nat)
  | condvarWait (condvarId mutexId : Nat)
  | kill (pid : ProcId) (signum : Nat)
  | sigaction (signum : Nat) (action : Option (Option SignalAction)) (oldAction : Option Bool)
  | sigprocmask (mask : Nat)
  | sigreturn
  | other (ret : Int)
  | unsupported

/-- An entry of a list of objects: a missing one stops the kernel. -/
def slot {α : Type} (l : List (Option α)) (id : Nat) : Except Halt α :=
  match l[id]? with
  | some (some x) => .ok x
  | _ => .error .panic

/-- The first free entry, or a new one. -/
def place {α : Type} (l : List (Option α)) (x : Option α) : Nat × List (Option α) :=
  match l.findIdx? Option.isNone with
  | some id => (id, l.set id x)
  | none => (l.length, l ++ [x])

namespace Manager

/-- `get_current_proc().unwrap()` -/
def getCurrentProc (tm : Manager) : Except Halt (ProcId × Process) :=
  match tm.current with
  | none => .error .panic
  | some id =>
    match tm.tid2pid id with
    | none => .error .panic
    | some pid =>
      match tm.procManager.getMut pid with
      | none => .error .panic
      | some proc => .ok (pid, proc)

/-- `current().unwrap()` -/
def getCurrent (tm : Manager) : Except Halt (Task.ThreadId × LocalContext) :=
  match tm.current with
  | none => .error .panic
  | some id =>
    match tm.manager.getMut id with
    | none => .error .panic
    | some context => .ok (id, context)

def setProc (tm : Manager) (pid : ProcId) (proc : Process) : Manager :=
  { tm with procManager := tm.procManager.insert pid proc }

def setContext (tm : Manager) (tid : Task.ThreadId) (context : LocalContext) : Manager :=
  { tm with manager := { tm.manager with tasks := tm.manager.tasks.adjust tid fun _ => context } }

/-- A thread that was taken off a wait queue is ready. -/
def wake (tm : Manager) : Option Task.ThreadId → Except Halt Manager
  | some tid => tm.reEnque tid
  | none => .ok tm

/-! ## System calls -/

def fork (tm : Manager) (pid : ProcId) (tid : Task.ThreadId) : Except Halt (Int × Manager) := do
  let (parentPid, proc) ← getCurrentProc tm
  match tm.relMap parentPid with
  | none => .error .panic
  | some r =>
    match r.threads with
    | [] => .error .panic
    | first :: _ =>
      match tm.manager.getMut first with
      | none => .error .panic
      | some context =>
        let tm := tm.addProc pid proc.fork parentPid
        let tm ← tm.add tid (context.setA 0 0) pid
        .ok (asIsize pid, tm)

/-- The new image: the context of the first thread of the process. -/
def exec (tm : Manager) (context : LocalContext) : Except Halt (Int × Manager) := do
  let (pid, _) ← getCurrentProc tm
  match tm.relMap pid with
  | none => .error .panic
  | some r =>
    match r.threads with
    | [] => .error .panic
    | first :: _ => .ok (0, setContext tm first context)

def threadCreate (tm : Manager) (tid : Task.ThreadId) (context : LocalContext) : Except Halt (Int × Manager) := do
  let (pid, _) ← getCurrentProc tm
  let tm ← tm.add tid context pid
  .ok (asIsize tid, tm)

def wait (tm : Manager) (pid : ProcId) : Except Halt (Int × Manager) := do
  let (ret, tm) ← PThreadManager.wait tm pid
  match ret with
  | some (deadPid, _) => .ok (asIsize deadPid, tm)
  | none => .ok (-1, tm)

def waittid (tm : Manager) (tid : Task.ThreadId) : Except Halt (Int × Manager) := do
  let (current, _) ← getCurrent tm
  if tid = current then .ok (-1, tm)
  else
    let (ret, tm) ← PThreadManager.waittid tm tid
    .ok (ret.getD (-1), tm)

def semaphoreCreate (tm : Manager) (resCount : Nat) : Except Halt (Int × Manager) := do
  let (pid, proc) ← getCurrentProc tm
  let (id, semaphoreList) := place proc.semaphoreList (some (.new resCount))
  .ok (id, setProc tm pid { proc with semaphoreList := semaphoreList })

def semaphoreUp (tm : Manager) (semId : Nat) : Except Halt (Int × Manager) := do
  let (pid, proc) ← getCurrentProc tm
  let sem ← slot proc.semaphoreList semId
  let (woken, sem) ← sem.up
  let tm := setProc tm pid { proc with semaphoreList := proc.semaphoreList.set semId (some sem) }
  let tm ← wake tm woken
  .ok (0, tm)

def semaphoreDown (tm : Manager) (semId : Nat) : Except Halt (Int × Manager) := do
  let (tid, _) ← getCurrent tm
  let (pid, proc) ← getCurrentProc tm
  let sem ← slot proc.semaphoreList semId
  let (passed, sem) ← sem.down tid
  let tm := setProc tm pid { proc with semaphoreList := proc.semaphoreList.set semId (some sem) }
  .ok (if passed then 0 else -1, tm)

def mutexCreate (tm : Manager) (blocking : Bool) : Except Halt (Int × Manager) := do
  let (pid, proc) ← getCurrentProc tm
  let (id, mutexList) := place proc.mutexList (if blocking then some .new else none)
  .ok (id, setProc tm pid { proc with mutexList := mutexList })

def mutexLock (tm : Manager) (mutexId : Nat) : Except Halt (Int × Manager) := do
  let (tid, _) ← getCurrent tm
  let (pid, proc) ← getCurrentProc tm
  let mutex ← slot proc.mutexList mutexId
  let (locked, mutex) := mutex.lock tid
  let tm := setProc tm pid { proc with mutexList := proc.mutexList.set mutexId (some mutex) }
  .ok (if locked then 0 else -1, tm)

def mutexUnlock (tm : Manager) (mutexId : Nat) : Except Halt (Int × Manager) := do
  let (pid, proc) ← getCurrentProc tm
  let mutex ← slot proc.mutexList mutexId
  let (woken, mutex) ← mutex.unlock
  let tm := setProc tm pid { proc with mutexList := proc.mutexList.set mutexId (some mutex) }
  let tm ← wake tm woken
  .ok (0, tm)

def condvarCreate (tm : Manager) : Except Halt (Int × Manager) := do
  let (pid, proc) ← getCurrentProc tm
  let (id, condvarList) := place proc.condvarList (some .new)
  .ok (id, setProc tm pid { proc with condvarList := condvarList })

def condvarSignal (tm : Manager) (condvarId : Nat) : Except Halt (Int × Manager) := do
  let (pid, proc) ← getCurrentProc tm
  let condvar ← slot proc.condvarList condvarId
  let (woken, condvar) := condvar.signal
  let tm := setProc tm pid { proc with condvarList := proc.condvarList.set condvarId (some condvar) }
  let tm ← wake tm woken
  .ok (0, tm)

def condvarWait (tm : Manager) (condvarId mutexId : Nat) : Except Halt (Int × Manager) := do
  let (tid, _) ← getCurrent tm
  let (pid, proc) ← getCurrentProc tm
  let condvar ← slot proc.condvarList condvarId
  let mutex ← slot proc.mutexList mutexId
  let ((flag, wakingTid), mutex) ← condvar.waitWithMutex tid mutex
  let tm := setProc tm pid { proc with mutexList := proc.mutexList.set mutexId (some mutex) }
  let tm ← wake tm (some wakingTid)
  .ok (if flag then 0 else -1, tm)

def kill (tm : Manager) (pid : ProcId) (signum : Nat) : Int × Manager :=
  match tm.procManager.getMut pid with
  | none => (-1, tm)
  | some target =>
    match SignalNo.tryFrom signum with
    | none => (-1, tm)
    | some signalNo =>
      if signalNo ≠ SignalNo.ERR then (0, setProc tm pid { target with signal := target.signal.addSignal signalNo })
      else (-1, tm)

def sigaction (tm : Manager) (signum : Nat) (action : Option (Option SignalAction)) (oldAction : Option Bool) :
    Except Halt (Int × Manager) := do
  if signum > maxSig then .ok (-1, tm)
  else
    let (pid, proc) ← getCurrentProc tm
    match SignalNo.tryFrom signum with
    | none => .ok (-1, tm)
    | some signalNo =>
      if signalNo = SignalNo.ERR then .ok (-1, tm)
      else do
        let put ← proc.signal.putOld signalNo oldAction
        if put then
          match action with
          | none => .ok (0, tm)
          | some none => .ok (-1, tm)
          | some (some action) => do
            let (done, signal) ← proc.signal.setAction signalNo action
            if done then .ok (0, setProc tm pid { proc with signal := signal }) else .ok (-1, tm)
        else .ok (-1, tm)

def sigprocmask (tm : Manager) (mask : Nat) : Except Halt (Int × Manager) := do
  let (pid, proc) ← getCurrentProc tm
  let (old, signal) := proc.signal.updateMask mask
  .ok (asIsize old, setProc tm pid { proc with signal := signal })

def sigreturn (tm : Manager) : Except Halt (Int × Manager) := do
  let (pid, proc) ← getCurrentProc tm
  let (tid, context) ← getCurrent tm
  let (done, signal, context) := proc.signal.sigReturn context
  .ok (if done then 0 else -1, setContext (setProc tm pid { proc with signal := signal }) tid context)

/-- `sigaction` changes nothing but the actions of the process. -/
theorem sigaction_cases {tm tm' : Manager} {signum : Nat} {action : Option (Option SignalAction)} {oldAction : Option Bool}
    {r : Int} (h : sigaction tm signum action oldAction = .ok (r, tm')) :
    tm' = tm ∨ ∃ pid proc signal, getCurrentProc tm = .ok (pid, proc) ∧ signal.handling = proc.signal.handling ∧
      tm' = setProc tm pid { proc with signal := signal } := by
  unfold sigaction at h
  split at h
  · cases h
    exact .inl rfl
  · obtain ⟨⟨pid, proc⟩, hproc, h⟩ := bind_eq_ok.mp h
    dsimp only at h
    split at h
    · cases h
      exact .inl rfl
    · split at h
      · cases h
        exact .inl rfl
      · obtain ⟨put, -, h⟩ := bind_eq_ok.mp h
        split at h
        · split at h
          · cases h
            exact .inl rfl
          · cases h
            exact .inl rfl
          · obtain ⟨⟨set, signal⟩, hset, h⟩ := bind_eq_ok.mp h
            dsimp only at h
            split at h
            · cases h
              refine .inr ⟨pid, proc, signal, hproc, ?_, rfl⟩
              unfold SignalImpl.setAction at hset
              split at hset
              · cases hset
                rfl
              · split at hset
                · cases hset
                  rfl
                · cases hset
            · cases h
              exact .inl rfl
        · cases h
          exact .inl rfl

def done (x : Except Halt (Int × Manager)) : Except Halt (Option Int × Manager) := do
  let (ret, tm) ← x
  .ok (some ret, tm)

/-- The result of the call, or `Unsupported`. -/
def handle (tm : Manager) : Syscall → Except Halt (Option Int × Manager)
  | .exit exitCode => .ok (some exitCode, tm)
  | .fork pid tid => done (fork tm pid tid)
  | .exec context => done (exec tm context)
  | .wait pid => done (wait tm pid)
  | .threadCreate tid context => done (threadCreate tm tid context)
  | .waittid tid => done (waittid tm tid)
  | .semaphoreCreate resCount => done (semaphoreCreate tm resCount)
  | .semaphoreUp semId => done (semaphoreUp tm semId)
  | .semaphoreDown semId => done (semaphoreDown tm semId)
  | .mutexCreate blocking => done (mutexCreate tm blocking)
  | .mutexLock mutexId => done (mutexLock tm mutexId)
  | .mutexUnlock mutexId => done (mutexUnlock tm mutexId)
  | .condvarCreate => done (condvarCreate tm)
  | .condvarSignal condvarId => done (condvarSignal tm condvarId)
  | .condvarWait condvarId mutexId => done (condvarWait tm condvarId mutexId)
  | .kill pid signum => done (.ok (kill tm pid signum))
  | .sigaction signum action oldAction => done (sigaction tm signum action oldAction)
  | .sigprocmask mask => done (sigprocmask tm mask)
  | .sigreturn => done (sigreturn tm)
  | .other ret => .ok (some ret, tm)
  | .unsupported => .ok (none, tm)

/-! ## The loop -/

/-- `as usize` of an isize. -/
def asUsize (a : Int) : Nat := (a % 2 ^ 64).toNat

/-- `*ctx.a_mut(0) = ret as _`, in the table as long as `ctx` leads there: `TableStep` is about a call
    that moves the entry. -/
def setRet (tm : Manager) (ret : Int) : Except Halt Manager := do
  let (tid, context) ← getCurrent tm
  .ok (setContext tm tid (context.setA 0 (asUsize ret)))

/-- What becomes of the current thread after its call and the signals. -/
def finish (tm : Manager) (call : Syscall) (syscallRet : Option Int) : SignalResult → Except Halt Manager
  | .processKilled exitCode => tm.makeCurrentExited exitCode
  | _ =>
    match syscallRet with
    | none => tm.makeCurrentExited (-2)
    | some ret =>
      match call with
      | .exit _ => tm.makeCurrentExited ret
      | .semaphoreDown _ | .mutexLock _ | .condvarWait _ _ => do
        let tm ← setRet tm ret
        if ret = -1 then .ok tm.makeCurrentBlocked else tm.makeCurrentSuspend
      | _ => do
        let tm ← setRet tm ret
        tm.makeCurrentSuspend

/-- The trap of a system call. -/
def trap (tm : Manager) (call : Syscall) : Except Halt Manager := do
  let (tid, context) ← getCurrent tm
  let tm := setContext tm tid context.moveNext
  let (syscallRet, tm) ← handle tm call
  let (pid, proc) ← getCurrentProc tm
  let (tid, context) ← getCurrent tm
  let (result, signal, context) ← proc.signal.handleSignals context
  let tm := setContext (setProc tm pid { proc with signal := signal }) tid context
  finish tm call syscallRet result

end Manager

/-- The managers and the process and thread ids used so far. -/
abbrev State := Threads.World Process LocalContext

inductive Event where
  | boot
  | dispatch
  | trap (call : Syscall)
  | fault

/-- The ids that a call makes are new: `ProcId::new` and `ThreadId::new` count up. -/
def Fresh (s : State) : Syscall → Prop
  | .fork pid tid => pid ∉ s.usedPids ∧ pid < 2 ^ 64 - 2 ∧ tid ∉ s.usedTids
  | .threadCreate tid _ => tid ∉ s.usedTids
  | _ => True

instance (s : State) (call : Syscall) : Decidable (Fresh s call) :=
  match call with
  | .fork pid tid => inferInstanceAs (Decidable (pid ∉ s.usedPids ∧ pid < 2 ^ 64 - 2 ∧ tid ∉ s.usedTids))
  | .threadCreate tid _ => inferInstanceAs (Decidable (tid ∉ s.usedTids))
  | .exit _ | .exec _ | .wait _ | .waittid _ | .semaphoreCreate _ | .semaphoreUp _ | .semaphoreDown _
  | .mutexCreate _ | .mutexLock _ | .mutexUnlock _ | .condvarCreate | .condvarSignal _ | .condvarWait _ _
  | .kill _ _ | .sigaction _ _ _ | .sigprocmask _ | .sigreturn | .other _ | .unsupported => isTrue trivial

/-- The ids used after a call. -/
def mark (s : State) (tm : Manager) : Syscall → State
  | .fork pid tid => ⟨tm, pid :: s.usedPids, tid :: s.usedTids⟩
  | .threadCreate tid _ => ⟨tm, s.usedPids, tid :: s.usedTids⟩
  | _ => ⟨tm, s.usedPids, s.usedTids⟩

inductive Step : State → Event → State → Prop
  | boot {context : LocalContext} {tm : Manager} :
      (PThreadManager.addProc .new 0 Process.new usizeMax).add 0 context 0 = .ok tm →
      Step Threads.World.new .boot ⟨tm, [0], [0]⟩
  | dispatch {s : State} {context : LocalContext} {tm : Manager} : s.tm.current = none →
      s.tm.findNext = .ok (some context, tm) → Step s .dispatch ⟨tm, s.usedPids, s.usedTids⟩
  | trap {s : State} {call : Syscall} {tm : Manager} : Fresh s call → Manager.trap s.tm call = .ok tm →
      Step s (.trap call) (mark s tm call)
  | fault {s : State} {tm : Manager} : s.tm.current.isSome = true → s.tm.makeCurrentExited (-3) = .ok tm →
      Step s .fault ⟨tm, s.usedPids, s.usedTids⟩

/-! ## Turns of the loop -/

/-- One turn: the thread that `find_next` chose makes the call, if that passes the check. -/
def turn (check : State → Syscall → Bool) (s : State) (call : Syscall) : Except Halt State := do
  let (next, tm) ← s.tm.findNext
  match next with
  | none => .error .panic
  | some _ =>
    if check ⟨tm, s.usedPids, s.usedTids⟩ call then do
      let tm' ← Manager.trap tm call
      .ok (mark ⟨tm, s.usedPids, s.usedTids⟩ tm' call)
    else .error .panic

def turns (check : State → Syscall → Bool) : State → List Syscall → Except Halt State
  | s, [] => .ok s
  | s, call :: calls =>
    if s.tm.current.isNone then do
      let s ← turn check s call
      turns check s calls
    else .error .panic

/-- The boot and the turns after it. -/
def play (check : State → Syscall → Bool) (calls : List Syscall) : Except Halt State := do
  let tm ← (PThreadManager.addProc .new 0 Process.new usizeMax).add 0 (LocalContext.user 0) 0
  turns check ⟨tm, [0], [0]⟩ calls

section

variable {check : State → Syscall → Bool} {P : State → Event → Prop} {s s' : State} {calls : List Syscall}
  {es : List Event}

theorem turns_exec (hdispatch : ∀ s, P s .dispatch)
    (hcheck : ∀ {s call}, check s call = true → Fresh s call ∧ P s (.trap call))
    (h : Exec (fun s e s' => Step s e s' ∧ P s e) Threads.World.new es s) (hok : turns check s calls = .ok s') :
    ∃ es', Exec (fun s e s' => Step s e s' ∧ P s e) Threads.World.new es' s' := by
  induction calls generalizing s es with
  | nil =>
    cases hok
    exact ⟨es, h⟩
  | cons call calls ih =>
    unfold turns at hok
    split at hok
    · rename_i hc
      obtain ⟨t, hturn, hok⟩ := bind_eq_ok.mp hok
      obtain ⟨⟨next, tm⟩, hnext, hturn⟩ := bind_eq_ok.mp hturn
      cases next with
      | none => cases hturn
      | some context =>
        dsimp only at hturn
        split at hturn
        · rename_i hpass
          obtain ⟨tm', htrap, hturn⟩ := bind_eq_ok.mp hturn
          cases hturn
          obtain ⟨hf, hp⟩ := hcheck hpass
          have h1 := Exec.snoc h ⟨Step.dispatch (Option.isNone_iff_eq_none.mp hc) hnext, hdispatch s⟩
          exact ih (Exec.snoc h1 ⟨Step.trap hf htrap, hp⟩) hok
        · cases hturn
    · cases hok

theorem play_exec (hboot : P Threads.World.new .boot) (hdispatch : ∀ s, P s .dispatch)
    (hcheck : ∀ {s call}, check s call = true → Fresh s call ∧ P s (.trap call)) (hok : play check calls = .ok s) :
    ∃ es, Exec (fun s e s' => Step s e s' ∧ P s e) Threads.World.new es s := by
  obtain ⟨tm, hadd, hok⟩ := bind_eq_ok.mp hok
  exact turns_exec hdispatch hcheck (Exec.single ⟨Step.boot hadd, hboot⟩) hok

end

end TgRcore.Kernel
