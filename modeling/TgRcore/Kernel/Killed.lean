/-
  TgRcore.Kernel.Killed — processes of chapter 8 that a signal ends.

  - `Micro`: the thread manager's own steps, and changes to a process or a context; every step of
    the kernel is some of these (`step_micros`), so what they keep holds in all runs (`tInv_kernel`).
  - `kill_ends_process`: when the end of one thread is the end of its process.
-/

import Mathlib.Logic.Relation
import TgRcore.Kernel.Objects

namespace TgRcore.Kernel

open TgRcore.BlockProg TgRcore.Task

/-! ## The steps of the kernel by those of the thread manager -/

inductive Micro : State → State → Prop
  | thread {s t : State} {e : Threads.Event} : Threads.Step s e t → Micro s t
  | proc {s : State} {pid : ProcId} {proc proc' : Process} : s.tm.procManager.procs pid = some proc →
      Micro s ⟨Manager.setProc s.tm pid proc', s.usedPids, s.usedTids⟩
  | context {s : State} (tid : Task.ThreadId) (context : LocalContext) :
      Micro s ⟨Manager.setContext s.tm tid context, s.usedPids, s.usedTids⟩

abbrev Micros : State → State → Prop := Relation.ReflTransGen Micro

section

variable {s t u : State} {tm : Manager} {call : Syscall} {ret : Option Int} {r : Int} {pid : ProcId} {proc : Process}

/-- What a call does: some steps of the thread manager, and the current thread stays. -/
def Calls (s : State) (call : Syscall) (tm : Manager) : Prop := Micros s (mark s tm call) ∧ tm.current = s.tm.current

theorem currentPid_of (h : Manager.getCurrentProc s.tm = .ok (pid, proc)) :
    Threads.currentPid s.tm = some pid ∧ s.tm.procManager.procs pid = some proc := by
  obtain ⟨t, hc, ht, hp⟩ := getCurrentProc_ok h
  refine ⟨?_, hp⟩
  rw [Threads.currentPid, hc]
  exact ht

/-- A call that takes a thread off a queue of the process, or none. -/
theorem wake_micros {proc' : Process} {woken : Option Nat} (hproc : Manager.getCurrentProc s.tm = .ok (pid, proc))
    (hwake : Manager.wake (Manager.setProc s.tm pid proc') woken = .ok tm) :
    Micros s ⟨tm, s.usedPids, s.usedTids⟩ ∧ tm.current = s.tm.current := by
  have hset : Micro s ⟨Manager.setProc s.tm pid proc', s.usedPids, s.usedTids⟩ := .proc (currentPid_of hproc).2
  cases woken with
  | none =>
    cases hwake
    exact ⟨.single hset, rfl⟩
  | some t =>
    cases hwake
    exact ⟨.tail (.single hset) (.thread (@Threads.Step.reEnque _ _ _ t _ rfl)), rfl⟩

theorem setProc_micros {proc' : Process} (hproc : Manager.getCurrentProc s.tm = .ok (pid, proc)) :
    Micros s ⟨Manager.setProc s.tm pid proc', s.usedPids, s.usedTids⟩ :=
  .single (.proc (currentPid_of hproc).2)

theorem handle_micros (hf : Fresh s call) (h : Manager.handle s.tm call = .ok (ret, tm)) : Calls s call tm := by
  cases call with
  | exit | other | unsupported =>
    cases h
    exact ⟨.refl, rfl⟩
  | fork child tid =>
    obtain ⟨r, hx, rfl⟩ := done_ok h
    obtain ⟨⟨parentPid, proc⟩, hproc, hx⟩ := bind_eq_ok.mp hx
    have hcp := (currentPid_of hproc).1
    dsimp only at hx
    split at hx
    · cases hx
    · split at hx
      · cases hx
      · split at hx
        · cases hx
        · obtain ⟨tm', hadd, hx⟩ := bind_eq_ok.mp hx
          cases hx
          have hr : (s.tm.addProc child proc.fork parentPid).relMap child = some (.new parentPid) := by
            simp [PThreadManager.addProc]
          refine ⟨.single (.thread (.newProc hf.1 hf.2.1 hf.2.2 (.inr hcp) hadd)), ?_⟩
          rw [Threads.add_eq hr, Except.ok.injEq] at hadd
          subst hadd
          rfl
  | exec context =>
    obtain ⟨r, hx, rfl⟩ := done_ok h
    obtain ⟨⟨pid, proc⟩, hproc, hx⟩ := bind_eq_ok.mp hx
    dsimp only at hx
    split at hx
    · cases hx
    · split at hx
      · cases hx
      · cases hx
        exact ⟨.single (.context _ _), rfl⟩
  | wait child =>
    obtain ⟨r, hx, rfl⟩ := done_ok h
    obtain ⟨⟨w, tm'⟩, hw, hx⟩ := bind_eq_ok.mp hx
    have hstep := Threads.Step.wait hw
    obtain ⟨⟨pid, rel⟩, -, hw⟩ := bind_eq_ok.mp hw
    cases hw
    dsimp only at hx
    split at hx
    · cases hx
      exact ⟨.single (.thread hstep), rfl⟩
    · cases hx
      exact ⟨.single (.thread hstep), rfl⟩
  | threadCreate tid context =>
    obtain ⟨r, hx, rfl⟩ := done_ok h
    obtain ⟨⟨pid, proc⟩, hproc, hx⟩ := bind_eq_ok.mp hx
    obtain ⟨tm', hadd, hx⟩ := bind_eq_ok.mp hx
    cases hx
    refine ⟨.single (.thread (.newThread hf (currentPid_of hproc).1 hadd)), ?_⟩
    unfold PThreadManager.add at hadd
    obtain ⟨manager, -, hadd⟩ := bind_eq_ok.mp hadd
    split at hadd
    · cases hadd
      rfl
    · cases hadd
      rfl
  | waittid tid =>
    obtain ⟨r, hx, rfl⟩ := done_ok h
    obtain ⟨⟨current, context⟩, -, hx⟩ := bind_eq_ok.mp hx
    dsimp only at hx
    split at hx
    · cases hx
      exact ⟨.refl, rfl⟩
    · obtain ⟨⟨w, tm'⟩, hw, hx⟩ := bind_eq_ok.mp hx
      have hstep := Threads.Step.waittid hw
      obtain ⟨⟨pid, rel⟩, -, hw⟩ := bind_eq_ok.mp hw
      cases hw
      cases hx
      exact ⟨.single (.thread hstep), rfl⟩
  | semaphoreCreate | mutexCreate | condvarCreate | sigprocmask =>
    obtain ⟨r, hx, rfl⟩ := done_ok h
    obtain ⟨⟨pid, proc⟩, hproc, hx⟩ := bind_eq_ok.mp hx
    cases hx
    exact ⟨setProc_micros hproc, rfl⟩
  | semaphoreUp | semaphoreDown | mutexLock | mutexUnlock | condvarSignal | condvarWait =>
    obtain ⟨pid, proc, proc', woken, hproc, -, -, hwake⟩ := operation_ok h trivial
    exact wake_micros hproc hwake
  | kill target signum =>
    obtain ⟨r, hx, rfl⟩ := done_ok h
    have htm := congrArg Prod.snd (Except.ok.inj hx)
    dsimp only at htm
    rw [← htm]
    unfold Manager.kill
    split
    · exact ⟨.refl, rfl⟩
    · rename_i proc hp
      split
      · exact ⟨.refl, rfl⟩
      · split
        · exact ⟨.single (.proc hp), rfl⟩
        · exact ⟨.refl, rfl⟩
  | sigaction signum action oldAction =>
    obtain ⟨r, hx, rfl⟩ := done_ok h
    rcases Manager.sigaction_cases hx with rfl | ⟨pid, proc, signal, hproc, -, rfl⟩
    · exact ⟨.refl, rfl⟩
    · exact ⟨setProc_micros hproc, rfl⟩
  | sigreturn =>
    obtain ⟨r, hx, rfl⟩ := done_ok h
    obtain ⟨⟨pid, proc⟩, hproc, hx⟩ := bind_eq_ok.mp hx
    obtain ⟨⟨tid, context⟩, -, hx⟩ := bind_eq_ok.mp hx
    cases hx
    exact ⟨.tail (setProc_micros hproc) (.context _ _), rfl⟩

/-! ## Whole traps -/

theorem finish_micros {result : SignalResult} (h : Manager.finish s.tm call ret result = .ok tm) :
    Micros s ⟨tm, s.usedPids, s.usedTids⟩ := by
  have hexit : ∀ {code}, s.tm.makeCurrentExited code = .ok tm → Micros s ⟨tm, s.usedPids, s.usedTids⟩ :=
    fun hexit => .single (.thread (.exit hexit))
  have hset : ∀ {r tm'}, Manager.setRet s.tm r = .ok tm' → Micros s ⟨tm', s.usedPids, s.usedTids⟩ := by
    intro r tm' hset
    obtain ⟨t, context, rfl⟩ := setRet_ok hset
    exact .single (.context t context)
  have hsuspend : ∀ {r tm'}, Manager.setRet s.tm r = .ok tm' → tm'.makeCurrentSuspend = .ok tm →
      Micros s ⟨tm, s.usedPids, s.usedTids⟩ := by
    intro r tm' h1 h2
    exact .tail (hset h1) (.thread (@Threads.Step.suspend _ _ ⟨tm', s.usedPids, s.usedTids⟩ tm h2))
  have hblock : ∀ {r tm'}, Manager.setRet s.tm r = .ok tm' → tm'.makeCurrentBlocked = tm →
      Micros s ⟨tm, s.usedPids, s.usedTids⟩ := by
    intro r tm' h1 h2
    subst h2
    exact .tail (hset h1) (.thread (@Threads.Step.block _ _ ⟨tm', s.usedPids, s.usedTids⟩))
  unfold Manager.finish at h
  split at h
  · exact hexit h
  · split at h
    · exact hexit h
    · split at h
      · exact hexit h
      all_goals
        obtain ⟨tm', h1, h⟩ := bind_eq_ok.mp h
        first
          | exact hsuspend h1 h
          | split at h
            · exact hblock h1 (Except.ok.inj h)
            · exact hsuspend h1 h

/-- The state in which `handle_signals` is called in the trap of a call, and the call's result. -/
def Called (s : State) (call : Syscall) (ret : Option Int) (m : State) : Prop :=
  ∃ tid context tm, Manager.getCurrent s.tm = .ok (tid, context) ∧
    Manager.handle (Manager.setContext s.tm tid context.moveNext) call = .ok (ret, tm) ∧ m = mark s tm call

/-- What `handle_signals` returns for process `pid`, and what it makes of the state. -/
def Signalled (m : State) (pid : ProcId) (result : SignalResult) (tm : Manager) : Prop :=
  ∃ proc tid context signal context', Manager.getCurrentProc m.tm = .ok (pid, proc) ∧
    Manager.getCurrent m.tm = .ok (tid, context) ∧ proc.signal.handleSignals context = .ok (result, signal, context') ∧
    tm = Manager.setContext (Manager.setProc m.tm pid { proc with signal := signal }) tid context'

theorem mark_context {tid : Task.ThreadId} {context : LocalContext} :
    mark ⟨Manager.setContext s.tm tid context, s.usedPids, s.usedTids⟩ tm call = mark s tm call := by
  cases call <;> rfl

theorem mark_tm : (mark s tm call).tm = tm := by
  cases call <;> rfl

theorem Called.unique {ret' : Option Int} {m m' : State} (h : Called s call ret m) (h' : Called s call ret' m') :
    ret = ret' ∧ m = m' := by
  obtain ⟨tid, context, tm, hcur, hhandle, rfl⟩ := h
  obtain ⟨tid', context', tm', hcur', hhandle', rfl⟩ := h'
  rw [hcur] at hcur'
  cases hcur'
  rw [hhandle] at hhandle'
  cases hhandle'
  exact ⟨rfl, rfl⟩

theorem Signalled.unique {m : State} {pid' : ProcId} {result result' : SignalResult} {tm' : Manager}
    (h : Signalled m pid result tm) (h' : Signalled m pid' result' tm') : pid = pid' ∧ result = result' ∧ tm = tm' := by
  obtain ⟨proc, tid, c, signal, d, hproc, hcur, hsig, rfl⟩ := h
  obtain ⟨proc', tid', c', signal', d', hproc', hcur', hsig', rfl⟩ := h'
  rw [hproc] at hproc'
  cases hproc'
  rw [hcur] at hcur'
  cases hcur'
  rw [hsig] at hsig'
  cases hsig'
  exact ⟨rfl, rfl, rfl⟩

theorem Called.micros {m : State} (h : Called s call ret m) (hf : Fresh s call) : Micros s m := by
  obtain ⟨tid, context, tm, -, hhandle, rfl⟩ := h
  have hf' : Fresh ⟨Manager.setContext s.tm tid context.moveNext, s.usedPids, s.usedTids⟩ call := by
    cases call <;> exact hf
  obtain ⟨hcalls, -⟩ := @handle_micros ⟨Manager.setContext s.tm tid context.moveNext, s.usedPids, s.usedTids⟩ _ _ _ hf' hhandle
  rw [mark_context] at hcalls
  exact .head (.context tid context.moveNext) hcalls

theorem Signalled.micros {m : State} {result : SignalResult} (h : Signalled m pid result tm) :
    Micros m ⟨tm, m.usedPids, m.usedTids⟩ := by
  obtain ⟨proc, tid, context, signal, context', hproc, -, -, rfl⟩ := h
  exact .tail (setProc_micros hproc) (.context tid context')

/-- A trap: the call, `handle_signals`, and what becomes of the thread. -/
theorem trap_called (h : Manager.trap s.tm call = .ok tm) : ∃ ret m pid result tm', Called s call ret m ∧
    Signalled m pid result tm' ∧ Manager.finish tm' call ret result = .ok tm ∧
      mark s tm call = ⟨tm, m.usedPids, m.usedTids⟩ := by
  obtain ⟨⟨tid, context⟩, hcur, h⟩ := bind_eq_ok.mp h
  obtain ⟨⟨ret, tm1⟩, hhandle, h⟩ := bind_eq_ok.mp h
  obtain ⟨⟨pid, proc⟩, hproc, h⟩ := bind_eq_ok.mp h
  obtain ⟨⟨tid', context'⟩, hcur', h⟩ := bind_eq_ok.mp h
  obtain ⟨⟨result, signal, context''⟩, hsig, h⟩ := bind_eq_ok.mp h
  refine ⟨ret, mark s tm1 call, pid, result, _, ⟨tid, context, tm1, hcur, hhandle, rfl⟩, ⟨proc, tid', context', signal,
    context'', ?_, ?_, hsig, rfl⟩, ?_, ?_⟩
  · rw [mark_tm]
    exact hproc
  · rw [mark_tm]
    exact hcur'
  · rw [mark_tm]
    exact h
  · cases call <;> rfl

/-- Every step of the kernel is some steps of the thread manager. -/
theorem step_micros {e : Event} (h : Step s e t) : Micros s t := by
  cases h with
  | boot hadd => exact .single (.thread (.newProc List.not_mem_nil (by decide) List.not_mem_nil (.inl rfl) hadd))
  | dispatch hc hf => exact .single (.thread (.findNext hf))
  | trap hf htrap =>
    obtain ⟨ret, m, pid, result, tm', hcalled, hsignalled, hfin, hmark⟩ := trap_called htrap
    rw [hmark]
    exact ((hcalled.micros hf).trans hsignalled.micros).trans (@finish_micros ⟨tm', m.usedPids, m.usedTids⟩ _ _ _ _ hfin)
  | fault hc hexit => exact .single (.thread (.exit hexit))

/-! ## What the runs of the kernel keep -/

theorem Micro.tInv (h : Micro s t) (hi : Threads.TInv s) : Threads.TInv t := by
  cases h with
  | thread hs => exact hi.step hs
  | proc hp => exact tInv_setProc hi hp
  | context tid context => exact tInv_setContext hi context

theorem Micros.tInv (h : Micros s t) (hi : Threads.TInv s) : Threads.TInv t := by
  induction h with
  | refl => exact hi
  | tail _ hs ih => exact hs.tInv ih

theorem tInv_kernel {es : List Event} (h : Exec Step Threads.World.new es s) : Threads.TInv s :=
  h.inv (P := fun _ s => Threads.TInv s) Threads.tInv_new fun hi hs => Micros.tInv (step_micros hs) hi

/-- The process has been there and is gone. -/
def Gone (s : State) (pid : ProcId) : Prop := pid ∈ s.usedPids ∧ s.tm.relMap pid = none

theorem Gone.step {e : Threads.Event} (hg : Gone s pid) (hi : Threads.TInv s) (h : Threads.Step s e t) : Gone t pid := by
  obtain ⟨hused, hnone⟩ := hg
  have hinsert : ∀ {p r r'}, s.tm.relMap p = some r → (s.tm.relMap.insert p r') pid = none := by
    intro p r r' hp
    rw [BTreeMap.insert_apply, if_neg ?_]
    · exact hnone
    · rintro rfl
      rw [hnone] at hp
      cases hp
  cases h with
  | @newProc p parent tid proc task tm hp hlt ht hparent hadd =>
    have hr : (s.tm.addProc p proc parent).relMap p = some (.new parent) := by
      simp [PThreadManager.addProc]
    rw [Threads.add_eq hr, Except.ok.injEq] at hadd
    subst hadd
    have hne : pid ≠ p := by
      rintro rfl
      exact hp hused
    refine ⟨List.mem_cons_of_mem _ hused, ?_⟩
    dsimp only
    rw [PThreadManager.addProc, BTreeMap.insert_insert, BTreeMap.insert_apply, if_neg hne, ← Option.isNone_iff_eq_none,
      ← Option.not_isSome, BTreeMap.isSome_adjust, hnone]
    rfl
  | newThread ht hc hadd =>
    obtain ⟨r, hr⟩ := hi.currentPid_some hc
    rw [Threads.add_eq hr, Except.ok.injEq] at hadd
    subst hadd
    exact ⟨hused, hinsert hr⟩
  | findNext hf =>
    obtain ⟨queue, ⟨rfl, -⟩ | ⟨id, task, -, -, -, rfl⟩⟩ := Threads.findNext_ok hf
    · exact ⟨hused, hnone⟩
    · exact ⟨hused, hnone⟩
  | suspend hsus =>
    unfold PThreadManager.makeCurrentSuspend at hsus
    split at hsus
    · cases hsus
      exact ⟨hused, hnone⟩
    · cases hsus
      exact ⟨hused, hnone⟩
  | block => exact ⟨hused, hnone⟩
  | reEnque hre =>
    cases hre
    exact ⟨hused, hnone⟩
  | @exit code tm hexit =>
    refine ⟨hused, ?_⟩
    cases hc : s.tm.current with
    | none =>
      simp only [PThreadManager.makeCurrentExited, hc, Except.ok.injEq] at hexit
      subst hexit
      exact hnone
    | some tid =>
      obtain ⟨p, r, ht, hr, -⟩ := hi.exit_current hc
      have hfam : family s.tm.relMap pid = none := by rw [family, hnone]; rfl
      have hgone : family tm.relMap pid = none := by
        rcases (hi.exit hc ht hr hexit).2 with ⟨-, h⟩ | ⟨-, -, h⟩
        · rw [h]
          exact hfam
        · rw [h, departed, hfam]
          split
          · rfl
          · rfl
      exact Option.map_eq_none_iff.mp hgone
  | wait hw =>
    obtain ⟨⟨p, r⟩, hrel, hw⟩ := bind_eq_ok.mp hw
    cases hw
    exact ⟨hused, hinsert (Threads.currentRel_ok hrel).2⟩
  | waittid hw =>
    obtain ⟨⟨p, r⟩, hrel, hw⟩ := bind_eq_ok.mp hw
    cases hw
    exact ⟨hused, hinsert (Threads.currentRel_ok hrel).2⟩

theorem Micros.gone (h : Micros s t) (hi : Threads.TInv s) (hg : Gone s pid) : Gone t pid := by
  induction h with
  | refl => exact hg
  | tail hpre hs ih =>
    cases hs with
    | thread hs => exact ih.step (Micros.tInv hpre hi) hs
    | proc => exact ih
    | context => exact ih

/-- No thread of a process that is gone runs. -/
theorem Gone.never {es : List Event} (hg : Gone s pid) (hi : Threads.TInv s) (h : Exec Step s es t) :
    Threads.currentPid t.tm ≠ some pid := by
  have hkeep : Threads.TInv t ∧ Gone t pid := by
    induction h with
    | nil => exact ⟨hi, hg⟩
    | snoc _ hs ih => exact ⟨Micros.tInv (step_micros hs) ih.1, Micros.gone (step_micros hs) ih.1 ih.2⟩
  intro hc
  obtain ⟨r, hr⟩ := hkeep.1.currentPid_some hc
  rw [hkeep.2.2] at hr
  cases hr

end

/-! ## The end of a process -/

/-- No thread of the process runs again, the process is dead, and its parent, if it is there,
    has the exit code. `m` is the state when `handle_signals` was called. -/
def Ended (m t : State) (pid : ProcId) (code : Int) : Prop :=
  (∀ es u, Exec Step t es u → Threads.currentPid u.tm ≠ some pid) ∧ t.tm.relMap pid = none ∧
    ∀ r rp, m.tm.relMap pid = some r → m.tm.relMap r.parent = some rp →
      ∃ rp', t.tm.relMap r.parent = some rp' ∧ (pid, code) ∈ rp'.deadChildren

/-- The process has no thread but the current one. -/
def OnlyThread (m : State) (pid : ProcId) : Prop :=
  ∃ tid r, m.tm.current = some tid ∧ m.tm.relMap pid = some r ∧ r.threads = [tid]

/-- In every run and every trap in which `handle_signals` returns `ProcessKilled` for a process:
    the process ends with that code exactly when it has no other thread. -/
theorem kill_ends_process {es : List Event} {s m t : State} {call : Syscall} {ret : Option Int} {pid : ProcId} {code : Int}
    {tm : Manager} (h : Exec Step Threads.World.new es s) (hstep : Step s (.trap call) t) (hcalled : Called s call ret m)
    (hkilled : Signalled m pid (.processKilled code) tm) : Ended m t pid code ↔ OnlyThread m pid := by
  obtain ⟨hf, tm1, htrap, rfl⟩ : Fresh s call ∧ ∃ tm1, Manager.trap s.tm call = .ok tm1 ∧ t = mark s tm1 call := by
    cases hstep with
    | trap hf htrap => exact ⟨hf, _, htrap, rfl⟩
  obtain ⟨ret', m', pid', result, tm', hcalled', hsignalled, hfin, hmark⟩ := trap_called htrap
  obtain ⟨rfl, rfl⟩ := hcalled.unique hcalled'
  obtain ⟨rfl, rfl, rfl⟩ := hkilled.unique hsignalled
  rw [hmark]
  have hi := Micros.tInv (hcalled.micros hf) (tInv_kernel h)
  have hi' : Threads.TInv ⟨tm, m.usedPids, m.usedTids⟩ := Micros.tInv hkilled.micros hi
  obtain ⟨proc, tid, context, signal, context', hproc, -, -, rfl⟩ := hkilled
  obtain ⟨u, hc, -, -⟩ := getCurrentProc_ok hproc
  obtain ⟨r, hr⟩ := hi.currentPid_some (currentPid_of hproc).1
  -- the thread exits
  have hexit := Threads.Step.exit (w := ⟨_, m.usedPids, m.usedTids⟩) hfin
  obtain ⟨hgone, hreport⟩ := hi'.vanish hexit hr
  have hlast : tm1.relMap pid = none ↔ r.threads = [u] := by
    rw [hgone]
    constructor
    · rintro ⟨u', code', he, hl⟩
      rw [Threads.Event.exit.injEq] at he
      have hu : m.tm.current = some u' := he.1
      rw [hc] at hu
      cases hu
      exact hl
    · exact fun hl => ⟨u, code, by rw [← hc]; rfl, hl⟩
  constructor
  · rintro ⟨-, hnone, -⟩
    exact ⟨u, r, hc, hr, hlast.mp hnone⟩
  · rintro ⟨u', r', hc', hr', hl⟩
    rw [hc] at hc'
    rw [hr] at hr'
    cases hc'
    cases hr'
    have hnone := hlast.mpr hl
    have hused : pid ∈ m.usedPids := hi.fam.known (show family m.tm.relMap pid = some r.toProcRel by rw [family, hr]; rfl)
    have hend : Gone ⟨tm1, m.usedPids, m.usedTids⟩ pid := ⟨hused, hnone⟩
    refine ⟨fun es u hrun => hend.never (hi'.step hexit) hrun, hnone, ?_⟩
    intro r' rp hr' hrp
    rw [hr] at hr'
    cases hr'
    obtain ⟨rp', hrp', hdead⟩ := hreport u code (by rw [← hc]; rfl) hl rp hrp
    refine ⟨rp', hrp', ?_⟩
    rw [hdead]
    exact List.mem_append_right _ (List.mem_singleton_self _)

/-- Process 0 has two threads, and one of them sends it SIGKILL: the other one is dispatched after that. -/
theorem two_threads : ∃ es s m t ret tm u, Exec Step Threads.World.new es s ∧ Step s (.trap (.kill 0 9)) t ∧
    Called s (.kill 0 9) ret m ∧ Signalled m 0 (.processKilled (-9)) tm ∧ Step t .dispatch u ∧
    Threads.currentPid u.tm = some 0 := by
  have h1 : Exec Step Threads.World.new [.boot] _ := .single (@Step.boot (.user 0) _ rfl)
  have h2 := h1.snoc (.dispatch rfl rfl)
  have h3 := h2.snoc (@Step.trap _ (.threadCreate 1 (.user 0)) _ (by decide) rfl)
  have h4 := h3.snoc (.dispatch rfl rfl)
  exact ⟨_, _, _, _, _, _, _, h4, .trap trivial rfl, ⟨_, _, _, rfl, rfl, rfl⟩, ⟨_, _, _, _, _, rfl, rfl, rfl, rfl⟩,
    .dispatch rfl rfl, rfl⟩

/-- Process 1, a child of process 0, sends itself SIGKILL. -/
theorem child_killed : ∃ es s m t ret tm, Exec Step Threads.World.new es s ∧ Step s (.trap (.kill 1 9)) t ∧
    Called s (.kill 1 9) ret m ∧ Signalled m 1 (.processKilled (-9)) tm ∧ OnlyThread m 1 ∧
    ∃ r rp, m.tm.relMap 1 = some r ∧ r.parent = 0 ∧ m.tm.relMap 0 = some rp := by
  have h1 : Exec Step Threads.World.new [.boot] _ := .single (@Step.boot (.user 0) _ rfl)
  have h2 := h1.snoc (.dispatch rfl rfl)
  have h3 := h2.snoc (@Step.trap _ (.fork 1 1) _ ⟨by decide, by decide, by decide⟩ rfl)
  have h4 := h3.snoc (.dispatch rfl rfl)
  exact ⟨_, _, _, _, _, _, h4, .trap trivial rfl, ⟨_, _, _, rfl, rfl, rfl⟩, ⟨_, _, _, _, _, rfl, rfl, rfl, rfl⟩,
    ⟨1, _, rfl, rfl, rfl⟩, _, _, rfl, rfl, rfl⟩

/-- The one runs on; the other is gone, and its parent can wait for it. -/
theorem kill_ends_process_two : (∃ s m ret, Called s (.kill 0 9) ret m ∧ ¬ OnlyThread m 0) ∧
    ∃ s m t ret, Called s (.kill 1 9) ret m ∧ Step s (.trap (.kill 1 9)) t ∧ t.tm.relMap 1 = none ∧
      ∃ rp, t.tm.relMap 0 = some rp ∧ (1, -9) ∈ rp.deadChildren := by
  constructor
  · obtain ⟨es, s, m, t, ret, tm, u, hrun, hstep, hcalled, hkilled, hnext, hpid⟩ := two_threads
    refine ⟨s, m, ret, hcalled, fun honly => ?_⟩
    have hended := (kill_ends_process hrun hstep hcalled hkilled).mpr honly
    exact hended.1 _ u (Exec.single hnext) hpid
  · obtain ⟨es, s, m, t, ret, tm, hrun, hstep, hcalled, hkilled, honly, r, rp, hr, hparent, hrp⟩ := child_killed
    obtain ⟨-, hgone, hreport⟩ := (kill_ends_process hrun hstep hcalled hkilled).mpr honly
    rw [← hparent] at hrp ⊢
    exact ⟨s, m, t, ret, hcalled, hstep, hgone, hreport r rp hr hrp⟩

/-- A killed process runs on in its other thread. -/
theorem killed_process_runs : ¬ ∀ es s m t call ret pid code tm, Exec Step Threads.World.new es s → Step s (.trap call) t →
    Called s call ret m → Signalled m pid (.processKilled code) tm → Ended m t pid code := by
  obtain ⟨es, s, m, t, ret, tm, u, hrun, hstep, hcalled, hkilled, hnext, hpid⟩ := two_threads
  intro h
  exact (h es s m t _ ret 0 (-9) tm hrun hstep hcalled hkilled).1 _ u (Exec.single hnext) hpid

end TgRcore.Kernel
