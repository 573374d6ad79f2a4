/-
  TgRcore.Kernel.SigReturn — the context that a handler of chapter 8 interrupts.

  A process has one place for a saved context, whichever thread it is of; `sigreturn` gives it to
  the thread that asks (`stolen`).
  - `SavedInv`: what is in that place is what the last handler saved.
  - `sigreturn_resumes_iff`: over a run every saved context goes back to its thread, and the others
    are refused, iff no other thread asks while there is one.
-/

import TgRcore.Kernel.Turns

namespace TgRcore.Kernel

open TgRcore.BlockProg TgRcore.Sync TgRcore.Task

/-! ## What is saved -/

/-- `old` was saved in a trap of thread `t` of the process, which has not asked for it since. -/
def SavedFor (es : List Turn) (p : ProcId) (t : Task.ThreadId) (old : LocalContext) : Prop :=
  Since (fun x => Saves x t p old) (fun y => Makes y t p .sigreturn) es

/-- A `sigreturn` of thread `d` that gives it the context. -/
def Restored (ret : Option Int) (m : State) (d : Task.ThreadId) (p : ProcId) (old : LocalContext) : Prop :=
  ret = some 0 ∧ m.tm.manager.tasks d = some old ∧ handlingOf m.tm p = some none

/-- A `sigreturn` that fails: the thread is after its `ecall`, and what is saved stays. -/
def Refused (s : State) (ret : Option Int) (m : State) (d : Task.ThreadId) (p : ProcId) : Prop :=
  ret = some (-1) ∧ m.tm.manager.tasks d = (s.tm.manager.tasks d).map LocalContext.moveNext ∧
    handlingOf m.tm p = handlingOf s.tm p

/-- What `sigreturn` is to do: the thread that was interrupted gets its context, no other does. -/
def Resumption (es : List Turn) (x : Turn) : Prop :=
  ∀ d p, Makes x d p .sigreturn → ∃ ret m, Called x.before .sigreturn ret m ∧
    (∀ u, u ≠ d → m.tm.manager.tasks u = x.before.tm.manager.tasks u) ∧
    (∀ t old, SavedFor es p t old → (t = d → Restored ret m d p old) ∧ (t ≠ d → Refused x.before ret m d p)) ∧
    ((∀ t old, ¬ SavedFor es p t old) → Refused x.before ret m d p)

/-- A thread that asks is the one that was interrupted, if one was. -/
def OwnReturn (es : List Turn) (x : Turn) : Prop :=
  ∀ d p t old, Makes x d p .sigreturn → SavedFor es p t old → t = d

section

variable {es : List Turn} {s t : State} {x : Turn} {call : Syscall} {ret : Option Int} {m : State} {c d u : Task.ThreadId}
  {p q : ProcId} {old old' : LocalContext} {h' : Option HandlingSignal} {tm : Manager} {proc : Process}

theorem savedFor_snoc : SavedFor (es ++ [x]) p u old ↔ Saves x u p old ∨ SavedFor es p u old ∧ ¬ Makes x u p .sigreturn :=
  since_snoc

/-- What `sigreturn` does. -/
theorem sigreturn_called (hr : Runs s d p) (h : Called s .sigreturn ret m) :
    (∃ old, handlingOf s.tm p = some (some (.userSignal old)) ∧ Restored ret m d p old) ∨
      (∀ old, handlingOf s.tm p ≠ some (some (.userSignal old))) ∧ Refused s ret m d p := by
  obtain ⟨tid, context, tm, hcur, hhandle, rfl⟩ := h
  obtain rfl := getCurrent_eq hcur hr.1
  have htask := getCurrent_task hcur
  obtain ⟨r, hx, rfl⟩ := done_ok hhandle
  obtain ⟨⟨pid, proc⟩, hproc, hx⟩ := bind_eq_ok.mp hx
  obtain ⟨⟨tid', context'⟩, hcur', hx⟩ := bind_eq_ok.mp hx
  obtain rfl := getCurrent_eq (t := tid) hcur' hr.1
  have htask' := getCurrent_task hcur'
  change s.tm.manager.tasks.adjust tid' _ tid' = some context' at htask'
  rw [BTreeMap.adjust_apply, if_pos rfl, htask, Option.map_some, Option.some.injEq] at htask'
  subst htask'
  obtain ⟨howner, hprocs⟩ := runs_of_proc (c := tid') hr.1 hproc
  obtain rfl : pid = p := Option.some.inj (howner.symm.trans hr.2)
  have hhandling : handlingOf s.tm pid = some proc.signal.handling := handlingOf_some hprocs
  have hset : ∀ {X : Manager} {d : LocalContext}, X.manager.tasks tid' = some context.moveNext →
      (Manager.setContext X tid' d).manager.tasks tid' = some d := by
    intro X d hX
    show X.manager.tasks.adjust tid' _ tid' = some d
    rw [BTreeMap.adjust_apply, if_pos rfl, hX]
    rfl
  have hmoved : (Manager.setContext s.tm tid' context.moveNext).manager.tasks tid' = some context.moveNext := getCurrent_task hcur'
  dsimp only at hx
  rcases proc.signal.sigReturn_cases context.moveNext with ⟨old, hold, e⟩ | ⟨hno, e⟩
  · rw [e] at hx
    cases hx
    refine .inl ⟨old, by rw [hhandling, hold], rfl, hset hmoved, ?_⟩
    show handlingOf (Manager.setProc _ pid _) pid = _
    rw [handlingOf_setProc, BTreeMap.insert_apply, if_pos rfl]
  · rw [e] at hx
    cases hx
    refine .inr ⟨fun old hold => hno old ?_, rfl, ?_, ?_⟩
    · rw [hhandling] at hold
      exact Option.some.inj hold
    · rw [htask]
      exact hset hmoved
    · show handlingOf (Manager.setProc (Manager.setContext s.tm tid' context.moveNext) pid proc) pid = _
      have hkept : handlingOf (Manager.setProc (Manager.setContext s.tm tid' context.moveNext) pid proc) =
          handlingOf (Manager.setContext s.tm tid' context.moveNext) := handlingOf_same hprocs rfl
      exact congrFun hkept pid

/-! ## The invariant -/

structure SavedInv (es : List Turn) (s : State) : Prop where
  inv : Threads.TInv s
  held : ∀ {p h}, handlingOf s.tm p = some h → ∀ old, h = some (.userSignal old) ↔ ∃ t, SavedFor es p t old
  once : ∀ {p t u old old'}, SavedFor es p t old → SavedFor es p u old' → t = u
  known : ∀ {p t old}, SavedFor es p t old → p ∈ s.usedPids

theorem savedInv_new : SavedInv [] Threads.World.new :=
  ⟨Threads.tInv_new, fun hh => (by cases hh), fun h => absurd h not_since_nil, fun h => absurd h not_since_nil⟩

/-- A turn in which no thread makes a call. -/
theorem SavedInv.rested (h : SavedInv es x.before) (hx : ∀ call, x.act ≠ .kernel (.trap call))
    (hi : Threads.TInv x.after) (hpids : ∀ q ∈ x.before.usedPids, q ∈ x.after.usedPids)
    (hsame : ∀ {q h'}, handlingOf x.after.tm q = some h' → handlingOf x.before.tm q = some h' ∨ q ∉ x.before.usedPids ∧ h' = none) :
    SavedInv (es ++ [x]) x.after := by
  have hiff : ∀ {p u old}, SavedFor (es ++ [x]) p u old ↔ SavedFor es p u old := by
    intro p u old
    rw [savedFor_snoc]
    constructor
    · rintro (⟨-, call, -, -, -, -, -, -, -, ha, -⟩ | ⟨hs, -⟩)
      · exact absurd ha (hx call)
      · exact hs
    · exact fun hs => .inr ⟨hs, fun hm => hx _ hm.1⟩
  refine ⟨hi, fun {q h'} hh old => ?_, fun hs hs' => h.once (hiff.mp hs) (hiff.mp hs'), fun hs => hpids _ (h.known (hiff.mp hs))⟩
  simp only [hiff]
  rcases hsame hh with hh | ⟨hq, rfl⟩
  · exact h.held hh old
  · exact iff_of_false (fun e => by cases e) fun ⟨t, hs⟩ => hq (h.known hs)

theorem handlingAfter_sigreturn (hs : BTreeMap ProcId (Option HandlingSignal)) (p : ProcId) :
    handlingAfter hs p .sigreturn = hs.insert p none ∨
      (∀ old, hs p ≠ some (some (.userSignal old))) ∧ handlingAfter hs p .sigreturn = hs := by
  cases hp : hs p with
  | none => exact .inr ⟨fun old e => (by cases e), by simp only [handlingAfter, hp]⟩
  | some mode =>
    cases mode with
    | none => exact .inr ⟨fun old e => (by cases e), by simp only [handlingAfter, hp]⟩
    | some mode =>
      cases mode with
      | frozen => exact .inr ⟨fun old e => (by cases e), by simp only [handlingAfter, hp]⟩
      | userSignal old => exact .inl (by simp only [handlingAfter, hp])

/-- What is saved after the call of a trap. -/
theorem SavedInv.mid (h : SavedInv es x.before) (hm : Makes x c p call) (hf : Fresh x.before call)
    (hd : Did x.before.tm c p call tm) (hown : OwnReturn es x) (hh : handlingOf tm q = some h') (old : LocalContext) :
    h' = some (.userSignal old) ↔ ∃ t, SavedFor es q t old ∧ ¬ Makes x t q .sigreturn := by
  have hother : call ≠ .sigreturn ∨ q ≠ p → (∃ t, SavedFor es q t old ∧ ¬ Makes x t q .sigreturn) = ∃ t, SavedFor es q t old := by
    intro hne
    refine propext (exists_congr fun t => and_iff_left fun hm' => ?_)
    have hact := hm'.1
    rw [hm.1] at hact
    cases hact
    exact hne.elim (fun h => h rfl) fun h => h (hm'.2.unique hm.2).2
  rw [hd.handling] at hh
  cases call with
  | fork child tid =>
    rw [hother (.inl fun e => by cases e)]
    change (handlingOf x.before.tm).insert child none q = some h' at hh
    rw [BTreeMap.insert_apply] at hh
    split at hh
    · rename_i e
      cases hh
      exact iff_of_false (fun e => by cases e) fun ⟨t, hs⟩ => hf.1 (e ▸ h.known hs)
    · exact h.held hh old
  | sigreturn =>
    by_cases e : q = p
    · subst e
      refine iff_of_false ?_ fun ⟨t, hs, hno⟩ => hno (hown c q t old hm hs ▸ hm)
      rintro rfl
      rcases handlingAfter_sigreturn (handlingOf x.before.tm) q with hset | ⟨hno, hset⟩
      · rw [hset, BTreeMap.insert_apply, if_pos rfl] at hh
        cases hh
      · rw [hset] at hh
        exact hno old hh
    · rw [hother (.inr e)]
      refine h.held ?_ old
      rcases handlingAfter_sigreturn (handlingOf x.before.tm) p with hset | ⟨-, hset⟩
      · rwa [hset, BTreeMap.insert_apply, if_neg e] at hh
      · rwa [hset] at hh
  | _ =>
    rw [hother (.inl fun e => by cases e)]
    exact h.held hh old

/-- What a process is at after a trap: as after the call, or for the process of the thread as
    `handle_signals` left it. -/
theorem Traps.handling {context context' : LocalContext} {result : SignalResult} {signal : SignalImpl}
    (h : Traps s call t c p ret m proc context result signal context') (hh : handlingOf t.tm q = some h') :
    q = p ∧ h' = signal.handling ∨ q ≠ p ∧ handlingOf m.tm q = some h' := by
  obtain ⟨proc', hproc', rfl⟩ := Option.map_eq_some_iff.mp hh
  have hprocs := finish_procs h.finish hproc'
  change m.tm.procManager.procs.insert p { proc with signal := signal } q = some proc' at hprocs
  rw [BTreeMap.insert_apply] at hprocs
  split at hprocs
  · rename_i e
    cases hprocs
    exact .inl ⟨e, rfl⟩
  · rename_i e
    exact .inr ⟨e, handlingOf_some hprocs⟩

theorem SavedInv.trap {context context' : LocalContext} {result : SignalResult} {signal : SignalImpl}
    (h : SavedInv es x.before) (hm : Makes x c p call) (hx : Move x.before x.act x.after)
    (htraps : Traps x.before call x.after c p ret m proc context result signal context') (hown : OwnReturn es x) :
    SavedInv (es ++ [x]) x.after := by
  have hs := hm.step hx
  have hp : p ∈ x.before.usedPids := pid_used h.inv hm.2.2
  have hmid : ∀ {q h'}, handlingOf m.tm q = some h' → ∀ old, h' = some (.userSignal old) ↔
      ∃ t, SavedFor es q t old ∧ ¬ Makes x t q .sigreturn := fun hh => h.mid hm hs.fresh htraps.did hown hh
  have hproc := handlingOf_some (runs_of_proc (htraps.did.current.trans hm.2.1) htraps.process).2
  have hsaves : ∀ {u q old}, Saves x u q old ↔ u = c ∧ q = p ∧ proc.signal.handling = none ∧
      signal.handling = some (.userSignal old) := by
    intro u q old
    constructor
    · exact fun hs => hs.eq hm.1 htraps.called htraps.process htraps.thread htraps.signals
    · rintro ⟨rfl, rfl, hnone, hold⟩
      exact ⟨hm.2, call, ret, m, proc, context, result, signal, context', hm.1, htraps.called, htraps.process,
        htraps.thread, htraps.signals, hnone, hold⟩
  -- a context is saved where none was
  have hempty : ∀ {u v q old old'}, Saves x u q old → ¬ (SavedFor es q v old' ∧ ¬ Makes x v q .sigreturn) := by
    intro u v q old old' hu hv
    obtain ⟨-, rfl, hnone, -⟩ := hsaves.mp hu
    have hheld := (hmid hproc old').mpr ⟨v, hv⟩
    rw [hnone] at hheld
    cases hheld
  refine ⟨Micros.tInv hx.micros h.inv, fun {q h'} hh old => ?_, fun {q t u old old'} ht hu => ?_, fun {q u old} hu => ?_⟩
  · simp only [savedFor_snoc, exists_or]
    rcases htraps.handling hh with ⟨rfl, rfl⟩ | ⟨hq, hh⟩
    · rw [← hmid hproc old]
      rcases SignalImpl.handleSignals_saved htraps.signals with hnone | hsame
      · constructor
        · exact fun hold => .inl ⟨c, hsaves.mpr ⟨rfl, rfl, hnone, hold⟩⟩
        · rintro (⟨u, hu⟩ | hold)
          · exact (hsaves.mp hu).2.2.2
          · rw [hnone] at hold
            cases hold
      · rw [hsame]
        refine (or_iff_right ?_).symm
        rintro ⟨u, hu⟩
        obtain ⟨-, -, hnone, hold⟩ := hsaves.mp hu
        rw [(hsame old).mp hold] at hnone
        cases hnone
    · rw [hmid hh old]
      exact (or_iff_right fun ⟨u, hu⟩ => hq (hsaves.mp hu).2.1).symm
  · rcases savedFor_snoc.mp ht with ht | ht
    · rcases savedFor_snoc.mp hu with hu | hu
      · rw [(hsaves.mp ht).1, (hsaves.mp hu).1]
      · exact absurd hu (hempty ht)
    · rcases savedFor_snoc.mp hu with hu | hu
      · exact absurd ht (hempty hu)
      · exact h.once ht.1 hu.1
  · rcases savedFor_snoc.mp hu with hu | hu
    · rw [(hsaves.mp hu).2.1]
      exact step_used hs hp
    · exact step_used hs (h.known hu.1)

theorem SavedInv.move (h : SavedInv es x.before) (hx : Move x.before x.act x.after) (hown : OwnReturn es x) :
    SavedInv (es ++ [x]) x.after := by
  have hi := Micros.tInv hx.micros h.inv
  rcases x with ⟨s, a, t⟩
  dsimp only at h hx hi
  cases hx with
  | user => exact h.rested (fun _ e => by cases e) hi (fun _ hq => hq) fun hh => .inl hh
  | @kernel _ e _ hs =>
    cases e with
    | boot =>
      cases hs with
      | boot hadd =>
        refine h.rested (fun _ e => by cases e) hi (fun q hq => by cases hq) fun {q h'} hh => .inr ⟨fun hq => (by cases hq), ?_⟩
        have hr : (PThreadManager.addProc (.new : Manager) 0 Process.new usizeMax).relMap 0 = some (.new usizeMax) := by
          simp [PThreadManager.addProc]
        rw [Threads.add_eq hr, Except.ok.injEq] at hadd
        subst hadd
        change handlingOf (Manager.setProc .new 0 Process.new) q = some h' at hh
        rw [handlingOf_setProc, BTreeMap.insert_apply] at hh
        split at hh
        · cases hh
          rfl
        · cases hh
    | dispatch =>
      cases hs with
      | dispatch hc hf =>
        refine h.rested (fun _ e => by cases e) hi (fun _ hq => hq) fun hh => .inl ?_
        obtain ⟨queue, ⟨rfl, -⟩ | ⟨id, task, -, -, -, rfl⟩⟩ := Threads.findNext_ok hf
        · exact hh
        · exact hh
    | fault =>
      cases hs with
      | fault hsome hexit =>
        refine h.rested (fun _ e => by cases e) hi (fun _ hq => hq) fun hh => .inl ?_
        obtain ⟨proc', hproc', rfl⟩ := Option.map_eq_some_iff.mp hh
        exact handlingOf_some (Threads.exited_procs hexit hproc')
    | trap call =>
      have hcur : ∃ c, s.tm.current = some c := by
        cases hs with
        | trap hf htrap =>
          obtain ⟨⟨c, context⟩, hc, -⟩ := bind_eq_ok.mp htrap
          exact ⟨c, getCurrent_ok hc⟩
      obtain ⟨c, hc⟩ := hcur
      obtain ⟨p, hr⟩ := TInv.runs h.inv hc
      obtain ⟨ret, m, proc, context, result, signal, context', htraps⟩ := trap_traps h.inv hr hs
      exact SavedInv.trap (x := ⟨s, .kernel (.trap call), t⟩) h ⟨rfl, hr⟩ (.kernel ‹_› hs) htraps hown

theorem resumption_iff (h : SavedInv es x.before) (hx : Move x.before x.act x.after) : Resumption es x ↔ OwnReturn es x := by
  have hcalled : ∀ {d p}, Makes x d p .sigreturn → ∃ ret m, Called x.before .sigreturn ret m ∧
      Did x.before.tm d p .sigreturn m.tm := by
    intro d p hm
    obtain ⟨ret, m, proc, context, result, signal, context', htraps⟩ := trap_traps h.inv hm.2 (hm.step hx)
    exact ⟨ret, m, htraps.called, htraps.did⟩
  have hheld : ∀ {t p old}, SavedFor es p t old → ∀ {d}, Runs x.before d p →
      handlingOf x.before.tm p = some (some (.userSignal old)) := by
    intro t p old hs d hr
    have hsome := h.inv.threads.owner hr.2
    rw [Threads.isSome_threadsOf, ← h.inv.procs] at hsome
    obtain ⟨proc, hproc⟩ := Option.isSome_iff_exists.mp hsome
    have hh := handlingOf_some hproc
    rw [hh, (h.held hh old).mpr ⟨t, hs⟩]
  constructor
  · intro hres d p t old hm hs
    obtain ⟨ret, m, hcall, -, hsaved, -⟩ := hres d p hm
    by_contra hne
    obtain ⟨hret, -, -⟩ := (hsaved t old hs).2 hne
    rcases sigreturn_called hm.2 hcall with ⟨old', -, hret', -, -⟩ | ⟨hno, -⟩
    · rw [hret] at hret'
      cases hret'
    · exact hno old (hheld hs hm.2)
  · intro hown d p hm
    obtain ⟨ret, m, hcall, hdid⟩ := hcalled hm
    refine ⟨ret, m, hcall, fun u hu => hdid.context u ⟨hu, fun e => (by cases e), fun _ e => (by cases e)⟩, fun t old hs => ?_, fun hno => ?_⟩
    · have ht := hown d p t old hm hs
      refine ⟨fun _ => ?_, fun hne => absurd ht hne⟩
      rcases sigreturn_called hm.2 hcall with ⟨old', hold, hrestored⟩ | ⟨hno, -⟩
      · rw [hheld hs hm.2] at hold
        cases hold
        exact hrestored
      · exact absurd (hheld hs hm.2) (hno old)
    · rcases sigreturn_called hm.2 hcall with ⟨old, hold, -⟩ | ⟨-, hrefused⟩
      · obtain ⟨t, hs⟩ := (h.held hold old).mp rfl
        exact absurd hs (hno t old)
      · exact hrefused

end

/-- Over every run: each saved context goes back to the thread it is of and the others are refused,
    iff no other thread asks while there is one. -/
theorem sigreturn_resumes_iff {es : List Turn} {s : State} (h : Run es s) : Always Resumption es ↔ Always OwnReturn es := by
  refine h.always_iff (I := SavedInv) savedInv_new ?_ ?_
  · rintro es s x t hi ⟨rfl, rfl, hx⟩ hown
    exact hi.move hx hown
  · rintro es s x t hi ⟨rfl, rfl, hx⟩
    exact resumption_iff hi hx

/-- Between any two turns, as long as no other thread asked. -/
theorem savedInv_run {es : List Turn} {s : State} (h : Run es s) (hown : Always OwnReturn es) : SavedInv es s := by
  refine h.inv (P := fun es s => Always OwnReturn es → SavedInv es s) (fun _ => savedInv_new) ?_ hown
  rintro es s x t ih ⟨rfl, rfl, hx⟩ hown
  obtain ⟨hbefore, hlast⟩ := always_snoc.mp hown
  exact (ih hbefore).move hx hlast

/-- Nobody asked yet. -/
theorem ownReturn_unasked {es : List Turn} (h : ∀ x ∈ es, x.act ≠ .kernel (.trap .sigreturn)) : Always OwnReturn es := by
  rintro es1 x es2 rfl d p t old hm -
  exact absurd hm.1 (h x (by simp))

/-- The thread that the context is of is the first that asks. -/
theorem ownReturn_first {es : List Turn} {x : Turn} {c : Task.ThreadId} {p : ProcId} {old : LocalContext} (h : Run es x.before)
    (hun : ∀ y ∈ es, y.act ≠ .kernel (.trap .sigreturn)) (hr : Runs x.before c p) (hs : SavedFor es p c old) :
    Always OwnReturn (es ++ [x]) := by
  refine always_snoc.mpr ⟨ownReturn_unasked hun, fun d q t old' hm hs' => ?_⟩
  obtain ⟨rfl, rfl⟩ := hm.2.unique hr
  exact (savedInv_run h (ownReturn_unasked hun)).once hs' hs

/-! ## Two runs -/

/-- Thread 0 of process 0 sends it signal 10 and is interrupted, and it is the turn of thread 1: it may ask for the
    context, or make another call after which thread 0 asks. -/
theorem interrupted : ∃ es s, Run es s ∧ (∃ old, SavedFor es 0 0 old) ∧ Runs s 1 0 ∧
    (∀ y ∈ es, y.act ≠ .kernel (.trap .sigreturn)) ∧ (∃ t m, Step s (.trap .sigreturn) t ∧ Called s .sigreturn (some 0) m) ∧
    ∃ s₁ s₂ t, Step s (.trap (.other 1)) s₁ ∧ Step s₁ .dispatch s₂ ∧ Runs s₂ 0 0 ∧ Step s₂ (.trap .sigreturn) t := by
  have h1 : Run [⟨_, .kernel .boot, _⟩] _ := .single ⟨rfl, rfl, .kernel trivial (@Step.boot (.user 0) _ rfl)⟩
  have h2 := h1.kernel (.dispatch rfl rfl) trivial
  have h3 := h2.kernel (@Step.trap _ (.threadCreate 1 (.user 100)) _ (by decide) rfl) trivial
  have h4 := h3.kernel (.dispatch rfl rfl) trivial
  have h5 := h4.kernel (@Step.trap _ (.sigaction 10 (some (some ⟨4096, 0⟩)) none) _ trivial rfl) trivial
  have h6 := h5.kernel (.dispatch rfl rfl) trivial
  have h7 := h6.kernel (@Step.trap _ (.kill 0 10) _ trivial rfl) trivial
  have h8 := h7.kernel (.dispatch rfl rfl) trivial
  exact ⟨_, _, h8, ⟨_, savedFor_snoc.mpr (.inr ⟨savedFor_snoc.mpr (.inl ⟨⟨rfl, rfl⟩, _, _, _, _, _, _, _, _, rfl,
    ⟨_, _, _, rfl, rfl, rfl⟩, rfl, rfl, rfl, rfl, rfl⟩), fun hm => by cases hm.1⟩)⟩, ⟨rfl, rfl⟩, by simp,
    ⟨_, _, .trap trivial rfl, _, _, _, rfl, rfl, rfl⟩, _, _, _, .trap trivial rfl, .dispatch rfl rfl, ⟨rfl, rfl⟩,
    .trap trivial rfl⟩

/-- There thread 0 gets its context back. -/
theorem sigreturn_resumes_two : ∃ es x s, Run (es ++ [x]) s ∧ Makes x 0 0 .sigreturn ∧ (∃ old, SavedFor es 0 0 old) ∧
    (∃ y ∈ es, Makes y 1 0 (.other 1)) ∧ Always Resumption (es ++ [x]) := by
  obtain ⟨es, s, hrun, ⟨old, hsaved⟩, hr, hun, -, s₁, s₂, t, hother, hdispatch, hr₂, hreturn⟩ := interrupted
  have h1 := hrun.kernel hother trivial
  have h2 := h1.kernel hdispatch trivial
  have h3 := h2.kernel hreturn trivial
  have hkept := savedFor_snoc.mpr (.inr ⟨hsaved, fun hm : Makes ⟨s, .kernel (.trap (.other 1)), s₁⟩ 0 0 .sigreturn => by
    cases hm.1⟩)
  have hkept' := savedFor_snoc.mpr (.inr ⟨hkept, fun hm : Makes ⟨s₁, .kernel .dispatch, s₂⟩ 0 0 .sigreturn => by
    cases hm.1⟩)
  refine ⟨_, _, _, h3, ⟨rfl, hr₂⟩, ⟨old, hkept'⟩, ⟨⟨s, _, s₁⟩, by simp, rfl, hr⟩,
    (sigreturn_resumes_iff h3).mpr ?_⟩
  refine ownReturn_first h2 (fun y hy => ?_) hr₂ hkept'
  simp only [List.mem_append, List.mem_singleton] at hy
  rcases hy with (hy | rfl) | rfl
  · exact hun y hy
  · simp
  · simp

/-- A thread gets the context of its sibling. -/
theorem stolen : ¬ ∀ es s, Run es s → Always Resumption es := by
  intro hall
  obtain ⟨es, s, hrun, ⟨old, hsaved⟩, hr, -, ⟨t, m, hstep, hcalled⟩, -⟩ := interrupted
  have hlaw := hall _ t (hrun.kernel hstep trivial) es ⟨s, .kernel (.trap .sigreturn), t⟩ [] rfl
  obtain ⟨ret, m', hcalled', -, hlaw, -⟩ := hlaw 1 0 ⟨rfl, hr⟩
  obtain ⟨hret, -, -⟩ := (hlaw 0 old hsaved).2 (by decide)
  obtain ⟨e, -⟩ := hcalled.unique hcalled'
  rw [hret] at e
  cases e

end TgRcore.Kernel
