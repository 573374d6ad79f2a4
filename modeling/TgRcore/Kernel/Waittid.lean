/-
  TgRcore.Kernel.Waittid — threads of chapter 8 that wait for each other.

  `waittid` answers with the exit code of a dead thread, -2 for one that is alive, or -1, all in
  the same register; its user loop asks again after -2. The kernel itself ends threads with -2
  (`unsupported`, SIGINT), and the loop loses that code (`code_lost`).
  - `WaitInv`: the lists of dead threads hold what ended and was not asked for.
  - `waittid_protocol`: over every run in which no thread ends with -2 while its process lives,
    and no handler is entered in the trap of a `waittid`.
-/

import TgRcore.Kernel.Turns

namespace TgRcore.Kernel

open TgRcore.BlockProg TgRcore.Sync TgRcore.Task

/-! ## Threads that live, end and are asked for -/

def Live (s : State) (p : ProcId) (u : Task.ThreadId) : Prop := s.tm.tid2pid u = some p

/-- Thread `u` of the process has ended with the code, and no thread of it has asked since. -/
def Unreaped (es : List Turn) (p : ProcId) (u : Task.ThreadId) (code : Int) : Prop :=
  Since (fun x => Ends x u p code) (fun y => ∃ c, Makes y c p (.waittid u)) es

/-- The kernel answers `a` to a `waittid` of thread `c`. -/
def Answers (x : Turn) (c : Task.ThreadId) (p : ProcId) (u : Task.ThreadId) (a : Int) : Prop :=
  Makes x c p (.waittid u) ∧ ∃ m, Called x.before (.waittid u) (some a) m

section

variable {es : List Turn} {s : State} {x : Turn} {p : ProcId} {u : Task.ThreadId} {code : Int}

theorem unreaped_snoc : Unreaped (es ++ [x]) p u code ↔
    Ends x u p code ∨ Unreaped es p u code ∧ ∀ c, ¬ Makes x c p (.waittid u) := by
  rw [Unreaped, since_snoc, not_exists]
  rfl

end

/-! ## What a turn does to the threads -/

section

variable {es : List Turn} {s : State} {x : Turn} {c u : Task.ThreadId} {p q : ProcId} {call : Syscall} {tm : Manager}
  {code : Int} {l : List (Task.ThreadId × Int)}

/-- A thread that has been there and is gone does not come back. -/
theorem Ran.gone (h : Ran x c p call tm) (hu : u ∈ x.before.usedTids)
    (hnone : x.before.tm.tid2pid u = none) : x.after.tm.tid2pid u = none := by
  have hold : tm.tid2pid u = none := by
    rw [h.owner u fun e => h.fresh.new e hu]
    exact hnone
  rcases h.ends with ⟨code, -, hexit⟩ | ⟨-, -, htids⟩
  · rw [(exited_threads h.current hexit).2, BTreeMap.remove_apply]
    split
    · rfl
    · exact hold
  · rw [htids]
    exact hold

theorem Ran.tid (h : Ran x c p call tm) (hi : Threads.TInv x.before) : tm.tid2pid c = some p := by
  rw [h.owner c fun e => h.fresh.new e (hi.tids (hi.current h.runs.1))]
  exact h.runs.2

/-- The current thread ends, and no other. -/
theorem Ran.alive (h : Ran x c p call tm) (hi : Threads.TInv x.before) (hu : Live x.before q u) :
    Live x.after q u ∧ (∀ code, ¬ Ends x u q code) ∨ x.after.tm.tid2pid u = none ∧ ∃ code, Ends x u q code := by
  have hused : u ∈ x.before.usedTids := hi.tids (by rw [show x.before.tm.tid2pid u = some q from hu]; rfl)
  have hold : tm.tid2pid u = some q := by
    rw [h.owner u fun e => h.fresh.new e hused]
    exact hu
  rcases h.ends with ⟨code, hends, hexit⟩ | ⟨hno, -, htids⟩
  · obtain ⟨-, htids⟩ := exited_threads h.current hexit
    by_cases e : u = c
    · subst e
      have hq : q = p := Option.some.inj (hold.symm.trans (h.tid hi))
      subst hq
      exact .inr ⟨by rw [htids, BTreeMap.remove_apply, if_pos rfl], code, hends⟩
    · refine .inl ⟨?_, fun code' hends' => e (hends'.unique hends).1⟩
      rw [Live, htids, BTreeMap.remove_apply, if_neg e]
      exact hold
  · refine .inl ⟨?_, fun code hends => hno u q code hends⟩
    rw [Live, htids]
    exact hold

/-- The dead threads after a turn: one that was asked for is taken off, one that ended is added. -/
theorem Ran.dead_after (h : Ran x c p call tm) (hi : Threads.TInv x.before) (hl : deadOf x.after.tm.relMap q = some l) :
    ∃ l0, deadOf tm.relMap q = some l0 ∧
      ((∃ code, q = p ∧ Ends x c p code ∧ l = l0 ++ [(c, code)]) ∨ (∀ u code, ¬ Ends x u q code) ∧ l = l0) := by
  rcases h.ends with ⟨code, hends, hexit⟩ | ⟨hno, hrel, -⟩
  · have hsome := h.threads.owner (h.tid hi)
    rw [Threads.isSome_threadsOf] at hsome
    obtain ⟨r, hr⟩ := Option.isSome_iff_exists.mp hsome
    have hmem : c ∈ r.threads :=
      (h.threads.mem (show Threads.threadsOf tm.relMap p = some r.threads by rw [Threads.threadsOf, hr]; rfl) c).mpr (h.tid hi)
    obtain ⟨l0, hl0, e⟩ := exited_dead h.current (h.tid hi) hr hmem hexit hl
    refine ⟨l0, hl0, ?_⟩
    by_cases hq : q = p
    · rw [if_pos hq] at e
      exact .inl ⟨code, hq, hends, e⟩
    · rw [if_neg hq] at e
      exact .inr ⟨fun u code' hends' => hq (hends'.unique hends).2.1, e⟩
  · rw [hrel] at hl
    exact ⟨l, hl, .inr ⟨fun u code => hno u q code, rfl⟩⟩

/-- The first entry for a key that occurs once is the only one. -/
theorem mem_eraseP_iff {l : List (Task.ThreadId × Int)} (h : (l.map Prod.fst).Nodup) {d : Task.ThreadId × Int} :
    (d ∈ l.eraseP fun x => x.1 == u) ↔ d ∈ l ∧ d.1 ≠ u := by
  induction l with
  | nil => simp
  | cons x l ih =>
    rw [List.map_cons, List.nodup_cons] at h
    by_cases hx : x.1 = u
    · rw [List.eraseP_cons_of_pos (by simpa using hx)]
      refine ⟨fun hd => ⟨List.mem_cons_of_mem _ hd, fun e => ?_⟩, fun hd => ?_⟩
      · refine h.1 ?_
        rw [hx, ← e]
        exact List.mem_map_of_mem hd
      · rcases List.mem_cons.mp hd.1 with rfl | hm
        · exact absurd hx hd.2
        · exact hm
    · rw [List.eraseP_cons_of_neg (by simpa using hx), List.mem_cons, ih h.2, List.mem_cons]
      constructor
      · rintro (rfl | hd)
        · exact ⟨.inl rfl, hx⟩
        · exact ⟨.inr hd.1, hd.2⟩
      · rintro ⟨rfl | hd, hne⟩
        · exact .inl rfl
        · exact .inr ⟨hd, hne⟩

end

/-! ## The lists of dead threads over a run -/

structure WaitInv (es : List Turn) (s : State) : Prop where
  inv : Threads.TInv s
  dead : ∀ {p l}, deadOf s.tm.relMap p = some l → ∀ u code, (u, code) ∈ l ↔ Unreaped es p u code
  once : ∀ {p l}, deadOf s.tm.relMap p = some l → (l.map Prod.fst).Nodup
  gone : ∀ {p l u code}, deadOf s.tm.relMap p = some l → (u, code) ∈ l → s.tm.tid2pid u = none ∧ u ∈ s.usedTids
  known : ∀ {p u code}, Unreaped es p u code → p ∈ s.usedPids

theorem waitInv_new : WaitInv [] Threads.World.new := by
  refine ⟨Threads.tInv_new, fun h => ?_, fun h => ?_, fun h => ?_, fun h => absurd h not_since_nil⟩
  · cases h
  · cases h
  · cases h

section

variable {es : List Turn} {s : State} {x : Turn} {c d u : Task.ThreadId} {p q : ProcId} {call : Syscall} {tm : Manager}
  {code : Int} {l : List (Task.ThreadId × Int)}

/-- The dead threads after the call of a turn: without the one that was asked for. -/
theorem WaitInv.asked (h : WaitInv es x.before) (hx : Ran x c p call tm) (hl : deadOf tm.relMap q = some l) :
    q ∉ x.before.usedPids ∧ l = [] ∨ ∃ l0, deadOf x.before.tm.relMap q = some l0 ∧ l.Sublist l0 ∧
      ∀ u code, (u, code) ∈ l ↔ (u, code) ∈ l0 ∧ ∀ d, ¬ Makes x d q (.waittid u) := by
  have hsame : deadOf x.before.tm.relMap q = some l → (∀ u d, ¬ ((u, d) ∈ l ∧ ∃ e, Makes x e q (.waittid u))) →
      ∃ l0, deadOf x.before.tm.relMap q = some l0 ∧ l.Sublist l0 ∧
        ∀ u code, (u, code) ∈ l ↔ (u, code) ∈ l0 ∧ ∀ d, ¬ Makes x d q (.waittid u) := by
    intro hl hno
    exact ⟨l, hl, List.Sublist.refl l, fun u code => ⟨fun hm => ⟨hm, fun d hd => hno u code ⟨hm, d, hd⟩⟩, fun hm => hm.1⟩⟩
  rw [hx.dead] at hl
  cases call with
  | fork child tid =>
    change (deadOf x.before.tm.relMap).insert child [] q = some l at hl
    rw [BTreeMap.insert_apply] at hl
    split at hl
    · rename_i e
      cases hl
      exact .inl ⟨e ▸ hx.fresh.1, rfl⟩
    · refine .inr (hsame hl fun u d hm => ?_)
      obtain ⟨-, e, he⟩ := hm
      cases ((hx.asks _ _ _).mp he).2.2
  | waittid v =>
    change (if v = c then _ else _ : BTreeMap ProcId (List (Task.ThreadId × Int))) q = some l at hl
    split at hl
    · rename_i e
      refine .inr (hsame hl fun u code hm => ?_)
      obtain ⟨hm, d, hd⟩ := hm
      obtain ⟨-, -, hv⟩ := (hx.asks _ _ _).mp hd
      cases hv
      have hnone := (h.gone hl hm).1
      rw [e, hx.runs.2] at hnone
      cases hnone
    · rw [BTreeMap.adjust_apply] at hl
      split at hl
      · rename_i e
        obtain ⟨l0, hl0, rfl⟩ := Option.map_eq_some_iff.mp hl
        refine .inr ⟨l0, hl0, List.eraseP_sublist, fun u code => ?_⟩
        rw [mem_eraseP_iff (h.once hl0)]
        refine and_congr_right fun _ => ?_
        constructor
        · intro hne d hd
          cases ((hx.asks _ _ _).mp hd).2.2
          exact hne rfl
        · rintro hno rfl
          exact hno c ((hx.asks _ _ _).mpr ⟨rfl, e, rfl⟩)
      · rename_i hq
        refine .inr (hsame hl fun u code hm => ?_)
        obtain ⟨-, d, hd⟩ := hm
        exact hq ((hx.asks _ _ _).mp hd).2.1
  | _ =>
    refine .inr (hsame hl fun u code hm => ?_)
    obtain ⟨-, d, hd⟩ := hm
    cases ((hx.asks _ _ _).mp hd).2.2

theorem WaitInv.ran (h : WaitInv es x.before) (hx : Ran x c p call tm) (ht : Threads.TInv x.after) :
    WaitInv (es ++ [x]) x.after := by
  have hp : p ∈ x.before.usedPids := pid_used h.inv hx.runs.2
  have hends : ∀ {u q code}, Ends x u q code → u = c ∧ q = p := fun he => hx.runs.unique he.1 |>.imp Eq.symm Eq.symm
  -- the list before the end of the thread
  have hlist : ∀ {q l}, deadOf tm.relMap q = some l → (l.map Prod.fst).Nodup ∧
      (∀ u code, (u, code) ∈ l → x.after.tm.tid2pid u = none ∧ u ∈ x.after.usedTids ∧ u ≠ c) ∧
      ∀ u code, (u, code) ∈ l ↔ Unreaped es q u code ∧ ∀ d, ¬ Makes x d q (.waittid u) := by
    intro q l hl
    rcases h.asked hx hl with ⟨hq, rfl⟩ | ⟨l0, hl0, hsub, hmem⟩
    · refine ⟨List.nodup_nil, by simp, fun u code => iff_of_false (by simp) fun hu => hq (h.known hu.1)⟩
    · refine ⟨(hsub.map _).nodup (h.once hl0), fun u code hm => ?_, fun u code => ?_⟩
      · obtain ⟨hnone, hused⟩ := h.gone hl0 (hsub.subset hm)
        refine ⟨hx.gone hused hnone, hx.usedTids u hused, ?_⟩
        rintro rfl
        rw [hx.runs.2] at hnone
        cases hnone
      · rw [hmem, h.dead hl0]
  refine ⟨ht, fun {q l} hl u code => ?_, fun {q l} hl => ?_, fun {q l u code} hl hm => ?_, fun {q u code} hu => ?_⟩
  · obtain ⟨l0, hl0, hor⟩ := hx.dead_after h.inv hl
    obtain ⟨-, -, hmem⟩ := hlist hl0
    rw [unreaped_snoc]
    rcases hor with ⟨code', rfl, hend, rfl⟩ | ⟨hno, rfl⟩
    · rw [List.mem_append, hmem, List.mem_singleton, or_comm]
      refine or_congr ⟨fun e => ?_, fun he => ?_⟩ Iff.rfl
      · cases e
        exact hend
      · obtain ⟨rfl, -, rfl⟩ := he.unique hend
        rfl
    · rw [hmem]
      exact ⟨.inr, fun hu => hu.resolve_left (hno u code)⟩
  · obtain ⟨l0, hl0, hor⟩ := hx.dead_after h.inv hl
    obtain ⟨hnodup, hgone, -⟩ := hlist hl0
    rcases hor with ⟨code', rfl, -, rfl⟩ | ⟨-, rfl⟩
    · rw [List.map_append]
      refine nodup_snoc hnodup fun hm => ?_
      obtain ⟨⟨v, k⟩, hm, e⟩ := List.mem_map.mp hm
      exact (hgone v k hm).2.2 e
    · exact hnodup
  · obtain ⟨l0, hl0, hor⟩ := hx.dead_after h.inv hl
    obtain ⟨-, hgone, -⟩ := hlist hl0
    have hold : (u, code) ∈ l0 → x.after.tm.tid2pid u = none ∧ u ∈ x.after.usedTids :=
      fun hm => ⟨(hgone u code hm).1, (hgone u code hm).2.1⟩
    rcases hor with ⟨code', rfl, hend, rfl⟩ | ⟨-, rfl⟩
    · rcases List.mem_append.mp hm with hm | hm
      · exact hold hm
      · cases List.mem_singleton.mp hm
        refine ⟨?_, hx.usedTids c (h.inv.tids (h.inv.current hx.runs.1))⟩
        rcases hx.alive h.inv hx.runs.2 with ⟨-, hno⟩ | ⟨hnone, -⟩
        · exact absurd hend (hno code)
        · exact hnone
    · exact hold hm
  · rcases unreaped_snoc.mp hu with hend | ⟨hu, -⟩
    · rw [(hends hend).2]
      exact hx.usedPids p hp
    · exact hx.usedPids q (h.known hu)

theorem WaitInv.rested (h : WaitInv es x.before) (hx : Rested x) (ht : Threads.TInv x.after) :
    WaitInv (es ++ [x]) x.after := by
  have hiff : ∀ {q u code}, Unreaped (es ++ [x]) q u code ↔ Unreaped es q u code := by
    intro q u code
    rw [unreaped_snoc, or_iff_right (hx.ends u q code)]
    exact and_iff_left fun d hd => hx.asks d q _ hd
  refine ⟨ht, fun {q l} hl u code => ?_, fun {q l} hl => ?_, fun {q l u code} hl hm => ?_,
    fun {q u code} hu => hx.usedPids q (h.known (hiff.mp hu))⟩
  all_goals rcases hx.tables with ⟨hrel, htid⟩ | ⟨hnew, hnil⟩
  · rw [hrel] at hl
    rw [hiff]
    exact h.dead hl u code
  · obtain rfl := hnil q l hl
    refine iff_of_false (by simp) fun hu => ?_
    have hused := h.known (hiff.mp hu)
    rw [hnew] at hused
    cases hused
  · rw [hrel] at hl
    exact h.once hl
  · obtain rfl := hnil q l hl
    exact List.nodup_nil
  · rw [hrel] at hl
    rw [htid]
    exact ⟨(h.gone hl hm).1, hx.usedTids u (h.gone hl hm).2⟩
  · obtain rfl := hnil q l hl
    cases hm

theorem waitInv_run (h : Run es s) : WaitInv es s := by
  refine h.inv (P := WaitInv) waitInv_new ?_
  rintro es s x t hi ⟨rfl, rfl, hx⟩
  have ht := Micros.tInv hx.micros hi.inv
  rcases turn_kinds hi.inv hx with hrest | ⟨c, p, call, tm, hran⟩
  · exact hi.rested hrest ht
  · exact hi.ran hran ht

end

/-! ## What the kernel answers -/

section

variable {es : List Turn} {s t : State} {x : Turn} {c u : Task.ThreadId} {p : ProcId} {a code : Int}

theorem asIsize_asUsize (h : -2 ^ 63 ≤ a ∧ a < 2 ^ 63) : asIsize (Manager.asUsize a) = a := by
  unfold Manager.asUsize asIsize
  split
  · omega
  · omega

/-- The exit codes of threads are isize values. -/
theorem Ends.isize (h : Ends x u p code) (hx : Move x.before x.act x.after) : -2 ^ 63 ≤ code ∧ code < 2 ^ 63 := by
  rcases h.2 with ⟨-, rfl⟩ | ⟨call, ret, m, pid, result, tm, ha, hcalled, hsig, hv⟩
  · decide
  · have hend : endCode call ret = some code → -2 ^ 63 ≤ code ∧ code < 2 ^ 63 := by
      intro he
      cases ret with
      | none =>
        cases he
        decide
      | some r =>
        cases call with
        | exit exitCode =>
          cases he
          obtain ⟨tid, context, tm', -, hhandle, -⟩ := hcalled
          cases hhandle
          rw [ha] at hx
          generalize x.before = s at hx
          generalize x.after = t at hx
          cases hx with
          | kernel htyped => exact htyped
        | _ => cases he
    unfold verdict at hv
    split at hv
    · cases hv
      obtain ⟨proc, tid, context, signal, context', -, -, hsig, -⟩ := hsig
      obtain ⟨signal, rfl⟩ := SignalImpl.killed_code hsig
      have hlt := signal.isLt
      omega
    · exact hend hv

/-- The record of the process of a thread that runs. -/
theorem Runs.rel (hi : Threads.TInv s) (hr : Runs s c p) :
    ∃ r, s.tm.relMap p = some r ∧ deadOf s.tm.relMap p = some r.deadThreads ∧ ∀ u, u ∈ r.threads ↔ Live s p u := by
  obtain ⟨r, hrel⟩ := hi.currentPid_some (show Threads.currentPid s.tm = some p by
    rw [Threads.currentPid, hr.1, Option.bind_some]
    exact hr.2)
  exact ⟨r, hrel, by rw [deadOf, hrel]; rfl, hi.threads.mem (by rw [Threads.threadsOf, hrel]; rfl)⟩

/-- What the kernel answers: -1 to a thread that asks for itself, the code of a dead thread, -2 for
    one that is alive, and -1 for the others. -/
theorem WaitInv.answer (h : WaitInv es x.before) (ha : Answers x c p u a) :
    u = c ∧ a = -1 ∨ u ≠ c ∧ (Unreaped es p u a ∨
      (∀ code, ¬ Unreaped es p u code) ∧ (Live x.before p u ∧ a = -2 ∨ ¬ Live x.before p u ∧ a = -1)) := by
  obtain ⟨⟨-, hr⟩, m, tid, context, tm, hcur, hhandle, -⟩ := ha
  obtain rfl := getCurrent_eq hcur hr.1
  obtain ⟨r, hx, e⟩ := done_ok hhandle
  cases e
  obtain ⟨⟨tid', context'⟩, hcur', hx⟩ := bind_eq_ok.mp hx
  obtain rfl := getCurrent_eq (t := tid) hcur' hr.1
  dsimp only at hx
  split at hx
  · rename_i e
    cases hx
    exact .inl ⟨e, rfl⟩
  · rename_i hne
    obtain ⟨⟨w, tm1⟩, hw, hx⟩ := bind_eq_ok.mp hx
    obtain ⟨⟨pid, rel⟩, hrel, hw⟩ := bind_eq_ok.mp hw
    have ha : a = (rel.waitThread u).1.getD (-1) := by
      cases hw
      cases hx
      rfl
    clear hx hw
    obtain ⟨r, hr', hdead, hlive⟩ := hr.rel h.inv
    have hsame : rel = r := by
      obtain ⟨hpid, hrel⟩ := Threads.currentRel_ok hrel
      change x.before.tm.relMap pid = some rel at hrel
      have hpid : x.before.tm.current.bind x.before.tm.tid2pid = some pid := hpid
      rw [hr.1, Option.bind_some, hr.2] at hpid
      cases hpid
      exact Option.some.inj (hrel.symm.trans hr')
    subst hsame
    subst ha
    refine .inr ⟨hne, ?_⟩
    unfold ProcThreadRel.waitThread
    split
    · rename_i d hd
      have hu : d.1 = u := by simpa using List.find?_some hd
      refine .inl ((h.dead hdead u _).mp ?_)
      rw [← hu]
      exact List.mem_of_find?_eq_some hd
    · rename_i hno
      refine .inr ⟨fun code hu => ?_, ?_⟩
      · have hd := List.find?_eq_none.mp hno _ ((h.dead hdead u code).mpr hu)
        simp at hd
      · split
        · rename_i hm
          exact .inl ⟨(hlive u).mp hm, rfl⟩
        · rename_i hm
          exact .inr ⟨fun hl => hm ((hlive u).mpr hl), rfl⟩

/-- A thread of a process that is there is alive or dead. -/
theorem WaitInv.not_live (h : WaitInv es s) (hr : Runs s c p) (hu : Unreaped es p u code) :
    s.tm.tid2pid u = none ∧ u ∈ s.usedTids := by
  obtain ⟨r, -, hdead, -⟩ := hr.rel h.inv
  exact h.gone hdead ((h.dead hdead u code).mpr hu)

end

/-! ## The user loop -/

/-- The next turn of thread `c` begins. -/
def Picks (x : Turn) (c : Task.ThreadId) : Prop := x.act = .kernel .dispatch ∧ x.after.tm.current = some c

def a0 (s : State) (c : Task.ThreadId) : Option Nat := (s.tm.manager.tasks c).map fun d => d.x 10

/-- No thread of the process asks for `u`. -/
def Unasked (es : List Turn) (p : ProcId) (u : Task.ThreadId) : Prop := ∀ x ∈ es, ∀ c, ¬ Makes x c p (.waittid u)

/-- From the call of thread `c` in the first turn to the turn in which the code after the call goes
    on, with `v` in `a0`: at once, or after a handler. -/
inductive Resumes (c : Task.ThreadId) (p : ProcId) : List Turn → Nat → Prop
  | direct {x y : Turn} {es : List Turn} {v : Nat} : (∀ old, ¬ Saves x c p old) → (∀ z ∈ es, Away z c p) → Picks y c →
      a0 y.after c = some v → Resumes c p (x :: (es ++ [y])) v
  | handled {x y z : Turn} {es fs : List Turn} {v : Nat} {old : LocalContext} : Saves x c p old →
      (∀ w ∈ es, ∀ d, ¬ Makes w d p .sigreturn ∧ ∀ context, ¬ Makes w d p (.exec context)) → Makes z c p .sigreturn →
      (∀ old, ¬ Saves z c p old) → (∀ w ∈ fs, Away w c p) → Picks y c → a0 y.after c = some v →
      Resumes c p (x :: (es ++ z :: (fs ++ [y]))) v

/-- The user's `waittid(u)` in thread `c`, from its first call to the turn in which it has the
    result: after -2 it yields and asks again. No other call asks for `u` meanwhile. -/
inductive WaitLoop (c : Task.ThreadId) (p : ProcId) (u : Task.ThreadId) : List Turn → Int → Prop
  | done {x : Turn} {es : List Turn} {v : Nat} : Makes x c p (.waittid u) → Resumes c p (x :: es) v → Unasked es p u →
      asIsize v ≠ -2 → WaitLoop c p u (x :: es) (asIsize v)
  | again {x z : Turn} {es us fs rest : List Turn} {v : Nat} {a : Int} : Makes x c p (.waittid u) →
      Resumes c p (x :: es) v → Unasked es p u → asIsize v = -2 → (∀ w ∈ us, ∃ context, w.act = .user context) →
      Makes z c p (.other 0) → Unasked fs p u → WaitLoop c p u rest a →
      WaitLoop c p u (x :: (es ++ (us ++ z :: (fs ++ rest)))) a

/-- What `waittid` is to do in a run: -2 for a live thread of the process and nothing else, the
    exit code for a dead one, once, and -1 otherwise; the loop returns the exit code. -/
structure WaitLaw (es : List Turn) : Prop where
  answer : ∀ es1 x es2 c p u a, es = es1 ++ x :: es2 → Answers x c p u a →
    (a = -2 ↔ u ≠ c ∧ Live x.before p u) ∧ (∀ code, Unreaped es1 p u code → a = code) ∧
    (u = c ∨ ¬ Live x.before p u ∧ (∀ code, ¬ Unreaped es1 p u code) → a = -1)
  once : ∀ es1 x es2 y es3 c d p u code a, es = es1 ++ x :: (es2 ++ y :: es3) → Unreaped es1 p u code →
    Makes x c p (.waittid u) → Answers y d p u a → a = -1
  loop : ∀ es1 x fs es2 c p u v, es = es1 ++ (x :: fs ++ es2) → WaitLoop c p u (x :: fs) v → u ≠ c →
    Live x.before p u ∨ (∃ code, Unreaped es1 p u code) → ∃ code, (∃ y ∈ es1 ++ x :: fs, Ends y u p code) ∧ v = code

/-- No thread ends with -2 while its process lives, and no handler is entered in the trap of a
    `waittid`. -/
structure Fine (x : Turn) : Prop where
  code : ∀ u p, Ends x u p (-2) → x.after.tm.relMap p = none
  quiet : ∀ c p u old, Makes x c p (.waittid u) → ¬ Saves x c p old

section

variable {es es1 es2 fs : List Turn} {s t : State} {x y : Turn} {c u : Task.ThreadId} {p : ProcId} {a code : Int} {v : Nat}
  {call : Syscall}

theorem Unreaped.exits (h : Unreaped es p u code) : ∃ x ∈ es, Ends x u p code := by
  obtain ⟨es1, x, es2, rfl, hends, -⟩ := h
  exact ⟨x, by simp, hends⟩

theorem Run.moves (h : Run es s) (hm : Moves s fs t) : Run (es ++ fs) t := Exec.append h hm

/-- An exit code of a thread whose process lives on. -/
theorem Unreaped.code_ne (h : Run es s) (hf : ∀ x ∈ es, Fine x) (hr : Runs s c p) (hu : Unreaped es p u code) : code ≠ -2 := by
  rintro rfl
  obtain ⟨es1, x, es2, rfl, hends, -⟩ := hu
  obtain ⟨h1, hx, h2⟩ := h.at
  have hnone := (hf x (by simp)).code u p hends
  have hi := h1.tInv
  have hi' := Micros.tInv hx.micros hi
  have hused : p ∈ x.after.usedPids := by
    rcases turn_kinds hi hx with hrest | ⟨d, q, call, tm, hran⟩
    · exact absurd hends (hrest.ends u p (-2))
    · exact hran.usedPids p (pid_used hi hends.1.2)
  -- the process is gone for good
  have hgone : Threads.TInv s ∧ Gone s p := by
    refine h2.inv (P := fun _ t => Threads.TInv t ∧ Gone t p) ⟨hi', hused, hnone⟩ ?_
    rintro es t y t' ⟨hit, hg⟩ ⟨rfl, rfl, hy⟩
    exact ⟨Micros.tInv hy.micros hit, Micros.gone hy.micros hit hg⟩
  obtain ⟨r, hrel, -⟩ := hr.rel hgone.1
  rw [hgone.2.2] at hrel
  cases hrel

theorem answer_law (h : Run (es1 ++ x :: es2) s) (hf : ∀ y ∈ es1, Fine y) (ha : Answers x c p u a) :
    (a = -2 ↔ u ≠ c ∧ Live x.before p u) ∧ (∀ code, Unreaped es1 p u code → a = code) ∧
    (u = c ∨ ¬ Live x.before p u ∧ (∀ code, ¬ Unreaped es1 p u code) → a = -1) := by
  obtain ⟨h1, -, -⟩ := h.at
  have hi := waitInv_run h1
  have hr := ha.1.2
  have hdead : ∀ code, Unreaped es1 p u code → ¬ Live x.before p u ∧ u ≠ c := by
    intro code hu
    obtain ⟨hnone, -⟩ := hi.not_live hr hu
    refine ⟨fun hl => ?_, ?_⟩
    · rw [hl] at hnone
      cases hnone
    · rintro rfl
      rw [hr.2] at hnone
      cases hnone
  rcases hi.answer ha with ⟨rfl, rfl⟩ | ⟨hne, hu | ⟨hno, ⟨hl, rfl⟩ | ⟨hl, rfl⟩⟩⟩
  · exact ⟨iff_of_false (by decide) fun hx => hx.1 rfl, fun code hu => absurd rfl (hdead code hu).2, fun _ => rfl⟩
  · refine ⟨iff_of_false (Unreaped.code_ne h1 hf hr hu) fun hx => (hdead a hu).1 hx.2, fun code hu' => ?_, ?_⟩
    · obtain ⟨rel, -, hrel, -⟩ := hr.rel hi.inv
      have hm := (hi.dead hrel u a).mpr hu
      have hm' := (hi.dead hrel u code).mpr hu'
      exact congrArg Prod.snd (List.inj_on_of_nodup_map (hi.once hrel) hm hm' rfl)
    · rintro (e | ⟨-, hno⟩)
      · exact absurd e hne
      · exact absurd hu (hno a)
  · refine ⟨iff_of_true rfl ⟨hne, hl⟩, fun code hu => absurd hu (hno code), ?_⟩
    rintro (e | ⟨hl', -⟩)
    · exact absurd e hne
    · exact absurd hl hl'
  · exact ⟨iff_of_false (by decide) fun hx => hl hx.2, fun code hu => absurd hu (hno code), fun _ => rfl⟩

/-- A thread that is alive or dead and not asked for stays so. -/
theorem live_or_unreaped (h : Run es s) (hm : Moves s fs t) (hno : Unasked fs p u)
    (hu : Live s p u ∨ ∃ code, Unreaped es p u code) : Live t p u ∨ ∃ code, Unreaped (es ++ fs) p u code := by
  induction hm with
  | nil =>
    rw [List.append_nil]
    exact hu
  | @snoc _ _ fs x hm hs ih =>
    obtain ⟨rfl, rfl, hx⟩ := hs
    have hlast := hno x (by simp)
    have hi := (h.moves hm).tInv
    rw [← List.append_assoc]
    rcases ih fun y hy => hno y (List.mem_append_left _ hy) with hl | ⟨code, hu⟩
    · rcases turn_kinds hi hx with hrest | ⟨d, q, call, tm, hran⟩
      · rcases hrest.tables with ⟨-, htid⟩ | ⟨hnew, -⟩
        · refine .inl ?_
          rw [Live, htid]
          exact hl
        · rw [Live, hnew] at hl
          cases hl
      · rcases hran.alive hi hl with ⟨hl', -⟩ | ⟨-, code, hends⟩
        · exact .inl hl'
        · exact .inr ⟨code, unreaped_snoc.mpr (.inl hends)⟩
    · exact .inr ⟨code, unreaped_snoc.mpr (.inr ⟨hu, hlast⟩)⟩

/-- A thread that is gone and not to be asked for stays so. -/
theorem reaped_run (hi : Threads.TInv s) (hm : Moves s fs t) (hu : u ∈ s.usedTids) (hnone : s.tm.tid2pid u = none)
    (hno : ∀ code, ¬ Unreaped es p u code) :
    Threads.TInv t ∧ u ∈ t.usedTids ∧ t.tm.tid2pid u = none ∧ ∀ code, ¬ Unreaped (es ++ fs) p u code := by
  induction hm with
  | nil =>
    rw [List.append_nil]
    exact ⟨hi, hu, hnone, hno⟩
  | @snoc _ _ fs x hm hs ih =>
    obtain ⟨rfl, rfl, hx⟩ := hs
    obtain ⟨hi', hu', hnone', hno'⟩ := ih
    have hends : ∀ code, ¬ Unreaped (es ++ fs ++ [x]) p u code := by
      intro code hun
      rcases unreaped_snoc.mp hun with hends | hun
      · have hlive := hends.1.2
        rw [hnone'] at hlive
        cases hlive
      · exact hno' code hun.1
    rw [← List.append_assoc]
    refine ⟨Micros.tInv hx.micros hi', ?_⟩
    rcases turn_kinds hi' hx with hrest | ⟨d, q, call, tm, hran⟩
    · refine ⟨hrest.usedTids u hu', ?_, hends⟩
      rcases hrest.tables with ⟨-, htid⟩ | ⟨hnew, -⟩
      · rw [htid]
        exact hnone'
      · rw [hnew] at hu'
        cases hu'
    · exact ⟨hran.usedTids u hu', hran.gone hu' hnone', hends⟩

theorem once_law {es3 : List Turn} {d : Task.ThreadId} (h : Run (es1 ++ x :: (es2 ++ y :: es3)) s)
    (hf : ∀ z ∈ es1 ++ x :: (es2 ++ y :: es3), Fine z) (hu : Unreaped es1 p u code) (hx : Makes x c p (.waittid u))
    (hy : Answers y d p u a) : a = -1 := by
  obtain ⟨h1, hmove, h2⟩ := h.at
  have hi := waitInv_run h1
  obtain ⟨hnone, hused⟩ := hi.not_live hx.2 hu
  have hone : Moves x.before (x :: es2) y.before := by
    obtain ⟨t, h2, h3⟩ := Exec.split h2
    obtain ⟨t', ⟨rfl, -, -⟩, -⟩ := Exec.uncons h3
    exact (Exec.single ⟨rfl, rfl, hmove⟩).append h2
  -- the call in `x` takes the code
  obtain ⟨t', ⟨-, rfl, -⟩, hrest⟩ := Exec.uncons hone
  have hstep : Moves x.before [x] x.after := .single ⟨rfl, rfl, hmove⟩
  have hafter : ∀ code, ¬ Unreaped (es1 ++ [x]) p u code := by
    intro code hun
    rcases unreaped_snoc.mp hun with hends | hun
    · have hlive := hends.1.2
      rw [hnone] at hlive
      cases hlive
    · exact hun.2 c hx
  have hi' := Micros.tInv hmove.micros hi.inv
  have hgone : u ∈ x.after.usedTids ∧ x.after.tm.tid2pid u = none := by
    rcases turn_kinds hi.inv hmove with hrested | ⟨e, q, call, tm, hran⟩
    · exact absurd hx (hrested.asks c p _)
    · exact ⟨hran.usedTids u hused, hran.gone hused hnone⟩
  obtain ⟨-, -, hlate, hno⟩ := reaped_run hi' hrest hgone.1 hgone.2 hafter
  rw [List.append_assoc, List.singleton_append] at hno
  have hall : Run ((es1 ++ x :: es2) ++ y :: es3) s := by
    rw [List.append_assoc, List.cons_append]
    exact h
  have hfine : ∀ z ∈ es1 ++ x :: es2, Fine z := by
    intro z hz
    refine hf z ?_
    rw [← List.cons_append, ← List.append_assoc]
    exact List.mem_append_left _ hz
  refine (answer_law hall hfine hy).2.2 (.inr ⟨fun hl => ?_, hno⟩)
  rw [Live, hlate] at hl
  cases hl

/-! ## The loop in a run -/

/-- The thread is of the process as long as it is there. -/
def Owned (s : State) (c : Task.ThreadId) (p : ProcId) : Prop :=
  c ∈ s.usedTids ∧ ∀ q, s.tm.tid2pid c = some q → q = p

theorem Owned.step (h : Owned x.before c p) (hi : Threads.TInv x.before) (hx : Move x.before x.act x.after) :
    Owned x.after c p := by
  rcases turn_kinds hi hx with hrest | ⟨d, q, call, tm, hran⟩
  · refine ⟨hrest.usedTids c h.1, ?_⟩
    rcases hrest.tables with ⟨-, htid⟩ | ⟨hnew, -⟩
    · rw [htid]
      exact h.2
    · have hused := h.1
      rw [hnew] at hused
      cases hused
  · refine ⟨hran.usedTids c h.1, fun q' hq => ?_⟩
    cases ho : x.before.tm.tid2pid c with
    | none =>
      rw [hran.gone h.1 ho] at hq
      cases hq
    | some o =>
      obtain rfl := h.2 o ho
      rcases hran.alive hi ho with ⟨hl, -⟩ | ⟨hnone, -⟩
      · exact Option.some.inj (hq.symm.trans hl)
      · rw [hnone] at hq
        cases hq

theorem away_run (hi : Threads.TInv s) (hm : Moves s fs t) (haway : ∀ z ∈ fs, Away z c p) (ho : Owned s c p)
    (hk : Keeps s c v) : Keeps t c v := by
  have hall : Threads.TInv t ∧ Owned t c p ∧ Keeps t c v := by
    induction hm with
    | nil => exact ⟨hi, ho, hk⟩
    | snoc hm hs ih =>
      obtain ⟨rfl, rfl, hx⟩ := hs
      obtain ⟨hi', ho', hk'⟩ := ih fun z hz => haway z (List.mem_append_left _ hz)
      have hlast := haway _ (List.mem_append_right _ (List.mem_singleton_self _))
      exact ⟨Micros.tInv hx.micros hi', ho'.step hi' hx, hk'.step hi' hx hlast ho'.2⟩
  exact hall.2.2

/-- The answer is in the register of the thread after its trap. -/
theorem makes_answers (h : Run es x.before) (hx : Move x.before x.act x.after) (hm : Makes x c p (.waittid u)) :
    ∃ a, Answers x c p u a ∧ Keeps x.after c (Manager.asUsize a) := by
  have hi := h.tInv
  obtain ⟨ret, m, proc, context, result, signal, context', htraps⟩ := trap_traps hi hm.2 (hm.step hx)
  obtain ⟨a, rfl⟩ : ∃ a, ret = some a := by
    obtain ⟨tid, context, tm, -, hhandle, -⟩ := htraps.called
    obtain ⟨a, -, e⟩ := done_ok hhandle
    exact ⟨a, e⟩
  refine ⟨a, ⟨hm, m, htraps.called⟩, htraps.used c (hi.tids (hi.current hm.2.1)), fun d hd => ?_⟩
  have hc := htraps.did.current.trans hm.2.1
  rcases finish_cases (by exact hc) htraps.finish with ⟨code, -, hexit⟩ | ⟨-, r, ctx, queue, hr, hctx, htm⟩
  · rw [(exited_threads (by exact hc) hexit).1, BTreeMap.remove_apply, if_pos rfl] at hd
    cases hd
  · cases hr
    rw [htm] at hd
    change BTreeMap.adjust _ c _ c = some d at hd
    rw [BTreeMap.adjust_apply, if_pos rfl] at hd
    obtain ⟨-, -, rfl⟩ := Option.map_eq_some_iff.mp hd
    rfl

/-- Without a handler the loop sees the answer. -/
theorem Resumes.answer (h : Run es1 x.before) (hx : Move x.before x.act x.after) (hm : Moves x.after fs t)
    (hmakes : Makes x c p (.waittid u)) (hf : Fine x) (hr : Resumes c p (x :: fs) v) :
    ∃ a, Answers x c p u a ∧ v = Manager.asUsize a := by
  obtain ⟨a, ha, hk⟩ := makes_answers h hx hmakes
  refine ⟨a, ha, ?_⟩
  have hi := h.tInv
  have hi' := Micros.tInv hx.micros hi
  cases hr with
  | @direct _ y es _ hno haway hpick hv =>
    obtain ⟨t', h1, h2⟩ := Exec.split hm
    obtain ⟨t'', ⟨rfl, rfl, hy⟩, -⟩ := Exec.uncons h2
    have ho : Owned x.after c p := by
      refine Owned.step (x := x) ⟨hi.tids (hi.current hmakes.2.1), fun q hq => ?_⟩ hi hx
      exact Option.some.inj (hq.symm.trans hmakes.2.2)
    have hlast : Away y c p := by
      have hidle : y.before.tm.current = none := by
        rw [hpick.1] at hy
        generalize y.before = s at hy
        generalize y.after = t at hy
        cases hy with
        | kernel _ hs =>
          cases hs with
          | dispatch hc => exact hc
      refine ⟨fun e => ?_, fun d context hd => ?_⟩
      · rw [hidle] at e
        cases e
      · have hact := hd.1
        rw [hpick.1] at hact
        cases hact
    have hkeeps : Keeps y.after c (Manager.asUsize a) := by
      refine away_run hi' (h1.snoc ⟨rfl, rfl, hy⟩) (fun z hz => ?_) ho hk
      rcases List.mem_append.mp hz with hz | hz
      · exact haway z hz
      · rw [List.mem_singleton.mp hz]
        exact hlast
    obtain ⟨d, hd, rfl⟩ := Option.map_eq_some_iff.mp hv
    exact hkeeps.2 d hd
  | handled hs => exact absurd hs (hf.quiet c p u _ hmakes)

theorem loop_law {gs : List Turn} (hloop : WaitLoop c p u gs a) : ∀ es1 es2, Run (es1 ++ (gs ++ es2)) s →
    (∀ y ∈ es1 ++ (gs ++ es2), Fine y) → u ≠ c →
    (∀ x fs, gs = x :: fs → Live x.before p u ∨ ∃ code, Unreaped es1 p u code) →
    ∃ code, (∃ y ∈ es1 ++ gs, Ends y u p code) ∧ a = code := by
  induction hloop with
  | @done x es v hmakes hresumes hun hne =>
    intro es1 es2 h hf hu hstart
    obtain ⟨h1, hx, h2⟩ := h.at
    obtain ⟨t, h2, -⟩ := Exec.split h2
    obtain ⟨a, ha, rfl⟩ := hresumes.answer h1 hx h2 hmakes (hf x (by simp))
    have hlaw := @answer_law es1 (es ++ es2) _ _ _ _ _ _ h (fun y hy => hf y (List.mem_append_left _ hy)) ha
    have hend : ∀ code, Unreaped es1 p u code → ∃ code, (∃ y ∈ es1 ++ x :: es, Ends y u p code) ∧
        asIsize (Manager.asUsize a) = code := by
      intro code hcode
      obtain ⟨y, hy, hends⟩ := hcode.exits
      refine ⟨code, ⟨y, List.mem_append_left _ hy, hends⟩, ?_⟩
      obtain ⟨l1, l2, rfl⟩ := List.append_of_mem hy
      rw [hlaw.2.1 code hcode]
      exact asIsize_asUsize (hends.isize h1.at.2.1)
    rcases hstart x es rfl with hl | ⟨code, hcode⟩
    · have ha2 := hlaw.1.mpr ⟨hu, hl⟩
      subst ha2
      exact absurd (by decide) hne
    · exact hend code hcode
  | @again x z es us fs rest v a hmakes hresumes hun hagain hus hz hfs hrest ih =>
    intro es1 es2 h hf hu hstart
    obtain ⟨h1, hx, h2⟩ := h.at
    have hi := h1.tInv
    have hlist : es1 ++ (x :: (es ++ (us ++ z :: (fs ++ rest))) ++ es2) =
        (es1 ++ x :: (es ++ (us ++ z :: fs))) ++ (rest ++ es2) := by simp
    have hmid : es ++ (us ++ z :: (fs ++ rest)) ++ es2 = es ++ ((us ++ z :: fs) ++ (rest ++ es2)) := by simp
    have h2 : Moves x.after (es ++ (us ++ z :: (fs ++ rest)) ++ es2) s := h2
    rw [hmid] at h2
    obtain ⟨t, h2, h3⟩ := Exec.split h2
    obtain ⟨t', h3, h4⟩ := Exec.split h3
    obtain ⟨a', ha, rfl⟩ := hresumes.answer h1 hx h2 hmakes (hf x (by simp))
    have hlaw := @answer_law es1 (es ++ (us ++ z :: (fs ++ rest)) ++ es2) _ _ _ _ _ _ h
      (fun y hy => hf y (List.mem_append_left _ hy)) ha
    -- the thread was alive
    have hisize : -2 ^ 63 ≤ a' ∧ a' < 2 ^ 63 := by
      rcases (waitInv_run h1).answer ha with ⟨-, rfl⟩ | ⟨-, hcode | ⟨-, ⟨-, rfl⟩ | ⟨-, rfl⟩⟩⟩
      · decide
      · obtain ⟨y, hy, hends⟩ := hcode.exits
        obtain ⟨l1, l2, rfl⟩ := List.append_of_mem hy
        exact hends.isize h1.at.2.1
      · decide
      · decide
    rw [asIsize_asUsize hisize] at hagain
    have hl := (hlaw.1.mp hagain).2
    have hl' : Live x.after p u := by
      rcases turn_kinds hi hx with hrested | ⟨d, q, call, tm, hran⟩
      · exact absurd hmakes (hrested.asks c p _)
      · rcases hran.alive hi hl with ⟨hl', -⟩ | ⟨-, code, hends⟩
        · exact hl'
        · exact absurd (hends.1.unique hmakes.2).1 hu
    have hquiet : Unasked (es ++ (us ++ z :: fs)) p u := by
      intro y hy d hd
      rcases List.mem_append.mp hy with hy | hy
      · exact hun y hy d hd
      · rcases List.mem_append.mp hy with hy | hy
        · obtain ⟨context, hact⟩ := hus y hy
          have := hd.1
          rw [hact] at this
          cases this
        · rcases List.mem_cons.mp hy with rfl | hy
          · have := hd.1
            rw [hz.1] at this
            cases this
          · exact hfs y hy d hd
    have hnext := live_or_unreaped (h1.moves (.single ⟨rfl, rfl, hx⟩)) (h2.append h3) hquiet (.inl hl')
    rw [List.append_assoc, List.singleton_append] at hnext
    rw [hlist] at h hf
    have hstart' : ∀ x' fs', rest = x' :: fs' → Live x'.before p u ∨
        ∃ code, Unreaped (es1 ++ x :: (es ++ (us ++ z :: fs))) p u code := by
      rintro x' fs' rfl
      obtain ⟨t'', ⟨rfl, -, -⟩, -⟩ := Exec.uncons h4
      exact hnext
    obtain ⟨code, ⟨y, hy, hends⟩, hcode⟩ := ih (es1 ++ x :: (es ++ (us ++ z :: fs))) es2 h hf hu hstart'
    refine ⟨code, ⟨y, ?_, hends⟩, hcode⟩
    have hmem : es1 ++ x :: (es ++ (us ++ z :: (fs ++ rest))) = (es1 ++ x :: (es ++ (us ++ z :: fs))) ++ rest := by simp
    rw [hmem]
    exact hy

end

/-- In every run in which no thread ends with -2 while its process lives, and no handler is entered
    in the trap of a `waittid`. -/
theorem waittid_protocol {es : List Turn} {s : State} (h : Run es s) (hf : ∀ x ∈ es, Fine x) : WaitLaw es where
  answer := by
    rintro es1 x es2 c p u a rfl ha
    exact answer_law h (fun y hy => hf y (List.mem_append_left _ hy)) ha
  once := by
    rintro es1 x es2 y es3 c d p u code a rfl hu hx hy
    exact once_law h hf hu hx hy
  loop := by
    rintro es1 x fs es2 c p u v rfl hloop hne hstart
    refine loop_law hloop es1 es2 h hf hne ?_
    rintro x' fs' e
    cases e
    exact hstart

/-! ## A thread that waits for its sibling -/

section

variable {x : Turn} {call : Syscall} {c : Task.ThreadId} {p : ProcId}

theorem Fine.of_trap {ret : Option Int} {m : State} {proc : Process} {context context' : LocalContext}
    {result : SignalResult} {signal : SignalImpl} (ha : x.act = .kernel (.trap call)) (hcalled : Called x.before call ret m)
    (hproc : Manager.getCurrentProc m.tm = .ok (p, proc)) (hcur : Manager.getCurrent m.tm = .ok (c, context))
    (hsig : proc.signal.handleSignals context = .ok (result, signal, context')) (hv : verdict call ret result ≠ some (-2))
    (hnone : signal.handling = none) : Fine x := by
  constructor
  · rintro u q ⟨-, ⟨ha', -⟩ | ⟨call', ret', m', pid', result', tm', ha', hcalled', hsig', hv'⟩⟩
    · rw [ha] at ha'
      cases ha'
    · rw [ha] at ha'
      cases ha'
      obtain ⟨rfl, rfl⟩ := hcalled.unique hcalled'
      obtain ⟨-, rfl, -⟩ := Signalled.unique ⟨proc, c, context, signal, context', hproc, hcur, hsig, rfl⟩ hsig'
      exact absurd hv' hv
  · intro d q u old _ hs
    have hold := (hs.eq ha hcalled hproc hcur hsig).2.2.2
    rw [hnone] at hold
    cases hold

theorem Fine.of_other (htrap : ∀ call, x.act ≠ .kernel (.trap call)) : Fine x := by
  constructor
  · rintro u q ⟨-, ⟨-, hcode⟩ | ⟨call, -, -, -, -, -, ha, -⟩⟩
    · cases hcode
    · exact absurd ha (htrap call)
  · rintro d q u old hm
    exact absurd hm.1 (htrap _)

end

/-- Thread 1 of process 0 exits with `code`, and thread 0 asks for it. -/
theorem sibling_asks {code : Int} (h : -2 ^ 63 ≤ code ∧ code < 2 ^ 63) : ∃ es x y s, Run (es ++ [x] ++ [y]) s ∧
    (code ≠ -2 → ∀ z ∈ es ++ [x] ++ [y], Fine z) ∧ Answers x 0 0 1 code ∧ x.before.tm.tid2pid 1 = none ∧ Picks y 0 ∧
    a0 y.after 0 = some (Manager.asUsize code) := by
  have h1 : Run [⟨_, .kernel .boot, _⟩] _ := .single ⟨rfl, rfl, .kernel trivial (@Step.boot (.user 0) _ rfl)⟩
  have h2 := h1.kernel (.dispatch rfl rfl) trivial
  have h3 := h2.kernel (@Step.trap _ (.threadCreate 1 (.user 100)) _ (by decide) rfl) trivial
  have h4 := h3.kernel (.dispatch rfl rfl) trivial
  have h5 := h4.kernel (@Step.trap _ (.exit code) _ trivial rfl) h
  have h6 := h5.kernel (.dispatch rfl rfl) trivial
  have h7 := h6.kernel (@Step.trap _ (.waittid 1) _ trivial rfl) trivial
  have h8 := h7.kernel (.dispatch rfl rfl) trivial
  refine ⟨_, _, _, _, h8, fun hc => ?_, ⟨⟨rfl, rfl, rfl⟩, _, _, _, _, rfl, rfl, rfl⟩, rfl, ⟨rfl, rfl⟩, rfl⟩
  simp only [List.mem_append, List.mem_singleton]
  rintro z (((((((rfl | rfl) | rfl) | rfl) | rfl) | rfl) | rfl) | rfl)
  · exact .of_other fun _ he => by cases he
  · exact .of_other fun _ he => by cases he
  · exact .of_trap rfl ⟨_, _, _, rfl, rfl, rfl⟩ rfl rfl rfl (by decide) rfl
  · exact .of_other fun _ he => by cases he
  · exact .of_trap rfl ⟨_, _, _, rfl, rfl, rfl⟩ rfl rfl rfl (fun he => hc (Option.some.inj he)) rfl
  · exact .of_other fun _ he => by cases he
  · exact .of_trap rfl ⟨_, _, _, rfl, rfl, rfl⟩ rfl rfl rfl (fun he => by cases he) rfl
  · exact .of_other fun _ he => by cases he

theorem waittid_protocol_seven : ∃ es x fs s, Run (es ++ x :: fs) s ∧ WaitLaw (es ++ x :: fs) ∧ WaitLoop 0 0 1 (x :: fs) 7 := by
  obtain ⟨es, x, y, s, hrun, hfine, hanswer, -, hpick, hv⟩ := @sibling_asks 7 (by decide)
  have hf := hfine (by decide)
  have hlaw := waittid_protocol hrun hf
  rw [List.append_assoc] at hrun hlaw
  refine ⟨es, x, [y], s, hrun, hlaw, ?_⟩
  have hresumes : Resumes 0 0 (x :: ([] ++ [y])) (Manager.asUsize 7) :=
    .direct (fun old => (hf x (by simp)).quiet 0 0 1 old hanswer.1) (by simp) hpick hv
  refine .done hanswer.1 hresumes (fun z hz d hd => ?_) (by decide)
  rw [List.mem_singleton.mp hz] at hd
  have hact := hd.1
  rw [hpick.1] at hact
  cases hact

/-- A thread that has exited with -2 seems to be alive. -/
theorem code_lost : ¬ ∀ es s, Run es s → WaitLaw es := by
  intro hall
  obtain ⟨es, x, y, s, hrun, -, hanswer, hdead, -⟩ := @sibling_asks (-2) (by decide)
  have hlaw := hall _ s hrun
  rw [List.append_assoc] at hlaw
  have hlive := ((hlaw.answer es x [y] 0 0 1 (-2) rfl hanswer).1.mp rfl).2
  rw [Live, hdead] at hlive
  cases hlive

end TgRcore.Kernel
