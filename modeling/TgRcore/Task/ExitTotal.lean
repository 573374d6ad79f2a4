/-
  TgRcore.Task.ExitTotal — when the exit of a process stops the kernel.

  The children of a process that exits go to process 0 through an `unwrap`: process 0 itself
  must not exit before its children, and once it is gone no process with children may exit.
  - `exit_total`: in every run, of `PManager` with any store and of `PThreadManager`.
  - `exit_panics`: process 0 makes a child and exits.
-/

import TgRcore.Task.ThreadManager

namespace TgRcore.Task

open TgRcore.BlockProg

/-- Every process has a parent that is there, or none. -/
def ParentsLive (F : BTreeMap ProcId ProcRel) : Prop :=
  ∀ p r, F p = some r → r.parent = usizeMax ∨ (F r.parent).isSome = true

theorem family_self (m : BTreeMap ProcId ProcRel) : family m = m := by
  funext p
  exact map_onRel_id (m p)

section

variable {P M : Type} [Manage P M] [Schedule M] [LawfulManager M] {w : World M} {id : ProcId} {r : ProcRel}

theorem exited_total (h : PInv w) (hc : w.pm.current = some id) (hr : w.pm.relMap id = some r) (code : Int) :
    (∃ pm, w.pm.makeCurrentExited code = .ok pm ∧ ParentsLive pm.relMap) ↔
      (r.children = [] ∨ id ≠ 0 ∧ (w.pm.relMap 0).isSome = true) := by
  have hfam : FamInv w.used (family w.pm.relMap) := by
    rw [family_self]
    exact h.fam
  refine Iff.trans ?_ (hfam.leave_iff hr code)
  constructor
  · rintro ⟨pm, hexit, _⟩
    obtain ⟨relMap, hl, -⟩ := (exited_eq_ok hc).mp hexit
    exact ⟨relMap, hl⟩
  · rintro ⟨relMap, hl⟩
    have hexit := (exited_eq_ok hc).mpr ⟨relMap, hl, rfl⟩
    refine ⟨_, hexit, fun p x hx => ?_⟩
    exact (h.step (Step.exit hc hr hexit)).fam.parent hx

end

namespace Threads

variable {P T : Type} {w : World P T} {tid : ThreadId} {pid : ProcId} {r : ProcThreadRel}

theorem delProc_total (h : TInv w) (hr : w.tm.relMap pid = some r) (code : Int) :
    (∃ tm, w.tm.delProc pid code = .ok tm ∧ ParentsLive (family tm.relMap)) ↔
      (r.children = [] ∨ pid ≠ 0 ∧ (w.tm.relMap 0).isSome = true) := by
  refine Iff.trans ?_ (h.fam.leave_iff hr code)
  constructor
  · rintro ⟨tm, hdel, _⟩
    obtain ⟨relMap, hl, -⟩ := bind_eq_ok.mp hdel
    exact ⟨relMap, hl⟩
  · rintro ⟨relMap, hl⟩
    refine ⟨_, bind_eq_ok.mpr ⟨relMap, hl, rfl⟩, fun p x hx => ?_⟩
    obtain ⟨hrel, -, hself, hzero⟩ := leave_ok hr hl
    have hkin : family w.tm.relMap pid = some r.toProcRel := by
      rw [family, hr]
      rfl
    have hfam : FamInv _ (departed (family w.tm.relMap) pid code r.toProcRel) := h.fam.leave hkin hself hzero
    rw [← hrel] at hfam
    exact hfam.parent hx

theorem exited_total (h : TInv w) (hc : w.tm.current = some tid) (ht : w.tm.tid2pid tid = some pid)
    (hr : w.tm.relMap pid = some r) (code : Int) :
    (∃ tm, w.tm.makeCurrentExited code = .ok tm ∧ ParentsLive (family tm.relMap)) ↔
      (r.threads ≠ [tid] ∨ r.children = [] ∨ pid ≠ 0 ∧ (w.tm.relMap 0).isSome = true) := by
  have hl : threadsOf w.tm.relMap pid = some r.threads := by
    rw [threadsOf, hr]
    rfl
  obtain ⟨hlinks, -, hlast⟩ := delThread_eq ((h.threads.mem hl tid).mpr ht) code
  have hpid : w.tm.relMap.insert pid (r.delThread tid code) pid = some (r.delThread tid code) := by simp
  have hfam : FamInv w.usedPids (family (w.tm.relMap.insert pid (r.delThread tid code))) := by
    rw [family_insert hr hlinks]
    exact h.fam
  have hleave := hfam.leave_iff hpid code
  have hzero : (w.tm.relMap.insert pid (r.delThread tid code) 0).isSome = (w.tm.relMap 0).isSome := by
    rw [← isSome_family, family_insert hr hlinks, isSome_family]
  rw [hzero, show (rel (r.delThread tid code)).children = r.children from congrArg ProcRel.children hlinks] at hleave
  rw [← hleave]
  constructor
  · rintro ⟨tm, hexit, _⟩
    rcases (exited_eq_ok hc ht hr).mp hexit with ⟨hne, -⟩ | ⟨-, relMap, hok, -⟩
    · exact .inl fun e => hne (hlast.mpr e)
    · exact .inr ⟨relMap, hok⟩
  · intro hcond
    have hok : ∃ tm, w.tm.makeCurrentExited code = .ok tm := by
      by_cases hone : r.threads = [tid]
      · obtain ⟨relMap, hok⟩ := hcond.resolve_left (not_not.mpr hone)
        exact ⟨_, (exited_eq_ok hc ht hr).mpr (.inr ⟨hlast.mpr hone, relMap, hok, rfl⟩)⟩
      · exact ⟨_, (exited_eq_ok hc ht hr).mpr (.inl ⟨fun e => hone (hlast.mp e), rfl⟩)⟩
    obtain ⟨tm, hexit⟩ := hok
    exact ⟨tm, hexit, fun p x hx => (h.exit hc ht hr hexit).1.fam.parent hx⟩

end Threads

/-- When a process can exit, in every run of the process manager and of the thread manager: it
    has no children, or it is not process 0 and process 0 is there. -/
theorem exit_total {P M : Type} [Manage P M] [Schedule M] [LawfulManager M] {manager : M}
    (hempty : ∀ q, Manage.getMut manager q = none) :
    (∀ es (w : World M), Exec Step (World.new manager) es w → ∀ id, w.pm.current = some id →
      ∃ r, w.pm.relMap id = some r ∧ ∀ code,
        ((∃ pm, w.pm.makeCurrentExited code = .ok pm ∧ ParentsLive pm.relMap) ↔
          (r.children = [] ∨ id ≠ 0 ∧ (w.pm.relMap 0).isSome = true))) ∧
    ∀ (Proc Task : Type) es (w : Threads.World Proc Task), Exec Threads.Step .new es w →
      ∀ tid, w.tm.current = some tid → ∃ pid r, w.tm.tid2pid tid = some pid ∧ w.tm.relMap pid = some r ∧ ∀ code,
        ((∃ tm, w.tm.makeCurrentExited code = .ok tm ∧ ParentsLive (family tm.relMap)) ↔
          (r.threads ≠ [tid] ∨ r.children = [] ∨ pid ≠ 0 ∧ (w.tm.relMap 0).isSome = true)) ∧
        ((∃ tm, w.tm.delProc pid code = .ok tm ∧ ParentsLive (family tm.relMap)) ↔
          (r.children = [] ∨ pid ≠ 0 ∧ (w.tm.relMap 0).isSome = true)) := by
  constructor
  · intro es w h id hc
    have hi := pInv_run hempty h
    obtain ⟨r, hr⟩ := Option.isSome_iff_exists.mp (hi.current hc)
    exact ⟨r, hr, exited_total hi hc hr⟩
  · intro Proc Task es w h tid hc
    have hi := Threads.tInv_run h
    obtain ⟨pid, r, ht, hr, -⟩ := hi.exit_current hc
    exact ⟨pid, r, ht, hr, fun code => ⟨Threads.exited_total hi hc ht hr code, Threads.delProc_total hi hr code⟩⟩

/-- Process 1 adds process 2 and can exit: process 0 is there. -/
theorem exit_total_orphan : ∃ w, Exec Step (World.new (FifoManager.new : FifoManager Unit))
    [.add 0 usizeMax, .findNext none, .add 1 0, .suspend, .findNext none, .add 2 1] w ∧
    w.pm.current = some 1 ∧ w.pm.relMap 1 = some ⟨0, [2], []⟩ ∧
    ∃ pm, w.pm.makeCurrentExited 0 = .ok pm ∧ ParentsLive pm.relMap := by
  have h1 : Exec Step (World.new (FifoManager.new : FifoManager Unit)) [.add 0 usizeMax] _ :=
    .single (@Step.add _ _ _ _ _ 0 usizeMax () _ (by decide) (by decide) rfl)
  have h2 : Exec Step _ [.add 0 usizeMax, .findNext none] _ := h1.snoc (.findNext rfl)
  have h3 : Exec Step _ [.add 0 usizeMax, .findNext none, .add 1 0] _ :=
    h2.snoc (@Step.add _ _ _ _ _ 1 0 () _ (by decide) (by decide) rfl)
  have h4 := h3.snoc (.suspend rfl)
  have h5 := h4.snoc (.findNext rfl)
  have h6 : Exec Step _ [.add 0 usizeMax, .findNext none, .add 1 0, .suspend, .findNext none, .add 2 1] _ :=
    h5.snoc (@Step.add _ _ _ _ _ 2 1 () _ (by decide) (by decide) rfl)
  obtain ⟨r, hr, hexit⟩ := (exit_total fun _ => rfl).1 _ _ h6 1 rfl
  exact ⟨_, h6, rfl, rfl, (hexit 0).mpr (.inr ⟨by decide, rfl⟩)⟩

/-- Process 0 makes process 1 and exits: the kernel stops, with processes alone and with
    threads. -/
theorem exit_panics :
    (∃ w, Exec Step (World.new (FifoManager.new : FifoManager Unit)) [.add 0 usizeMax, .findNext none, .add 1 0] w ∧
      w.pm.current = some 0 ∧ w.pm.makeCurrentExited 0 = .error .panic) ∧
    ∃ w : Threads.World Unit Unit, Exec Threads.Step .new [.newProc 0 0 usizeMax, .findNext, .newProc 1 1 0] w ∧
      w.tm.current = some 0 ∧ w.tm.makeCurrentExited 0 = .error .panic := by
  constructor
  · have h1 : Exec Step (World.new (FifoManager.new : FifoManager Unit)) [.add 0 usizeMax] _ :=
      .single (@Step.add _ _ _ _ _ 0 usizeMax () _ (by decide) (by decide) rfl)
    have h2 : Exec Step _ [.add 0 usizeMax, .findNext none] _ := h1.snoc (.findNext rfl)
    have h3 : Exec Step _ [.add 0 usizeMax, .findNext none, .add 1 0] _ :=
      h2.snoc (@Step.add _ _ _ _ _ 1 0 () _ (by decide) (by decide) rfl)
    exact ⟨_, h3, rfl, rfl⟩
  · have h1 : Exec Threads.Step (.new : Threads.World Unit Unit) [.newProc 0 0 usizeMax] _ :=
      .single (@Threads.Step.newProc _ _ _ 0 usizeMax 0 () () _ (by decide) (by decide) (by decide) (.inl rfl) rfl)
    have h2 : Exec Threads.Step _ [.newProc 0 0 usizeMax, .findNext] _ := h1.snoc (.findNext rfl)
    have h3 : Exec Threads.Step _ [.newProc 0 0 usizeMax, .findNext, .newProc 1 1 0] _ :=
      h2.snoc (@Threads.Step.newProc _ _ _ 1 0 1 () () _ (by decide) (by decide) (by decide) (.inr rfl) rfl)
    exact ⟨_, h3, rfl, rfl⟩

end TgRcore.Task
