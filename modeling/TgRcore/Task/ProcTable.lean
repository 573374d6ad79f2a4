/-
  TgRcore.Task.ProcTable — the process table of chapters 5 and 6: `PManager` with the heap of
  strides.

  `find_next` does not look at the current process: called while there is one, it loses it
  (`process_lost`). The main loop suspends or ends the current process first.
  - `TabInv`: every process is current or ready, once.
  - `process_table`: over every run in which `find_next` is called when no process is current.
-/

import TgRcore.Task.Managers

namespace TgRcore.Task

open TgRcore.BlockProg

variable {heap : BinaryHeap StridePair StridePair.le}

structure TabInv (w : World (ProcManager heap)) : Prop where
  inv : PInv w
  nodup : w.pm.manager.ready.Nodup
  live : ∀ {p}, p ∈ w.pm.manager.ready → (w.pm.relMap p).isSome = true
  ready : ∀ {p}, (w.pm.relMap p).isSome = true → w.pm.current = some p ∨ p ∈ w.pm.manager.ready
  apart : ∀ {p}, w.pm.current = some p → p ∉ w.pm.manager.ready

theorem tabInv_new : TabInv (World.new (ProcManager.new : ProcManager heap)) := by
  refine ⟨pInv_new fun _ => rfl, List.nodup_nil, ?_, ?_, ?_⟩
  · intro p h
    cases h
  · intro p h
    cases h
  · intro p h
    cases h

section

variable {w w' : World (ProcManager heap)} {e : Event}

theorem TabInv.step (h : TabInv w) (hs : Step w e w') (hidle : ∀ c, e = .findNext c → c = none) : TabInv w' := by
  have hi := h.inv.step hs
  cases hs with
  | @add id parent task pm hid hlt hadd =>
    obtain ⟨hp, manager, hm, rfl⟩ := add_ok h.inv.max_none hadd
    obtain ⟨-, -, hperm⟩ := ProcManager.add_ok hm
    have hperm : manager.ready.Perm (id :: w.pm.manager.ready) := hperm
    have hnew : ¬ (w.pm.relMap id).isSome = true := by
      intro hsome
      obtain ⟨r, hr⟩ := Option.isSome_iff_exists.mp hsome
      exact hid (h.inv.fam.known hr)
    refine ⟨hi, ?_, ?_, ?_, ?_⟩
    · rw [hperm.nodup_iff, List.nodup_cons]
      exact ⟨fun hmem => hnew (h.live hmem), h.nodup⟩
    · intro p hmem
      rcases List.mem_cons.mp (hperm.mem_iff.mp hmem) with rfl | hmem
      · exact isSome_joined.mpr (.inl rfl)
      · exact isSome_joined.mpr (.inr (h.live hmem))
    · intro p hsome
      rcases isSome_joined.mp hsome with rfl | hsome
      · exact .inr (hperm.mem_iff.mpr List.mem_cons_self)
      · exact (h.ready hsome).imp_right fun hmem => hperm.mem_iff.mpr (List.mem_cons_of_mem _ hmem)
    · intro p hc hmem
      rcases List.mem_cons.mp (hperm.mem_iff.mp hmem) with rfl | hmem
      · exact hnew (h.inv.current hc)
      · exact h.apart hc hmem
  | @findNext ret pm hf =>
    have hnone : w.pm.current = none := hidle _ rfl
    obtain ⟨next, manager, hfetch, hret⟩ := findNext_ok hf
    rcases ProcManager.fetch_ok hfetch with ⟨rfl, rfl, -⟩ | ⟨id, rfl, -, hsome, hperm, hq⟩
    · rcases hret with ⟨-, rfl, -⟩ | ⟨id, task, hid, -⟩
      · exact ⟨hi, h.nodup, h.live, h.ready, h.apart⟩
      · cases hid
    · rcases hret with ⟨-, -, hno⟩ | ⟨id', task, hid, ht, -, rfl⟩
      · have hno : manager.tasks id = none := hno id rfl
        rw [hno] at hsome
        cases hsome
      · cases hid
        have hnd := hperm.nodup_iff.mp h.nodup
        rw [List.nodup_cons] at hnd
        refine ⟨hi, hnd.2, ?_, ?_, ?_⟩
        · intro p hmem
          exact h.live (hperm.mem_iff.mpr (List.mem_cons_of_mem _ hmem))
        · intro p hp
          rcases h.ready hp with hc | hmem
          · rw [hnone] at hc
            cases hc
          · rcases List.mem_cons.mp (hperm.mem_iff.mp hmem) with rfl | hmem
            · exact .inl rfl
            · exact .inr hmem
        · intro p hc
          cases hc
          exact hnd.1
  | suspend hsus =>
    obtain ⟨id, manager, hc, hm, rfl⟩ := suspend_ok hsus
    obtain ⟨-, -, hperm⟩ := ProcManager.add_ok hm
    refine ⟨hi, ?_, ?_, ?_, by simp⟩
    · exact hperm.nodup_iff.mpr (List.nodup_cons.mpr ⟨h.apart hc, h.nodup⟩)
    · intro p hmem
      rcases List.mem_cons.mp (hperm.mem_iff.mp hmem) with rfl | hmem
      · exact h.inv.current hc
      · exact h.live hmem
    · intro p hp
      rcases h.ready hp with hcp | hmem
      · rw [hc, Option.some.injEq] at hcp
        exact .inr (hperm.mem_iff.mpr (hcp ▸ List.mem_cons_self))
      · exact .inr (hperm.mem_iff.mpr (List.mem_cons_of_mem _ hmem))
  | @exit id r code pm hc hr hexit =>
    obtain ⟨relMap, hl, rfl⟩ := (exited_eq_ok hc).mp hexit
    obtain ⟨rfl, -, -⟩ := leave_departed hr hl
    refine ⟨hi, h.nodup, ?_, ?_, by simp⟩
    · intro p hmem
      have hne : p ≠ id := by
        intro e
        exact h.apart hc (e ▸ hmem)
      exact isSome_departed.mpr ⟨hne, h.live hmem⟩
    · intro p hp
      obtain ⟨hne, hp⟩ := isSome_departed.mp hp
      rcases h.ready hp with hcp | hmem
      · rw [hc, Option.some.injEq] at hcp
        exact absurd hcp.symm hne
      · exact .inr hmem
  | @wait id c ret pm hc hw =>
    obtain ⟨r, hr⟩ := Option.isSome_iff_exists.mp (h.inv.current hc)
    rw [wait_eq_ok hc hr] at hw
    cases hw
    have hsome : ∀ q, (w.pm.relMap.insert id (r.wait c).2 q).isSome = true ↔ (w.pm.relMap q).isSome = true := by
      intro q
      rw [BTreeMap.isSome_insert]
      refine ⟨fun hq => hq.elim (fun e => ?_) fun hq => hq, .inr⟩
      rw [e, hr]
      rfl
    exact ⟨hi, h.nodup, fun hmem => (hsome _).mpr (h.live hmem), fun hp => h.ready ((hsome _).mp hp), h.apart⟩

end

/-- The process table over every run in which `find_next` is called when no process is current. -/
theorem process_table {es : List Event} {w : World (ProcManager heap)}
    (h : Exec Step (World.new (ProcManager.new : ProcManager heap)) es w)
    (hidle : ∀ c, Event.findNext c ∈ es → c = none) :
    (∀ p, (w.pm.manager.tasks p).isSome = true ↔ (w.pm.relMap p).isSome = true) ∧
    (∀ p, (w.pm.relMap p).isSome = true →
      (w.pm.current = some p ∨ p ∈ w.pm.manager.ready) ∧ ¬ (w.pm.current = some p ∧ p ∈ w.pm.manager.ready)) ∧
    (w.pm.manager.ready.Nodup ∧ ∀ p ∈ w.pm.manager.ready, (w.pm.relMap p).isSome = true) ∧
    (∀ p q rp rq, w.pm.relMap p = some rp → w.pm.relMap q = some rq → (q ∈ rp.children ↔ rq.parent = p)) ∧
    (∀ p rp, w.pm.relMap p = some rp → rp.children.Nodup ∧ (rp.deadChildren.map Prod.fst).Nodup ∧
      ∀ d ∈ rp.deadChildren, w.pm.relMap d.1 = none) ∧
    ∀ p q rp rq, w.pm.relMap p = some rp → w.pm.relMap q = some rq → p ≠ q →
      ∀ d ∈ rp.deadChildren, ∀ e ∈ rq.deadChildren, d.1 ≠ e.1 := by
  have hrun : (∀ c, Event.findNext c ∈ es → c = none) → TabInv w := by
    refine h.inv (P := fun es w => (∀ c, Event.findNext c ∈ es → c = none) → TabInv w) (fun _ => tabInv_new) ?_
    intro es w e w' ih hs hidle
    refine (ih fun c hc => hidle c (List.mem_append_left _ hc)).step hs fun c he => hidle c ?_
    exact List.mem_append_right _ (List.mem_singleton.mpr he.symm)
  have hi := hrun hidle
  refine ⟨hi.inv.keys, ?_, ⟨hi.nodup, fun p => hi.live⟩, ?_, ?_, ?_⟩
  · intro p hp
    exact ⟨hi.ready hp, fun ⟨hc, hm⟩ => hi.apart hc hm⟩
  · intro p q rp rq hp hq
    exact hi.inv.fam.mem_children hp hq
  · intro p rp hp
    exact ⟨hi.inv.fam.nodup hp, hi.inv.fam.once hp, fun d hd => (hi.inv.fam.gone hp hd).1⟩
  · intro p q rp rq hp hq hne d hd e he hde
    exact hne (hi.inv.fam.one hp hq hd he hde)

def strideHeap : BinaryHeap StridePair StridePair.le := .sorted StridePair fun x => x.stride.stride

/-- Process 0 adds process 1, which exits, and waits for it. -/
theorem process_table_two : ∃ w, Exec Step (World.new (ProcManager.new : ProcManager strideHeap))
    [.add 0 usizeMax, .findNext none, .add 1 0, .suspend, .findNext none, .exit 1 7 0 true, .findNext none,
      .wait 0 1 (some (1, 7))] w ∧
    w.pm.current = some 0 ∧ 0 ∉ w.pm.manager.ready ∧ w.pm.manager.tasks 1 = none := by
  have h1 : Exec Step (World.new (ProcManager.new : ProcManager strideHeap)) [.add 0 usizeMax] _ :=
    .single (@Step.add _ _ _ _ _ 0 usizeMax ⟨.new⟩ _ (by decide) (by decide) rfl)
  have h2 : Exec Step _ [.add 0 usizeMax, .findNext none] _ := h1.snoc (.findNext rfl)
  have h3 : Exec Step _ [.add 0 usizeMax, .findNext none, .add 1 0] _ :=
    h2.snoc (@Step.add _ _ _ _ _ 1 0 ⟨.new⟩ _ (by decide) (by decide) rfl)
  have h4 := h3.snoc (.suspend rfl)
  have h5 := h4.snoc (.findNext rfl)
  have h6 := h5.snoc (@Step.exit _ _ _ _ _ 1 ⟨0, [], []⟩ 7 _ rfl rfl rfl)
  have h7 := h6.snoc (.findNext rfl)
  have h8 : Exec Step _ [.add 0 usizeMax, .findNext none, .add 1 0, .suspend, .findNext none, .exit 1 7 0 true,
      .findNext none, .wait 0 1 (some (1, 7))] _ := h7.snoc (.wait rfl rfl)
  obtain ⟨hkeys, hlive, -⟩ := process_table h8 (by simp)
  refine ⟨_, h8, rfl, fun hm => (hlive 0 rfl).2 ⟨rfl, hm⟩, ?_⟩
  rw [← Option.not_isSome_iff_eq_none, hkeys]
  decide

/-- `find_next` while process 0 is current: process 0 is neither current nor ready any more. -/
theorem process_lost : ∃ w, Exec Step (World.new (ProcManager.new : ProcManager strideHeap))
    [.add 0 usizeMax, .findNext none, .add 1 0, .findNext (some 0)] w ∧ (w.pm.relMap 0).isSome = true ∧
    w.pm.current ≠ some 0 ∧ 0 ∉ w.pm.manager.ready := by
  have h1 : Exec Step (World.new (ProcManager.new : ProcManager strideHeap)) [.add 0 usizeMax] _ :=
    .single (@Step.add _ _ _ _ _ 0 usizeMax ⟨.new⟩ _ (by decide) (by decide) rfl)
  have h2 : Exec Step _ [.add 0 usizeMax, .findNext none] _ := h1.snoc (.findNext rfl)
  have h3 : Exec Step _ [.add 0 usizeMax, .findNext none, .add 1 0] _ :=
    h2.snoc (@Step.add _ _ _ _ _ 1 0 ⟨.new⟩ _ (by decide) (by decide) rfl)
  have h4 : Exec Step _ [.add 0 usizeMax, .findNext none, .add 1 0, .findNext (some 0)] _ := h3.snoc (.findNext rfl)
  exact ⟨_, h4, rfl, by decide, by decide⟩

end TgRcore.Task
