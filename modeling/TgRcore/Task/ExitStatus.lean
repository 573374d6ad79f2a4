/-
  TgRcore.Task.ExitStatus — exit statuses reach the parent exactly once.

  What was said and heard is read off the calls of the run: `reported` are the exits whose
  parent was there, `received` what `wait` handed out.
  - `LogInv`: the lists of dead children hold what was reported and not received; a process
    has the parent it was made with until that one exits, and then process 0.
  - `exit_status_once`: over every run.
-/

import TgRcore.Task.Managers

namespace TgRcore.Task

open TgRcore.BlockProg

/-- Parent, process and exit code of every exit that had a parent to report to. -/
def reported (es : List Event) : List (ProcId × ProcId × Int) :=
  es.filterMap fun
    | .exit id code parent true => some (parent, id, code)
    | _ => none

/-- What `wait` returned, and to whom, apart from the marker. -/
def received (es : List Event) : List (ProcId × ProcId × Int) :=
  es.filterMap fun
    | .wait id _ (some d) => if d = running then none else some (id, d)
    | _ => none

def Exited (p : ProcId) (es : List Event) : Prop := ∃ code parent alive, Event.exit p code parent alive ∈ es

/-- `c` has exited with code `k`, `p` was told and has not heard yet. -/
def Unreaped (es : List Event) (p c : ProcId) (k : Int) : Prop := (p, c, k) ∈ reported es ∧ (p, c, k) ∉ received es

def LiveChild {M : Type} (w : World M) (p c : ProcId) : Prop := ∃ r, w.pm.relMap c = some r ∧ r.parent = p

theorem reported_snoc (es : List Event) (e : Event) : reported (es ++ [e]) = reported es ++ reported [e] :=
  List.filterMap_append

theorem received_snoc (es : List Event) (e : Event) : received (es ++ [e]) = received es ++ received [e] :=
  List.filterMap_append

theorem exited_snoc {p : ProcId} {es : List Event} {e : Event} : Exited p (es ++ [e]) ↔ Exited p es ∨ Exited p [e] := by
  simp only [Exited, List.mem_append, exists_or]

theorem exited_of_reported {es : List Event} {p c : ProcId} {k : Int} (h : (p, c, k) ∈ reported es) : Exited c es := by
  obtain ⟨e, he, hf⟩ := List.mem_filterMap.mp h
  split at hf
  · simp only [Option.some.injEq, Prod.mk.injEq] at hf
    obtain ⟨rfl, rfl, rfl⟩ := hf
    exact ⟨_, _, _, he⟩
  · cases hf

/-! ## The log and the links -/

structure LogInv (es : List Event) (used : List ProcId) (F : BTreeMap ProcId ProcRel) : Prop where
  gone : ∀ {p}, Exited p es → F p = none ∧ p ∈ used
  added : ∀ {c p}, Event.add c p ∈ es → c ∈ used
  reportedOnce : ((reported es).map fun d => d.2.1).Nodup
  receivedOnce : ((received es).map fun d => d.2.1).Nodup
  heard : ∀ d ∈ received es, d ∈ reported es
  pending : ∀ {p c k}, (p, c, k) ∈ reported es → (p, c, k) ∈ received es ∨ Exited p es ∨
    ∃ r, F p = some r ∧ (c, k) ∈ r.deadChildren
  dead : ∀ {p r c k}, F p = some r → (c, k) ∈ r.deadChildren → Unreaped es p c k
  parent : ∀ {c p r}, Event.add c p ∈ es → F c = some r → Exited p es ∧ r.parent = 0 ∨ ¬ Exited p es ∧ r.parent = p

theorem logInv_nil : LogInv [] [] BTreeMap.empty := by
  refine ⟨?_, by simp, List.nodup_nil, List.nodup_nil, by simp [received], by simp [reported], ?_, by simp⟩
  · intro p ⟨_, _, _, hm⟩
    cases hm
  · intro p r c k h
    cases h

section

variable {es : List Event} {used : List ProcId} {F F' : BTreeMap ProcId ProcRel} {e : Event} {id parent : ProcId}
  {code : Int} {r : ProcRel}

/-- A call that reports and hears nothing and changes no link. -/
theorem LogInv.quiet (h : LogInv es used F) (hrep : reported [e] = []) (hrec : received [e] = [])
    (hexit : ∀ p, ¬ Exited p [e]) (hadd : ∀ c p, e ≠ .add c p) : LogInv (es ++ [e]) used F := by
  have hex : ∀ p, Exited p (es ++ [e]) ↔ Exited p es := by
    intro p
    rw [exited_snoc]
    exact or_iff_left (hexit p)
  have hmem : ∀ {c p}, Event.add c p ∈ es ++ [e] → Event.add c p ∈ es := by
    intro c p hm
    rcases List.mem_append.mp hm with hm | hm
    · exact hm
    · exact absurd (List.mem_singleton.mp hm).symm (hadd c p)
  refine ⟨?_, fun hm => h.added (hmem hm), ?_, ?_, ?_, ?_, ?_, ?_⟩
  · intro p hp
    exact h.gone ((hex p).mp hp)
  · rw [reported_snoc, hrep, List.append_nil]
    exact h.reportedOnce
  · rw [received_snoc, hrec, List.append_nil]
    exact h.receivedOnce
  · rw [reported_snoc, received_snoc, hrep, hrec, List.append_nil, List.append_nil]
    exact h.heard
  · intro p c k
    rw [reported_snoc, received_snoc, hrep, hrec, List.append_nil, List.append_nil, hex]
    exact h.pending
  · intro p r c k hr hd
    unfold Unreaped
    rw [reported_snoc, received_snoc, hrep, hrec, List.append_nil, List.append_nil]
    exact h.dead hr hd
  · intro c p r hm hr
    rw [hex]
    exact h.parent (hmem hm) hr

theorem LogInv.add (h : LogInv es used F) (hf : FamInv used F) (hid : id ∉ used)
    (hp : parent = usizeMax ∨ (F parent).isSome = true) :
    LogInv (es ++ [.add id parent]) (id :: used) (joined F id parent) := by
  have hrep : reported [Event.add id parent] = [] := rfl
  have hrec : received [Event.add id parent] = [] := rfl
  have hex : ∀ p, Exited p (es ++ [.add id parent]) ↔ Exited p es := by
    intro p
    rw [exited_snoc]
    exact or_iff_left (by simp [Exited])
  have hlive : ¬ Exited parent es := by
    intro hx
    obtain ⟨hn, hu⟩ := h.gone hx
    rcases hp with rfl | hs
    · exact hf.real hu
    · rw [hn] at hs
      cases hs
  have hold : ∀ {q x}, joined F id parent q = some x → q ≠ id →
      ∃ y, F q = some y ∧ x.parent = y.parent ∧ x.deadChildren = y.deadChildren := by
    intro q x hx hq
    rcases joined_eq_some hx with ⟨e, -⟩ | ⟨-, y, hy, rfl⟩
    · exact absurd e hq
    · refine ⟨y, hy, ?_⟩
      split
      · exact ⟨rfl, rfl⟩
      · exact ⟨rfl, rfl⟩
  refine ⟨?_, ?_, ?_, ?_, ?_, ?_, ?_, ?_⟩
  · intro p hx
    obtain ⟨hn, hu⟩ := h.gone ((hex p).mp hx)
    refine ⟨?_, List.mem_cons_of_mem _ hu⟩
    cases hj : joined F id parent p with
    | none => rfl
    | some x =>
      obtain ⟨y, hy, -⟩ := hold hj fun e => hid (e ▸ hu)
      rw [hn] at hy
      cases hy
  · intro c p hm
    rcases List.mem_append.mp hm with hm | hm
    · exact List.mem_cons_of_mem _ (h.added hm)
    · cases List.mem_singleton.mp hm
      exact List.mem_cons_self
  · rw [reported_snoc, hrep, List.append_nil]
    exact h.reportedOnce
  · rw [received_snoc, hrec, List.append_nil]
    exact h.receivedOnce
  · rw [reported_snoc, received_snoc, hrep, hrec, List.append_nil, List.append_nil]
    exact h.heard
  · intro p c k
    rw [reported_snoc, received_snoc, hrep, hrec, List.append_nil, List.append_nil, hex]
    intro hm
    refine (h.pending hm).imp_right fun hd => hd.imp_right fun hex => ?_
    obtain ⟨y, hy, hmem⟩ := hex
    have hne : p ≠ id := fun e => hid (e ▸ hf.known hy)
    obtain ⟨y', hy', -, hdd⟩ := hold (joined_old hne hy) hne
    rw [hy, Option.some.injEq] at hy'
    exact ⟨_, joined_old hne hy, by rw [hdd, ← hy']; exact hmem⟩
  · intro p x c k hx hd
    unfold Unreaped
    rw [reported_snoc, received_snoc, hrep, hrec, List.append_nil, List.append_nil]
    by_cases hne : p = id
    · rw [hne, joined_new, Option.some.injEq] at hx
      rw [← hx] at hd
      cases hd
    · obtain ⟨y, hy, -, hdd⟩ := hold hx hne
      exact h.dead hy (hdd ▸ hd)
  · intro c p x hm hx
    rw [hex]
    rcases List.mem_append.mp hm with hm | hm
    · obtain ⟨y, hy, hpar, -⟩ := hold hx fun e => hid (e ▸ h.added hm)
      rw [hpar]
      exact h.parent hm hy
    · cases List.mem_singleton.mp hm
      rw [joined_new, Option.some.injEq] at hx
      rw [← hx]
      exact .inr ⟨hlive, rfl⟩

theorem LogInv.exit (h : LogInv es used F) (hf : FamInv used F) (hr : F id = some r) (hself : id ∉ r.children)
    (hzero : r.children ≠ [] → id ≠ 0 ∧ (F 0).isSome = true) :
    LogInv (es ++ [.exit id code r.parent (F r.parent).isSome]) used (departed F id code r) := by
  have hrec : received [Event.exit id code r.parent (F r.parent).isSome] = [] := rfl
  have hex : ∀ p, Exited p (es ++ [.exit id code r.parent (F r.parent).isSome]) ↔ Exited p es ∨ p = id := by
    intro p
    rw [exited_snoc]
    simp [Exited]
  have hrep : ∀ d, d ∈ reported [Event.exit id code r.parent (F r.parent).isSome] ↔
      (F r.parent).isSome = true ∧ d = (r.parent, id, code) := by
    intro d
    cases hs : (F r.parent).isSome with
    | true => simp [reported]
    | false => simp [reported]
  have hnew : ¬ Exited id es := by
    intro hx
    rw [(h.gone hx).1] at hr
    cases hr
  have hmem : ∀ d, d ∈ reported (es ++ [.exit id code r.parent (F r.parent).isSome]) ↔
      d ∈ reported es ∨ (F r.parent).isSome = true ∧ d = (r.parent, id, code) := by
    intro d
    rw [reported_snoc, List.mem_append, hrep]
  refine ⟨?_, ?_, ?_, ?_, ?_, ?_, ?_, ?_⟩
  · intro p hx
    rcases (hex p).mp hx with hx | rfl
    · obtain ⟨hn, hu⟩ := h.gone hx
      refine ⟨?_, hu⟩
      simp [departed, hn]
    · exact ⟨by simp [departed], hf.known hr⟩
  · intro c p hm
    rcases List.mem_append.mp hm with hm | hm
    · exact h.added hm
    · cases List.mem_singleton.mp hm
  · rw [reported_snoc, List.map_append, List.nodup_append]
    refine ⟨h.reportedOnce, ?_, ?_⟩
    · cases (F r.parent).isSome with
      | true => simp [reported]
      | false => simp [reported]
    · intro a ha b hb e
      obtain ⟨⟨p, c, k⟩, hd, rfl⟩ := List.mem_map.mp ha
      obtain ⟨d, hd', rfl⟩ := List.mem_map.mp hb
      obtain ⟨-, rfl⟩ := (hrep d).mp hd'
      have e : c = id := e
      exact hnew (e ▸ exited_of_reported hd)
  · rw [received_snoc, hrec, List.append_nil]
    exact h.receivedOnce
  · intro d hd
    rw [received_snoc, hrec, List.append_nil] at hd
    exact (hmem d).mpr (.inl (h.heard d hd))
  · intro p c k hm
    rw [received_snoc, hrec, List.append_nil, hex]
    rcases (hmem _).mp hm with hm | ⟨hs, hm⟩
    · rcases h.pending hm with hm | hm | ⟨y, hy, hd⟩
      · exact .inl hm
      · exact .inr (.inl (.inl hm))
      · by_cases hp : p = id
        · exact .inr (.inl (.inr hp))
        · refine .inr (.inr ⟨_, departed_some hp hy, ?_⟩)
          rw [hf.departed_dead hr hy]
          split
          · exact List.mem_append_left _ hd
          · exact hd
    · simp only [Prod.mk.injEq] at hm
      obtain ⟨rfl, rfl, rfl⟩ := hm
      obtain ⟨y, hy⟩ := Option.isSome_iff_exists.mp hs
      refine .inr (.inr ⟨_, departed_some (hf.parent_ne hr hself) hy, ?_⟩)
      rw [hf.departed_dead hr hy, if_pos rfl]
      exact List.mem_append_right _ (List.mem_singleton.mpr rfl)
  · intro p x c k hx hd
    unfold Unreaped
    rw [received_snoc, hrec, List.append_nil, hmem]
    obtain ⟨hp, y, hy, rfl⟩ := departed_eq_some hx
    rw [hf.departed_dead hr hy] at hd
    have hold : (c, k) ∈ y.deadChildren → ((p, c, k) ∈ reported es ∨
        (F r.parent).isSome = true ∧ (p, c, k) = (r.parent, id, code)) ∧ (p, c, k) ∉ received es := by
      intro hd
      obtain ⟨hin, hout⟩ := h.dead hy hd
      exact ⟨.inl hin, hout⟩
    split at hd
    · rename_i hpr
      rcases List.mem_append.mp hd with hd | hd
      · exact hold hd
      · cases List.mem_singleton.mp hd
        subst hpr
        refine ⟨.inr ⟨by rw [hy]; rfl, rfl⟩, ?_⟩
        intro hm
        exact hnew (exited_of_reported (h.heard _ hm))
    · exact hold hd
  · intro c p x hm hx
    have hm : Event.add c p ∈ es := by simpa using hm
    obtain ⟨hc, y, hy, rfl⟩ := departed_eq_some hx
    rw [hex, depart_parent]
    rcases h.parent hm hy with ⟨hp, hpar⟩ | ⟨hp, hpar⟩
    · refine .inl ⟨.inl hp, ?_⟩
      split
      · rfl
      · exact hpar
    · by_cases hpi : p = id
      · refine .inl ⟨.inr hpi, ?_⟩
        rw [if_pos ((hf.mem_children hr hy).mpr (hpar.trans hpi))]
      · refine .inr ⟨fun hx => hx.elim hp hpi, ?_⟩
        rw [if_neg fun hin => hpi (hpar.symm.trans ((hf.mem_children hr hy).mp hin)), hpar]

/-- A wait that hands out a dead child. -/
theorem LogInv.reap {p c : ProcId} {d : ProcId × Int} {rest : List (ProcId × Int)} (h : LogInv es used F)
    (hp : F p = some r) (hd : d ∈ r.deadChildren) (hne : d ≠ running)
    (hrest : ∀ x, x ∈ rest ↔ x ∈ r.deadChildren ∧ x ≠ d) :
    LogInv (es ++ [.wait p c (some d)]) used (F.insert p { r with deadChildren := rest }) := by
  have hrep : reported [Event.wait p c (some d)] = [] := rfl
  have hrec : received [Event.wait p c (some d)] = [(p, d)] := by
    simp [received, hne]
  have hex : ∀ q, Exited q (es ++ [.wait p c (some d)]) ↔ Exited q es := by
    intro q
    rw [exited_snoc]
    exact or_iff_left (by simp [Exited])
  obtain ⟨c', k'⟩ := d
  obtain ⟨hin, hout⟩ := h.dead hp hd
  refine ⟨?_, ?_, ?_, ?_, ?_, ?_, ?_, ?_⟩
  · intro q hx
    obtain ⟨hn, hu⟩ := h.gone ((hex q).mp hx)
    have hq : q ≠ p := by
      intro e
      rw [e, hp] at hn
      cases hn
    exact ⟨by rw [BTreeMap.insert_apply, if_neg hq, hn], hu⟩
  · intro q k hm
    exact h.added (by simpa using hm)
  · rw [reported_snoc, hrep, List.append_nil]
    exact h.reportedOnce
  · rw [received_snoc, hrec, List.map_append, List.nodup_append]
    refine ⟨h.receivedOnce, by simp, ?_⟩
    intro a ha b hb e
    obtain ⟨x, hx, rfl⟩ := List.mem_map.mp ha
    obtain ⟨y, hy, rfl⟩ := List.mem_map.mp hb
    rw [List.mem_singleton.mp hy] at e
    have hxd : x = (p, c', k') := List.inj_on_of_nodup_map h.reportedOnce (h.heard x hx) hin e
    exact hout (hxd ▸ hx)
  · intro x hx
    rw [reported_snoc, hrep, List.append_nil]
    rw [received_snoc, hrec, List.mem_append, List.mem_singleton] at hx
    rcases hx with hx | rfl
    · exact h.heard x hx
    · exact hin
  · intro q a k hm
    rw [reported_snoc, hrep, List.append_nil] at hm
    rw [received_snoc, hrec, hex, List.mem_append, List.mem_singleton]
    rcases h.pending hm with hm | hm | ⟨y, hy, hmem⟩
    · exact .inl (.inl hm)
    · exact .inr (.inl hm)
    · by_cases hq : q = p
      · subst hq
        rw [hp, Option.some.injEq] at hy
        by_cases hak : (a, k) = (c', k')
        · exact .inl (.inr (by rw [hak]))
        · refine .inr (.inr ⟨{ r with deadChildren := rest }, by rw [BTreeMap.insert_apply, if_pos rfl], ?_⟩)
          exact (hrest _).mpr ⟨hy ▸ hmem, hak⟩
      · exact .inr (.inr ⟨y, by rw [BTreeMap.insert_apply, if_neg hq, hy], hmem⟩)
  · intro q x a k hx hmem
    unfold Unreaped
    rw [reported_snoc, hrep, List.append_nil, received_snoc, hrec, List.mem_append, List.mem_singleton]
    rw [BTreeMap.insert_apply] at hx
    split at hx
    · rename_i hq
      subst hq
      cases hx
      obtain ⟨hm, hne'⟩ := (hrest _).mp hmem
      obtain ⟨hin', hout'⟩ := h.dead hp hm
      refine ⟨hin', fun hor => hor.elim hout' fun e => hne' ?_⟩
      simpa using e
    · rename_i hq
      obtain ⟨hin', hout'⟩ := h.dead hx hmem
      refine ⟨hin', fun hor => hor.elim hout' fun e => hq ?_⟩
      simp only [Prod.mk.injEq] at e
      exact e.1
  · intro q k x hm hx
    have hm : Event.add q k ∈ es := by simpa using hm
    rw [hex]
    rw [BTreeMap.insert_apply] at hx
    split at hx
    · rename_i hq
      cases hx
      have hr : F q = some r := hq ▸ hp
      exact h.parent (r := r) hm hr
    · exact h.parent hm hx

end

/-- What `wait(c)` of the current process finds. -/
theorem PInv.wait_spec {P M : Type} [Manage P M] {w : World M} {p : ProcId} {r : ProcRel} (h : PInv w)
    (hc : w.pm.current = some p) (hr : w.pm.relMap p = some r) (c : ProcId) :
    (∃ d ∈ r.deadChildren, Asked c d.1 ∧ d ≠ running ∧ ∃ rest,
      w.pm.wait c = .ok (some d, { w.pm with relMap := w.pm.relMap.insert p { r with deadChildren := rest } }) ∧
      ∀ x, x ∈ rest ↔ x ∈ r.deadChildren ∧ x ≠ d) ∨
    (∀ d ∈ r.deadChildren, ¬ Asked c d.1) ∧
      ((∃ q ∈ r.children, Asked c q) ∧ w.pm.wait c = .ok (some running, w.pm) ∨
        (∀ q ∈ r.children, ¬ Asked c q) ∧ w.pm.wait c = .ok (none, w.pm)) := by
  have hsame : w.pm.relMap.insert p r = w.pm.relMap := by
    funext q
    rw [BTreeMap.insert_apply]
    split
    · rename_i e
      rw [e, hr]
    · rfl
  have hw := wait_eq_ok (c := c) hc hr
  rcases r.wait_spec c (h.fam.once hr) with ⟨d, hd, ha, rest, he, -, hrest⟩ | ⟨hno, ⟨hq, he⟩ | ⟨hq, he⟩⟩
  · rw [he] at hw
    refine .inl ⟨d, hd, ha, ?_, rest, hw, hrest⟩
    intro e
    have hlt := h.small _ (h.fam.gone hr hd).2
    rw [e] at hlt
    exact absurd hlt (by decide)
  · rw [he, hsame] at hw
    exact .inr ⟨hno, .inl ⟨hq, hw⟩⟩
  · rw [he, hsame] at hw
    exact .inr ⟨hno, .inr ⟨hq, hw⟩⟩

section

variable {P M : Type} [Manage P M] [Schedule M] {es : List Event} {w w' : World M} {e : Event}

theorem LogInv.step (hi : PInv w) (h : LogInv es w.used w.pm.relMap) (hs : Step w e w') :
    LogInv (es ++ [e]) w'.used w'.pm.relMap := by
  cases hs with
  | add hid hlt hadd =>
    obtain ⟨hp, manager, hm, rfl⟩ := add_ok hi.max_none hadd
    exact h.add hi.fam hid hp
  | findNext hf =>
    obtain ⟨next, manager, hfetch, hret⟩ := findNext_ok hf
    have hq := h.quiet (e := .findNext w.pm.current) rfl rfl (by simp [Exited]) (by simp)
    rcases hret with ⟨-, rfl, -⟩ | ⟨id, task, -, -, -, rfl⟩
    · exact hq
    · exact hq
  | suspend hsus =>
    obtain ⟨id, manager, hc, hm, rfl⟩ := suspend_ok hsus
    exact h.quiet rfl rfl (by simp [Exited]) (by simp)
  | exit hc hr hexit =>
    obtain ⟨relMap, hl, rfl⟩ := (exited_eq_ok hc).mp hexit
    obtain ⟨rfl, hself, hzero⟩ := leave_departed hr hl
    exact h.exit hi.fam hr hself hzero
  | @wait id c ret pm hc hw =>
    obtain ⟨r, hr⟩ := Option.isSome_iff_exists.mp (hi.current hc)
    rcases hi.wait_spec hc hr c with ⟨d, hd, -, hne, rest, he, hrest⟩ | ⟨-, ⟨-, he⟩ | ⟨-, he⟩⟩
    · rw [he] at hw
      cases hw
      exact h.reap hr hd hne hrest
    · rw [he] at hw
      cases hw
      exact h.quiet rfl (by simp [received]) (by simp [Exited]) (by simp)
    · rw [he] at hw
      cases hw
      exact h.quiet rfl (by simp [received]) (by simp [Exited]) (by simp)

variable [LawfulManager M]

theorem logInv_run {manager : M} (hempty : ∀ q, Manage.getMut manager q = none)
    (h : Exec Step (World.new manager) es w) : PInv w ∧ LogInv es w.used w.pm.relMap :=
  h.inv (P := fun es w => PInv w ∧ LogInv es w.used w.pm.relMap) ⟨pInv_new hempty, logInv_nil⟩
    fun h hs => ⟨h.1.step hs, LogInv.step h.1 h.2 hs⟩

/-- Exit statuses over every run: each is handed out at most once, to the parent at the time of
    the exit, and stays until that parent waits for it or exits; what `wait` of the current
    process returns is what has been reported to it and not handed out, the marker or nothing;
    an orphan reports to process 0. -/
theorem exit_status_once {manager : M} (hempty : ∀ q, Manage.getMut manager q = none)
    (h : Exec Step (World.new manager) es w) :
    ((received es).map fun d => d.2.1).Nodup ∧ (∀ d ∈ received es, d ∈ reported es) ∧
    (∀ p c k, (p, c, k) ∈ reported es → (p, c, k) ∈ received es ∨ Exited p es ∨ Unreaped es p c k ∧
      ∃ r, w.pm.relMap p = some r ∧ (c, k) ∈ r.deadChildren) ∧
    (∀ p, w.pm.current = some p →
      (∀ c k, c ≠ usizeMax → Unreaped es p c k → ∃ pm, w.pm.wait c = .ok (some (c, k), pm)) ∧
      (∀ c, c ≠ usizeMax → ((∃ pm, w.pm.wait c = .ok (some running, pm)) ↔ LiveChild w p c)) ∧
      (∀ c, c ≠ usizeMax →
        ((∃ pm, w.pm.wait c = .ok (none, pm)) ↔ ¬ LiveChild w p c ∧ ∀ k, ¬ Unreaped es p c k)) ∧
      ((∃ pm, w.pm.wait usizeMax = .ok (none, pm)) ↔ ∀ c, ¬ LiveChild w p c ∧ ∀ k, ¬ Unreaped es p c k)) ∧
    ∀ c k parent alive w', Step w (.exit c k parent alive) w' → ∀ p, Event.add c p ∈ es → Exited p es →
      parent = 0 ∧ (0, c, k) ∈ reported (es ++ [.exit c k parent alive]) := by
  obtain ⟨hi, hl⟩ := logInv_run hempty h
  have hunreaped : ∀ {p r}, w.pm.relMap p = some r → ∀ c k, Unreaped es p c k ↔ (c, k) ∈ r.deadChildren := by
    intro p r hr c k
    refine ⟨fun hu => ?_, hl.dead hr⟩
    rcases hl.pending hu.1 with hm | hx | ⟨y, hy, hm⟩
    · exact absurd hm hu.2
    · rw [(hl.gone hx).1] at hr
      cases hr
    · rw [hr, Option.some.injEq] at hy
      exact hy ▸ hm
  refine ⟨hl.receivedOnce, hl.heard, ?_, ?_, ?_⟩
  · intro p c k hm
    rcases hl.pending hm with hm | hx | ⟨r, hr, hd⟩
    · exact .inl hm
    · exact .inr (.inl hx)
    · exact .inr (.inr ⟨hl.dead hr hd, r, hr, hd⟩)
  · intro p hc
    obtain ⟨r, hr⟩ := Option.isSome_iff_exists.mp (hi.current hc)
    have hspec := hi.wait_spec hc hr
    have hlive : ∀ q, LiveChild w p q ↔ q ∈ r.children := fun q => (hi.fam.child hr q).symm
    have hnone : ∀ c, (∃ pm, w.pm.wait c = .ok (none, pm)) ↔
        ∀ q, Asked c q → ¬ LiveChild w p q ∧ ∀ k, ¬ Unreaped es p q k := by
      intro c
      rcases hspec c with ⟨d, hd, ha, -, rest, he, -⟩ | ⟨hno, ⟨⟨q, hq, ha⟩, he⟩ | ⟨hq, he⟩⟩
      · refine iff_of_false (by simp [he]) fun hall => ?_
        exact (hall d.1 ha).2 d.2 ((hunreaped hr _ _).mpr hd)
      · refine iff_of_false (by simp [he]) fun hall => ?_
        exact (hall q ha).1 ((hlive q).mpr hq)
      · refine iff_of_true ⟨_, he⟩ fun q ha => ⟨fun hm => hq q ((hlive q).mp hm) ha, fun k hu => ?_⟩
        exact hno _ ((hunreaped hr _ _).mp hu) ha
    refine ⟨?_, ?_, ?_, ?_⟩
    · intro c k hcm hu
      have hm := (hunreaped hr c k).mp hu
      rcases hspec c with ⟨d, hd, ha, -, rest, he, -⟩ | ⟨hno, -⟩
      · have hdc : d.1 = c := ha.resolve_left hcm
        have hdk : d = (c, k) := List.inj_on_of_nodup_map (hi.fam.once hr) hd hm hdc
        exact ⟨_, hdk ▸ he⟩
      · exact absurd (.inr rfl) (hno _ hm)
    · intro c hcm
      rcases hspec c with ⟨d, hd, ha, hne, rest, he, -⟩ | ⟨hno, ⟨⟨q, hq, ha⟩, he⟩ | ⟨hq, he⟩⟩
      · refine iff_of_false (by simp [he, hne]) fun hlives => ?_
        obtain ⟨x, hx, -⟩ := hlives
        have hn := (hi.fam.gone hr hd).1
        rw [ha.resolve_left hcm, hx] at hn
        cases hn
      · have hqc : q = c := ha.resolve_left hcm
        exact iff_of_true ⟨_, he⟩ ((hlive c).mpr (hqc ▸ hq))
      · refine iff_of_false (by simp [he]) fun hm => ?_
        exact hq c ((hlive c).mp hm) (.inr rfl)
    · intro c hcm
      rw [hnone]
      constructor
      · intro hall
        exact hall c (.inr rfl)
      · intro hall q ha
        rw [ha.resolve_left hcm]
        exact hall
    · rw [hnone]
      exact ⟨fun hall c => hall c (.inl rfl), fun hall c _ => hall c⟩
  · intro c k parent alive w' hs p hadd hx
    cases hs with
    | @exit _ r _ _ hc hr hexit =>
      have hpar : r.parent = 0 := by
        rcases hl.parent hadd hr with ⟨-, hp⟩ | ⟨hn, -⟩
        · exact hp
        · exact absurd hx hn
      refine ⟨hpar, ?_⟩
      have halive : (w.pm.relMap r.parent).isSome = true := by
        rcases hi.fam.parent hr with hm | hm
        · rw [hpar] at hm
          exact absurd hm (by decide)
        · exact hm
      rw [reported_snoc, halive, hpar]
      exact List.mem_append_right _ (List.mem_singleton.mpr rfl)

end

/-- Process 1, a child of process 0, exits with code 7; process 0 waits for it. -/
theorem exit_status_once_seven : ∃ w, Exec Step (World.new (FifoManager.new : FifoManager Unit))
    [.add 0 usizeMax, .findNext none, .add 1 0, .suspend, .findNext none, .exit 1 7 0 true, .findNext none] w ∧ ∃ pm, w.pm.wait 1 = .ok (some (1, 7), pm) := by
  have h1 : Exec Step (World.new (FifoManager.new : FifoManager Unit)) [.add 0 usizeMax] _ :=
    .single (@Step.add _ _ _ _ _ 0 usizeMax () _ (by decide) (by decide) rfl)
  have h2 : Exec Step _ [.add 0 usizeMax, .findNext none] _ := h1.snoc (.findNext rfl)
  have h3 : Exec Step _ [.add 0 usizeMax, .findNext none, .add 1 0] _ :=
    h2.snoc (@Step.add _ _ _ _ _ 1 0 () _ (by decide) (by decide) rfl)
  have h4 := h3.snoc (.suspend rfl)
  have h5 := h4.snoc (.findNext rfl)
  have h6 := h5.snoc (@Step.exit _ _ _ _ _ 1 ⟨0, [], []⟩ 7 _ rfl rfl rfl)
  have h7 : Exec Step _ [.add 0 usizeMax, .findNext none, .add 1 0, .suspend, .findNext none, .exit 1 7 0 true,
      .findNext none] _ := h6.snoc (.findNext rfl)
  obtain ⟨-, -, -, hwait, -⟩ := exit_status_once (fun _ => rfl) h7
  exact ⟨_, h7, (hwait 0 rfl).1 1 7 (by decide) ⟨by decide, by decide⟩⟩

end TgRcore.Task
