/-
  TgRcore.Task.Family — the parent and child links of the processes (`proc_rel.rs`,
  `proc_thread_rel.rs`) and what the managers do with them.

  `leave` is the part of `make_current_exited` and of `del_proc` that works on `rel_map`:
  the process leaves its parent and its children go to process 0.
  - `leave_eq_ok`: when it returns, and the links after it.
  - `FamInv`: the links agree with each other; `add`, `leave` and `wait` keep it.
-/

import Mathlib.Data.List.Nodup
import TgRcore.Lib.BTreeMap

namespace TgRcore.Task

open TgRcore.BlockProg

abbrev ProcId := Nat

/-- `usize::MAX`: no parent for `add`, any child for `wait`. -/
abbrev usizeMax : Nat := 2 ^ 64 - 1

/-- What `wait` returns for a child that still runs: `(-2, -1)`. -/
abbrev running : ProcId × Int := (2 ^ 64 - 2, -1)

structure ProcRel where
  parent : ProcId
  children : List ProcId
  deadChildren : List (ProcId × Int)
  deriving DecidableEq, Repr

namespace ProcRel

def new (parentPid : ProcId) : ProcRel := ⟨parentPid, [], []⟩

def addChild (r : ProcRel) (childPid : ProcId) : ProcRel := { r with children := r.children ++ [childPid] }

def delChild (r : ProcRel) (childPid : ProcId) (exitCode : Int) : ProcRel :=
  if childPid ∈ r.children then
    { r with
      children := r.children.erase childPid
      deadChildren := r.deadChildren ++ [(childPid, exitCode)] }
  else r

def waitAnyChild (r : ProcRel) : Option (ProcId × Int) × ProcRel :=
  if r.deadChildren.isEmpty then
    if r.children.isEmpty then (none, r) else (some running, r)
  else (r.deadChildren.getLast?, { r with deadChildren := r.deadChildren.dropLast })

def waitChild (r : ProcRel) (childPid : ProcId) : Option (ProcId × Int) × ProcRel :=
  match r.deadChildren.find? fun d => d.1 == childPid with
  | some d => (some d, { r with deadChildren := r.deadChildren.eraseP fun d => d.1 == childPid })
  | none => if childPid ∈ r.children then (some running, r) else (none, r)

/-- `wait` of the managers: any child for `usize::MAX`. -/
def wait (r : ProcRel) (childPid : ProcId) : Option (ProcId × Int) × ProcRel :=
  if childPid = usizeMax then r.waitAnyChild else r.waitChild childPid

end ProcRel

/-! ## Records with these links -/

/-- `ProcRel` itself, and `ProcThreadRel`, which has the same fields and methods. -/
class HasRel (R : Type) where
  rel : R → ProcRel
  onRel : (ProcRel → ProcRel) → R → R
  rel_onRel : ∀ f r, rel (onRel f r) = f (rel r)
  onRel_onRel : ∀ f g r, onRel f (onRel g r) = onRel (fun x => f (g x)) r
  onRel_id : ∀ r, onRel (fun x => x) r = r

export HasRel (rel onRel)

instance : HasRel ProcRel := ⟨fun r => r, fun f => f, fun _ _ => rfl, fun _ _ _ => rfl, fun _ => rfl⟩

section

variable {R : Type} [HasRel R]

/-- The links alone. -/
def family (m : BTreeMap ProcId R) : BTreeMap ProcId ProcRel := fun p => (m p).map rel

/-- The children of a process that exits, one after the other, become children of process 0. -/
def reparent (m : BTreeMap ProcId R) : List ProcId → Except Halt (BTreeMap ProcId R)
  | [] => .ok m
  | i :: children => do
    let m ← m.modify i (onRel fun r => { r with parent := 0 })
    let m ← m.modify 0 (onRel fun r => r.addChild i)
    reparent m children

/-- Process `id` leaves `rel_map`. -/
def leave (m : BTreeMap ProcId R) (id : ProcId) (exitCode : Int) : Except Halt (BTreeMap ProcId R) :=
  match m id with
  | none => .error .panic
  | some r =>
    let m := m.remove id
    let m := m.adjust (rel r).parent (onRel fun r => r.delChild id exitCode)
    reparent m (rel r).children

/-! ## What `leave` does -/

/-- The links of process `q` after `reparent`. -/
def adopt (children : List ProcId) (q : ProcId) (r : ProcRel) : ProcRel :=
  { r with
    parent := if q ∈ children then 0 else r.parent
    children := if q = 0 then r.children ++ children else r.children }

theorem adopt_nil (q : ProcId) : adopt [] q = fun r => r := by
  funext r
  simp [adopt]

theorem adopt_cons (i : ProcId) (cs : List ProcId) (q : ProcId) (r : ProcRel) : adopt (i :: cs) q r =
    adopt cs q (if q = 0 then (if q = i then { r with parent := 0 } else r).addChild i
      else if q = i then { r with parent := 0 } else r) := by
  by_cases h0 : q = 0
  · subst h0
    by_cases hi : 0 = i
    · simp [adopt, ProcRel.addChild, ← hi]
    · simp [adopt, ProcRel.addChild, hi]
  · by_cases hi : q = i
    · subst hi
      simp [adopt, h0]
    · simp [adopt, h0, hi]

@[simp] theorem map_onRel_id (o : Option R) : o.map (onRel fun r => r) = o := by
  cases o with
  | none => rfl
  | some r => rw [Option.map_some, HasRel.onRel_id]

@[simp] theorem map_onRel_map (f g : ProcRel → ProcRel) (o : Option R) :
    (o.map (onRel g)).map (onRel f) = o.map (onRel fun r => f (g r)) := by
  cases o with
  | none => rfl
  | some r => rw [Option.map_some, Option.map_some, Option.map_some, HasRel.onRel_onRel]

theorem adjust_onRel (m : BTreeMap ProcId R) (k q : ProcId) (f : ProcRel → ProcRel) :
    m.adjust k (onRel f) q = (m q).map (onRel fun r => if q = k then f r else r) := by
  rw [BTreeMap.adjust_apply]
  split
  · rfl
  · rw [map_onRel_id]

theorem reparent_eq_ok {cs : List ProcId} {m m' : BTreeMap ProcId R} : reparent m cs = .ok m' ↔
    (∀ i ∈ cs, (m i).isSome = true) ∧ (cs ≠ [] → (m 0).isSome = true) ∧
      m' = fun q => (m q).map (onRel (adopt cs q)) := by
  induction cs generalizing m with
  | nil =>
    simp only [reparent, adopt_nil, map_onRel_id, Except.ok.injEq]
    constructor
    · intro h
      exact ⟨by simp, by simp, h.symm⟩
    · intro h
      exact h.2.2.symm
  | cons i cs ih =>
    have hrep : reparent m (i :: cs) = .ok m' ↔ (m i).isSome = true ∧ (m 0).isSome = true ∧
        reparent ((m.adjust i (onRel fun r => { r with parent := 0 })).adjust 0 (onRel fun r => r.addChild i)) cs =
          .ok m' := by
      simp only [reparent, bind_eq_ok, BTreeMap.modify_eq_ok]
      constructor
      · rintro ⟨_, ⟨hi, rfl⟩, _, ⟨h0, rfl⟩, hr⟩
        rw [BTreeMap.isSome_adjust] at h0
        exact ⟨hi, h0, hr⟩
      · rintro ⟨hi, h0, hr⟩
        exact ⟨_, ⟨hi, rfl⟩, _, ⟨by rwa [BTreeMap.isSome_adjust], rfl⟩, hr⟩
    have hone : ∀ q, (((m.adjust i (onRel fun r => { r with parent := 0 })).adjust 0
        (onRel fun r => r.addChild i)) q).map (onRel (adopt cs q)) = (m q).map (onRel (adopt (i :: cs) q)) := by
      intro q
      rw [adjust_onRel, adjust_onRel, map_onRel_map, map_onRel_map]
      congr 2
      funext r
      exact (adopt_cons i cs q r).symm
    rw [hrep, ih]
    simp only [BTreeMap.isSome_adjust, hone, List.forall_mem_cons]
    constructor
    · rintro ⟨hi, h0, hcs, _, he⟩
      exact ⟨⟨hi, hcs⟩, fun _ => h0, he⟩
    · rintro ⟨⟨hi, hcs⟩, h0, he⟩
      exact ⟨hi, h0 (by simp), hcs, fun _ => h0 (by simp), he⟩

/-- The links of process `q` after process `id` with links `r` has left. -/
def depart (id : ProcId) (exitCode : Int) (r : ProcRel) (q : ProcId) (rq : ProcRel) : ProcRel :=
  adopt r.children q (if q = r.parent then rq.delChild id exitCode else rq)

/-- `leave` returns unless the process has a child that is not there (its own child, when it is
    process 0) or has a child while process 0 is not there. -/
theorem leave_eq_ok {m m' : BTreeMap ProcId R} {id : ProcId} {code : Int} {r : R} (hr : m id = some r) :
    leave m id code = .ok m' ↔ (∀ i ∈ (rel r).children, i ≠ id ∧ (m i).isSome = true) ∧
      ((rel r).children ≠ [] → id ≠ 0 ∧ (m 0).isSome = true) ∧
      m' = fun q => if q = id then none else (m q).map (onRel (depart id code (rel r) q)) := by
  have hsome : ∀ q, (((m.remove id).adjust (rel r).parent (onRel fun r => r.delChild id code)) q).isSome = true ↔
      q ≠ id ∧ (m q).isSome = true := by
    intro q
    rw [BTreeMap.isSome_adjust, BTreeMap.remove_apply]
    split
    · rename_i h
      simp [h]
    · rename_i h
      simp [h]
  have hmap : (fun q => (((m.remove id).adjust (rel r).parent (onRel fun r => r.delChild id code)) q).map
      (onRel (adopt (rel r).children q))) =
      fun q => if q = id then none else (m q).map (onRel (depart id code (rel r) q)) := by
    funext q
    rw [adjust_onRel, map_onRel_map, BTreeMap.remove_apply]
    by_cases hq : q = id
    · rw [if_pos hq, if_pos hq]
      rfl
    · rw [if_neg hq, if_neg hq]
      rfl
  have hl : leave m id code =
      reparent ((m.remove id).adjust (rel r).parent (onRel fun r => r.delChild id code)) (rel r).children := by
    simp only [leave, hr]
  rw [hl, reparent_eq_ok, hmap]
  simp only [hsome, ne_comm (a := (0 : ProcId))]

end

/-! ## The links agree -/

/-- `used` has every process id there ever was. -/
structure FamInv (used : List ProcId) (F : BTreeMap ProcId ProcRel) : Prop where
  known : ∀ {p r}, F p = some r → p ∈ used
  real : usizeMax ∉ used
  child : ∀ {p r}, F p = some r → ∀ q, q ∈ r.children ↔ ∃ rq, F q = some rq ∧ rq.parent = p
  nodup : ∀ {p r}, F p = some r → r.children.Nodup
  parent : ∀ {p r}, F p = some r → r.parent = usizeMax ∨ (F r.parent).isSome = true
  self : ∀ {p r}, F p = some r → r.parent = p → p = 0
  gone : ∀ {p r d}, F p = some r → d ∈ r.deadChildren → F d.1 = none ∧ d.1 ∈ used
  once : ∀ {p r}, F p = some r → (r.deadChildren.map Prod.fst).Nodup
  one : ∀ {p q r s d e}, F p = some r → F q = some s → d ∈ r.deadChildren → e ∈ s.deadChildren → d.1 = e.1 → p = q

theorem famInv_empty : FamInv [] BTreeMap.empty := by
  refine ⟨?_, by simp, ?_, ?_, ?_, ?_, ?_, ?_, ?_⟩
  all_goals
    intros
    contradiction

section

variable {used : List ProcId} {F : BTreeMap ProcId ProcRel} {id parent : ProcId} {code : Int} {r : ProcRel}

/-- The links after `add`. -/
def joined (F : BTreeMap ProcId ProcRel) (id parent : ProcId) : BTreeMap ProcId ProcRel :=
  (F.adjust parent fun r => r.addChild id).insert id (.new parent)

theorem joined_eq_some {q : ProcId} {rq : ProcRel} (h : joined F id parent q = some rq) :
    q = id ∧ rq = .new parent ∨
      q ≠ id ∧ ∃ r, F q = some r ∧ rq = if q = parent then r.addChild id else r := by
  simp only [joined, BTreeMap.insert_apply, BTreeMap.adjust_apply] at h
  by_cases hq : q = id
  · rw [if_pos hq, Option.some.injEq] at h
    exact .inl ⟨hq, h.symm⟩
  · rw [if_neg hq] at h
    right
    split at h
    · rename_i hp
      obtain ⟨r, hr, rfl⟩ := Option.map_eq_some_iff.mp h
      exact ⟨hq, r, hr, by rw [if_pos hp]⟩
    · rename_i hp
      exact ⟨hq, rq, h, by rw [if_neg hp]⟩

theorem joined_new : joined F id parent id = some (.new parent) := by
  simp [joined]

theorem joined_old {q : ProcId} {rq : ProcRel} (hq : q ≠ id) (h : F q = some rq) :
    joined F id parent q = some (if q = parent then rq.addChild id else rq) := by
  simp only [joined, BTreeMap.insert_apply, BTreeMap.adjust_apply, if_neg hq, h]
  split
  · rfl
  · rfl

theorem FamInv.add (h : FamInv used F) (hid : id ∉ used) (hmax : id ≠ usizeMax)
    (hp : parent = usizeMax ∨ (F parent).isSome = true) : FamInv (id :: used) (joined F id parent) := by
  have hnew : F id = none := by
    by_contra hne
    obtain ⟨r, hr⟩ := Option.ne_none_iff_exists'.mp hne
    exact hid (h.known hr)
  have hpid : parent ≠ id := by
    intro e
    rcases hp with hp | hp
    · exact hmax (e ▸ hp)
    · rw [e, hnew] at hp
      cases hp
  have hkeep : ∀ {q : ProcId} {x : ProcRel},
      (if q = parent then x.addChild id else x).parent = x.parent ∧
        (if q = parent then x.addChild id else x).deadChildren = x.deadChildren := by
    intro q x
    split
    · exact ⟨rfl, rfl⟩
    · exact ⟨rfl, rfl⟩
  have hdead : ∀ {q x d}, joined F id parent q = some x → d ∈ x.deadChildren →
      ∃ y, F q = some y ∧ d ∈ y.deadChildren := by
    intro q x d hx hd
    rcases joined_eq_some hx with ⟨rfl, rfl⟩ | ⟨-, y, hy, rfl⟩
    · cases hd
    · rw [hkeep.2] at hd
      exact ⟨y, hy, hd⟩
  refine ⟨?_, ?_, ?_, ?_, ?_, ?_, ?_, ?_, ?_⟩
  · intro q x hx
    rcases joined_eq_some hx with ⟨rfl, -⟩ | ⟨-, y, hy, -⟩
    · exact List.mem_cons_self
    · exact List.mem_cons_of_mem _ (h.known hy)
  · intro hm
    rcases List.mem_cons.mp hm with hm | hm
    · exact hmax hm.symm
    · exact h.real hm
  · intro p x hx q
    rcases joined_eq_some hx with ⟨rfl, rfl⟩ | ⟨hpi, y, hy, rfl⟩
    · constructor
      · intro hq
        cases hq
      · rintro ⟨z, hz, hzp⟩
        rcases joined_eq_some hz with ⟨-, rfl⟩ | ⟨-, u, hu, rfl⟩
        · exact absurd hzp hpid
        · rw [hkeep.1] at hzp
          rcases h.parent hu with hm | hm
          · exact absurd (hzp ▸ hm) hmax
          · rw [hzp, hnew] at hm
            cases hm
    · have hmem : q ∈ (if p = parent then y.addChild id else y).children ↔
          q ∈ y.children ∨ p = parent ∧ q = id := by
        split
        · rename_i e
          simp [ProcRel.addChild, e]
        · rename_i e
          simp [e]
      rw [hmem, h.child hy]
      constructor
      · intro hq
        rcases hq with ⟨z, hz, hzp⟩ | ⟨rfl, rfl⟩
        · have hqi : q ≠ id := by
            intro e
            rw [e, hnew] at hz
            cases hz
          exact ⟨_, joined_old hqi hz, by rw [hkeep.1, hzp]⟩
        · exact ⟨_, joined_new, rfl⟩
      · rintro ⟨z, hz, hzp⟩
        rcases joined_eq_some hz with ⟨rfl, rfl⟩ | ⟨-, u, hu, rfl⟩
        · exact .inr ⟨hzp.symm, rfl⟩
        · rw [hkeep.1] at hzp
          exact .inl ⟨u, hu, hzp⟩
  · intro p x hx
    rcases joined_eq_some hx with ⟨rfl, rfl⟩ | ⟨hpi, y, hy, rfl⟩
    · exact List.nodup_nil
    · split
      · refine List.nodup_append.mpr ⟨h.nodup hy, List.nodup_singleton id, ?_⟩
        intro a ha b hb e
        rw [List.mem_singleton.mp hb] at e
        obtain ⟨z, hz, -⟩ := (h.child hy a).mp ha
        rw [e, hnew] at hz
        cases hz
      · exact h.nodup hy
  · intro p x hx
    rcases joined_eq_some hx with ⟨rfl, rfl⟩ | ⟨hpi, y, hy, rfl⟩
    · exact hp.imp_right fun hm => by
        obtain ⟨y, hy⟩ := Option.isSome_iff_exists.mp hm
        rw [show (ProcRel.new parent).parent = parent from rfl, joined_old hpid hy]
        rfl
    · rw [hkeep.1]
      exact (h.parent hy).imp_right fun hm => by
        obtain ⟨z, hz⟩ := Option.isSome_iff_exists.mp hm
        have hne : y.parent ≠ id := by
          intro e
          rw [e, hnew] at hz
          cases hz
        rw [joined_old hne hz]
        rfl
  · intro p x hx hself
    rcases joined_eq_some hx with ⟨rfl, rfl⟩ | ⟨hpi, y, hy, rfl⟩
    · exact absurd hself hpid
    · rw [hkeep.1] at hself
      exact h.self hy hself
  · intro p x d hx hd
    obtain ⟨y, hy, hd⟩ := hdead hx hd
    obtain ⟨hnone, hused⟩ := h.gone hy hd
    have hne : d.1 ≠ id := fun e => hid (e ▸ hused)
    refine ⟨?_, List.mem_cons_of_mem _ hused⟩
    cases hj : joined F id parent d.1 with
    | none => rfl
    | some z =>
      rcases joined_eq_some hj with ⟨e, -⟩ | ⟨-, u, hu, -⟩
      · exact absurd e hne
      · rw [hnone] at hu
        cases hu
  · intro p x hx
    rcases joined_eq_some hx with ⟨rfl, rfl⟩ | ⟨hpi, y, hy, rfl⟩
    · exact List.nodup_nil
    · rw [hkeep.2]
      exact h.once hy
  · intro p q x y d e hx hy hd he hde
    obtain ⟨x', hx', hd'⟩ := hdead hx hd
    obtain ⟨y', hy', he'⟩ := hdead hy he
    exact h.one hx' hy' hd' he' hde

/-- The links after process `id`, whose links were `r`, has left. -/
def departed (F : BTreeMap ProcId ProcRel) (id : ProcId) (code : Int) (r : ProcRel) : BTreeMap ProcId ProcRel :=
  fun q => if q = id then none else (F q).map (depart id code r q)

theorem departed_eq_some {q : ProcId} {rq : ProcRel} (h : departed F id code r q = some rq) :
    q ≠ id ∧ ∃ x, F q = some x ∧ rq = depart id code r q x := by
  simp only [departed] at h
  split at h
  · cases h
  · rename_i hq
    obtain ⟨x, hx, rfl⟩ := Option.map_eq_some_iff.mp h
    exact ⟨hq, x, hx, rfl⟩

theorem departed_some {q : ProcId} {x : ProcRel} (hq : q ≠ id) (h : F q = some x) :
    departed F id code r q = some (depart id code r q x) := by
  simp only [departed, if_neg hq, h, Option.map_some]

theorem depart_parent {q : ProcId} {x : ProcRel} :
    (depart id code r q x).parent = if q ∈ r.children then 0 else x.parent := by
  simp only [depart, adopt, ProcRel.delChild]
  split
  · rfl
  · split
    · split
      · rfl
      · rfl
    · rfl

theorem depart_children {q : ProcId} {x : ProcRel} : (depart id code r q x).children =
    (if q = r.parent then x.children.erase id else x.children) ++ if q = 0 then r.children else [] := by
  have hdel : (if q = r.parent then x.delChild id code else x).children =
      if q = r.parent then x.children.erase id else x.children := by
    split
    · unfold ProcRel.delChild
      split
      · rfl
      · rename_i hm
        exact (List.erase_of_not_mem hm).symm
    · rfl
  simp only [depart, adopt, hdel]
  split
  · rfl
  · rw [List.append_nil]

theorem depart_dead {q : ProcId} {x : ProcRel} (hc : q = r.parent → id ∈ x.children) :
    (depart id code r q x).deadChildren =
      if q = r.parent then x.deadChildren ++ [(id, code)] else x.deadChildren := by
  simp only [depart, adopt]
  split
  · rename_i hq
    rw [ProcRel.delChild, if_pos (hc hq)]
  · rfl

/-- The children of `id` are the processes with `id` as parent. -/
theorem FamInv.mem_children (h : FamInv used F) (hr : F id = some r) {q : ProcId} {x : ProcRel} (hx : F q = some x) :
    q ∈ r.children ↔ x.parent = id := by
  rw [h.child hr]
  constructor
  · rintro ⟨y, hy, hyp⟩
    rw [hx, Option.some.injEq] at hy
    rw [hy, hyp]
  · intro hp
    exact ⟨x, hx, hp⟩

theorem FamInv.parent_ne (h : FamInv used F) (hr : F id = some r) (hself : id ∉ r.children) : r.parent ≠ id :=
  fun e => hself ((h.mem_children hr hr).mpr e)

/-- A process that leaves is the newest dead child of its parent. -/
theorem FamInv.departed_dead (h : FamInv used F) (hr : F id = some r) {q : ProcId} {x : ProcRel} (hx : F q = some x) :
    (depart id code r q x).deadChildren =
      if q = r.parent then x.deadChildren ++ [(id, code)] else x.deadChildren :=
  depart_dead fun hq => (h.mem_children hx hr).mpr hq.symm

/-- A process that leaves in good order keeps the links in order. -/
theorem FamInv.leave (h : FamInv used F) (hr : F id = some r) (hself : id ∉ r.children)
    (hzero : r.children ≠ [] → id ≠ 0 ∧ (F 0).isSome = true) : FamInv used (departed F id code r) := by
  have hmine : ∀ {q x}, F q = some x → (q ∈ r.children ↔ x.parent = id) := h.mem_children hr
  have hold : ∀ {p x}, F p = some x → ∀ q,
      q ∈ (if p = r.parent then x.children.erase id else x.children) ↔ q ≠ id ∧ q ∈ x.children := by
    intro p x hx q
    split
    · exact (h.nodup hx).mem_erase_iff
    · rename_i hp
      refine ⟨fun hq => ⟨?_, hq⟩, fun hq => hq.2⟩
      intro e
      obtain ⟨y, hy, hyp⟩ := (h.child hx q).mp hq
      rw [e, hr, Option.some.injEq] at hy
      exact hp (by rw [hy, hyp])
  have hdead : ∀ {q x d}, departed F id code r q = some x → d ∈ x.deadChildren →
      ∃ y, F q = some y ∧ (d ∈ y.deadChildren ∨ q = r.parent ∧ d = (id, code)) := by
    intro q x d hx hd
    obtain ⟨hq, y, hy, rfl⟩ := departed_eq_some hx
    rw [h.departed_dead hr hy] at hd
    refine ⟨y, hy, ?_⟩
    split at hd
    · rename_i hp
      rcases List.mem_append.mp hd with hd | hd
      · exact .inl hd
      · exact .inr ⟨hp, List.mem_singleton.mp hd⟩
    · exact .inl hd
  refine ⟨?_, h.real, ?_, ?_, ?_, ?_, ?_, ?_, ?_⟩
  · intro q x hx
    obtain ⟨-, y, hy, -⟩ := departed_eq_some hx
    exact h.known hy
  · intro p x hx q
    obtain ⟨hp, y, hy, rfl⟩ := departed_eq_some hx
    rw [depart_children, List.mem_append, hold hy, h.child hy]
    constructor
    · intro hq
      rcases hq with ⟨hqi, z, hz, hzp⟩ | hq
      · refine ⟨_, departed_some hqi hz, ?_⟩
        have hnot : q ∉ r.children := fun hm => hp (hzp ▸ (hmine hz).mp hm)
        rw [depart_parent, if_neg hnot, hzp]
      · have hp0 : p = 0 := by
          by_contra hne
          rw [if_neg hne] at hq
          cases hq
        rw [if_pos hp0] at hq
        obtain ⟨z, hz, -⟩ := (h.child hr q).mp hq
        have hqi : q ≠ id := fun e => hself (e ▸ hq)
        exact ⟨_, departed_some hqi hz, by rw [depart_parent, if_pos hq, hp0]⟩
    · rintro ⟨z, hz, hzp⟩
      obtain ⟨hqi, u, hu, rfl⟩ := departed_eq_some hz
      rw [depart_parent] at hzp
      by_cases hq : q ∈ r.children
      · rw [if_pos hq] at hzp
        exact .inr (by rw [if_pos hzp.symm]; exact hq)
      · rw [if_neg hq] at hzp
        exact .inl ⟨hqi, u, hu, hzp⟩
  · intro p x hx
    obtain ⟨hp, y, hy, rfl⟩ := departed_eq_some hx
    rw [depart_children, List.nodup_append]
    refine ⟨?_, ?_, ?_⟩
    · split
      · exact (h.nodup hy).erase id
      · exact h.nodup hy
    · split
      · exact h.nodup hr
      · exact List.nodup_nil
    · intro a ha b hb e
      obtain ⟨-, ha⟩ := (hold hy a).mp ha
      obtain ⟨z, hz, hzp⟩ := (h.child hy a).mp ha
      split at hb
      · exact hp (hzp ▸ (hmine hz).mp (e ▸ hb))
      · cases hb
  · intro q x hx
    obtain ⟨hqi, y, hy, rfl⟩ := departed_eq_some hx
    rw [depart_parent]
    by_cases hq : q ∈ r.children
    · obtain ⟨h0, hs⟩ := hzero (List.ne_nil_of_mem hq)
      obtain ⟨z, hz⟩ := Option.isSome_iff_exists.mp hs
      rw [if_pos hq, departed_some (Ne.symm h0) hz]
      exact .inr rfl
    · rw [if_neg hq]
      refine (h.parent hy).imp_right fun hs => ?_
      obtain ⟨z, hz⟩ := Option.isSome_iff_exists.mp hs
      rw [departed_some (fun e => hq ((hmine hy).mpr e)) hz]
      rfl
  · intro q x hx hq
    obtain ⟨-, y, hy, rfl⟩ := departed_eq_some hx
    rw [depart_parent] at hq
    split at hq
    · exact hq.symm
    · exact h.self hy hq
  · intro q x d hx hd
    have hnone : ∀ k, F k = none ∨ k = id → departed F id code r k = none := by
      intro k hk
      simp only [departed]
      split
      · rfl
      · rename_i hne
        rw [hk.resolve_right hne, Option.map_none]
    obtain ⟨y, hy, hd | ⟨-, rfl⟩⟩ := hdead hx hd
    · obtain ⟨hn, hu⟩ := h.gone hy hd
      exact ⟨hnone _ (.inl hn), hu⟩
    · exact ⟨hnone _ (.inr rfl), h.known hr⟩
  · intro q x hx
    obtain ⟨hqi, y, hy, rfl⟩ := departed_eq_some hx
    rw [h.departed_dead hr hy]
    split
    · rw [List.map_append, List.nodup_append]
      refine ⟨h.once hy, by simp, ?_⟩
      intro a ha b hb e
      obtain ⟨d, hd, rfl⟩ := List.mem_map.mp ha
      simp only [List.map_cons, List.map_nil, List.mem_singleton] at hb
      have hn := (h.gone hy hd).1
      rw [e, hb, hr] at hn
      cases hn
    · exact h.once hy
  · intro p q x y d e hx hy hd he hde
    obtain ⟨x', hx', hd'⟩ := hdead hx hd
    obtain ⟨y', hy', he'⟩ := hdead hy he
    rcases hd' with hd' | ⟨hp, rfl⟩
    · rcases he' with he' | ⟨hq, rfl⟩
      · exact h.one hx' hy' hd' he' hde
      · have hn := (h.gone hx' hd').1
        rw [hde, hr] at hn
        cases hn
    · rcases he' with he' | ⟨hq, rfl⟩
      · have hn := (h.gone hy' he').1
        rw [← hde, hr] at hn
        cases hn
      · rw [hp, hq]

/-- A dead child that is waited for is taken off the list of its parent. -/
theorem FamInv.reap {p : ProcId} {rest : List (ProcId × Int)} (h : FamInv used F) (hp : F p = some r)
    (hs : rest.Sublist r.deadChildren) : FamInv used (F.insert p { r with deadChildren := rest }) := by
  have hback : ∀ {q x}, F.insert p { r with deadChildren := rest } q = some x →
      ∃ y, F q = some y ∧ x.parent = y.parent ∧ x.children = y.children ∧ x.deadChildren.Sublist y.deadChildren := by
    intro q x hx
    rw [BTreeMap.insert_apply] at hx
    split at hx
    · rename_i e
      cases hx
      exact ⟨r, e ▸ hp, rfl, rfl, hs⟩
    · exact ⟨x, hx, rfl, rfl, List.Sublist.refl _⟩
  have hsome : ∀ q, (F.insert p { r with deadChildren := rest } q).isSome = (F q).isSome := by
    intro q
    rw [BTreeMap.insert_apply]
    split
    · rename_i e
      rw [e, hp]
      rfl
    · rfl
  refine ⟨?_, h.real, ?_, ?_, ?_, ?_, ?_, ?_, ?_⟩
  · intro q x hx
    obtain ⟨y, hy, -⟩ := hback hx
    exact h.known hy
  · intro q x hx k
    obtain ⟨y, hy, -, hc, -⟩ := hback hx
    rw [hc, h.child hy]
    constructor
    · rintro ⟨z, hz, hzp⟩
      obtain ⟨u, hu⟩ := Option.isSome_iff_exists.mp ((hsome k).trans (by rw [hz]; rfl))
      obtain ⟨v, hv, hpar, -⟩ := hback hu
      rw [hz, Option.some.injEq] at hv
      exact ⟨u, hu, by rw [hpar, ← hv, hzp]⟩
    · rintro ⟨z, hz, hzp⟩
      obtain ⟨v, hv, hpar, -⟩ := hback hz
      exact ⟨v, hv, by rw [← hpar, hzp]⟩
  · intro q x hx
    obtain ⟨y, hy, -, hc, -⟩ := hback hx
    rw [hc]
    exact h.nodup hy
  · intro q x hx
    obtain ⟨y, hy, hpar, -⟩ := hback hx
    rw [hpar, hsome]
    exact h.parent hy
  · intro q x hx hq
    obtain ⟨y, hy, hpar, -⟩ := hback hx
    exact h.self hy (hpar ▸ hq)
  · intro q x d hx hd
    obtain ⟨y, hy, -, -, hsub⟩ := hback hx
    obtain ⟨hn, hu⟩ := h.gone hy (hsub.subset hd)
    exact ⟨Option.isNone_iff_eq_none.mp (by rw [← Option.not_isSome, hsome, hn]; rfl), hu⟩
  · intro q x hx
    obtain ⟨y, hy, -, -, hsub⟩ := hback hx
    exact (h.once hy).sublist (hsub.map _)
  · intro q k x y d e hx hy hd he hde
    obtain ⟨x', hx', -, -, hsx⟩ := hback hx
    obtain ⟨y', hy', -, -, hsy⟩ := hback hy
    exact h.one hx' hy' (hsx.subset hd) (hsy.subset he) hde

end

/-! ## What `wait` returns -/

/-- `wait(c)` asks for `x`. -/
def Asked (c x : ProcId) : Prop := c = usizeMax ∨ x = c

/-- `wait` hands out a dead child that is asked for and keeps the others, or finds none and
    changes nothing. -/
theorem ProcRel.wait_spec (r : ProcRel) (c : ProcId) (h : (r.deadChildren.map Prod.fst).Nodup) :
    (∃ d ∈ r.deadChildren, Asked c d.1 ∧ ∃ rest, r.wait c = (some d, { r with deadChildren := rest }) ∧
      rest.Sublist r.deadChildren ∧ ∀ e, e ∈ rest ↔ e ∈ r.deadChildren ∧ e ≠ d) ∨
    (∀ d ∈ r.deadChildren, ¬ Asked c d.1) ∧
      ((∃ q ∈ r.children, Asked c q) ∧ r.wait c = (some running, r) ∨
        (∀ q ∈ r.children, ¬ Asked c q) ∧ r.wait c = (none, r)) := by
  have hnd : r.deadChildren.Nodup := h.of_map
  by_cases hc : c = usizeMax
  · have hw : r.wait c = r.waitAnyChild := if_pos hc
    rw [hw]
    unfold ProcRel.waitAnyChild
    cases hd : r.deadChildren with
    | nil =>
      right
      refine ⟨by simp, ?_⟩
      cases hq : r.children with
      | nil => exact .inr ⟨by simp, by simp⟩
      | cons a l => exact .inl ⟨⟨a, List.mem_cons_self, .inl hc⟩, by simp⟩
    | cons a l =>
      left
      have hne : a :: l ≠ [] := List.cons_ne_nil a l
      rw [hd] at hnd
      have hsplit : (a :: l).dropLast ++ [(a :: l).getLast hne] = a :: l := List.dropLast_append_getLast hne
      rw [← hsplit] at hnd
      refine ⟨(a :: l).getLast hne, List.getLast_mem hne, .inl hc, (a :: l).dropLast, ?_, List.dropLast_sublist _, ?_⟩
      · rw [if_neg (by simp), List.getLast?_eq_some_getLast hne]
      · intro e
        have hdis : (a :: l).getLast hne ∉ (a :: l).dropLast := by
          intro hm
          exact (List.nodup_append.mp hnd).2.2 _ hm _ (List.mem_singleton.mpr rfl) rfl
        constructor
        · intro he
          exact ⟨List.dropLast_subset _ he, fun heq => hdis (heq ▸ he)⟩
        · rintro ⟨he, hne'⟩
          rw [← hsplit, List.mem_append, List.mem_singleton] at he
          exact he.resolve_right hne'
  · have hw : r.wait c = r.waitChild c := if_neg hc
    have hask : ∀ x, Asked c x ↔ x = c := fun x => or_iff_right hc
    rw [hw]
    unfold ProcRel.waitChild
    cases hf : r.deadChildren.find? fun d => d.1 == c with
    | some d =>
      left
      have hdc : d.1 = c := by simpa using List.find?_some hf
      have hdm : d ∈ r.deadChildren := List.mem_of_find?_eq_some hf
      refine ⟨d, hdm, (hask _).mpr hdc, _, rfl, List.eraseP_sublist, ?_⟩
      intro e
      have hinj : ∀ e ∈ r.deadChildren, e.1 = c → e = d := by
        intro e he hec
        exact List.inj_on_of_nodup_map h he hdm (hec.trans hdc.symm)
      constructor
      · intro he
        refine ⟨List.mem_of_mem_eraseP he, ?_⟩
        rintro rfl
        obtain ⟨a, l1, l2, -, ha, hl, hr⟩ := List.exists_of_eraseP hdm (p := fun d => d.1 == c) (by simpa using hdc)
        have hae : a = e := hinj a (by rw [hl]; simp) (by simpa using ha)
        rw [hr] at he
        rw [hl, hae, List.nodup_middle, List.nodup_cons] at hnd
        exact hnd.1 he
      · rintro ⟨he, hne⟩
        exact (List.mem_eraseP_of_neg (by simpa using fun hec => hne (hinj e he hec))).mpr he
    | none =>
      right
      have hno : ∀ d ∈ r.deadChildren, ¬ Asked c d.1 := by
        intro d hd ha
        have := List.find?_eq_none.mp hf d hd
        exact this (by simpa using (hask _).mp ha)
      refine ⟨hno, ?_⟩
      by_cases hm : c ∈ r.children
      · exact .inl ⟨⟨c, hm, .inr rfl⟩, by simp only [if_pos hm]⟩
      · refine .inr ⟨?_, by simp only [if_neg hm]⟩
        intro q hq ha
        exact hm ((hask q).mp ha ▸ hq)

theorem FamInv.wait {used : List ProcId} {F : BTreeMap ProcId ProcRel} {p : ProcId} {r : ProcRel} (h : FamInv used F)
    (hr : F p = some r) (c : ProcId) : FamInv used (F.insert p (r.wait c).2) := by
  rcases r.wait_spec c (h.once hr) with ⟨d, -, -, rest, hw, hsub, -⟩ | ⟨-, ⟨-, hw⟩ | ⟨-, hw⟩⟩
  · rw [hw]
    exact h.reap hr hsub
  · rw [hw]
    exact h.reap hr (List.Sublist.refl _)
  · rw [hw]
    exact h.reap hr (List.Sublist.refl _)

/-- When the links agree, a process can leave unless it has children and process 0 cannot take
    them. -/
theorem FamInv.leave_iff {R : Type} [HasRel R] {used : List ProcId} {m : BTreeMap ProcId R} {id : ProcId} {r : R}
    (h : FamInv used (family m)) (hr : m id = some r) (code : Int) :
    (∃ m', Task.leave m id code = .ok m') ↔ ((rel r).children = [] ∨ id ≠ 0 ∧ (m 0).isSome = true) := by
  have hkin : family m id = some (rel r) := by
    rw [family, hr]
    rfl
  constructor
  · rintro ⟨m', hl⟩
    by_cases hne : (rel r).children = []
    · exact .inl hne
    · exact .inr (((leave_eq_ok hr).mp hl).2.1 hne)
  · intro hcond
    refine ⟨_, (leave_eq_ok hr).mpr ⟨?_, ?_, rfl⟩⟩
    · intro i hi
      obtain ⟨h0, -⟩ := hcond.resolve_left (List.ne_nil_of_mem hi)
      obtain ⟨x, hx, hxp⟩ := (h.child hkin i).mp hi
      refine ⟨fun e => ?_, ?_⟩
      · rw [e] at hx
        exact h0 (h.self hx hxp)
      · rw [← Option.isSome_map (f := rel)]
        exact Option.isSome_iff_exists.mpr ⟨x, hx⟩
    · exact fun hne => hcond.resolve_left hne

end TgRcore.Task
