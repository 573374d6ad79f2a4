/-
  TgRcore.Task.PManager — the process manager (`proc_manage.rs`), for every store of processes
  with a ready queue (`manager.rs`, `scheduler.rs`), and its runs.

  - `Step`: one call that returns. A process id is never used twice (`ProcId::new` counts up)
    and is not one of the two numbers with a meaning of their own (-1 and -2).
  - `PInv`: in every run the store and `rel_map` have the same processes, the current
    process is one of them, and the links agree.
-/

import TgRcore.Lib.Exec
import TgRcore.Task.Family

namespace TgRcore.Task

open TgRcore.BlockProg

/-- The store of processes or threads. -/
class Manage (T : outParam Type) (M : Type) where
  insert : M → Nat → T → M
  delete : M → Nat → M
  getMut : M → Nat → Option T

/-- The ready queue. -/
class Schedule (M : Type) where
  add : M → Nat → Except Halt M
  fetch : M → Except Halt (Option Nat × M)

/-- `manager` is set once, at boot, before the first call. -/
structure PManager (M : Type) where
  relMap : BTreeMap ProcId ProcRel
  manager : M
  current : Option ProcId

namespace PManager

variable {P M : Type} [Manage P M] [Schedule M]

def new (manager : M) : PManager M := ⟨.empty, manager, none⟩

def findNext (pm : PManager M) : Except Halt (Option P × PManager M) := do
  let (next, manager) ← Schedule.fetch pm.manager
  match next with
  | some id =>
    match Manage.getMut manager id with
    | some task => .ok (some task, { pm with manager := manager, current := some id })
    | none => .ok (none, { pm with manager := manager })
  | none => .ok (none, { pm with manager := manager })

def makeCurrentSuspend (pm : PManager M) : Except Halt (PManager M) :=
  match pm.current with
  | none => .error .panic
  | some id => do
    let manager ← Schedule.add pm.manager id
    .ok { pm with manager := manager, current := none }

def makeCurrentExited (pm : PManager M) (exitCode : Int) : Except Halt (PManager M) :=
  match pm.current with
  | none => .error .panic
  | some id => do
    let manager := Manage.delete pm.manager id
    let relMap ← leave pm.relMap id exitCode
    .ok { relMap := relMap, manager := manager, current := none }

def add (pm : PManager M) (id : ProcId) (task : P) (parent : ProcId) : Except Halt (PManager M) := do
  let manager := Manage.insert pm.manager id task
  let manager ← Schedule.add manager id
  let linked := if parent ≠ usizeMax then pm.relMap.modify parent fun r => r.addChild id else .ok pm.relMap
  let relMap ← linked
  .ok { pm with relMap := relMap.insert id (.new parent), manager := manager }

def wait (pm : PManager M) (childPid : ProcId) : Except Halt (Option (ProcId × Int) × PManager M) :=
  match pm.current with
  | none => .error .panic
  | some id =>
    match pm.relMap id with
    | none => .error .panic
    | some currentRel =>
      let (ret, currentRel) := currentRel.wait childPid
      .ok (ret, { pm with relMap := pm.relMap.insert id currentRel })

end PManager

/-! ## What the calls did when they returned -/

section

variable {P M : Type} [Manage P M] [Schedule M] {pm pm' : PManager M}

theorem findNext_ok {ret : Option P} (h : pm.findNext = .ok (ret, pm')) :
    ∃ next manager, Schedule.fetch pm.manager = .ok (next, manager) ∧
      (ret = none ∧ pm' = { pm with manager := manager } ∧ (∀ id, next = some id → Manage.getMut manager id = none) ∨
        ∃ id task, next = some id ∧ Manage.getMut manager id = some task ∧ ret = some task ∧
          pm' = { pm with manager := manager, current := some id }) := by
  unfold PManager.findNext at h
  obtain ⟨⟨next, manager⟩, hf, h⟩ := bind_eq_ok.mp h
  refine ⟨next, manager, hf, ?_⟩
  cases next with
  | none =>
    cases h
    exact .inl ⟨rfl, rfl, by simp⟩
  | some id =>
    dsimp only at h
    split at h
    · rename_i task ht
      cases h
      exact .inr ⟨id, task, rfl, ht, rfl, rfl⟩
    · rename_i ht
      cases h
      exact .inl ⟨rfl, rfl, by simpa using ht⟩

theorem suspend_ok (h : pm.makeCurrentSuspend = .ok pm') :
    ∃ id manager, pm.current = some id ∧ Schedule.add pm.manager id = .ok manager ∧
      pm' = { pm with manager := manager, current := none } := by
  unfold PManager.makeCurrentSuspend at h
  split at h
  · cases h
  · rename_i id hc
    obtain ⟨manager, hm, h⟩ := bind_eq_ok.mp h
    cases h
    exact ⟨id, manager, hc, hm, rfl⟩

end

theorem exited_eq_ok {P M : Type} [Manage P M] {pm pm' : PManager M} {id : ProcId} {code : Int} (hc : pm.current = some id) : pm.makeCurrentExited code = .ok pm' ↔
    ∃ relMap, leave pm.relMap id code = .ok relMap ∧ pm' = ⟨relMap, Manage.delete pm.manager id, none⟩ := by
  simp only [PManager.makeCurrentExited, hc, bind_eq_ok, Except.ok.injEq]
  constructor
  · rintro ⟨relMap, hl, h⟩
    exact ⟨relMap, hl, h.symm⟩
  · rintro ⟨relMap, hl, h⟩
    exact ⟨relMap, hl, h.symm⟩

section

variable {P M : Type} [Manage P M] [Schedule M] {pm pm' : PManager M} {id parent : ProcId} {task : P}

theorem add_ok (hmax : pm.relMap usizeMax = none) (h : pm.add id task parent = .ok pm') :
    (parent = usizeMax ∨ (pm.relMap parent).isSome = true) ∧
      ∃ manager, Schedule.add (Manage.insert pm.manager id task) id = .ok manager ∧
        pm' = ⟨joined pm.relMap id parent, manager, pm.current⟩ := by
  unfold PManager.add at h
  obtain ⟨manager, hm, h⟩ := bind_eq_ok.mp h
  obtain ⟨relMap, hr, h⟩ := bind_eq_ok.mp h
  cases h
  split at hr
  · obtain ⟨hp, rfl⟩ := BTreeMap.modify_eq_ok.mp hr
    exact ⟨.inr hp, manager, hm, rfl⟩
  · rename_i hp
    cases hr
    have hp : parent = usizeMax := not_not.mp hp
    refine ⟨.inl hp, manager, hm, ?_⟩
    have hsame : pm.relMap.adjust parent (fun r => r.addChild id) = pm.relMap := by
      funext q
      rw [BTreeMap.adjust_apply]
      split
      · rename_i e
        rw [e, hp, hmax]
        rfl
      · rfl
    rw [joined, hsame]

end

theorem wait_eq_ok {M : Type} {pm : PManager M} {id c : ProcId} {r : ProcRel} (hc : pm.current = some id)
    (hr : pm.relMap id = some r) :
    pm.wait c = .ok ((r.wait c).1, { pm with relMap := pm.relMap.insert id (r.wait c).2 }) := by
  simp only [PManager.wait, hc, hr]

/-! ## Runs -/

/-- A manager and the process ids used so far. -/
structure World (M : Type) where
  pm : PManager M
  used : List ProcId

def World.new {M : Type} (manager : M) : World M := ⟨.new manager, []⟩

/-- The calls with what the process or the caller sees of them; `findNext` with the process that
    was current, `exit` with the parent at that time and whether it was there. -/
inductive Event where
  | add (id parent : ProcId)
  | findNext (current : Option ProcId)
  | suspend
  | exit (id : ProcId) (exitCode : Int) (parent : ProcId) (alive : Bool)
  | wait (id childPid : ProcId) (ret : Option (ProcId × Int))

inductive Step {P M : Type} [Manage P M] [Schedule M] : World M → Event → World M → Prop
  | add {w : World M} {id parent : ProcId} {task : P} {pm : PManager M} : id ∉ w.used → id < 2 ^ 64 - 2 →
      w.pm.add id task parent = .ok pm → Step w (.add id parent) ⟨pm, id :: w.used⟩
  | findNext {w : World M} {ret : Option P} {pm : PManager M} : w.pm.findNext = .ok (ret, pm) →
      Step w (.findNext w.pm.current) ⟨pm, w.used⟩
  | suspend {w : World M} {pm : PManager M} : w.pm.makeCurrentSuspend = .ok pm → Step w .suspend ⟨pm, w.used⟩
  | exit {w : World M} {id : ProcId} {r : ProcRel} {code : Int} {pm : PManager M} : w.pm.current = some id →
      w.pm.relMap id = some r → w.pm.makeCurrentExited code = .ok pm →
      Step w (.exit id code r.parent (w.pm.relMap r.parent).isSome) ⟨pm, w.used⟩
  | wait {w : World M} {id c : ProcId} {ret : Option (ProcId × Int)} {pm : PManager M} : w.pm.current = some id →
      w.pm.wait c = .ok (ret, pm) → Step w (.wait id c ret) ⟨pm, w.used⟩

/-- The store has what was inserted and not deleted; the ready queue does not change that. -/
class LawfulManager {T : Type} (M : Type) [Manage T M] [Schedule M] : Prop where
  insert : ∀ (m : M) (k : Nat) (t : T) (q : Nat),
    (Manage.getMut (Manage.insert m k t) q).isSome = true ↔ q = k ∨ (Manage.getMut m q).isSome = true
  delete : ∀ (m : M) (k q : Nat),
    (Manage.getMut (Manage.delete m k) q).isSome = true ↔ q ≠ k ∧ (Manage.getMut m q).isSome = true
  add : ∀ {m m' : M} {k : Nat}, Schedule.add m k = .ok m' →
    ∀ q, (Manage.getMut m' q).isSome = (Manage.getMut m q).isSome
  fetch : ∀ {m m' : M} {next : Option Nat}, Schedule.fetch m = .ok (next, m') →
    ∀ q, (Manage.getMut m' q).isSome = (Manage.getMut m q).isSome

/-! ## The invariant -/

structure PInv {P M : Type} [Manage P M] (w : World M) : Prop where
  fam : FamInv w.used w.pm.relMap
  keys : ∀ p, (Manage.getMut w.pm.manager p).isSome = true ↔ (w.pm.relMap p).isSome = true
  current : ∀ {p}, w.pm.current = some p → (w.pm.relMap p).isSome = true
  small : ∀ p ∈ w.used, p < 2 ^ 64 - 2

theorem pInv_new {P M : Type} [Manage P M] {manager : M} (hempty : ∀ q, Manage.getMut manager q = none) : PInv (World.new manager) := by
  refine ⟨famInv_empty, ?_, ?_, ?_⟩
  · intro p
    simp [World.new, PManager.new, BTreeMap.empty, hempty]
  · intro p h
    cases h
  · intro p h
    cases h

/-- The links after a process has left. -/
theorem leave_departed {m m' : BTreeMap ProcId ProcRel} {id : ProcId} {code : Int} {r : ProcRel}
    (hr : m id = some r) (h : leave m id code = .ok m') :
    m' = departed m id code r ∧ id ∉ r.children ∧ (r.children ≠ [] → id ≠ 0 ∧ (m 0).isSome = true) := by
  obtain ⟨hself, hzero, rfl⟩ := (leave_eq_ok hr).mp h
  exact ⟨rfl, fun hm => (hself id hm).1 rfl, hzero⟩

theorem PInv.max_none {P M : Type} [Manage P M] {w : World M} (h : PInv w) : w.pm.relMap usizeMax = none := by
  cases hm : w.pm.relMap usizeMax with
  | none => rfl
  | some r => exact absurd (h.fam.known hm) h.fam.real

theorem isSome_joined {F : BTreeMap ProcId ProcRel} {id parent q : ProcId} :
    (joined F id parent q).isSome = true ↔ q = id ∨ (F q).isSome = true := by
  rw [joined, BTreeMap.isSome_insert, BTreeMap.isSome_adjust]

theorem isSome_departed {F : BTreeMap ProcId ProcRel} {id q : ProcId} {code : Int} {r : ProcRel} :
    (departed F id code r q).isSome = true ↔ q ≠ id ∧ (F q).isSome = true := by
  simp only [departed]
  split
  · rename_i e
    simp [e]
  · rename_i e
    simp [e]

section

variable {P M : Type} [Manage P M] [Schedule M] [LawfulManager M]

theorem PInv.step {w w' : World M} {e : Event} (h : PInv w) (hs : Step w e w') : PInv w' := by
  cases hs with
  | @add id parent task pm hid hlt hadd =>
    obtain ⟨hp, manager, hm, rfl⟩ := add_ok h.max_none hadd
    have hmax : id ≠ usizeMax := by
      intro e
      rw [e] at hlt
      exact absurd hlt (by decide)
    refine ⟨h.fam.add hid hmax hp, ?_, ?_, ?_⟩
    · intro p
      rw [LawfulManager.add hm, LawfulManager.insert, h.keys, isSome_joined]
    · intro p hc
      exact isSome_joined.mpr (.inr (h.current hc))
    · intro p hmem
      rcases List.mem_cons.mp hmem with rfl | hmem
      · exact hlt
      · exact h.small p hmem
  | findNext hf =>
    obtain ⟨next, manager, hfetch, hret⟩ := findNext_ok hf
    have hkeys : ∀ p, (Manage.getMut manager p).isSome = true ↔ (w.pm.relMap p).isSome = true := by
      intro p
      rw [LawfulManager.fetch hfetch, h.keys]
    rcases hret with ⟨-, rfl, -⟩ | ⟨id, task, rfl, ht, -, rfl⟩
    · exact ⟨h.fam, hkeys, h.current, h.small⟩
    · refine ⟨h.fam, hkeys, ?_, h.small⟩
      intro p hp
      cases hp
      exact (hkeys id).mp (by rw [ht]; rfl)
  | suspend hsus =>
    obtain ⟨id, manager, hc, hm, rfl⟩ := suspend_ok hsus
    refine ⟨h.fam, ?_, by simp, h.small⟩
    intro p
    rw [LawfulManager.add hm, h.keys]
  | @exit id r code pm hc hr hexit =>
    obtain ⟨relMap, hl, rfl⟩ := (exited_eq_ok hc).mp hexit
    obtain ⟨rfl, hself, hzero⟩ := leave_departed hr hl
    refine ⟨h.fam.leave hr hself hzero, ?_, by simp, h.small⟩
    intro p
    rw [LawfulManager.delete, h.keys, isSome_departed]
  | @wait id c ret pm hc hw =>
    obtain ⟨r, hr⟩ := Option.isSome_iff_exists.mp (h.current hc)
    rw [wait_eq_ok hc hr, Except.ok.injEq, Prod.mk.injEq] at hw
    obtain ⟨-, rfl⟩ := hw
    have hsome : ∀ q, (w.pm.relMap.insert id (r.wait c).2 q).isSome = true ↔ (w.pm.relMap q).isSome = true := by
      intro q
      rw [BTreeMap.insert_apply]
      split
      · rename_i e
        rw [e, hr]
        rfl
      · rfl
    refine ⟨h.fam.wait hr c, ?_, ?_, h.small⟩
    · intro p
      rw [hsome]
      exact h.keys p
    · intro p hp
      exact (hsome p).mpr (h.current hp)

theorem pInv_run {manager : M} (hempty : ∀ q, Manage.getMut manager q = none) {es : List Event} {w : World M}
    (h : Exec Step (World.new manager) es w) : PInv w :=
  h.inv (P := fun _ w => PInv w) (pInv_new hempty) fun h hs => h.step hs

end

end TgRcore.Task
