/-
  TgRcore.Vm.Areas — the recorded areas of an address space against its page table.

  - `Covers`: below a limit, the pages of the areas have entries, those of one area alike and
    to frames one after the other, and no other page has an entry; no page is in two areas, if
    no range was unmapped that ends before it begins.
  - `Covers.add`, `Covers.cut`: so it stays when a range is mapped or unmapped.
  - `area_table`: over every run of `map`, `map_anonymous`, `map_extern` and `unmap`.
-/

import TgRcore.Lib.Exec
import TgRcore.Vm.Mapping

namespace TgRcore.Vm

open TgRcore.BlockProg AddressSpace

/-- A page number lies in an area. -/
def Inside (v : Nat) (a : Nat × Nat) : Prop := a.1 ≤ v ∧ v < a.2

/-- Two areas have no page below the limit in common. -/
def Apart (limit : Nat) (a b : Nat × Nat) : Prop := ∀ v, v < limit → Inside v a → ¬ Inside v b

/-- The pages of an area have one run of frames and one set of flags. -/
def Uniform (limit : Nat) (e : Nat → Pte) (a : Nat × Nat) : Prop :=
  ∃ ppn flags, Flag.v ∈ flags ∧ ∀ v, v < limit → Inside v a → e v = ⟨ppn + (v - a.1), flags⟩

/-- `neat`: no range was unmapped that ends before it begins. -/
structure Covers (neat : Prop) (limit : Nat) (e : Nat → Pte) (areas : List (Nat × Nat)) : Prop where
  bounds : ∀ a ∈ areas, a.1 < a.2 ∧ a.2 ≤ vpnMax + 1
  apart : neat → areas.Pairwise (Apart limit)
  uniform : ∀ a ∈ areas, Uniform limit e a
  gap : ∀ v, v < limit → (∀ a ∈ areas, ¬ Inside v a) → (e v).isValid = false

section

variable {P : Prop} {limit first last ppn v : Nat} {e e' : Nat → Pte} {areas : List (Nat × Nat)} {a b : Nat × Nat} {flags : VmFlags}

theorem Apart.symm (h : Apart limit a b) : Apart limit b a := fun v hv hb ha => h v hv ha hb

/-- A page has an entry exactly when it lies in an area. -/
theorem Covers.valid_iff (h : Covers P limit e areas) (hv : v < limit) :
    (e v).isValid = true ↔ ∃ a ∈ areas, Inside v a := by
  constructor
  · intro hvalid
    by_contra hno
    rw [h.gap v hv fun a ha hin => hno ⟨a, ha, hin⟩] at hvalid
    cases hvalid
  · rintro ⟨a, ha, hin⟩
    obtain ⟨ppn, flags, hflags, hrun⟩ := h.uniform a ha
    rw [hrun v hv hin]
    simpa [Pte.isValid] using hflags

theorem covers_nil (h : ∀ v, v < limit → (e v).isValid = false) : Covers P limit e [] :=
  ⟨by simp, fun _ => .nil, by simp, fun v hv _ => h v hv⟩

/-! ## A range is mapped -/

/-- The pages of the range had no entries; they have a run of frames now. -/
theorem Covers.add (h : Covers P limit e areas) (hlt : first < last) (hlast : last ≤ vpnMax + 1) (hflags : Flag.v ∈ flags)
    (hin : ∀ v, v < limit → Inside v (first, last) → e' v = ⟨ppn + (v - first), flags⟩ ∧ (e v).isValid = false)
    (hout : ∀ v, v < limit → ¬ Inside v (first, last) → e' v = e v) : Covers P limit e' (areas ++ [(first, last)]) := by
  -- The areas so far have entries, so the range meets none of them.
  have hnew : ∀ a ∈ areas, Apart limit a (first, last) := by
    intro a ha v hv hva hvr
    have hfree := (hin v hv hvr).2
    rw [(h.valid_iff hv).mpr ⟨a, ha, hva⟩] at hfree
    cases hfree
  refine ⟨?_, ?_, ?_, ?_⟩
  · intro a ha
    rcases List.mem_append.mp ha with ha | ha
    · exact h.bounds a ha
    · rw [List.mem_singleton.mp ha]
      exact ⟨hlt, hlast⟩
  · intro hn
    refine List.pairwise_append.mpr ⟨h.apart hn, List.pairwise_singleton _ _, ?_⟩
    intro a ha b hb
    rw [List.mem_singleton.mp hb]
    exact hnew a ha
  · intro a ha
    rcases List.mem_append.mp ha with ha | ha
    · obtain ⟨p, fl, hfl, hrun⟩ := h.uniform a ha
      refine ⟨p, fl, hfl, fun v hv hva => ?_⟩
      rw [hout v hv (hnew a ha v hv hva), hrun v hv hva]
    · rw [List.mem_singleton.mp ha]
      exact ⟨ppn, flags, hflags, fun v hv hvr => (hin v hv hvr).1⟩
  · intro v hv hno
    rw [hout v hv (hno _ (List.mem_append_right _ (List.mem_singleton_self _)))]
    exact h.gap v hv fun a ha => hno a (List.mem_append_left _ ha)

/-! ## A range is unmapped -/

theorem cut_cases (hb : b ∈ cutArea first last a) :
    b = a ∧ (a.2 ≤ first ∨ a.1 ≥ last) ∨
      ¬ (a.2 ≤ first ∨ a.1 ≥ last) ∧ (b = (a.1, first) ∧ a.1 < first ∨ b = (last, a.2) ∧ a.2 > last) := by
  unfold cutArea at hb
  split at hb
  · rename_i hc
    exact .inl ⟨List.mem_singleton.mp hb, hc⟩
  · rename_i hc
    refine .inr ⟨hc, ?_⟩
    rcases List.mem_append.mp hb with hb | hb
    · split at hb
      · rename_i hlt
        exact .inl ⟨List.mem_singleton.mp hb, hlt⟩
      · cases hb
    · split at hb
      · rename_i hlt
        exact .inr ⟨List.mem_singleton.mp hb, hlt⟩
      · cases hb

/-- What is left of an area lies in it and outside the range. -/
theorem inside_of_cut (hb : b ∈ cutArea first last a) (hv : Inside v b) : Inside v a ∧ ¬ Inside v (first, last) := by
  unfold Inside at *
  rcases cut_cases hb with ⟨rfl, hc⟩ | ⟨hc, ⟨rfl, hlt⟩ | ⟨rfl, hlt⟩⟩
  · exact ⟨hv, by omega⟩
  · dsimp only at hv ⊢
    exact ⟨by omega, by omega⟩
  · dsimp only at hv ⊢
    exact ⟨by omega, by omega⟩

/-- The pages of an area outside the range are left. -/
theorem cut_of_inside (hv : Inside v a) (hno : ¬ Inside v (first, last)) : ∃ b ∈ cutArea first last a, Inside v b := by
  unfold Inside at *
  unfold cutArea
  split
  · exact ⟨a, List.mem_singleton_self a, hv⟩
  · rename_i hc
    dsimp only at hno
    by_cases hlt : v < first
    · refine ⟨(a.1, first), ?_, by dsimp only; omega⟩
      rw [if_pos (show a.1 < first by omega)]
      exact List.mem_append_left _ (List.mem_singleton_self _)
    · refine ⟨(last, a.2), ?_, by dsimp only; omega⟩
      rw [if_pos (show a.2 > last by omega)]
      exact List.mem_append_right _ (List.mem_singleton_self _)

theorem cut_apart (hle : first ≤ last) : (cutArea first last a).Pairwise (Apart limit) := by
  unfold cutArea
  split
  · exact List.pairwise_singleton _ _
  · refine List.pairwise_append.mpr ⟨?_, ?_, ?_⟩
    · split
      · exact List.pairwise_singleton _ _
      · exact .nil
    · split
      · exact List.pairwise_singleton _ _
      · exact .nil
    · intro b hb c hc v _ hvb hvc
      unfold Inside at *
      split at hb
      · split at hc
        · rw [List.mem_singleton.mp hb] at hvb
          rw [List.mem_singleton.mp hc] at hvc
          dsimp only at hvb hvc
          omega
        · cases hc
      · cases hb

/-- What is left of an area has the run of frames of the area. -/
theorem Uniform.cut (h : Uniform limit e a) (hb : b ∈ cutArea first last a)
    (hout : ∀ v, v < limit → ¬ Inside v (first, last) → e' v = e v) : Uniform limit e' b := by
  obtain ⟨ppn, flags, hflags, hrun⟩ := h
  refine ⟨ppn + (b.1 - a.1), flags, hflags, fun v hv hvb => ?_⟩
  obtain ⟨hva, hno⟩ := inside_of_cut hb hvb
  rw [hout v hv hno, hrun v hv hva]
  have hb1 : a.1 ≤ b.1 := by
    rcases cut_cases hb with ⟨rfl, -⟩ | ⟨hc, ⟨rfl, -⟩ | ⟨rfl, -⟩⟩
    · exact Nat.le_refl _
    · exact Nat.le_refl _
    · dsimp only
      omega
  have hvb1 := hvb.1
  rw [show ppn + (b.1 - a.1) + (v - b.1) = ppn + (v - a.1) by omega]

/-- The pages of the range have no entries now. -/
theorem Covers.cut (h : Covers P limit e areas) (hle : P → first ≤ last)
    (hin : ∀ v, v < limit → Inside v (first, last) → (e' v).isValid = false)
    (hout : ∀ v, v < limit → ¬ Inside v (first, last) → e' v = e v) :
    Covers P limit e' (areas.flatMap (cutArea first last)) := by
  refine ⟨?_, ?_, ?_, ?_⟩
  · intro b hb
    obtain ⟨a, ha, hb⟩ := List.mem_flatMap.mp hb
    obtain ⟨hlt, hmax⟩ := h.bounds a ha
    rcases cut_cases hb with ⟨rfl, -⟩ | ⟨hc, ⟨rfl, hc'⟩ | ⟨rfl, hc'⟩⟩
    · exact ⟨hlt, hmax⟩
    · dsimp only
      exact ⟨hc', by omega⟩
    · dsimp only
      exact ⟨hc', hmax⟩
  · intro hn
    rw [List.pairwise_flatMap]
    refine ⟨fun a _ => cut_apart (hle hn), (h.apart hn).imp ?_⟩
    intro a a' haa b hb b' hb' v hv hvb hvb'
    exact haa v hv (inside_of_cut hb hvb).1 (inside_of_cut hb' hvb').1
  · intro b hb
    obtain ⟨a, ha, hb⟩ := List.mem_flatMap.mp hb
    exact (h.uniform a ha).cut hb hout
  · intro v hv hno
    by_cases hvr : Inside v (first, last)
    · exact hin v hv hvr
    · rw [hout v hv hvr]
      refine h.gap v hv fun a ha hva => ?_
      obtain ⟨b, hb, hvb⟩ := cut_of_inside hva hvr
      exact hno b (List.mem_flatMap.mpr ⟨a, ha, hb⟩) hvb

end

/-! ## From the trees to one space -/

section

variable {good : PageProp} {kernel : Nat} {shared : List Nat} {label : Nat → Option Node} {h h' : Heap}
  {A : FrameAllocator} {s s' : AddressSpace} {first last ppn n v w r limit : Nat} {flags : VmFlags}

theorem indexIn_inj (hv : v ≤ vpnMax) (hw : w ≤ vpnMax) (h2 : indexIn w 2 = indexIn v 2) (h1 : indexIn w 1 = indexIn v 1)
    (h0 : indexIn w 0 = indexIn v 0) : w = v := by
  unfold indexIn vpnMax at *
  omega

theorem within_iff (hw : w ≤ vpnMax) (hlast : last ≤ vpnMax + 1) :
    Within kernel shared r w r first (last - first) ↔ Inside w (first, last) := by
  unfold Inside
  constructor
  · rintro ⟨k, hk, ha⟩
    have he := indexIn_inj (by omega) hw ha.top ha.mid ha.last
    dsimp only
    omega
  · intro hin
    dsimp only at hin
    refine ⟨w - first, by omega, ?_⟩
    rw [show first + (w - first) = w by omega]
    exact .refl

/-- A mapping, as the space it was made in sees it. -/
theorem Mapped.own (hm : Mapped kernel shared label h h' r first (last - first) ppn flags)
    (hr : label r = some (.root r)) (hlast : last ≤ vpnMax + 1) :
    (∀ v, v ≤ vpnMax → Inside v (first, last) →
      entry h' r v = ⟨ppn + (v - first), flags⟩ ∧ (entry h r v).isValid = false) ∧
    ∀ v, v ≤ vpnMax → ¬ Inside v (first, last) → entry h' r v = entry h r v := by
  refine ⟨?_, ?_⟩
  · intro v _ hin
    unfold Inside at hin
    dsimp only at hin
    refine hm.inside hr (by omega) ?_
    rw [show first + (v - first) = v by omega]
    exact .refl
  · intro v hv hno
    exact hm.outside hr fun hw => hno ((within_iff hv hlast).mp hw)

theorem Cleared.own (hc : Cleared kernel shared label h h' r first (last - first)) (hr : label r = some (.root r))
    (hlast : last ≤ vpnMax + 1) :
    (∀ v, v ≤ vpnMax → Inside v (first, last) → (entry h' r v).isValid = false) ∧
    ∀ v, v ≤ vpnMax → ¬ Inside v (first, last) → entry h' r v = entry h r v :=
  ⟨fun _ hv hin => hc.inside hr ((within_iff hv hlast).mpr hin),
    fun _ hv hno => hc.outside hr fun hw => hno ((within_iff hv hlast).mp hw)⟩

end

/-! ## Runs of one space -/

inductive Op where
  | map (first last : Nat) (data : List UInt8) (offset : Nat) (flags : VmFlags)
  | mapAnonymous (first last : Nat) (flags : VmFlags)
  | mapExtern (first last pbase : Nat) (flags : VmFlags)
  | unmap (first last : Nat)

namespace Op

def run (A : FrameAllocator) (s : AddressSpace) (h : Heap) : Op → Except Halt (AddressSpace × Heap)
  | .map first last data offset flags => AddressSpace.map A h s first last data offset flags
  | .mapAnonymous first last flags => AddressSpace.mapAnonymous A h s first last flags
  | .mapExtern first last pbase flags => AddressSpace.mapExtern A h s first last pbase flags
  | .unmap first last => .ok (AddressSpace.unmap h s first last)

/-- Mappings make valid entries, and an unmapping has a range of page numbers. What else a
    mapping asks for (a range that is not empty, ends with the page numbers and meets no area)
    the kernel makes sure of: it stops otherwise. -/
def Allowed : Op → Prop
  | .map _ _ _ _ flags => Flag.v ∈ flags
  | .mapAnonymous _ _ flags => Flag.v ∈ flags
  | .mapExtern _ _ _ flags => Flag.v ∈ flags
  | .unmap first last => first ≤ last ∧ last ≤ vpnMax + 1

end Op

/-- A space, and the heap its tables are in. -/
abbrev SpaceRun (A : FrameAllocator) (x : AddressSpace × Heap) (ops : List Op) (y : AddressSpace × Heap) : Prop :=
  Exec (fun x op y => op.Allowed ∧ op.run A x.1 x.2 = .ok y) x ops y

/-- The tables of the space are a tree, and its areas cover it. -/
structure AreaInv (x : AddressSpace × Heap) : Prop where
  tree : ∃ label, Tree (fun _ _ _ _ _ => True) x.1.root [] label x.2
  covers : Covers True (vpnMax + 1) (entry x.2 x.1.root) x.1.areas

section

variable {A : FrameAllocator} {x y : AddressSpace × Heap} {op : Op} {first last ppn : Nat} {flags : VmFlags}

theorem areaInv_new {h : Heap} (hnew : AddressSpace.new A h = .ok x) : AreaInv x := by
  obtain ⟨⟨p, h1⟩, halloc, hnew⟩ := bind_eq_ok.mp hnew
  cases hnew
  have hT : Tree (fun _ _ _ _ _ => True) p [] (fun f => if f = p then some (.root p) else none) h1 := tree_first halloc
  refine ⟨⟨_, hT⟩, covers_nil fun v _ => ?_⟩
  obtain ⟨hin, -, -⟩ := pageAlloc_ok halloc
  obtain ⟨-, -, hz⟩ := hin p (Nat.le_refl p) (Nat.lt_succ_self p)
  have hnone : leafOf h1 p v = none := by
    unfold leafOf Vm.next
    rw [hz]
    rfl
  show (entry h1 p v).isValid = false
  rw [entry_none hnone]
  rfl

/-- A mapping that returned recorded its range. -/
theorem AreaInv.add (hi : AreaInv x) (hflags : Flag.v ∈ flags)
    (hmap : ∀ label, Tree (fun _ _ _ _ _ => True) x.1.root [] label x.2 →
      first < last ∧ last ≤ vpnMax + 1 ∧ y.1 = { x.1 with areas := x.1.areas ++ [(first, last)] } ∧
        ∃ label', Extends (fun _ _ _ _ _ => True) x.1.root [] label label' y.2 ∧
          Mapped x.1.root [] label x.2 y.2 x.1.root first (last - first) ppn flags) : AreaInv y := by
  obtain ⟨label, hT⟩ := hi.tree
  obtain ⟨hlt, hlast, hs, label', hx, hm⟩ := hmap label hT
  obtain ⟨hin, hout⟩ := hm.own hT.kern hlast
  obtain ⟨s', h'⟩ := y
  obtain rfl : s' = _ := hs
  exact ⟨⟨label', hx.tree⟩, hi.covers.add hlt hlast hflags (fun v hv => hin v (Nat.le_of_lt_succ hv))
    fun v hv => hout v (Nat.le_of_lt_succ hv)⟩

theorem AreaInv.step (hi : AreaInv x) (ha : op.Allowed) (hok : op.run A x.1 x.2 = .ok y) : AreaInv y := by
  have hfresh : ∀ {first last ppn flags}, Flag.v ∈ flags → MapsFresh A x.2 x.1 first last ppn flags y.1 y.2 → AreaInv y := by
    intro first last ppn flags hflags hf
    refine @AreaInv.add x y first last ppn (insert Flag.owned flags) hi (Finset.mem_insert_of_mem hflags) ?_
    intro label hT
    obtain ⟨hlt, hlast, hs, -, -, hx⟩ := hT.mapFresh hT.kern hflags (fun _ _ _ _ _ => trivial) hf
    exact ⟨hlt, hlast, hs, hx⟩
  cases op with
  | map first last data offset flags =>
    obtain ⟨ppn, hf⟩ := map_fresh hok
    exact hfresh ha hf
  | mapAnonymous first last flags =>
    obtain ⟨ppn, hf⟩ := mapAnonymous_fresh hok
    exact hfresh ha hf
  | mapExtern first last pbase flags =>
    refine @AreaInv.add x y first last pbase flags hi ha ?_
    intro label hT
    obtain ⟨hlt, hlast, hs, -, hx⟩ := hT.mapExtern hT.kern ha (fun _ _ _ _ _ => trivial) hok
    exact ⟨hlt, hlast, hs, hx⟩
  | unmap first last =>
    cases hok
    obtain ⟨label, hT⟩ := hi.tree
    obtain ⟨-, hT', hc⟩ := hT.clearPages (v := first) (n := last - first) hT.kern
    obtain ⟨hin, hout⟩ := hc.own hT.kern ha.2
    refine ⟨⟨label, hT'⟩, hi.covers.cut (fun _ => ha.1) ?_ ?_⟩
    · intro v hv
      exact hin v (by omega)
    · intro v hv
      exact hout v (by omega)

end

/-- In every state of an address space that was made by `new` and changed by mappings and by
    unmappings of any ranges: its areas are disjoint, a page has a valid entry
    exactly when it lies in one of them, and the pages of an area have one set of flags and one
    run of frames. -/
theorem area_table {A : FrameAllocator} {h : Heap} {x y : AddressSpace × Heap} {ops : List Op}
    (hnew : AddressSpace.new A h = .ok x) (hrun : SpaceRun A x ops y) :
    y.1.areas.Pairwise (fun a b => a.2 ≤ b.1 ∨ b.2 ≤ a.1) ∧
    (∀ v, (visit y.2 y.1 v).isSome = true ↔ ∃ a ∈ y.1.areas, a.1 ≤ v ∧ v < a.2) ∧
    ∀ a ∈ y.1.areas, ∃ ppn flags, ∀ v, a.1 ≤ v → v < a.2 → visit y.2 y.1 v = some ⟨ppn + (v - a.1), flags⟩ := by
  have hi : AreaInv y := hrun.inv (P := fun _ x => AreaInv x) (areaInv_new hnew) fun hi hs => hi.step hs.1 hs.2
  have hc := hi.covers
  refine ⟨?_, ?_, ?_⟩
  · refine List.Pairwise.imp_of_mem ?_ (hc.apart trivial)
    intro a b ha hb hab
    obtain ⟨hlta, hmaxa⟩ := hc.bounds a ha
    obtain ⟨hltb, hmaxb⟩ := hc.bounds b hb
    -- The later of the two starts lies in its own area, so not in the other.
    have hno := hab (max a.1 b.1) (by omega)
    unfold Inside at hno
    omega
  · intro v
    constructor
    · intro hv
      obtain ⟨pte, hpte⟩ := Option.isSome_iff_exists.mp hv
      obtain ⟨hle, rfl, hvalid⟩ := visit_some hpte
      exact (hc.valid_iff (by omega)).mp hvalid
    · rintro ⟨a, ha, hin⟩
      have hmax := (hc.bounds a ha).2
      rw [visit_eq _ _ (by omega), if_pos ((hc.valid_iff (by omega)).mpr ⟨a, ha, hin⟩)]
      rfl
  · intro a ha
    obtain ⟨ppn, flags, hflags, hrun⟩ := hc.uniform a ha
    refine ⟨ppn, flags, fun v h1 h2 => ?_⟩
    have hmax := (hc.bounds a ha).2
    have he := hrun v (by omega) ⟨h1, h2⟩
    rw [visit_eq _ _ (by omega), he, if_pos (by simpa [Pte.isValid] using hflags)]

/-- Eight pages are mapped, the middle ones unmapped, and two of those mapped again. -/
theorem area_table_cut : ∃ y : AddressSpace × Heap, y.1.areas = [(16, 18), (22, 24), (19, 21)] ∧
    (∀ v, (visit y.2 y.1 v).isSome = true ↔ ∃ a ∈ y.1.areas, a.1 ≤ v ∧ v < a.2) := by
  have hruns : (do
      let x ← AddressSpace.new bump bareHeap
      let x1 ← Op.run bump x.1 x.2 (.mapAnonymous 16 24 ({Flag.u, Flag.r, Flag.v} : VmFlags))
      let x2 ← Op.run bump x1.1 x1.2 (.unmap 18 22)
      Op.run bump x2.1 x2.2 (.mapExtern 19 21 7 ({Flag.u, Flag.w, Flag.r, Flag.v} : VmFlags))).map (fun y : AddressSpace × Heap => y.1.areas) =
      .ok [(16, 18), (22, 24), (19, 21)] := by
    rfl
  obtain ⟨y, hruns, hareas⟩ := map_eq_ok hruns
  obtain ⟨x, hnew, hruns⟩ := bind_eq_ok.mp hruns
  obtain ⟨x1, h1, hruns⟩ := bind_eq_ok.mp hruns
  obtain ⟨x2, h2, h3⟩ := bind_eq_ok.mp hruns
  have hrun : SpaceRun bump x [_, _, _] y :=
    ((Exec.single ⟨by simp [Op.Allowed], h1⟩).snoc ⟨by simp [Op.Allowed], h2⟩).snoc ⟨by simp [Op.Allowed], h3⟩
  exact ⟨y, hareas, (area_table hnew hrun).2.1⟩

end TgRcore.Vm
