/-
  TgRcore.Vm.Mapping — what the operations of an address space do to the trees of all spaces.

  For the space of the operation and every other space: which pages have which entries
  afterwards. All of the operations keep `Tree`.
  - `Tree.mapExtern`, `Tree.mapFrames`, `Tree.mapFresh`: the pages of the range, which had no
    entry, have the flags asked for and frames one after the other.
  - `Tree.clearPages`: the pages of the range have none.
  - `Tree.new`: a new space, without pages.
-/

import TgRcore.Vm.Tree

namespace TgRcore.Vm

open TgRcore.BlockProg AddressSpace

section

variable {good : PageProp} {kernel : Nat} {shared : List Nat} {label : Nat → Option Node} {h h' : Heap}
  {A : FrameAllocator} {s s' : AddressSpace} {first last ppn n v : Nat} {flags : VmFlags}

/-- The pages from `v` on, as seen from a space that may share entries with it. -/
def Within (kernel : Nat) (shared : List Nat) (q w r v n : Nat) : Prop :=
  ∃ k, k < n ∧ Aliases kernel shared q w r (v + k)

/-- What an operation on the pages from `v` on did to the entries of the spaces that were there. -/
structure Mapped (kernel : Nat) (shared : List Nat) (label : Nat → Option Node) (h h' : Heap) (r v n ppn : Nat)
    (flags : VmFlags) : Prop where
  inside : ∀ {q w k}, label q = some (.root q) → k < n → Aliases kernel shared q w r (v + k) →
    entry h' q w = ⟨ppn + k, flags⟩ ∧ (entry h q w).isValid = false
  outside : ∀ {q w}, label q = some (.root q) → ¬ Within kernel shared q w r v n → entry h' q w = entry h q w

theorem Tree.entry_same (hT : Tree good kernel shared label h)
    (hs : ∀ f k, label f = some k → h'.tables f = h.tables f) {q w : Nat} (hq : label q = some (.root q)) :
    entry h' q w = entry h q w := by
  have h2 : Vm.next h' q (indexIn w 2) = Vm.next h q (indexIn w 2) := next_eq (by rw [hs q _ hq])
  cases hmid : Vm.next h q (indexIn w 2) with
  | none => rw [entry_none (h := h) (by rw [leafOf, hmid]; rfl), entry_none (by rw [leafOf, h2, hmid]; rfl)]
  | some mid =>
    have hml := hT.next_some hq rfl hmid
    have h1 : Vm.next h' mid (indexIn w 1) = Vm.next h mid (indexIn w 1) := next_eq (by rw [hs mid _ hml])
    have hleaf : leafOf h' q w = leafOf h q w := by
      rw [leafOf, leafOf, h2, hmid, Option.bind_some, Option.bind_some, h1]
    cases hl : leafOf h q w with
    | none => rw [entry_none hl, entry_none (by rw [hleaf, hl])]
    | some leaf => rw [entry_some hl, entry_some (by rw [hleaf, hl]), hs leaf _ (hT.leafOf_some hq hl)]

theorem Tree.alloc_same (hT : Tree good kernel shared label h) {p count : Nat}
    (hok : h.pageAlloc A count = .ok (p, h')) {f : Nat} {k : Node} (hl : label f = some k) :
    h'.tables f = h.tables f := by
  obtain ⟨hin, hout, -⟩ := pageAlloc_ok hok
  exact hout f fun hf => (hin f hf.1 hf.2).1 (hT.handed hl)

/-! ## Bytes -/

/-- What was handed out stays handed out, with its bytes. -/
structure Grown (h h' : Heap) : Prop where
  handed : ∀ f, h.Handed f → h'.Handed f
  bytes : ∀ f i, h.Handed f → i < pageSize → h'.mem (f * pageSize + i) = h.mem (f * pageSize + i)

theorem Grown.refl : Grown h h := ⟨fun _ hf => hf, fun _ _ _ _ => rfl⟩

theorem Grown.trans {h1 h2 : Heap} (hg : Grown h h1) (hg' : Grown h1 h2) : Grown h h2 :=
  ⟨fun f hf => hg'.handed f (hg.handed f hf), fun f i hf hi => by rw [hg'.bytes f i (hg.handed f hf) hi, hg.bytes f i hf hi]⟩

theorem pageAlloc_grown {p count : Nat} (hok : h.pageAlloc A count = .ok (p, h')) : Grown h h' := by
  obtain ⟨hin, -, hh⟩ := pageAlloc_ok hok
  refine ⟨hh, ?_⟩
  intro f i hf hi
  unfold Heap.pageAlloc at hok
  split at hok
  · cases hok
  · cases hok
    refine if_neg fun e => ?_
    unfold pageSize at *
    exact (hin f (by omega) (by omega)).1 hf

theorem descend_grown {t i p : Nat} (hok : Vm.descend A h t i = .ok (p, h')) : Grown h h' := by
  unfold Vm.descend at hok
  dsimp only at hok
  split at hok
  · split at hok
    · cases hok
      exact .refl
    · cases hok
  · obtain ⟨⟨q, h1⟩, halloc, hok⟩ := bind_eq_ok.mp hok
    cases hok
    have hg := pageAlloc_grown halloc
    exact ⟨hg.handed, hg.bytes⟩

theorem mapPage_grown {r : Nat} {pte : Pte} (hok : Vm.mapPage A h r v pte = .ok h') : Grown h h' := by
  obtain ⟨⟨mid, h1⟩, hmid, hok⟩ := bind_eq_ok.mp hok
  obtain ⟨⟨leaf, h2⟩, hleaf, hok⟩ := bind_eq_ok.mp hok
  have hg := (descend_grown hmid).trans (descend_grown hleaf)
  dsimp only at hok
  split at hok
  · cases hok
  · cases hok
    exact ⟨hg.handed, hg.bytes⟩

theorem walkMut_grown {r : Nat} (hok : Vm.walkMut A r flags h v ppn n = .ok h') : Grown h h' := by
  induction n generalizing h v ppn with
  | zero =>
    cases hok
    exact .refl
  | succ n ih =>
    unfold Vm.walkMut at hok
    split at hok
    · cases hok
    · obtain ⟨h1, hpage, hok⟩ := bind_eq_ok.mp hok
      exact (mapPage_grown hpage).trans (ih hok)

theorem mapExtern_grown (hok : AddressSpace.mapExtern A h s first last ppn flags = .ok (s', h')) : Grown h h' := by
  unfold AddressSpace.mapExtern at hok
  split at hok
  · cases hok
  · obtain ⟨h1, hwalk, hok⟩ := bind_eq_ok.mp hok
    cases hok
    exact walkMut_grown hwalk

/-! ## Mapping -/

/-- What a mapping leaves behind, and what it may rely on. -/
theorem Tree.mapExtern (hT : Tree good kernel shared label h) (hr : label s.root = some (.root s.root))
    (hflags : Flag.v ∈ flags)
    (hg : ∀ v ppn, first ≤ v → v < last → v ≤ vpnMax → good (home kernel shared s.root (indexIn v 2)) (indexIn v 2)
      (indexIn v 1) (indexIn v 0) ⟨ppn, flags⟩)
    (hok : AddressSpace.mapExtern A h s first last ppn flags = .ok (s', h')) :
    first < last ∧ last ≤ vpnMax + 1 ∧ s' = { s with areas := s.areas ++ [(first, last)] } ∧ (∀ f, h.Handed f → h'.Handed f) ∧
      ∃ label', Extends good kernel shared label label' h' ∧
        Mapped kernel shared label h h' s.root first (last - first) ppn flags := by
  unfold AddressSpace.mapExtern at hok
  split at hok
  · cases hok
  · rename_i hlt
    obtain ⟨h1, hwalk, hok⟩ := bind_eq_ok.mp hok
    cases hok
    obtain ⟨hle, label', hx, hh, he⟩ := hT.walkMut hr hflags (fun k hk hle => hg _ _ (by omega) (by omega) hle) hwalk
    have hlast := hle (last - first - 1) (by omega)
    refine ⟨by omega, by omega, rfl, hh, label', hx, ⟨?_, ?_⟩⟩
    · intro q w k hq hk ha
      exact (he q w hq).1 k hk ha
    · intro q w hq hno
      exact (he q w hq).2 fun k hk ha => hno ⟨k, hk, ha⟩

/-- Frames are handed out, something that is no table is written into them, and they are
    mapped. -/
def MapsFresh (A : FrameAllocator) (h : Heap) (s : AddressSpace) (first last ppn : Nat) (flags : VmFlags)
    (s' : AddressSpace) (h' : Heap) : Prop :=
  ∃ h1 h2, h.pageAlloc A (last - first) = .ok (ppn, h1) ∧ h2.tables = h1.tables ∧ h2.used = h1.used ∧
    AddressSpace.mapExtern A h2 s first last ppn (insert Flag.owned flags) = .ok (s', h')

theorem map_fresh {data : List UInt8} {offset : Nat}
    (hok : AddressSpace.map A h s first last data offset flags = .ok (s', h')) :
    ∃ ppn, MapsFresh A h s first last ppn flags s' h' := by
  unfold AddressSpace.map at hok
  split at hok
  · cases hok
  · dsimp only at hok
    split at hok
    · cases hok
    · obtain ⟨⟨p, flags', h1⟩, halloc, hok⟩ := bind_eq_ok.mp hok
      obtain ⟨⟨p', h2⟩, hpage, halloc⟩ := bind_eq_ok.mp halloc
      cases halloc
      refine ⟨p, h1, _, hpage, ?_, ?_, hok⟩
      · rfl
      · rfl

theorem mapAnonymous_fresh (hok : AddressSpace.mapAnonymous A h s first last flags = .ok (s', h')) :
    ∃ ppn, MapsFresh A h s first last ppn flags s' h' := by
  unfold AddressSpace.mapAnonymous at hok
  split at hok
  · cases hok
  · obtain ⟨⟨p, flags', h1⟩, halloc, hok⟩ := bind_eq_ok.mp hok
    obtain ⟨⟨p', h2⟩, hpage, halloc⟩ := bind_eq_ok.mp halloc
    cases halloc
    refine ⟨p, h1, _, hpage, ?_, ?_, hok⟩
    · rfl
    · rfl

/-- A clone of an area has its bytes, as far as they lie in frames that were handed out. -/
theorem cloneArea_fresh {child child' : AddressSpace} {area : Nat × Nat}
    (hok : cloneArea A h s child area = .ok (child', h')) :
    ∃ pte ppn, visit h s area.1 = some pte ∧ MapsFresh A h child area.1 area.2 ppn pte.flags child' h' ∧ Grown h h' ∧
      ∀ k i, k < area.2 - area.1 → i < pageSize → h.Handed (pte.ppn + k) →
        h'.mem ((ppn + k) * pageSize + i) = h.mem ((pte.ppn + k) * pageSize + i) := by
  unfold cloneArea at hok
  split at hok
  · cases hok
  · rename_i pte hpte
    split at hok
    · cases hok
    · obtain ⟨⟨p, flags', h1⟩, halloc, hok⟩ := bind_eq_ok.mp hok
      obtain ⟨⟨p', h2⟩, hpage, halloc⟩ := bind_eq_ok.mp halloc
      cases halloc
      have hmap := mapExtern_grown hok
      obtain ⟨hin, -, -⟩ := pageAlloc_ok hpage
      have hnew := pageAlloc_grown hpage
      have hcopy : Grown h (h1.copy (pte.ppn * pageSize) (p * pageSize) ((area.2 - area.1) * pageSize)) := by
        refine ⟨hnew.handed, ?_⟩
        intro f i hf hi
        rw [← hnew.bytes f i hf hi]
        refine if_neg fun e => ?_
        unfold pageSize at *
        exact (hin f (by omega) (by omega)).1 hf
      have hfresh : MapsFresh A h child area.1 area.2 p pte.flags child' h' := by
        refine ⟨h1, _, hpage, ?_, ?_, hok⟩
        · rfl
        · rfl
      refine ⟨pte, p, hpte, hfresh, hcopy.trans hmap, ?_⟩
      intro k i hk hi hf
      rw [hmap.bytes (p + k) i (hin (p + k) (by omega) (by omega)).2.1 hi, ← hnew.bytes _ i hf hi]
      have hin : p * pageSize ≤ (p + k) * pageSize + i ∧
          (p + k) * pageSize + i < p * pageSize + (area.2 - area.1) * pageSize := by
        unfold pageSize at *
        omega
      refine (if_pos hin).trans ?_
      rw [show pte.ppn * pageSize + ((p + k) * pageSize + i - p * pageSize) = (pte.ppn + k) * pageSize + i by
        unfold pageSize
        omega]

/-- Frames from the allocator are mapped. -/
theorem Tree.mapFrames {h1 h2 : Heap} (hT : Tree good kernel shared label h) (hr : label s.root = some (.root s.root))
    (hflags : Flag.v ∈ flags)
    (hg : ∀ v ppn, first ≤ v → v < last → v ≤ vpnMax → good (home kernel shared s.root (indexIn v 2)) (indexIn v 2)
      (indexIn v 1) (indexIn v 0) ⟨ppn, flags⟩)
    (hpage : h.pageAlloc A (last - first) = .ok (ppn, h1)) (htables : h2.tables = h1.tables) (hused : h2.used = h1.used)
    (hok : AddressSpace.mapExtern A h2 s first last ppn flags = .ok (s', h')) :
    first < last ∧ last ≤ vpnMax + 1 ∧ s' = { s with areas := s.areas ++ [(first, last)] } ∧ (∀ f, h.Handed f → h'.Handed f) ∧
      (∀ k, k < last - first → ¬ h.Handed (ppn + k) ∧ h'.Handed (ppn + k)) ∧
      ∃ label', Extends good kernel shared label label' h' ∧
        Mapped kernel shared label h h' s.root first (last - first) ppn flags := by
  obtain ⟨hin, hout, hh⟩ := pageAlloc_ok hpage
  have hh2 : ∀ f, h1.Handed f → h2.Handed f := by
    intro f ⟨q, c, hm, hlt⟩
    exact ⟨q, c, hused ▸ hm, hlt⟩
  have hs1 : ∀ f k, label f = some k → h2.tables f = h.tables f := by
    intro f k hl
    rw [htables, hT.alloc_same hpage hl]
  have hT2 : Tree good kernel shared label h2 := hT.same (fun f hf => hh2 f (hh f hf)) hs1
  obtain ⟨hlt, hlast, hs', hh3, label', hx, hm⟩ := hT2.mapExtern hr hflags hg hok
  refine ⟨hlt, hlast, hs', fun f hf => hh3 f (hh2 f (hh f hf)), ?_, label', hx, ⟨?_, ?_⟩⟩
  · intro k hk
    obtain ⟨hno, hyes, -⟩ := hin (ppn + k) (by omega) (by omega)
    exact ⟨hno, hh3 _ (hh2 _ hyes)⟩
  · intro q w k hq hk ha
    rw [← hT.entry_same hs1 hq]
    exact hm.inside hq hk ha
  · intro q w hq hno
    rw [← hT.entry_same hs1 hq]
    exact hm.outside hq hno

theorem Tree.mapFresh (hT : Tree good kernel shared label h) (hr : label s.root = some (.root s.root))
    (hflags : Flag.v ∈ flags)
    (hg : ∀ v ppn, first ≤ v → v < last → v ≤ vpnMax → good (home kernel shared s.root (indexIn v 2)) (indexIn v 2)
      (indexIn v 1) (indexIn v 0) ⟨ppn, insert Flag.owned flags⟩)
    (hok : MapsFresh A h s first last ppn flags s' h') :
    first < last ∧ last ≤ vpnMax + 1 ∧ s' = { s with areas := s.areas ++ [(first, last)] } ∧ (∀ f, h.Handed f → h'.Handed f) ∧
      (∀ k, k < last - first → ¬ h.Handed (ppn + k) ∧ h'.Handed (ppn + k)) ∧
      ∃ label', Extends good kernel shared label label' h' ∧
        Mapped kernel shared label h h' s.root first (last - first) ppn (insert Flag.owned flags) := by
  obtain ⟨h1, h2, hpage, htables, hused, hok⟩ := hok
  exact hT.mapFrames hr (Finset.mem_insert_of_mem hflags) hg hpage htables hused hok

/-! ## Unmapping -/

theorem Tree.findPteMut (hT : Tree good kernel shared label h) (hr : label s.root = some (.root s.root)) :
    AddressSpace.findPteMut h s v = (leafOf h s.root v).map fun t => (t, indexIn v 0) := by
  have hflags : ∀ {t n i m}, label t = some n → n.child kernel shared i = some m → (h.tables t i).isValid = true →
      Flag.r ∉ (h.tables t i).flags ∧ Flag.x ∉ (h.tables t i).flags := by
    intro t n i m hl hc hv
    rw [(hT.link hl hc hv).2]
    decide
  unfold AddressSpace.findPteMut leafOf Vm.next
  by_cases htop : (h.tables s.root (indexIn v 2)).isValid = true
  · have hml := (hT.link hr rfl htop).1
    obtain ⟨hr2, hx2⟩ := hflags hr rfl htop
    by_cases hmid : (h.tables (h.tables s.root (indexIn v 2)).ppn (indexIn v 1)).isValid = true
    · obtain ⟨hr1, hx1⟩ := hflags hml rfl hmid
      simp [htop, hmid, hr2, hx2, hr1, hx1]
    · simp [htop, hmid, hr2, hx2]
  · simp [htop]

/-- What an unmapping did to the entries. -/
structure Cleared (kernel : Nat) (shared : List Nat) (label : Nat → Option Node) (h h' : Heap) (r v n : Nat) : Prop where
  inside : ∀ {q w}, label q = some (.root q) → Within kernel shared q w r v n → (entry h' q w).isValid = false
  outside : ∀ {q w}, label q = some (.root q) → ¬ Within kernel shared q w r v n → entry h' q w = entry h q w

theorem Tree.clearPages (hT : Tree good kernel shared label h) (hr : label s.root = some (.root s.root)) :
    (∀ f, h.Handed f → (AddressSpace.clearPages s h v n).Handed f) ∧
      Tree good kernel shared label (AddressSpace.clearPages s h v n) ∧
      Cleared kernel shared label h (AddressSpace.clearPages s h v n) s.root v n := by
  induction n generalizing h v with
  | zero =>
    refine ⟨fun f hf => hf, hT, ⟨?_, fun _ _ => rfl⟩⟩
    intro q w hq ⟨k, hk, ha⟩
    omega
  | succ n ih =>
    -- One page: its entry is zero afterwards, in every space that has it.
    have hone : ∃ h1, AddressSpace.clearPages s h v (n + 1) = AddressSpace.clearPages s h1 (v + 1) n ∧
        (∀ f, h.Handed f → h1.Handed f) ∧ Tree good kernel shared label h1 ∧
        ∀ q w, label q = some (.root q) → (Aliases kernel shared q w s.root v → (entry h1 q w).isValid = false) ∧
          (¬ Aliases kernel shared q w s.root v → entry h1 q w = entry h q w) := by
      rw [AddressSpace.clearPages, hT.findPteMut hr]
      cases hl : leafOf h s.root v with
      | none =>
        refine ⟨h, rfl, fun f hf => hf, hT, fun q w hq => ⟨?_, fun _ => rfl⟩⟩
        intro ha
        rw [entry_none (by rw [hT.leafOf_alias ha, hl])]
        rfl
      | some t =>
        have htl := hT.leafOf_some hr hl
        refine ⟨_, rfl, fun f hf => hf, hT.put htl (by simp), fun q w hq => ?_⟩
        obtain ⟨hin, hout⟩ := @Tree.entry_put _ _ _ _ _ t .zero q w s.root v hT hr hq hl
        refine ⟨fun ha => ?_, hout⟩
        rw [hin ha]
        rfl
    obtain ⟨h1, he, hh1, hT1, hentry⟩ := hone
    rw [he]
    obtain ⟨hh2, hT2, hc⟩ := ih (v := v + 1) hT1
    have hstep : ∀ {q w}, Within kernel shared q w s.root v (n + 1) ↔
        Aliases kernel shared q w s.root v ∨ Within kernel shared q w s.root (v + 1) n := by
      intro q w
      constructor
      · rintro ⟨k, hk, ha⟩
        cases k with
        | zero => exact .inl ha
        | succ k => exact .inr ⟨k, by omega, by rwa [show v + 1 + k = v + (k + 1) by omega]⟩
      · intro hor
        rcases hor with ha | ⟨k, hk, ha⟩
        · exact ⟨0, by omega, ha⟩
        · exact ⟨k + 1, by omega, by rwa [show v + (k + 1) = v + 1 + k by omega]⟩
    refine ⟨fun f hf => hh2 f (hh1 f hf), hT2, ⟨?_, ?_⟩⟩
    · intro q w hq hw
      by_cases hlater : Within kernel shared q w s.root (v + 1) n
      · exact hc.inside hq hlater
      · rw [hc.outside hq hlater]
        exact (hentry q w hq).1 ((hstep.mp hw).resolve_right hlater)
    · intro q w hq hw
      have hw' : ¬ Aliases kernel shared q w s.root v ∧ ¬ Within kernel shared q w s.root (v + 1) n := by
        rwa [hstep, not_or] at hw
      rw [hc.outside hq hw'.2, (hentry q w hq).2 hw'.1]

/-! ## New spaces -/

/-- The first root, made before there is any table. -/
theorem tree_first {p : Nat} (hok : h.pageAlloc A 1 = .ok (p, h')) :
    Tree good p [] (fun f => if f = p then some (.root p) else none) h' := by
  obtain ⟨hin, -, -⟩ := pageAlloc_ok hok
  obtain ⟨-, hp, hz⟩ := hin p (Nat.le_refl p) (Nat.lt_succ_self p)
  have hzero : ∀ {f n i}, (if f = p then some (Node.root p) else none) = some n → (h'.tables f i).isValid = false := by
    intro f n i hl
    split at hl
    · rename_i e
      rw [e, hz]
      rfl
    · cases hl
  refine ⟨if_pos rfl, ?_, ?_, ?_, ?_, ?_⟩
  · intro f n hl
    split at hl
    · rename_i e
      rwa [e]
    · cases hl
  · intro f r hl
    split at hl
    · rename_i e
      cases hl
      exact e
    · cases hl
  · intro t n i m hl _ hv
    rw [hzero hl] at hv
    cases hv
  · intro t r i2 i1 i0 hl hv
    rw [hzero hl] at hv
    cases hv
  · intro r hr
    cases hr

/-- A new root, with no page. -/
theorem Tree.new (hT : Tree good kernel shared label h) (hok : AddressSpace.new A h = .ok (s, h')) :
    s.areas = [] ∧ label s.root = none ∧ (∀ f, h.Handed f → h'.Handed f) ∧ ∃ label',
      Extends good kernel shared label label' h' ∧ label' s.root = some (.root s.root) ∧
      (∀ q w, label q = some (.root q) → entry h' q w = entry h q w) ∧
      ∀ w, entry h' s.root w = .zero := by
  obtain ⟨⟨p, h1⟩, halloc, hok⟩ := bind_eq_ok.mp hok
  cases hok
  obtain ⟨hin, hout, hh⟩ := pageAlloc_ok halloc
  obtain ⟨hp, hp', hz⟩ := hin p (Nat.le_refl p) (Nat.lt_succ_self p)
  have hnone := hT.unnamed hp
  have hT1 := (hT.pageAlloc halloc).name (n := .root p) hnone hp' hz fun r e => Node.root.inj e
  refine ⟨rfl, hnone, hh, _, ⟨?_, hT1⟩, if_pos rfl, ?_, ?_⟩
  · intro f n hl
    have hne : f ≠ p := by
      intro e
      rw [e, hnone] at hl
      cases hl
    rw [if_neg hne, hl]
  · intro q w hq
    exact hT.entry_same (fun f k hl => hT.alloc_same halloc hl) hq
  · intro w
    refine entry_none ?_
    unfold leafOf Vm.next
    rw [hz]
    rfl

end

end TgRcore.Vm
