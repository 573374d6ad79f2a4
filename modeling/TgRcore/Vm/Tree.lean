/-
  TgRcore.Vm.Tree — the page tables of all address spaces as trees.

  Every table frame has a name: the root of a space, or a place below a root. The space of
  the kernel (`kernel`) lends the subtree under its last root entry, with the portal page, to
  every space in `shared`; a name below that entry is the kernel's.
  - `Tree`: every valid entry above the last level leads to the frame of its name, and every
    valid entry of the last level has a property `good` of its page and itself.
  - `Extends`: an operation keeps `Tree` and the names given so far.
  - `visit_good`: the walk of a page ends at an entry that is good for that page.
-/

import TgRcore.Vm.AddressSpace

namespace TgRcore.Vm

open TgRcore.BlockProg AddressSpace

inductive Node where
  | root (r : Nat)
  | mid (r i2 : Nat)
  | leaf (r i2 i1 : Nat)
  deriving DecidableEq, Repr

/-- The index of the portal in the root table. -/
abbrev portalIdx : Nat := 511

/-- Whose subtree hangs off an entry of a root table. -/
def home (kernel : Nat) (shared : List Nat) (r i : Nat) : Nat := if i = portalIdx ∧ r ∈ shared then kernel else r

def Node.child (kernel : Nat) (shared : List Nat) : Node → Nat → Option Node
  | .root r, i => some (.mid (home kernel shared r i) i)
  | .mid r i2, i => some (.leaf r i2 i)
  | .leaf _ _ _, _ => none

/-- The root, the three indices and the entry of a mapped page. -/
abbrev PageProp := Nat → Nat → Nat → Nat → Pte → Prop

structure Tree (good : PageProp) (kernel : Nat) (shared : List Nat) (label : Nat → Option Node) (h : Heap) : Prop where
  kern : label kernel = some (.root kernel)
  handed : ∀ {f n}, label f = some n → h.Handed f
  own : ∀ {f r}, label f = some (.root r) → f = r
  link : ∀ {t n i m}, label t = some n → n.child kernel shared i = some m → (h.tables t i).isValid = true →
    label (h.tables t i).ppn = some m ∧ (h.tables t i).flags = {.v, .owned}
  page : ∀ {t r i2 i1 i0}, label t = some (.leaf r i2 i1) → (h.tables t i0).isValid = true →
    good r i2 i1 i0 (h.tables t i0)
  lent : ∀ {r}, r ∈ shared → label r = some (.root r) ∧ (h.tables r portalIdx).isValid = true ∧
    h.tables r portalIdx = h.tables kernel portalIdx

/-- The names after an operation, and that it kept the trees. -/
structure Extends (good : PageProp) (kernel : Nat) (shared : List Nat) (label label' : Nat → Option Node)
    (h' : Heap) : Prop where
  keep : ∀ {f n}, label f = some n → label' f = some n
  tree : Tree good kernel shared label' h'

section

variable {good : PageProp} {kernel : Nat} {shared : List Nat} {label : Nat → Option Node} {h h' : Heap}
  {A : FrameAllocator} {t t' i r i2 i1 i0 root vpn : Nat} {n m : Node} {pte : Pte}

@[simp] theorem isValid_zero : Pte.zero.isValid = false := rfl

theorem setPte_same (h : Heap) (t i : Nat) (pte : Pte) : (h.setPte t i pte).tables t i = pte :=
  if_pos ⟨rfl, rfl⟩

theorem setPte_ne {f j : Nat} (h : Heap) (pte : Pte) (hne : ¬ (f = t ∧ j = i)) :
    (h.setPte t i pte).tables f j = h.tables f j := if_neg hne

/-- An allocation hands out fresh frames, zeroed, and leaves the others alone. -/
theorem pageAlloc_ok {p count : Nat} (hok : h.pageAlloc A count = .ok (p, h')) :
    (∀ f, p ≤ f → f < p + count → ¬ h.Handed f ∧ h'.Handed f ∧ ∀ j, h'.tables f j = .zero) ∧
      (∀ f, ¬ (p ≤ f ∧ f < p + count) → h'.tables f = h.tables f) ∧ ∀ f, h.Handed f → h'.Handed f := by
  unfold Heap.pageAlloc at hok
  split at hok
  · cases hok
  · rename_i q hq
    cases hok
    refine ⟨?_, ?_, ?_⟩
    · intro f h1 h2
      exact ⟨A.fresh hq h1 h2, ⟨p, count, List.mem_cons_self, h1, h2⟩, fun j => if_pos ⟨h1, h2⟩⟩
    · intro f hout
      funext j
      exact if_neg hout
    · rintro f ⟨q, c, hm, hle, hlt⟩
      exact ⟨q, c, List.mem_cons_of_mem _ hm, hle, hlt⟩

/-! ## What keeps the trees -/

theorem Extends.trans {label1 label2 : Nat → Option Node} (h1 : Extends good kernel shared label label1 h)
    (h2 : Extends good kernel shared label1 label2 h') : Extends good kernel shared label label2 h' :=
  ⟨fun hl => h2.keep (h1.keep hl), h2.tree⟩

/-- Nothing changes in the tables that have names. -/
theorem Tree.same (hT : Tree good kernel shared label h) (hh : ∀ f, h.Handed f → h'.Handed f)
    (ht : ∀ f n, label f = some n → h'.tables f = h.tables f) : Tree good kernel shared label h' := by
  refine ⟨hT.kern, fun hl => hh _ (hT.handed hl), hT.own, ?_, ?_, ?_⟩
  · intro t n i m hl hc
    rw [ht t n hl]
    exact hT.link hl hc
  · intro t r i2 i1 i0 hl
    rw [ht t _ hl]
    exact hT.page hl
  · intro r hr
    obtain ⟨hl, hv, he⟩ := hT.lent hr
    rw [ht r _ hl, ht kernel _ hT.kern]
    exact ⟨hl, hv, he⟩

/-- Fresh frames have no name. -/
theorem Tree.unnamed (hT : Tree good kernel shared label h) {f : Nat} (hf : ¬ h.Handed f) : label f = none := by
  cases hl : label f with
  | none => rfl
  | some n => exact absurd (hT.handed hl) hf

theorem Tree.pageAlloc (hT : Tree good kernel shared label h) {p count : Nat} (hok : h.pageAlloc A count = .ok (p, h')) :
    Tree good kernel shared label h' := by
  obtain ⟨hin, hout, hh⟩ := pageAlloc_ok hok
  refine hT.same hh fun f n hl => hout f fun hf => ?_
  exact (hin f hf.1 hf.2).1 (hT.handed hl)

/-- A frame that is all zero gets a name. -/
theorem Tree.name (hT : Tree good kernel shared label h) {p : Nat} (hp : label p = none) (hh : h.Handed p)
    (hz : ∀ j, h.tables p j = .zero) (hn : ∀ r, n = .root r → p = r) :
    Tree good kernel shared (fun f => if f = p then some n else label f) h := by
  have hne : ∀ {f m}, label f = some m → f ≠ p := by
    intro f m hl e
    rw [e, hp] at hl
    cases hl
  have hkeep : ∀ {f m}, label f = some m → (if f = p then some n else label f) = some m := by
    intro f m hl
    rw [if_neg (hne hl), hl]
  refine ⟨hkeep hT.kern, ?_, ?_, ?_, ?_, ?_⟩
  · intro f m hl
    split at hl
    · rename_i e
      rwa [e]
    · exact hT.handed hl
  · intro f r hl
    split at hl
    · rename_i e
      rw [e]
      exact hn r (Option.some.inj hl)
    · exact hT.own hl
  · intro t k i m hl hc hv
    split at hl
    · rename_i e
      rw [e, hz] at hv
      cases hv
    · obtain ⟨hlabel, hflags⟩ := hT.link hl hc hv
      exact ⟨hkeep hlabel, hflags⟩
  · intro t r i2 i1 i0 hl hv
    split at hl
    · rename_i e
      rw [e, hz] at hv
      cases hv
    · exact hT.page hl hv
  · intro r hr
    obtain ⟨hl, hv, he⟩ := hT.lent hr
    exact ⟨hkeep hl, hv, he⟩

/-- An empty entry is made to lead to the frame of its name. -/
theorem Tree.join (hT : Tree good kernel shared label h) (ht : label t = some n) (hc : n.child kernel shared i = some m)
    (hv : (h.tables t i).isValid = false) (ht' : label t' = some m) :
    Tree good kernel shared label (h.setPte t i ⟨t', {.v, .owned}⟩) := by
  refine ⟨hT.kern, fun hl => hT.handed hl, hT.own, ?_, ?_, ?_⟩
  · intro f k j m' hl hc' hv'
    by_cases he : f = t ∧ j = i
    · rw [he.1, he.2, setPte_same]
      rw [he.1, ht] at hl
      cases hl
      rw [he.2, hc] at hc'
      cases hc'
      exact ⟨ht', rfl⟩
    · rw [setPte_ne _ _ he] at hv' ⊢
      exact hT.link hl hc' hv'
  · intro f r i2 i1 i0 hl hv'
    have he : ¬ (f = t ∧ i0 = i) := by
      intro he
      rw [he.1, ht] at hl
      cases hl
      cases hc
    rw [setPte_ne _ _ he] at hv' ⊢
    exact hT.page hl hv'
  · intro r hr
    obtain ⟨hl, hvr, her⟩ := hT.lent hr
    have h1 : ¬ (r = t ∧ portalIdx = i) := by
      intro he
      rw [← he.1, ← he.2, hvr] at hv
      cases hv
    have h2 : ¬ (kernel = t ∧ portalIdx = i) := by
      intro he
      rw [← he.1, ← he.2, ← her, hvr] at hv
      cases hv
    rw [setPte_ne _ _ h1, setPte_ne _ _ h2]
    exact ⟨hl, hvr, her⟩

/-- An entry of the last level is set. -/
theorem Tree.put (hT : Tree good kernel shared label h) (ht : label t = some (.leaf r i2 i1))
    (hg : pte.isValid = true → good r i2 i1 i pte) : Tree good kernel shared label (h.setPte t i pte) := by
  have hroot : ∀ {f q j}, label f = some (.root q) → ¬ (f = t ∧ j = i) := by
    intro f q j hl he
    rw [he.1, ht] at hl
    cases hl
  refine ⟨hT.kern, fun hl => hT.handed hl, hT.own, ?_, ?_, ?_⟩
  · intro f k j m' hl hc' hv'
    have he : ¬ (f = t ∧ j = i) := by
      intro he
      rw [he.1, ht] at hl
      cases hl
      cases hc'
    rw [setPte_ne _ _ he] at hv' ⊢
    exact hT.link hl hc' hv'
  · intro f q j2 j1 j0 hl hv'
    by_cases he : f = t ∧ j0 = i
    · rw [he.1, he.2, setPte_same] at hv' ⊢
      rw [he.1, ht] at hl
      cases hl
      exact hg hv'
    · rw [setPte_ne _ _ he] at hv' ⊢
      exact hT.page hl hv'
  · intro q hq
    obtain ⟨hl, hv, he⟩ := hT.lent hq
    rw [setPte_ne _ _ (hroot hl), setPte_ne _ _ (hroot hT.kern)]
    exact ⟨hl, hv, he⟩

/-! ## The entry of a page -/

/-- The table that an entry leads to. -/
def next (h : Heap) (t i : Nat) : Option Nat := if (h.tables t i).isValid then some (h.tables t i).ppn else none

/-- The last-level table for a page. -/
def leafOf (h : Heap) (root vpn : Nat) : Option Nat := (next h root (indexIn vpn 2)).bind fun mid => next h mid (indexIn vpn 1)

/-- The entry of a page; zero where there is no table. -/
def entry (h : Heap) (root vpn : Nat) : Pte :=
  match leafOf h root vpn with
  | some t => h.tables t (indexIn vpn 0)
  | none => .zero

theorem visit_eq (h : Heap) (s : AddressSpace) {vpn : Nat} (hv : vpn ≤ vpnMax) :
    visit h s vpn = if (entry h s.root vpn).isValid then some (entry h s.root vpn) else none := by
  rw [visit, if_neg (Nat.not_lt.mpr hv)]
  by_cases htop : (h.tables s.root (indexIn vpn 2)).isValid = true
  · by_cases hmid : (h.tables (h.tables s.root (indexIn vpn 2)).ppn (indexIn vpn 1)).isValid = true
    · simp [entry, leafOf, next, htop, hmid]
    · simp [entry, leafOf, next, htop, hmid]
  · simp [entry, leafOf, next, htop]

theorem visit_some {s : AddressSpace} (hv : visit h s vpn = some pte) :
    vpn ≤ vpnMax ∧ pte = entry h s.root vpn ∧ pte.isValid = true := by
  have hle : vpn ≤ vpnMax := by
    by_contra hgt
    rw [visit, if_pos (Nat.not_le.mp hgt)] at hv
    cases hv
  rw [visit_eq h s hle] at hv
  split at hv
  · rename_i hvalid
    cases hv
    exact ⟨hle, rfl, hvalid⟩
  · cases hv

theorem Tree.next_some (hT : Tree good kernel shared label h) (ht : label t = some n)
    (hc : n.child kernel shared i = some m) (hn : next h t i = some t') : label t' = some m := by
  unfold next at hn
  split at hn
  · rename_i hv
    cases hn
    exact (hT.link ht hc hv).1
  · cases hn

theorem Tree.leafOf_some (hT : Tree good kernel shared label h) (hr : label root = some (.root root))
    (hl : leafOf h root vpn = some t) :
    label t = some (.leaf (home kernel shared root (indexIn vpn 2)) (indexIn vpn 2) (indexIn vpn 1)) := by
  obtain ⟨mid, hmid, hleaf⟩ := Option.bind_eq_some_iff.mp hl
  exact hT.next_some (hT.next_some hr rfl hmid) rfl hleaf

theorem entry_valid (hv : (entry h root vpn).isValid = true) :
    ∃ t, leafOf h root vpn = some t ∧ entry h root vpn = h.tables t (indexIn vpn 0) := by
  unfold entry at hv ⊢
  split at hv
  · rename_i t ht
    exact ⟨t, ht, rfl⟩
  · cases hv

theorem Tree.visit_good (hT : Tree good kernel shared label h) (hr : label root = some (.root root))
    (hv : (entry h root vpn).isValid = true) :
    good (home kernel shared root (indexIn vpn 2)) (indexIn vpn 2) (indexIn vpn 1) (indexIn vpn 0) (entry h root vpn) := by
  obtain ⟨t, ht, he⟩ := entry_valid hv
  rw [he] at hv ⊢
  exact hT.page (hT.leafOf_some hr ht) hv

/-! ## The walk of a mapping -/

theorem next_eq (hs : h'.tables t i = h.tables t i) : next h' t i = next h t i := by
  unfold next
  rw [hs]

theorem entry_none (hn : leafOf h root vpn = none) : entry h root vpn = .zero := by
  unfold entry
  rw [hn]

theorem entry_some (hn : leafOf h root vpn = some t) : entry h root vpn = h.tables t (indexIn vpn 0) := by
  unfold entry
  rw [hn]

/-- A new table is empty: no page gets an entry. -/
theorem Tree.entry_join (hT : Tree good kernel shared label h) (ht : label t = some n) (hc : n.child kernel shared i = some m)
    (hv : (h.tables t i).isValid = false) {p : Nat} (hp : label p = none) (hz : ∀ j, h'.tables p j = .zero)
    (hsame : ∀ f, f ≠ p → h'.tables f = h.tables f) {q w : Nat} (hq : label q = some (.root q)) :
    entry (h'.setPte t i ⟨p, {.v, .owned}⟩) q w = entry h q w := by
  have hne : ∀ {f k}, label f = some k → f ≠ p := by
    intro f k hl e
    rw [e, hp] at hl
    cases hl
  have hzero : ∀ j, (h'.setPte t i ⟨p, {.v, .owned}⟩).tables p j = .zero := by
    intro j
    rw [setPte_ne _ _ fun e => hne ht e.1.symm, hz]
  have hother : ∀ {f k} j, label f = some k → ¬ (f = t ∧ j = i) →
      (h'.setPte t i ⟨p, {.v, .owned}⟩).tables f j = h.tables f j := by
    intro f k j hl he
    rw [setPte_ne _ _ he, hsame f (hne hl)]
  have hnew : next (h'.setPte t i ⟨p, {.v, .owned}⟩) t i = some p := by
    unfold next
    rw [setPte_same]
    rfl
  have hold : next h t i = none := by
    unfold next
    rw [hv]
    rfl
  have hempty : ∀ j, next (h'.setPte t i ⟨p, {.v, .owned}⟩) p j = none := by
    intro j
    unfold next
    rw [hzero]
    rfl
  by_cases htop : q = t ∧ indexIn w 2 = i
  · rw [← htop.1, ← htop.2] at hnew hold
    rw [entry_none (h := h) (by rw [leafOf, hold]; rfl), ← htop.1, ← htop.2]
    refine entry_none ?_
    rw [leafOf, hnew, Option.bind_some, htop.1, htop.2]
    exact hempty _
  · have h2 : next (h'.setPte t i ⟨p, {.v, .owned}⟩) q (indexIn w 2) = next h q (indexIn w 2) :=
      next_eq (hother _ hq htop)
    cases hmid : next h q (indexIn w 2) with
    | none =>
      rw [entry_none (h := h) (by rw [leafOf, hmid]; rfl)]
      exact entry_none (by rw [leafOf, h2, hmid]; rfl)
    | some mid =>
      have hml := hT.next_some hq rfl hmid
      by_cases hat : mid = t ∧ indexIn w 1 = i
      · rw [entry_none (h := h) (by rw [leafOf, hmid, Option.bind_some, hat.1, hat.2, hold])]
        have hl : leafOf (h'.setPte t i ⟨p, {.v, .owned}⟩) q w = some p := by
          rw [leafOf, h2, hmid, Option.bind_some, hat.1, hat.2, hnew]
        rw [entry_some hl, hzero]
      · have h1 : next (h'.setPte t i ⟨p, {.v, .owned}⟩) mid (indexIn w 1) = next h mid (indexIn w 1) :=
          next_eq (hother _ hml hat)
        have hleaf : leafOf (h'.setPte t i ⟨p, {.v, .owned}⟩) q w = leafOf h q w := by
          rw [leafOf, leafOf, h2, hmid, Option.bind_some, Option.bind_some, h1]
        cases hl : leafOf h q w with
        | none => rw [entry_none hl, entry_none (by rw [hleaf, hl])]
        | some leaf =>
          have hll := hT.leafOf_some hq hl
          rw [entry_some hl, entry_some (by rw [hleaf, hl])]
          refine hother _ hll fun e => ?_
          rw [e.1, ht] at hll
          cases hll
          cases hc

/-- One level down: the frame of the name below, and no page has another entry than before. -/
theorem Tree.descend (hT : Tree good kernel shared label h) (ht : label t = some n) (hc : n.child kernel shared i = some m)
    (hm : ∀ r, m ≠ .root r) (hok : Vm.descend A h t i = .ok (t', h')) :
    ∃ label', Extends good kernel shared label label' h' ∧ label' t' = some m ∧ next h' t i = some t' ∧
      (∀ f, h.Handed f → h'.Handed f) ∧ (∀ f k, label f = some k → ¬ (f = t) → h'.tables f = h.tables f) ∧
      ∀ q w, label q = some (.root q) → entry h' q w = entry h q w := by
  unfold Vm.descend at hok
  dsimp only at hok
  split at hok
  · rename_i hv
    split at hok
    · cases hok
      refine ⟨label, ⟨fun hl => hl, hT⟩, (hT.link ht hc hv).1, if_pos hv, fun f hf => hf, fun f k _ _ => rfl, fun q w _ => rfl⟩
    · cases hok
  · rename_i hv
    obtain ⟨⟨p, h1⟩, halloc, hok⟩ := bind_eq_ok.mp hok
    cases hok
    obtain ⟨hin, hout, hh⟩ := pageAlloc_ok halloc
    obtain ⟨hp, hp', hz⟩ := hin p (Nat.le_refl p) (Nat.lt_succ_self p)
    have hnone := hT.unnamed hp
    have hT1 := (hT.pageAlloc halloc).name (n := m) hnone hp' hz fun r e => absurd e (hm r)
    have hne : ∀ {f k}, label f = some k → f ≠ p := by
      intro f k hl e
      rw [e, hnone] at hl
      cases hl
    have hsame : ∀ f, f ≠ p → h1.tables f = h.tables f := by
      intro f hf
      exact hout f fun e => hf (by omega)
    have hkeep : ∀ {f k}, label f = some k → (if f = p then some m else label f) = some k := by
      intro f k hl
      rw [if_neg (hne hl), hl]
    have hv1 : (h1.tables t i).isValid = false := by
      rw [hsame t (hne ht)]
      exact Bool.eq_false_iff.mpr hv
    refine ⟨_, ⟨hkeep, hT1.join (hkeep ht) hc hv1 (if_pos rfl)⟩, if_pos rfl, ?_, hh, ?_, ?_⟩
    · unfold next
      rw [setPte_same]
      rfl
    · intro f k hl hft
      funext j
      rw [setPte_ne _ _ fun e => hft e.1, hsame f (hne hl)]
    · intro q w hq
      exact hT.entry_join ht hc (Bool.eq_false_iff.mpr hv) hnone hz hsame hq

/-- The two pages, each of its space, have one entry. -/
structure Aliases (kernel : Nat) (shared : List Nat) (q w r v : Nat) : Prop where
  home : home kernel shared q (indexIn w 2) = home kernel shared r (indexIn v 2)
  top : indexIn w 2 = indexIn v 2
  mid : indexIn w 1 = indexIn v 1
  last : indexIn w 0 = indexIn v 0

section

variable {q w r v u x : Nat}

theorem Aliases.refl : Aliases kernel shared r v r v := ⟨rfl, rfl, rfl, rfl⟩

theorem Aliases.trans (h1 : Aliases kernel shared q w r v) (h2 : Aliases kernel shared r v u x) :
    Aliases kernel shared q w u x :=
  ⟨h1.home.trans h2.home, h1.top.trans h2.top, h1.mid.trans h2.mid, h1.last.trans h2.last⟩

theorem Aliases.symm (ha : Aliases kernel shared q w r v) : Aliases kernel shared r v q w :=
  ⟨ha.home.symm, ha.top.symm, ha.mid.symm, ha.last.symm⟩

theorem home_cases (hh : home kernel shared q i = home kernel shared r i) :
    q = r ∨ i = portalIdx ∧ (q ∈ shared ∨ q = kernel) ∧ (r ∈ shared ∨ r = kernel) := by
  unfold home at hh
  split at hh
  · rename_i hq
    split at hh
    · rename_i hr
      exact .inr ⟨hq.1, .inl hq.2, .inl hr.2⟩
    · exact .inr ⟨hq.1, .inl hq.2, .inr hh.symm⟩
  · split at hh
    · rename_i hr
      exact .inr ⟨hr.1, .inr hh, .inl hr.2⟩
    · exact .inl hh

/-- Spaces that share an entry of the root table have it alike. -/
theorem Tree.top_eq (hT : Tree good kernel shared label h) (hh : home kernel shared q i = home kernel shared r i) :
    h.tables q i = h.tables r i := by
  have hk : ∀ {p}, p ∈ shared ∨ p = kernel → h.tables p portalIdx = h.tables kernel portalIdx := by
    intro p hp
    rcases hp with hp | rfl
    · exact (hT.lent hp).2.2
    · rfl
  rcases home_cases hh with rfl | ⟨rfl, hq, hr⟩
  · rfl
  · rw [hk hq, hk hr]

theorem Tree.leafOf_alias (hT : Tree good kernel shared label h) (ha : Aliases kernel shared q w r v) :
    leafOf h q w = leafOf h r v := by
  have hh := ha.home
  rw [ha.top] at hh
  rw [leafOf, leafOf, ha.top, ha.mid, next, next, hT.top_eq hh]

theorem Tree.entry_alias (hT : Tree good kernel shared label h) (ha : Aliases kernel shared q w r v) :
    entry h q w = entry h r v := by
  rw [entry, entry, hT.leafOf_alias ha, ha.last]

/-- Pages with one last-level table are the same but for the last index. -/
theorem Tree.leafOf_inj (hT : Tree good kernel shared label h) (hq : label q = some (.root q))
    (hr : label r = some (.root r)) (h1 : leafOf h q w = some t) (h2 : leafOf h r v = some t)
    (h0 : indexIn w 0 = indexIn v 0) : Aliases kernel shared q w r v := by
  have e := (hT.leafOf_some hq h1).symm.trans (hT.leafOf_some hr h2)
  simp only [Option.some.injEq, Node.leaf.injEq] at e
  exact ⟨e.1, e.2.1, e.2.2, h0⟩

/-- The tables above the last level stay when an entry of the last level is set. -/
theorem Tree.leafOf_put (hT : Tree good kernel shared label h) {k2 k1 : Nat} (ht : label t = some (.leaf r k2 k1))
    (hq : label q = some (.root q)) : leafOf (h.setPte t i pte) q w = leafOf h q w := by
  have hother : ∀ {f n} j, label f = some n → (∀ a b c, n ≠ .leaf a b c) →
      next (h.setPte t i pte) f j = next h f j := by
    intro f n j hl hn
    refine next_eq (setPte_ne _ _ fun e => ?_)
    rw [e.1, ht] at hl
    exact hn _ _ _ (Option.some.inj hl).symm
  rw [leafOf, leafOf, hother _ hq (by simp)]
  cases hmid : next h q (indexIn w 2) with
  | none => rfl
  | some mid =>
    rw [Option.bind_some, Option.bind_some]
    exact hother _ (hT.next_some hq rfl hmid) (by simp)

/-- Setting an entry of the last level sets it for the pages that have it. -/
theorem Tree.entry_put (hT : Tree good kernel shared label h) (hr : label r = some (.root r))
    (hq : label q = some (.root q)) (ht : leafOf h r v = some t) :
    (Aliases kernel shared q w r v → entry (h.setPte t (indexIn v 0) pte) q w = pte) ∧
      (¬ Aliases kernel shared q w r v → entry (h.setPte t (indexIn v 0) pte) q w = entry h q w) := by
  have hl : leafOf (h.setPte t (indexIn v 0) pte) q w = leafOf h q w := hT.leafOf_put (hT.leafOf_some hr ht) hq
  refine ⟨?_, ?_⟩
  · intro ha
    rw [hT.leafOf_alias ha, ht] at hl
    rw [entry_some hl, ha.last, setPte_same]
  · intro hna
    cases hw : leafOf h q w with
    | none => rw [entry_none hw, entry_none (by rw [hl, hw])]
    | some f =>
      rw [entry_some hw, entry_some (by rw [hl, hw])]
      refine setPte_ne _ _ fun e => hna ?_
      rw [e.1] at hw
      exact hT.leafOf_inj hq hr hw ht e.2

/-- A page is mapped: it had no valid entry, and no page but those that share its entry has
    another one than before. -/
theorem Tree.mapPage (hT : Tree good kernel shared label h) (hr : label r = some (.root r))
    (hg : pte.isValid = true →
      good (home kernel shared r (indexIn v 2)) (indexIn v 2) (indexIn v 1) (indexIn v 0) pte)
    (hok : Vm.mapPage A h r v pte = .ok h') :
    ∃ label', Extends good kernel shared label label' h' ∧ (∀ f, h.Handed f → h'.Handed f) ∧
      (entry h r v).isValid = false ∧
      ∀ q w, label q = some (.root q) → (Aliases kernel shared q w r v → entry h' q w = pte) ∧
        (¬ Aliases kernel shared q w r v → entry h' q w = entry h q w) := by
  obtain ⟨⟨mid, h1⟩, hmid, hok⟩ := bind_eq_ok.mp hok
  obtain ⟨⟨leaf, h2⟩, hleaf, hok⟩ := bind_eq_ok.mp hok
  obtain ⟨label1, hx1, hml, hn1, hh1, -, he1⟩ := hT.descend hr rfl (by simp) hmid
  obtain ⟨label2, hx2, hll, hn2, hh2, hs2, he2⟩ := hx1.tree.descend hml rfl (by simp) hleaf
  have hx := hx1.trans hx2
  have hrm : r ≠ mid := by
    intro e
    rw [← e, hx1.keep hr] at hml
    cases hml
  have hn1' : next h2 r (indexIn v 2) = some mid := by
    rw [← hn1]
    exact next_eq (by rw [hs2 r _ (hx1.keep hr) hrm])
  have hl : leafOf h2 r v = some leaf := by
    rw [leafOf, hn1', Option.bind_some, hn2]
  have hentry : ∀ q w, label q = some (.root q) → entry h2 q w = entry h q w := by
    intro q w hq
    rw [he2 q w (hx1.keep hq), he1 q w hq]
  dsimp only at hok
  split at hok
  · cases hok
  · rename_i hv
    cases hok
    refine ⟨label2, ⟨hx.keep, hx2.tree.put hll hg⟩, fun f hf => hh2 f (hh1 f hf), ?_, ?_⟩
    · rw [← hentry r v hr, entry_some hl]
      exact Bool.eq_false_iff.mpr hv
    · intro q w hq
      rw [← hentry q w hq]
      exact hx2.tree.entry_put (hx.keep hr) (hx.keep hq) hl

/-- Consecutive pages are mapped to consecutive frames. -/
theorem Tree.walkMut {flags : VmFlags} {n ppn : Nat} (hT : Tree good kernel shared label h)
    (hr : label r = some (.root r)) (hflags : Flag.v ∈ flags)
    (hg : ∀ k, k < n → v + k ≤ vpnMax → good (home kernel shared r (indexIn (v + k) 2)) (indexIn (v + k) 2)
      (indexIn (v + k) 1) (indexIn (v + k) 0) ⟨ppn + k, flags⟩)
    (hok : Vm.walkMut A r flags h v ppn n = .ok h') :
    (∀ k, k < n → v + k ≤ vpnMax) ∧
    ∃ label', Extends good kernel shared label label' h' ∧ (∀ f, h.Handed f → h'.Handed f) ∧
      ∀ q w, label q = some (.root q) →
        (∀ k, k < n → Aliases kernel shared q w r (v + k) →
          entry h' q w = ⟨ppn + k, flags⟩ ∧ (entry h q w).isValid = false) ∧
        ((∀ k, k < n → ¬ Aliases kernel shared q w r (v + k)) → entry h' q w = entry h q w) := by
  induction n generalizing h label v ppn with
  | zero =>
    cases hok
    refine ⟨fun k hk => by omega, label, ⟨fun hl => hl, hT⟩, fun f hf => hf, fun q w hq => ⟨?_, fun _ => rfl⟩⟩
    intro k hk
    omega
  | succ n ih =>
    unfold Vm.walkMut at hok
    split at hok
    · cases hok
    rename_i hle
    obtain ⟨h1, hpage, hok⟩ := bind_eq_ok.mp hok
    obtain ⟨label1, hx1, hh1, hfree, he1⟩ := hT.mapPage hr (fun _ => hg 0 (Nat.succ_pos n) (Nat.not_lt.mp hle)) hpage
    have hg' : ∀ k, k < n → v + 1 + k ≤ vpnMax → good (Vm.home kernel shared r (indexIn (v + 1 + k) 2))
        (indexIn (v + 1 + k) 2) (indexIn (v + 1 + k) 1) (indexIn (v + 1 + k) 0) ⟨ppn + 1 + k, flags⟩ := by
      intro k hk hlek
      have hgk := hg (k + 1) (by omega) (by omega)
      rwa [show v + (k + 1) = v + 1 + k by omega, show ppn + (k + 1) = ppn + 1 + k by omega] at hgk
    obtain ⟨hle2, label2, hx2, hh2, he2⟩ := ih hx1.tree (hx1.keep hr) hg' hok
    refine ⟨?_, label2, hx1.trans hx2, fun f hf => hh2 f (hh1 f hf), fun q w hq => ⟨?_, ?_⟩⟩
    · intro k hk
      cases k with
      | zero => exact Nat.not_lt.mp hle
      | succ k =>
        have := hle2 k (by omega)
        omega
    · intro k hk ha
      obtain ⟨hin, hout⟩ := he2 q w (hx1.keep hq)
      obtain ⟨hin1, hout1⟩ := he1 q w hq
      by_cases h0 : Aliases kernel shared q w r v
      · -- The page that was mapped first is not met again: the mapper would find it valid.
        have hfirst : entry h1 q w = ⟨ppn, flags⟩ := hin1 h0
        have hno : ∀ k, k < n → ¬ Aliases kernel shared q w r (v + 1 + k) := by
          intro k hk ha
          have hv := (hin k hk ha).2
          rw [hfirst] at hv
          simp [Pte.isValid, hflags] at hv
        have hk0 : k = 0 := by
          by_contra hk0
          refine hno (k - 1) (by omega) ?_
          rwa [show v + 1 + (k - 1) = v + k by omega]
        subst hk0
        refine ⟨by rw [hout hno, hfirst]; rfl, ?_⟩
        rw [hT.entry_alias h0]
        exact hfree
      · have hk0 : k ≠ 0 := by
          intro hk0
          rw [hk0] at ha
          exact h0 ha
        obtain ⟨he, hf⟩ := hin (k - 1) (by omega) (by rwa [show v + 1 + (k - 1) = v + k by omega])
        rw [show ppn + 1 + (k - 1) = ppn + k by omega] at he
        rw [hout1 h0] at hf
        exact ⟨he, hf⟩
    · intro hno
      obtain ⟨-, hout⟩ := he2 q w (hx1.keep hq)
      rw [hout, (he1 q w hq).2]
      · exact hno 0 (Nat.succ_pos n)
      · intro k hk ha
        refine hno (k + 1) (by omega) ?_
        rwa [show v + (k + 1) = v + 1 + k by omega]

end

end

end TgRcore.Vm
