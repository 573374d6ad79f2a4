/-
  TgRcore.Vm.Clone — the pages of a space below the portal's root entry, and `cloneself`.

  - `Sound`: the recorded areas cover those pages, and their frames came from the allocator,
    each for one page.
  - `Changed`: an operation on a space keeps that, maps fresh frames only and leaves the other
    spaces alone.
  - `Tree.cloneOne`, `Tree.cloneAll`: every page of a clone has the flags and bytes of the page
    it was made from.
  - `Tree.cloneAll_total`: with frames enough a clone of areas below the portal is made.
-/

import TgRcore.Vm.Areas
import TgRcore.Vm.Machine

namespace TgRcore.Vm

open TgRcore.BlockProg AddressSpace

/-- The first page under the portal's root entry. -/
abbrev portalStart : Nat := 511 * 2 ^ 18

theorem le_vpnMax {v : Nat} (hv : v < portalStart) : v ≤ vpnMax := by
  unfold portalStart vpnMax at *
  omega

/-- What the page table of a space has below the portal. -/
structure Sound (neat : Prop) (h : Heap) (s : AddressSpace) : Prop where
  covers : Covers neat portalStart (entry h s.root) s.areas
  handed : ∀ v, v < portalStart → (entry h s.root v).isValid = true → h.Handed (entry h s.root v).ppn
  once : ∀ v w, v < portalStart → w < portalStart → (entry h s.root v).isValid = true →
    (entry h s.root w).isValid = true → (entry h s.root v).ppn = (entry h s.root w).ppn → v = w

/-- What an operation on a space did below the portal; `label` names the spaces that were there. -/
structure Changed (neat : Prop) (label : Nat → Option Node) (h h' : Heap) (s s' : AddressSpace) : Prop where
  root : s'.root = s.root
  sound : Sound neat h s → Sound neat h' s'
  pages : ∀ v, v < portalStart → (entry h' s.root v).isValid = true →
    entry h' s.root v = entry h s.root v ∨ ¬ h.Handed (entry h' s.root v).ppn
  others : ∀ q, label q = some (.root q) → q ≠ s.root → ∀ v, v < portalStart → entry h' q v = entry h q v
  handed : ∀ f, h.Handed f → h'.Handed f

section

variable {P : Prop} {good : PageProp} {kernel : Nat} {shared : List Nat} {label label' : Nat → Option Node} {h h' : Heap}
  {A : FrameAllocator} {R : Rounding} {s s' : AddressSpace} {first last ppn n v w q r : Nat} {flags : VmFlags}

/-- Below the portal no space has a page of another. -/
theorem within_low (hw : w < portalStart) (hlast : last ≤ vpnMax + 1) :
    Within kernel shared q w r first (last - first) → q = r ∧ Inside w (first, last) := by
  rintro ⟨k, hk, ha⟩
  have hh := ha.home
  rw [← ha.top] at hh
  rcases home_cases hh with rfl | ⟨h2, -, -⟩
  · exact ⟨rfl, (within_iff (by unfold vpnMax portalStart at *; omega) hlast).mp ⟨k, hk, ha⟩⟩
  · exact absurd h2 (indexIn_low hw)

/-- The pages below the portal are the same, and so is what is known of them. -/
theorem Sound.congr (hs : Sound P h s) (hh : ∀ f, h.Handed f → h'.Handed f)
    (he : ∀ v, v < portalStart → entry h' s.root v = entry h s.root v) : Sound P h' s := by
  refine ⟨⟨hs.covers.bounds, hs.covers.apart, ?_, ?_⟩, ?_, ?_⟩
  · intro a ha
    obtain ⟨ppn, flags, hflags, hrun⟩ := hs.covers.uniform a ha
    refine ⟨ppn, flags, hflags, fun v hv hin => ?_⟩
    rw [he v hv, hrun v hv hin]
  · intro v hv hno
    rw [he v hv]
    exact hs.covers.gap v hv hno
  · intro v hv hvalid
    rw [he v hv] at hvalid ⊢
    exact hh _ (hs.handed v hv hvalid)
  · intro v w hv hw
    rw [he v hv, he w hw]
    exact hs.once v w hv hw

theorem Changed.refl : Changed P label h h s s :=
  ⟨rfl, fun hs => hs, fun _ _ _ => .inl rfl, fun _ _ _ _ _ => rfl, fun _ hf => hf⟩

theorem Changed.trans {h1 h2 : Heap} {s1 s2 : AddressSpace} (hkeep : ∀ {f n}, label f = some n → label' f = some n)
    (hc1 : Changed P label h h1 s s1) (hc2 : Changed P label' h1 h2 s1 s2) : Changed P label h h2 s s2 := by
  refine ⟨hc2.root.trans hc1.root, fun hs => hc2.sound (hc1.sound hs), ?_, ?_, fun f hf => hc2.handed f (hc1.handed f hf)⟩
  · intro v hv hvalid
    have hpages := hc2.pages v hv
    rw [hc1.root] at hpages
    rcases hpages hvalid with he | hnew
    · rw [he] at hvalid ⊢
      exact hc1.pages v hv hvalid
    · exact .inr fun hf => hnew (hc1.handed _ hf)
  · intro q hq hne v hv
    rw [hc2.others q (hkeep hq) (by rwa [hc1.root]) v hv, hc1.others q hq hne v hv]

/-- Fresh frames are mapped. -/
theorem Mapped.changed (hm : Mapped kernel shared label h h' s.root first (last - first) ppn flags)
    (hr : label s.root = some (.root s.root)) (hlt : first < last) (hlast : last ≤ vpnMax + 1) (hflags : Flag.v ∈ flags)
    (hfresh : ∀ k, k < last - first → ¬ h.Handed (ppn + k) ∧ h'.Handed (ppn + k)) (hh : ∀ f, h.Handed f → h'.Handed f) :
    Changed P label h h' s { s with areas := s.areas ++ [(first, last)] } := by
  obtain ⟨hin, hout⟩ := hm.own hr hlast
  -- A page of the range has its own fresh frame, any other page what it had.
  have hpage : ∀ v, v < portalStart → (∃ k, k < last - first ∧ v = first + k ∧ entry h' s.root v = ⟨ppn + k, flags⟩) ∨
      entry h' s.root v = entry h s.root v := by
    intro v hv
    by_cases hvr : Inside v (first, last)
    · have hvr' := hvr
      unfold Inside at hvr'
      dsimp only at hvr'
      exact .inl ⟨v - first, by omega, by omega, (hin v (le_vpnMax hv) hvr).1⟩
    · exact .inr (hout v (le_vpnMax hv) hvr)
  refine ⟨rfl, fun hs => ⟨?_, ?_, ?_⟩, ?_, ?_, hh⟩
  · exact hs.covers.add hlt hlast hflags (fun v hv hvr => hin v (le_vpnMax hv) hvr) fun v hv hno => hout v (le_vpnMax hv) hno
  · intro v hv hvalid
    have hvalid : (entry h' s.root v).isValid = true := hvalid
    show h'.Handed (entry h' s.root v).ppn
    rcases hpage v hv with ⟨k, hk, -, he⟩ | he
    · rw [he]
      exact (hfresh k hk).2
    · rw [he] at hvalid ⊢
      exact hh _ (hs.handed v hv hvalid)
  · intro v w hv hw hvv hvw heq
    have hvv : (entry h' s.root v).isValid = true := hvv
    have hvw : (entry h' s.root w).isValid = true := hvw
    have heq : (entry h' s.root v).ppn = (entry h' s.root w).ppn := heq
    rcases hpage v hv with ⟨k, hk, rfl, hev⟩ | hev
    · rcases hpage w hw with ⟨l, hl, rfl, hew⟩ | hew
      · rw [hev, hew] at heq
        dsimp only at heq
        omega
      · rw [hew] at hvw
        rw [hev, hew] at heq
        have hold := hs.handed w hw hvw
        rw [← heq] at hold
        exact absurd hold (hfresh k hk).1
    · rw [hev] at hvv
      rcases hpage w hw with ⟨l, hl, rfl, hew⟩ | hew
      · rw [hev, hew] at heq
        have hold := hs.handed v hv hvv
        rw [heq] at hold
        exact absurd hold (hfresh l hl).1
      · rw [hew] at hvw
        rw [hev, hew] at heq
        exact hs.once v w hv hw hvv hvw heq
  · intro v hv hvalid
    rcases hpage v hv with ⟨k, hk, -, he⟩ | he
    · rw [he]
      exact .inr (hfresh k hk).1
    · exact .inl he
  · intro q hq hne v hv
    exact hm.outside hq fun hw => hne (within_low hv hlast hw).1

/-- A range is unmapped. -/
theorem Cleared.changed (hc : Cleared kernel shared label h h' s.root first (last - first))
    (hr : label s.root = some (.root s.root)) (hle : P → first ≤ last) (hlast : last ≤ vpnMax + 1)
    (hh : ∀ f, h.Handed f → h'.Handed f) :
    Changed P label h h' s { s with areas := s.areas.flatMap (cutArea first last) } := by
  obtain ⟨hin, hout⟩ := hc.own hr hlast
  have hpage : ∀ v, v < portalStart → (entry h' s.root v).isValid = true → entry h' s.root v = entry h s.root v := by
    intro v hv hvalid
    by_cases hvr : Inside v (first, last)
    · rw [hin v (le_vpnMax hv) hvr] at hvalid
      cases hvalid
    · exact hout v (le_vpnMax hv) hvr
  refine ⟨rfl, fun hs => ⟨?_, ?_, ?_⟩, fun v hv hvalid => .inl (hpage v hv hvalid), ?_, hh⟩
  · exact hs.covers.cut hle (fun v hv hvr => hin v (le_vpnMax hv) hvr) fun v hv hno => hout v (le_vpnMax hv) hno
  · intro v hv hvalid
    have hvalid : (entry h' s.root v).isValid = true := hvalid
    show h'.Handed (entry h' s.root v).ppn
    have he := hpage v hv hvalid
    rw [he] at hvalid ⊢
    exact hh _ (hs.handed v hv hvalid)
  · intro v w hv hw hvv hvw heq
    have hvv : (entry h' s.root v).isValid = true := hvv
    have hvw : (entry h' s.root w).isValid = true := hvw
    have heq : (entry h' s.root v).ppn = (entry h' s.root w).ppn := heq
    have hev := hpage v hv hvv
    have hew := hpage w hw hvw
    rw [hev, hew] at heq
    rw [hev] at hvv
    rw [hew] at hvw
    exact hs.once v w hv hw hvv hvw heq
  · intro q hq hne v hv
    exact hc.outside hq fun hw => hne (within_low hv hlast hw).1

/-! ## Clones -/

/-- The page of a clone and the one it was made from. -/
structure PageCopy (h h' : Heap) (e e' : Pte) : Prop where
  flags : e'.flags = insert Flag.owned e.flags
  bytes : ∀ i, i < pageSize → h'.mem (e'.ppn * pageSize + i) = h.mem (e.ppn * pageSize + i)

/-- What `cloneself` did for the areas `areas` of `s` in the space `c`. -/
structure Cloned (neat : Prop) (label : Nat → Option Node) (h h' : Heap) (s c c' : AddressSpace) (areas : List (Nat × Nat)) : Prop where
  changed : Changed neat label h h' c c'
  grown : Grown h h'
  recorded : c'.areas = c.areas ++ areas
  kept : ∀ v, v < portalStart → (entry h c.root v).isValid = true → entry h' c.root v = entry h c.root v
  copies : Sound neat h s → Sound neat h c → (∀ a ∈ areas, a ∈ s.areas) → ∀ a ∈ areas, ∀ v, v < portalStart → Inside v a →
    PageCopy h h' (entry h s.root v) (entry h' c.root v) ∧ (entry h' c.root v).isValid = true

theorem Tree.cloneOne {c c' : AddressSpace} {area : Nat × Nat}
    (hT : Tree (UserPage kernel) kernel shared label h) (hs : label s.root = some (.root s.root)) (hk : s.root ≠ kernel)
    (hc : label c.root = some (.root c.root)) (hck : c.root ≠ kernel) (hcs : c.root ∉ shared)
    (hok : AddressSpace.cloneArea A h s c area = .ok (c', h')) :
    ∃ label', Extends (UserPage kernel) kernel shared label label' h' ∧ Cloned P label h h' s c c' [area] := by
  obtain ⟨pte, p, hvisit, hlt, hlast, rfl, hgrown, hbytes, hframes, label', hx, hm⟩ := hT.cloneArea hs hk hc hck hcs hok
  obtain ⟨-, hpte, hvalid⟩ := visit_some hvisit
  have hflags : Flag.v ∈ insert Flag.owned pte.flags :=
    Finset.mem_insert_of_mem (by simpa [Pte.isValid] using hvalid)
  obtain ⟨hin, hout⟩ := hm.own hc hlast
  refine ⟨label', hx, hm.changed hc hlt hlast hflags hframes hgrown.handed, hgrown, rfl, ?_, ?_⟩
  · intro v hv hold
    refine hout v (le_vpnMax hv) fun hvr => ?_
    rw [(hin v (le_vpnMax hv) hvr).2] at hold
    cases hold
  · intro hsound _ hmem a ha v hv hva
    rw [List.mem_singleton] at ha
    subst ha
    -- The area of the parent has one run of frames, and its first page tells where it begins.
    obtain ⟨ppn, fl, -, hrun⟩ := hsound.covers.uniform a (hmem a (List.mem_singleton_self a))
    have hle : a.1 ≤ v := hva.1
    have hvlt : v < a.2 := hva.2
    have hfirst := hrun a.1 (by omega) ⟨Nat.le_refl _, hlt⟩
    rw [← hpte, Nat.sub_self, Nat.add_zero] at hfirst
    have hparent := hrun v hv hva
    have hchild := (hin v (le_vpnMax hv) hva).1
    have hhanded := hsound.handed v hv
    rw [hparent] at hhanded
    subst hfirst
    rw [hparent, hchild]
    refine ⟨⟨rfl, ?_⟩, by simp [Pte.isValid, hflags]⟩
    intro i hi
    exact hbytes (v - a.1) i (by omega) hi (hhanded (by simpa [Pte.isValid] using hvalid))

theorem Tree.cloneAll {areas : List (Nat × Nat)} {c c' : AddressSpace}
    (hT : Tree (UserPage kernel) kernel shared label h) (hs : label s.root = some (.root s.root)) (hk : s.root ≠ kernel)
    (hc : label c.root = some (.root c.root)) (hck : c.root ≠ kernel) (hcs : c.root ∉ shared) (hne : s.root ≠ c.root)
    (hok : AddressSpace.cloneself A s areas h c = .ok (c', h')) :
    ∃ label', Extends (UserPage kernel) kernel shared label label' h' ∧ Cloned P label h h' s c c' areas := by
  induction areas generalizing h c label with
  | nil =>
    cases hok
    refine ⟨label, ⟨fun hl => hl, hT⟩, .refl, .refl, (List.append_nil _).symm, fun _ _ _ => rfl, ?_⟩
    intro _ _ _ a ha
    cases ha
  | cons area areas ih =>
    obtain ⟨⟨c1, h1⟩, harea, hok⟩ := bind_eq_ok.mp hok
    obtain ⟨label1, hx1, hc1⟩ := hT.cloneOne (P := P) hs hk hc hck hcs harea
    have hroot := hc1.changed.root
    obtain ⟨label2, hx2, hc2⟩ := ih (c := c1) hx1.tree (hx1.keep hs) (by rw [hroot]; exact hx1.keep hc)
      (by rwa [hroot]) (by rwa [hroot]) (by rwa [hroot]) hok
    have hparent : ∀ v, v < portalStart → entry h1 s.root v = entry h s.root v := hc1.changed.others _ hs hne
    refine ⟨label2, hx1.trans hx2, hc1.changed.trans hx1.keep hc2.changed, hc1.grown.trans hc2.grown, ?_, ?_, ?_⟩
    · rw [hc2.recorded, hc1.recorded, List.append_assoc]
      rfl
    · intro v hv hold
      have h1v := hc1.kept v hv hold
      have h2v := hc2.kept v hv
      rw [hroot, h1v] at h2v
      exact h2v hold
    · intro hsound hchild hmem a ha v hv hva
      have hchild1 := hc1.changed.sound hchild
      rcases List.mem_cons.mp ha with rfl | ha
      · obtain ⟨hcopy, hvalid⟩ := hc1.copies hsound hchild (fun b hb => hmem b (List.mem_cons.mpr (.inl (List.mem_singleton.mp hb))))
          a (List.mem_singleton_self a) v hv hva
        -- The page stays where it is, and its frame keeps its bytes.
        have hkept := hc2.kept v hv
        rw [hroot] at hkept
        rw [hkept hvalid]
        refine ⟨⟨hcopy.flags, ?_⟩, hvalid⟩
        intro i hi
        have hframe := hchild1.handed v hv
        rw [hroot] at hframe
        rw [hc2.grown.bytes _ i (hframe hvalid) hi, hcopy.bytes i hi]
      · have hsound1 := hsound.congr hc1.grown.handed hparent
        obtain ⟨hcopy, hvalid⟩ := hc2.copies hsound1 hchild1 (fun b hb => hmem b (List.mem_cons_of_mem _ hb)) a ha v hv hva
        rw [hroot, hparent v hv] at hcopy
        rw [hroot] at hvalid
        refine ⟨⟨hcopy.flags, ?_⟩, hvalid⟩
        intro i hi
        have hold : (entry h s.root v).isValid = true :=
          (hsound.covers.valid_iff hv).mpr ⟨a, hmem a (List.mem_cons_of_mem _ ha), hva⟩
        rw [hcopy.bytes i hi, hc1.grown.bytes _ i (hsound.handed v hv hold) hi]

/-! ## With frames enough -/

theorem Tree.descend_total {t i : Nat} {n m : Node} (hT : Tree good kernel shared label h)
    (hserved : Served (Vm.descend A h t i)) (ht : label t = some n) (hc : n.child kernel shared i = some m) :
    ∃ x, Vm.descend A h t i = .ok x := by
  unfold Vm.descend at *
  dsimp only at *
  by_cases hv : (h.tables t i).isValid = true
  · rw [if_pos hv, (hT.link ht hc hv).2, if_pos (by decide)]
    exact ⟨_, rfl⟩
  · rw [if_neg hv] at hserved ⊢
    obtain ⟨⟨p, h1⟩, halloc⟩ := hserved.first.pageAlloc
    rw [halloc]
    exact ⟨_, rfl⟩

theorem Tree.mapPage_total {pte : Pte} (hT : Tree good kernel shared label h) (hserved : Served (Vm.mapPage A h r v pte))
    (hr : label r = some (.root r)) (hfree : (entry h r v).isValid = false) : ∃ h', Vm.mapPage A h r v pte = .ok h' := by
  obtain ⟨⟨mid, h1⟩, hmid⟩ := hT.descend_total (i := indexIn v 2) hserved.first hr rfl
  obtain ⟨label1, hx1, hml, hn1, -, -, he1⟩ := hT.descend hr rfl (by simp) hmid
  obtain ⟨⟨leaf, h2⟩, hleaf⟩ := hx1.tree.descend_total (i := indexIn v 1) (hserved.next hmid).first hml rfl
  obtain ⟨label2, hx2, -, hn2, -, hs2, he2⟩ := hx1.tree.descend hml rfl (by simp) hleaf
  have hrm : r ≠ mid := by
    intro e
    rw [← e, hx1.keep hr] at hml
    cases hml
  have hn1' : Vm.next h2 r (indexIn v 2) = some mid := by
    rw [← hn1]
    exact next_eq (by rw [hs2 r _ (hx1.keep hr) hrm])
  have hl : leafOf h2 r v = some leaf := by
    rw [leafOf, hn1', Option.bind_some, hn2]
  have hentry : (h2.tables leaf (indexIn v 0)).isValid = false := by
    rw [← entry_some hl, he2 r v (hx1.keep hr), he1 r v hr, hfree]
  refine ⟨h2.setPte leaf (indexIn v 0) pte, bind_eq_ok.mpr ⟨_, hmid, bind_eq_ok.mpr ⟨_, hleaf, ?_⟩⟩⟩
  dsimp only
  rw [hentry]
  rfl

theorem Tree.walkMut_total (hT : Tree good kernel shared label h) (hserved : Served (Vm.walkMut A r flags h v ppn n))
    (hr : label r = some (.root r)) (hle : v + n ≤ vpnMax + 1)
    (hg : ∀ k, k < n → v + k ≤ vpnMax → good (home kernel shared r (indexIn (v + k) 2)) (indexIn (v + k) 2)
      (indexIn (v + k) 1) (indexIn (v + k) 0) ⟨ppn + k, flags⟩)
    (hfree : ∀ k, k < n → (entry h r (v + k)).isValid = false) : ∃ h', Vm.walkMut A r flags h v ppn n = .ok h' := by
  induction n generalizing h label v ppn with
  | zero => exact ⟨h, rfl⟩
  | succ n ih =>
    unfold Vm.walkMut at hserved
    rw [if_neg (by omega)] at hserved
    obtain ⟨h1, hpage⟩ := hT.mapPage_total hserved.first hr (hfree 0 (Nat.succ_pos n))
    obtain ⟨label1, hx1, -, -, he1⟩ := hT.mapPage hr (fun _ => hg 0 (Nat.succ_pos n) (by omega)) hpage
    have hg' : ∀ k, k < n → v + 1 + k ≤ vpnMax → good (Vm.home kernel shared r (indexIn (v + 1 + k) 2))
        (indexIn (v + 1 + k) 2) (indexIn (v + 1 + k) 1) (indexIn (v + 1 + k) 0) ⟨ppn + 1 + k, flags⟩ := by
      intro k hk hlek
      have hgk := hg (k + 1) (by omega) (by omega)
      rwa [show v + (k + 1) = v + 1 + k by omega, show ppn + (k + 1) = ppn + 1 + k by omega] at hgk
    obtain ⟨h2, hwalk⟩ := ih hx1.tree (hserved.next hpage) (hx1.keep hr) (by omega) hg' (by
      intro k hk
      have hna : ¬ Aliases kernel shared r (v + 1 + k) r v := by
        intro ha
        have := indexIn_inj (by omega) (by omega) ha.top ha.mid ha.last
        omega
      rw [(he1 r (v + 1 + k) hr).2 hna, show v + 1 + k = v + (k + 1) by omega]
      exact hfree (k + 1) (by omega))
    refine ⟨h2, ?_⟩
    unfold Vm.walkMut
    rw [if_neg (by omega)]
    exact bind_eq_ok.mpr ⟨h1, hpage, hwalk⟩

theorem mapExtern_of_walk {first last pbase : Nat} {flags : VmFlags} (hlt : first < last)
    (hwalk : Vm.walkMut A s.root flags h first pbase (last - first) = .ok h') :
    AddressSpace.mapExtern A h s first last pbase flags = .ok ({ s with areas := s.areas ++ [(first, last)] }, h') := by
  unfold AddressSpace.mapExtern
  rw [if_neg (Nat.not_le.mpr hlt)]
  exact bind_eq_ok.mpr ⟨h', hwalk, rfl⟩

theorem Tree.cloneOne_total {c : AddressSpace} {area : Nat × Nat}
    (hT : Tree (UserPage kernel) kernel shared label h) (hserved : Served (AddressSpace.cloneArea A h s c area))
    (hs : label s.root = some (.root s.root)) (hk : s.root ≠ kernel)
    (hc : label c.root = some (.root c.root)) (hck : c.root ≠ kernel) (hcs : c.root ∉ shared)
    (hsound : Sound P h s) (hmem : area ∈ s.areas) (hlow : area.2 ≤ portalStart)
    (hfree : ∀ v, Inside v area → (entry h c.root v).isValid = false) : ∃ x, AddressSpace.cloneArea A h s c area = .ok x := by
  obtain ⟨hlt, hlast⟩ := hsound.covers.bounds area hmem
  have hvalid : (entry h s.root area.1).isValid = true :=
    (hsound.covers.valid_iff (by omega)).mpr ⟨area, hmem, Nat.le_refl _, hlt⟩
  have hvisit : visit h s area.1 = some (entry h s.root area.1) := by
    rw [visit_eq _ _ (by omega), if_pos hvalid]
  unfold AddressSpace.cloneArea at hserved ⊢
  rw [hvisit] at hserved ⊢
  dsimp only at hserved ⊢
  rw [if_neg (by omega)] at hserved ⊢
  obtain ⟨⟨p, h1⟩, halloc⟩ := hserved.first.first.pageAlloc
  have hmade : AddressSpace.allocate A h (area.2 - area.1) (entry h s.root area.1).flags =
      .ok (p, insert Flag.owned (entry h s.root area.1).flags, h1) := bind_eq_ok.mpr ⟨(p, h1), halloc, rfl⟩
  have hserved := hserved.next hmade
  have hgrown := pageAlloc_grown halloc
  have hsame : ∀ f k, label f = some k → h1.tables f = h.tables f := fun f k hl => hT.alloc_same halloc hl
  let h2 := h1.copy ((entry h s.root area.1).ppn * pageSize) (p * pageSize) ((area.2 - area.1) * pageSize)
  have hT2 : Tree (UserPage kernel) kernel shared label h2 := hT.same hgrown.handed hsame
  have hfree2 : ∀ k, k < area.2 - area.1 → (entry h2 c.root (area.1 + k)).isValid = false := by
    intro k hk
    have he : entry h2 c.root (area.1 + k) = entry h c.root (area.1 + k) := hT.entry_same hsame hc
    rw [he]
    exact hfree _ ⟨Nat.le_add_right _ _, by omega⟩
  have hmap : Served (AddressSpace.mapExtern A h2 c area.1 area.2 p (insert Flag.owned (entry h s.root area.1).flags)) := hserved
  unfold AddressSpace.mapExtern at hmap
  rw [if_neg (by omega)] at hmap
  obtain ⟨h3, hwalk⟩ := hT2.walkMut_total hmap.first hc (by omega)
    (fun k _ hle => hT.clone_good hs hk hck hcs hvisit (area.1 + k) (p + k) (Nat.le_add_right _ _) hle) hfree2
  exact ⟨(⟨c.areas ++ [(area.1, area.2)], c.root⟩, h3), bind_eq_ok.mpr ⟨_, hmade, mapExtern_of_walk hlt hwalk⟩⟩

/-- Areas below the portal can be cloned in a space that has none of their pages. -/
theorem Tree.cloneAll_total {areas : List (Nat × Nat)} {c : AddressSpace}
    (hT : Tree (UserPage kernel) kernel shared label h) (hserved : Served (AddressSpace.cloneself A s areas h c))
    (hs : label s.root = some (.root s.root)) (hk : s.root ≠ kernel)
    (hc : label c.root = some (.root c.root)) (hck : c.root ≠ kernel) (hcs : c.root ∉ shared) (hne : s.root ≠ c.root)
    (hsound : Sound P h s) (hchild : Sound P h c) (hmem : ∀ a ∈ areas, a ∈ s.areas) (hlow : ∀ a ∈ areas, a.2 ≤ portalStart)
    (hap : (c.areas ++ areas).Pairwise (Apart portalStart)) : ∃ x, AddressSpace.cloneself A s areas h c = .ok x := by
  induction areas generalizing h c label with
  | nil => exact ⟨_, rfl⟩
  | cons area areas ih =>
    have hfree : ∀ v, Inside v area → (entry h c.root v).isValid = false := by
      intro v hv
      have hlt : v < portalStart := Nat.lt_of_lt_of_le hv.2 (hlow _ List.mem_cons_self)
      refine hchild.covers.gap v hlt fun a ha hva => ?_
      exact (List.pairwise_append.mp hap).2.2 a ha area List.mem_cons_self v hlt hva hv
    obtain ⟨⟨c1, h1⟩, hone⟩ := hT.cloneOne_total hserved.first hs hk hc hck hcs hsound (hmem _ List.mem_cons_self)
      (hlow _ List.mem_cons_self) hfree
    obtain ⟨label1, hx1, hc1⟩ := hT.cloneOne (P := P) hs hk hc hck hcs hone
    have hroot := hc1.changed.root
    obtain ⟨x, hrest⟩ := ih (c := c1) hx1.tree (hserved.next hone) (hx1.keep hs) (by rw [hroot]; exact hx1.keep hc) (by rwa [hroot])
      (by rwa [hroot]) (by rwa [hroot])
      (hsound.congr hc1.grown.handed (hc1.changed.others _ hs hne)) (hc1.changed.sound hchild)
      (fun a ha => hmem a (List.mem_cons_of_mem _ ha)) (fun a ha => hlow a (List.mem_cons_of_mem _ ha))
      (by rw [hc1.recorded, List.append_assoc]; exact hap)
    exact ⟨x, bind_eq_ok.mpr ⟨_, hone, hrest⟩⟩

end

end TgRcore.Vm
