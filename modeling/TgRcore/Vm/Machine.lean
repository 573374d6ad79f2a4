/-
  TgRcore.Vm.Machine — the page tables over runs of the machine.

  - `UserPage`: an entry of the last level carries U or is that of the portal page, if a process
    can have it: its own ones outside the last root entry, and the kernel's in it.
  - `MInv`: the tables of the kernel and of all processes are trees, every process has the
    kernel's portal entry, and every entry of the last level is a `UserPage`.
  - `boot_inv`, `MInv.step`, `mInv_run`: so it is after the boot and after every event.
-/

import TgRcore.Lib.Exec
import TgRcore.Vm.Effects

namespace TgRcore.Vm

open TgRcore.BlockProg AddressSpace

def UserPage (kernel : Nat) : PageProp := fun r i2 i1 i0 pte =>
  (r = kernel ↔ i2 = portalIdx) → Flag.u ∈ pte.flags ∨ i2 = portalIdx ∧ i1 = 511 ∧ i0 = 511

section

variable {good : PageProp} {kernel : Nat} {shared : List Nat} {label : Nat → Option Node} {h h' : Heap}
  {A : FrameAllocator} {R : Rounding} {s s' : AddressSpace} {first last ppn n v r : Nat} {flags : VmFlags}

/-! ## The portal -/

theorem child_lend {i : Nat} {n m : Node} (hne : ¬ (n = .root r ∧ i = portalIdx))
    (hc : n.child kernel (r :: shared) i = some m) : n.child kernel shared i = some m := by
  cases n with
  | root q =>
    rw [Node.child, Option.some.injEq] at hc ⊢
    rw [← hc, Node.mid.injEq]
    refine ⟨?_, rfl⟩
    unfold home
    by_cases hi : i = portalIdx
    · have hq : q ≠ r := fun e => hne ⟨by rw [e], hi⟩
      simp [hi, hq]
    · simp [hi]
  | mid _ _ => exact hc
  | leaf _ _ _ => cases hc

theorem setPte_self (h : Heap) (t i : Nat) : h.setPte t i (h.tables t i) = h := by
  unfold Heap.setPte
  congr 1
  funext f j
  split
  · rename_i e
    rw [e.1, e.2]
  · rfl

/-- A space gets the kernel's portal entry. -/
theorem Tree.lend (hT : Tree good kernel shared label h) (hr : label r = some (.root r))
    (hv : (h.tables kernel portalIdx).isValid = true) :
    Tree good kernel (r :: shared) label (h.setPte r portalIdx (h.tables kernel portalIdx)) := by
  have hkernel : (h.setPte r portalIdx (h.tables kernel portalIdx)).tables kernel portalIdx =
      h.tables kernel portalIdx := by
    by_cases he : kernel = r
    · rw [he]
      exact setPte_same _ _ _ _
    · exact setPte_ne _ _ fun e => he e.1
  refine ⟨hT.kern, fun hl => hT.handed hl, hT.own, ?_, ?_, ?_⟩
  · intro t k i m hl hc hvt
    by_cases he : t = r ∧ i = portalIdx
    · obtain ⟨rfl, rfl⟩ := he
      rw [setPte_same]
      rw [hr] at hl
      cases hl
      have hm : m = .mid kernel portalIdx := by
        rw [Node.child, home, if_pos ⟨rfl, List.mem_cons_self⟩, Option.some.injEq] at hc
        exact hc.symm
      refine hT.link hT.kern ?_ hv
      rw [hm, Node.child, home, ite_self]
    · rw [setPte_ne _ _ he] at hvt ⊢
      refine hT.link hl (child_lend (fun e => he ?_) hc) hvt
      rw [e.1] at hl
      exact ⟨hT.own hl, e.2⟩
  · intro t q i2 i1 i0 hl hvt
    have he : ¬ (t = r ∧ i0 = portalIdx) := by
      intro e
      rw [e.1, hr] at hl
      cases hl
    rw [setPte_ne _ _ he] at hvt ⊢
    exact hT.page hl hvt
  · intro q hq
    rw [hkernel]
    by_cases he : q = r
    · rw [he, setPte_same]
      exact ⟨hr, hv, rfl⟩
    · obtain ⟨hl, hvq, heq⟩ := hT.lent ((List.mem_cons.mp hq).resolve_left he)
      rw [setPte_ne _ _ fun e => he e.1]
      exact ⟨hl, hvq, heq⟩

theorem Tree.mapPortal {k : AddressSpace} (hT : Tree good k.root shared label h) (hr : label s.root = some (.root s.root))
    (hk : k.root ∈ shared) : Tree good k.root (s.root :: shared) label (mapPortal h k s) :=
  hT.lend hr (hT.lent hk).2.1

/-! ## The kernel's space -/

theorem indexIn_low (h : v < 511 * 2 ^ 18) : indexIn v 2 ≠ portalIdx := by
  unfold indexIn portalIdx
  omega

@[simp] theorem home_kernel (kernel : Nat) (shared : List Nat) (i : Nat) : home kernel shared kernel i = kernel := ite_self _

/-- The last root entry stays when pages below it are mapped. -/
theorem Tree.mapRegions {regions : List (Nat × Nat × VmFlags)} (hT : Tree (UserPage s.root) s.root shared label h)
    (hlow : ∀ r ∈ regions, r.2.1 ≤ 511 * 2 ^ 18) (hvalid : ∀ r ∈ regions, Flag.v ∈ r.2.2)
    (hok : Vm.mapRegions A regions h s = .ok (s', h')) :
    s'.root = s.root ∧ ∃ label', Extends (UserPage s.root) s.root shared label label' h' ∧
      ∀ w, indexIn w 2 = portalIdx → entry h' s.root w = entry h s.root w := by
  induction regions generalizing h s label with
  | nil =>
    cases hok
    exact ⟨rfl, label, ⟨fun hl => hl, hT⟩, fun _ _ => rfl⟩
  | cons region regions ih =>
    obtain ⟨first, last, flags⟩ := region
    obtain ⟨⟨s1, h1⟩, hmap, hok⟩ := bind_eq_ok.mp hok
    have hlast : last ≤ 511 * 2 ^ 18 := hlow _ List.mem_cons_self
    have hidx : ∀ v, v < last → indexIn v 2 ≠ portalIdx := fun v hv => indexIn_low (by omega)
    have hg : ∀ v ppn, first ≤ v → v < last → v ≤ vpnMax → UserPage s.root (home s.root shared s.root (indexIn v 2))
        (indexIn v 2) (indexIn v 1) (indexIn v 0) ⟨ppn, flags⟩ := by
      intro v ppn _ hv _ hiff
      exact absurd (hiff.mp (home_kernel _ _ _)) (hidx v hv)
    obtain ⟨hlt, -, rfl, -, label1, hx1, hm1⟩ := hT.mapExtern hT.kern (hvalid _ List.mem_cons_self) hg hmap
    obtain ⟨hroot, label2, hx2, he2⟩ := ih (s := { s with areas := s.areas ++ [(first, last)] }) hx1.tree
      (fun r hr => hlow r (List.mem_cons_of_mem _ hr)) (fun r hr => hvalid r (List.mem_cons_of_mem _ hr)) hok
    refine ⟨hroot, label2, hx1.trans hx2, fun w hw => ?_⟩
    rw [he2 w hw]
    refine hm1.outside hT.kern ?_
    rintro ⟨k, hk, ha⟩
    exact hidx (first + k) (by omega) (ha.top ▸ hw)

theorem next_of_entry {w : Nat} (hv : (entry h r w).isValid = true) : (h.tables r (indexIn w 2)).isValid = true := by
  obtain ⟨t, ht, -⟩ := entry_valid hv
  obtain ⟨mid, hmid, -⟩ := Option.bind_eq_some_iff.mp ht
  unfold Vm.next at hmid
  split at hmid
  · assumption
  · cases hmid

/-- The space of the kernel, and the portal page in it. -/
theorem kernelSpace_ok {layout : KernelLayout} {portal : Nat} (hok : kernelSpace A h layout portal = .ok (s, h')) :
    (∃ label, Tree (UserPage s.root) s.root [s.root] label h') ∧
      entry h' s.root vpnMax = ⟨portal, {.g, .x, .w, .r, .v}⟩ := by
  obtain ⟨⟨s0, h0⟩, hnew, hok⟩ := bind_eq_ok.mp hok
  obtain ⟨⟨s1, h1⟩, himage, hok⟩ := bind_eq_ok.mp hok
  obtain ⟨⟨s2, h2⟩, hportal, hok⟩ := bind_eq_ok.mp hok
  obtain ⟨⟨p, h0'⟩, halloc, hnew⟩ := bind_eq_ok.mp hnew
  cases hnew
  have hlow : ∀ r ∈ layout.image, r.2.1 ≤ 511 * 2 ^ 18 := fun r hr => layout.low r (List.mem_append_left _ hr)
  have hlow' : ∀ r ∈ layout.devices, r.2.1 ≤ 511 * 2 ^ 18 := fun r hr => layout.low r (List.mem_append_right _ hr)
  have hval : ∀ r ∈ layout.image, Flag.v ∈ r.2.2 := fun r hr => layout.valid r (List.mem_append_left _ hr)
  have hval' : ∀ r ∈ layout.devices, Flag.v ∈ r.2.2 := fun r hr => layout.valid r (List.mem_append_right _ hr)
  have hT0 : Tree (UserPage p) p [] (fun f => if f = p then some (.root p) else none) h0 := tree_first halloc
  obtain ⟨hr1, label1, hx1, -⟩ := Tree.mapRegions (s := ⟨[], p⟩) hT0 hlow hval himage
  have hr1 : s1.root = p := hr1
  have hT1 := hx1.tree
  rw [show AddressSpace.root ⟨[], p⟩ = s1.root from hr1.symm] at hT1
  have hg : ∀ v ppn, vpnMax ≤ v → v < vpnMax + 1 → v ≤ vpnMax → UserPage s1.root
      (home s1.root [] s1.root (indexIn v 2)) (indexIn v 2) (indexIn v 1) (indexIn v 0)
      ⟨ppn, {.g, .x, .w, .r, .v}⟩ := by
    intro v ppn h1 h2 _ _
    obtain rfl : v = vpnMax := by omega
    exact .inr ⟨by decide, by decide, by decide⟩
  obtain ⟨-, -, rfl, -, label2, hx2, hm2⟩ := hT1.mapExtern hT1.kern (by decide) hg hportal
  have hT2 := hx2.tree
  have hentry : entry h2 s1.root vpnMax = ⟨portal, {.g, .x, .w, .r, .v}⟩ :=
    (hm2.inside (k := 0) hT1.kern (by omega) .refl).1
  obtain ⟨hr3, label3, hx3, he3⟩ := Tree.mapRegions (s := { s1 with areas := s1.areas ++ [(vpnMax, vpnMax + 1)] })
    hT2 hlow' hval' hok
  have hr3 : s.root = s1.root := hr3
  have he3 : entry h' s1.root vpnMax = entry h2 s1.root vpnMax := he3 vpnMax (by decide)
  rw [hentry] at he3
  have hT3 : Tree (UserPage s1.root) s1.root [] label3 h' := hx3.tree
  rw [hr3]
  refine ⟨⟨label3, ?_⟩, he3⟩
  have hv : (h'.tables s1.root portalIdx).isValid = true :=
    next_of_entry (w := vpnMax) (by rw [he3]; simp [Pte.isValid])
  have hlend := hT3.lend hT3.kern hv
  rwa [setPte_self] at hlend

/-! ## The operations on processes -/

theorem userPage_u {kernel r i2 i1 i0 : Nat} {pte : Pte} (hu : Flag.u ∈ pte.flags) : UserPage kernel r i2 i1 i0 pte :=
  fun _ => .inl hu

/-- Fresh frames are mapped with U. -/
theorem Tree.mapUser (hT : Tree (UserPage kernel) kernel shared label h) (hr : label s.root = some (.root s.root))
    (hu : Flag.u ∈ flags) (hv : Flag.v ∈ flags) (hok : MapsFresh A h s first last ppn flags s' h') :
    s'.root = s.root ∧ ∃ label', Extends (UserPage kernel) kernel shared label label' h' := by
  obtain ⟨-, -, rfl, -, -, label', hx, -⟩ := hT.mapFresh hr hv
    (fun v ppn _ _ _ => userPage_u (Finset.mem_insert_of_mem hu)) hok
  exact ⟨rfl, label', hx⟩

theorem Tree.mapSegments {segs : List Segment} {m m' : Nat} (hT : Tree (UserPage kernel) kernel shared label h)
    (hr : label s.root = some (.root s.root)) (hok : Vm.mapSegments R A segs h s m = .ok (s', m', h')) :
    s'.root = s.root ∧ ∃ label', Extends (UserPage kernel) kernel shared label label' h' := by
  induction segs generalizing h s label m with
  | nil =>
    cases hok
    exact ⟨rfl, label, fun hl => hl, hT⟩
  | cons seg segs ih =>
    unfold Vm.mapSegments at hok
    dsimp only at hok
    split at hok
    · cases hok
    · obtain ⟨⟨s1, h1⟩, hmap, hok⟩ := bind_eq_ok.mp hok
      obtain ⟨p, hfresh⟩ := map_fresh hmap
      obtain ⟨hu, hv⟩ := userFlags_u seg.execute seg.write seg.read
      obtain ⟨hroot1, label1, hx1⟩ := hT.mapUser hr hu hv hfresh
      obtain ⟨hroot2, label2, hx2⟩ := ih hx1.tree (by rw [hroot1]; exact hx1.keep hr) hok
      exact ⟨hroot2.trans hroot1, label2, hx1.trans hx2⟩

/-- Frames from the allocator are mapped with U. -/
theorem Tree.mapStack {stack : Nat} {h1 : Heap} (hT : Tree (UserPage kernel) kernel shared label h)
    (hr : label s.root = some (.root s.root)) (halloc : h.pageAlloc A 2 = .ok (stack, h1))
    (hok : AddressSpace.mapExtern A h1 s first last stack {.u, .w, .r, .v} = .ok (s', h')) :
    s'.root = s.root ∧ ∃ label', Extends (UserPage kernel) kernel shared label label' h' := by
  obtain ⟨-, -, rfl, -, label', hx, -⟩ := (hT.pageAlloc halloc).mapExtern hr (by decide)
    (fun v ppn _ _ _ => userPage_u (by simp)) hok
  exact ⟨rfl, label', hx⟩

/-- A new process. -/
theorem Tree.fromElf {k : AddressSpace} {elf : ElfFile} {p : Process} (hT : Tree (UserPage k.root) k.root shared label h)
    (hk : k.root ∈ shared) (hok : Process.fromElf R A h k elf = .ok (some (p, h'))) :
    label p.space.root = none ∧ ∃ label', Extends (UserPage k.root) k.root (p.space.root :: shared) label label' h' := by
  unfold Process.fromElf at hok
  split at hok
  · cases hok
  · obtain ⟨⟨s0, h0⟩, hnew, hok⟩ := bind_eq_ok.mp hok
    obtain ⟨⟨s1, maxEndVa, h1⟩, hsegs, hok⟩ := bind_eq_ok.mp hok
    obtain ⟨⟨stack, h2⟩, halloc, hok⟩ := bind_eq_ok.mp hok
    obtain ⟨⟨s3, h3⟩, hstack, hok⟩ := bind_eq_ok.mp hok
    cases hok
    obtain ⟨-, hnone, -, label0, hx0, hr0, -, -⟩ := hT.new hnew
    obtain ⟨hroot1, label1, hx1⟩ := hx0.tree.mapSegments hr0 hsegs
    obtain ⟨hroot3, label3, hx3⟩ := hx1.tree.mapStack (by rw [hroot1]; exact hx1.keep hr0) halloc hstack
    have hroot : s3.root = s0.root := hroot3.trans hroot1
    have hx := (hx0.trans hx1).trans hx3
    refine ⟨?_, label3, hx.keep, hx.tree.mapPortal ?_ hk⟩
    · show label s3.root = none
      rw [hroot, hnone]
    · rw [hroot]
      exact hx3.keep (hx1.keep hr0)

theorem indexIn_mono {v w : Nat} (hv : indexIn v 2 = portalIdx) (hvw : v ≤ w) (hw : w ≤ vpnMax) :
    indexIn w 2 = portalIdx := by
  unfold indexIn portalIdx vpnMax at *
  omega

/-- A page of a process is good for a space that does not have the portal yet. What lies in the
    last root entry may lack U; the portal's entry will take its place. -/
theorem Tree.clone_good {c : AddressSpace} {pte : Pte} (hT : Tree (UserPage kernel) kernel shared label h)
    (hs : label s.root = some (.root s.root)) (hk : s.root ≠ kernel) (hck : c.root ≠ kernel) (hcs : c.root ∉ shared)
    (hvisit : visit h s first = some pte) (v ppn : Nat) (hv : first ≤ v) (hle : v ≤ vpnMax) :
    UserPage kernel (home kernel shared c.root (indexIn v 2)) (indexIn v 2) (indexIn v 1) (indexIn v 0)
      ⟨ppn, insert Flag.owned pte.flags⟩ := by
  obtain ⟨-, hpte, hvalid⟩ := visit_some hvisit
  have hgood := hT.visit_good hs (hpte ▸ hvalid)
  rw [← hpte] at hgood
  have hhome : home kernel shared c.root (indexIn v 2) = c.root := if_neg fun e => hcs e.2
  intro hiff
  rw [hhome] at hiff
  have hv2 : indexIn v 2 ≠ portalIdx := fun e => hck (hiff.mpr e)
  have ha2 : indexIn first 2 ≠ portalIdx := fun e => hv2 (indexIn_mono e hv hle)
  have hown : home kernel shared s.root (indexIn first 2) ≠ kernel := by
    rw [home, if_neg fun e => ha2 e.1]
    exact hk
  refine .inl (Finset.mem_insert_of_mem ?_)
  exact (hgood ⟨fun e => absurd e hown, fun e => absurd e ha2⟩).resolve_right fun e => ha2 e.1

/-- An area of a process is mapped in such a space. -/
theorem Tree.cloneArea {c c' : AddressSpace} {area : Nat × Nat}
    (hT : Tree (UserPage kernel) kernel shared label h) (hs : label s.root = some (.root s.root)) (hk : s.root ≠ kernel)
    (hc : label c.root = some (.root c.root)) (hck : c.root ≠ kernel) (hcs : c.root ∉ shared)
    (hok : AddressSpace.cloneArea A h s c area = .ok (c', h')) :
    ∃ pte p, visit h s area.1 = some pte ∧ area.1 < area.2 ∧ area.2 ≤ vpnMax + 1 ∧
      c' = { c with areas := c.areas ++ [area] } ∧ Grown h h' ∧
      (∀ k i, k < area.2 - area.1 → i < pageSize → h.Handed (pte.ppn + k) →
        h'.mem ((p + k) * pageSize + i) = h.mem ((pte.ppn + k) * pageSize + i)) ∧
      (∀ k, k < area.2 - area.1 → ¬ h.Handed (p + k) ∧ h'.Handed (p + k)) ∧
      ∃ label', Extends (UserPage kernel) kernel shared label label' h' ∧
        Mapped kernel shared label h h' c.root area.1 (area.2 - area.1) p (insert Flag.owned pte.flags) := by
  obtain ⟨pte, p, hvisit, hfresh, hgrown, hbytes⟩ := cloneArea_fresh hok
  have hvalid := (visit_some hvisit).2.2
  obtain ⟨hlt, hlast, hc', -, hframes, label', hx, hm⟩ := hT.mapFresh hc (by simpa [Pte.isValid] using hvalid)
    (fun v ppn hv _ hle => hT.clone_good hs hk hck hcs hvisit v ppn hv hle) hfresh
  exact ⟨pte, p, hvisit, hlt, hlast, hc', hgrown, hbytes, hframes, label', hx, hm⟩

theorem Tree.cloneself {areas : List (Nat × Nat)} {c c' : AddressSpace}
    (hT : Tree (UserPage kernel) kernel shared label h) (hs : label s.root = some (.root s.root)) (hk : s.root ≠ kernel)
    (hc : label c.root = some (.root c.root)) (hck : c.root ≠ kernel) (hcs : c.root ∉ shared)
    (hok : AddressSpace.cloneself A s areas h c = .ok (c', h')) :
    c'.root = c.root ∧ ∃ label', Extends (UserPage kernel) kernel shared label label' h' := by
  induction areas generalizing h c label with
  | nil =>
    cases hok
    exact ⟨rfl, label, fun hl => hl, hT⟩
  | cons area areas ih =>
    obtain ⟨⟨c1, h1⟩, harea, hok⟩ := bind_eq_ok.mp hok
    obtain ⟨pte, p, -, -, -, rfl, -, -, -, label1, hx1, -⟩ := hT.cloneArea hs hk hc hck hcs harea
    obtain ⟨hroot2, label2, hx2⟩ := ih (c := { c with areas := c.areas ++ [area] }) hx1.tree (hx1.keep hs)
      (hx1.keep hc) hck hcs hok
    exact ⟨hroot2, label2, hx1.trans hx2⟩

theorem Tree.fork {k : AddressSpace} {p p' : Process} (hT : Tree (UserPage k.root) k.root shared label h)
    (hk : k.root ∈ shared) (hp : p.space.root ∈ shared) (hpk : p.space.root ≠ k.root)
    (hok : Process.fork A h k p = .ok (p', h')) :
    label p'.space.root = none ∧ ∃ label', Extends (UserPage k.root) k.root (p'.space.root :: shared) label label' h' := by
  obtain ⟨⟨s0, h0⟩, hnew, hok⟩ := bind_eq_ok.mp hok
  obtain ⟨⟨s1, h1⟩, hclone, hok⟩ := bind_eq_ok.mp hok
  cases hok
  obtain ⟨-, hnone, -, label0, hx0, hr0, -, -⟩ := hT.new hnew
  have hne : s0.root ≠ k.root := by
    intro e
    rw [e, hT.kern] at hnone
    cases hnone
  have hns : s0.root ∉ shared := by
    intro e
    rw [(hT.lent e).1] at hnone
    cases hnone
  obtain ⟨hroot1, label1, hx1⟩ := hx0.tree.cloneself (hx0.keep (hT.lent hp).1) hpk hr0 hne hns hclone
  have hx := hx0.trans hx1
  refine ⟨?_, label1, hx.keep, hx.tree.mapPortal ?_ hk⟩
  · show label s1.root = none
    rw [hroot1, hnone]
  · rw [hroot1]
    exact hx1.keep hr0

/-- A call that changes the space of its process keeps the root. -/
def Keeps (kernel : Nat) (shared : List Nat) (label : Nat → Option Node) (p p' : Process) (h' : Heap) : Prop :=
  p'.space.root = p.space.root ∧ ∃ label', Extends (UserPage kernel) kernel shared label label' h'

/-- A call on the memory of a process. -/
theorem Tree.memCall {p p' : Process} {c : MemCall} {ret : Int} (hT : Tree (UserPage kernel) kernel shared label h)
    (hr : label p.space.root = some (.root p.space.root)) (hok : c.run R A h p = .ok (ret, p', h')) :
    Keeps kernel shared label p p' h' := by
  have hdid := (MemCall.did hok).1
  cases he : c.effect R p with
  | none =>
    rw [he] at hdid
    obtain ⟨hspace, rfl⟩ := hdid
    exact ⟨by rw [hspace], label, fun hl => hl, hT⟩
  | map first last =>
    rw [he] at hdid
    obtain ⟨ppn, flags, hu, hv, hfresh⟩ := hdid
    exact hT.mapUser hr hu hv hfresh
  | unmap first last =>
    rw [he] at hdid
    obtain ⟨hspace, rfl⟩ := hdid
    exact ⟨by rw [hspace]; rfl, label, fun hl => hl, (hT.clearPages hr).2.1⟩

theorem Tree.threadStack {p p' : Process} (hT : Tree (UserPage kernel) kernel shared label h)
    (hr : label p.space.root = some (.root p.space.root)) (hok : Process.threadStack A h p = .ok (p', h')) :
    Keeps kernel shared label p p' h' := by
  obtain ⟨v, -, hok⟩ := bind_eq_ok.mp hok
  obtain ⟨⟨stack, h1⟩, halloc, hok⟩ := bind_eq_ok.mp hok
  obtain ⟨⟨s1, h2⟩, hmap, hok⟩ := bind_eq_ok.mp hok
  cases hok
  exact hT.mapStack hr halloc hmap

/-! ## Runs -/

/-- Every process has the kernel's portal entry, and tables of its own besides. -/
structure MInv (s : Machine) (shared : List Nat) (label : Nat → Option Node) : Prop where
  tree : Tree (UserPage s.kernel.root) s.kernel.root shared label s.heap
  kern : s.kernel.root ∈ shared
  procs : ∀ p ∈ s.procs, p.space.root ∈ shared ∧ p.space.root ≠ s.kernel.root

end

section

variable {A : FrameAllocator} {R : Rounding} {s s' : Machine} {shared : List Nat} {label : Nat → Option Node}

theorem boot_inv {h : Heap} {layout : KernelLayout} {portal : Nat} (hok : Machine.boot A h layout portal = .ok s) :
    (∃ shared label, MInv s shared label) ∧ entry s.heap s.kernel.root vpnMax = ⟨portal, {.g, .x, .w, .r, .v}⟩ := by
  obtain ⟨⟨k, h1⟩, hk, hok⟩ := bind_eq_ok.mp hok
  cases hok
  obtain ⟨⟨label, hT⟩, he⟩ := kernelSpace_ok hk
  refine ⟨⟨_, label, hT, List.mem_singleton_self _, ?_⟩, he⟩
  intro p hp
  cases hp

theorem caller_get {i : Nat} {p : Process} (h : s.caller i = .ok p) : s.procs[i]? = some p := by
  unfold Machine.caller at h
  split at h
  · rename_i q hq
    cases h
    exact hq
  · cases h

theorem caller_ok {i : Nat} {p : Process} (h : s.caller i = .ok p) : p ∈ s.procs := List.mem_of_getElem? (caller_get h)

theorem MInv.root (hi : MInv s shared label) {p : Process} (hp : p ∈ s.procs) :
    label p.space.root = some (.root p.space.root) := (hi.tree.lent (hi.procs p hp).1).1

theorem MInv.update (hi : MInv s shared label) {i : Nat} {p p' : Process} {h' : Heap} (hp : p ∈ s.procs)
    (hk : Keeps s.kernel.root shared label p p' h') : ∃ label', MInv (s.update i p' h') shared label' := by
  obtain ⟨hroot, label', hx⟩ := hk
  refine ⟨label', hx.tree, hi.kern, ?_⟩
  intro q hq
  rcases List.mem_or_eq_of_mem_set hq with hq | rfl
  · exact hi.procs q hq
  · rw [hroot]
    exact hi.procs p hp

/-- A new process, beside the others or in the place of one. -/
theorem MInv.add (hi : MInv s shared label) {p' : Process} {h' : Heap} {procs : List Process}
    (hnone : label p'.space.root = none) {label' : Nat → Option Node}
    (hx : Extends (UserPage s.kernel.root) s.kernel.root (p'.space.root :: shared) label label' h')
    (hprocs : ∀ q ∈ procs, q ∈ s.procs ∨ q = p') :
    ∃ shared' label', MInv ⟨h', s.kernel, procs⟩ shared' label' := by
  refine ⟨_, label', hx.tree, List.mem_cons_of_mem _ hi.kern, ?_⟩
  intro q hq
  rcases hprocs q hq with hq | rfl
  · exact ⟨List.mem_cons_of_mem _ (hi.procs q hq).1, (hi.procs q hq).2⟩
  · refine ⟨List.mem_cons_self, fun e => ?_⟩
    rw [e, hi.tree.kern] at hnone
    cases hnone

theorem MInv.step {e : Event} (hi : MInv s shared label) (hs : s.step R A e = .ok s') :
    ∃ shared' label', MInv s' shared' label' := by
  have hup : ∀ {i p p' h'}, p ∈ s.procs → Keeps s.kernel.root shared label p p' h' →
      ∃ shared' label', MInv (s.update i p' h') shared' label' := fun hp hk => ⟨shared, hi.update hp hk⟩
  cases Machine.step_did hs with
  | refused => exact ⟨shared, label, hi⟩
  | spawn helf =>
    obtain ⟨hnone, label', hx⟩ := hi.tree.fromElf hi.kern helf
    exact hi.add hnone hx fun q hq => (List.mem_append.mp hq).imp id List.mem_singleton.mp
  | exec _ helf =>
    obtain ⟨hnone, label', hx⟩ := hi.tree.fromElf hi.kern helf
    exact hi.add hnone hx fun q hq => List.mem_or_eq_of_mem_set hq
  | fork hp hfork =>
    obtain ⟨hsh, hpk⟩ := hi.procs _ (caller_ok hp)
    obtain ⟨hnone, label', hx⟩ := hi.tree.fork hi.kern hsh hpk hfork
    exact hi.add hnone hx fun q hq => (List.mem_append.mp hq).imp id List.mem_singleton.mp
  | call hp hcall => exact hup (caller_ok hp) (hi.tree.memCall (hi.root (caller_ok hp)) hcall)
  | threadCreate hp hcall => exact hup (caller_ok hp) (hi.tree.threadStack (hi.root (caller_ok hp)) hcall)
  | exit => exact ⟨shared, label, hi.tree, hi.kern, fun q hq => hi.procs q (List.mem_of_mem_eraseIdx hq)⟩

/-- The events after the boot. -/
abbrev Runs (R : Rounding) (A : FrameAllocator) (s : Machine) (es : List Event) (s' : Machine) : Prop :=
  Exec (fun s e s' => s.step R A e = .ok s') s es s'

theorem mInv_run {h : Heap} {layout : KernelLayout} {portal : Nat} {es : List Event}
    (hboot : Machine.boot A h layout portal = .ok s) (hrun : Runs R A s es s') :
    ∃ shared label, MInv s' shared label := by
  refine hrun.inv (P := fun _ s => ∃ shared label, MInv s shared label) (boot_inv hboot).1 ?_
  intro es t e u hi hs
  obtain ⟨shared, label, hi⟩ := hi
  exact hi.step hs

end

end TgRcore.Vm
