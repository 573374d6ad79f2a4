/-
  TgRcore.Vm.Fork — the memory of a child against that of its parent, chapters 6 to 8.

  - `SInv`: every process has a sound page table below the portal, and no frame of another.
  - `SInv.step`, `sInv_run`: so it is after every event.
  - `frames_apart`: no two processes ever have a frame in common below the portal.
  - `fork_copies`: a child made by `cloneself` has the parent's pages, with the parent's bytes,
    in frames of its own.
-/

import TgRcore.Vm.Clone
import TgRcore.Vm.Isolation

namespace TgRcore.Vm

open TgRcore.BlockProg TgRcore.Sync AddressSpace

/-- What is known of the rounding: an address has 39 bits, so none rounds up past the end of the
    page numbers; the address of a page is a `usize`. -/
structure Rounding.Lawful (R : Rounding) : Prop where
  bound : ∀ a, R.ceil a ≤ vpnMax + 1
  usize : ∀ v, R.base v < 2 ^ 64

/-- No frame below the portal is one of both. -/
def FramesApart (h : Heap) (a b : AddressSpace) : Prop :=
  ∀ v w, v < portalStart → w < portalStart → (entry h a.root v).isValid = true → (entry h b.root w).isValid = true →
    (entry h a.root v).ppn ≠ (entry h b.root w).ppn

structure SInv (neat : Prop) (s : Machine) : Prop where
  sound : ∀ p ∈ s.procs, Sound neat s.heap p.space
  apart : ∀ p ∈ s.procs, ∀ q ∈ s.procs, p.space.root ≠ q.space.root → FramesApart s.heap p.space q.space

/-- A range that is unmapped is not empty. -/
def Event.Proper (R : Rounding) : Event → Prop
  | .munmap _ addr len => R.floor addr < R.ceil (addr + len)
  | _ => True

/-- A space that was made, in frames that were not handed out before. -/
structure Born (neat : Prop) (label : Nat → Option Node) (h h' : Heap) (s : AddressSpace) : Prop where
  sound : Sound neat h' s
  pages : ∀ v, v < portalStart → (entry h' s.root v).isValid = true → ¬ h.Handed (entry h' s.root v).ppn
  others : ∀ q, label q = some (.root q) → ∀ v, v < portalStart → entry h' q v = entry h q v
  handed : ∀ f, h.Handed f → h'.Handed f

section

variable {P : Prop} {good : PageProp} {kernel : Nat} {shared : List Nat} {label label' : Nat → Option Node} {h h' : Heap}
  {A : FrameAllocator} {R : Rounding} {s s' : AddressSpace} {first last ppn n v w q r : Nat} {flags : VmFlags}

/-! ## New spaces -/

theorem Tree.born (hT : Tree good kernel shared label h) (hok : AddressSpace.new A h = .ok (s, h')) : Born P label h h' s := by
  obtain ⟨hareas, -, hh, label', -, -, hsame, hzero⟩ := hT.new hok
  refine ⟨⟨?_, ?_, ?_⟩, ?_, fun q hq v _ => hsame q v hq, hh⟩
  · rw [hareas]
    exact covers_nil fun v _ => by rw [hzero]; rfl
  · intro v _ hvalid
    rw [hzero] at hvalid
    cases hvalid
  · intro v w _ _ hvalid
    rw [hzero] at hvalid
    cases hvalid
  · intro v _ hvalid
    rw [hzero] at hvalid
    cases hvalid

theorem Born.change {h1 : Heap} (hb : Born P label h h1 s) (hnone : label s.root = none)
    (hkeep : ∀ {f n}, label f = some n → label' f = some n) (hc : Changed P label' h1 h' s s') : Born P label h h' s' := by
  refine ⟨hc.sound hb.sound, ?_, ?_, fun f hf => hc.handed f (hb.handed f hf)⟩
  · intro v hv hvalid
    rw [hc.root] at hvalid ⊢
    rcases hc.pages v hv hvalid with he | hnew
    · rw [he] at hvalid ⊢
      exact hb.pages v hv hvalid
    · exact fun hf => hnew (hb.handed _ hf)
  · intro q hq v hv
    have hne : q ≠ s.root := by
      intro e
      rw [e, hnone] at hq
      cases hq
    rw [hc.others q (hkeep hq) hne v hv, hb.others q hq v hv]

/-- The portal's root entry has no page below the portal. -/
theorem Tree.entry_portal {pte : Pte} (hT : Tree good kernel shared label h) (hr : label r = some (.root r))
    (hq : label q = some (.root q)) (hv : v < portalStart) : entry (h.setPte r portalIdx pte) q v = entry h q v := by
  have hother : ∀ {f n j}, label f = some n → n ≠ .root r ∨ j ≠ portalIdx →
      (h.setPte r portalIdx pte).tables f j = h.tables f j := by
    intro f n j hl hor
    refine setPte_ne _ _ fun e => ?_
    rw [e.1, hr] at hl
    cases hl
    exact hor.elim (fun hn => hn rfl) fun hj => hj e.2
  have h2 : Vm.next (h.setPte r portalIdx pte) q (indexIn v 2) = Vm.next h q (indexIn v 2) :=
    next_eq (hother hq (.inr (indexIn_low hv)))
  cases hmid : Vm.next h q (indexIn v 2) with
  | none => rw [entry_none (h := h) (by rw [leafOf, hmid]; rfl), entry_none (by rw [leafOf, h2, hmid]; rfl)]
  | some mid =>
    have hml := hT.next_some hq rfl hmid
    have h1 : Vm.next (h.setPte r portalIdx pte) mid (indexIn v 1) = Vm.next h mid (indexIn v 1) :=
      next_eq (hother hml (.inl (by simp)))
    have hleaf : leafOf (h.setPte r portalIdx pte) q v = leafOf h q v := by
      rw [leafOf, leafOf, h2, hmid, Option.bind_some, Option.bind_some, h1]
    cases hl : leafOf h q v with
    | none => rw [entry_none hl, entry_none (by rw [hleaf, hl])]
    | some leaf =>
      rw [entry_some hl, entry_some (by rw [hleaf, hl])]
      exact hother (hT.leafOf_some hq hl) (.inl (by simp))

theorem Born.portal {k : AddressSpace} (hb : Born P label h h' s) (hT : Tree good kernel shared label' h')
    (hkeep : ∀ {f n}, label f = some n → label' f = some n) (hr : label' s.root = some (.root s.root)) :
    Born P label h (mapPortal h' k s) s := by
  have hsame : ∀ q, label' q = some (.root q) → ∀ v, v < portalStart → entry (mapPortal h' k s) q v = entry h' q v :=
    fun q hq v hv => hT.entry_portal hr hq hv
  refine ⟨hb.sound.congr (fun f hf => hf) (hsame _ hr), ?_, ?_, hb.handed⟩
  · intro v hv
    rw [hsame _ hr v hv]
    exact hb.pages v hv
  · intro q hq v hv
    rw [hsame q (hkeep hq) v hv, hb.others q hq v hv]

/-! ## The operations on processes -/

theorem Tree.fresh_changed (hT : Tree (UserPage kernel) kernel shared label h) (hr : label s.root = some (.root s.root))
    (hu : Flag.u ∈ flags) (hv : Flag.v ∈ flags) (hok : MapsFresh A h s first last ppn flags s' h') :
    ∃ label', Extends (UserPage kernel) kernel shared label label' h' ∧ Changed P label h h' s s' := by
  obtain ⟨hlt, hlast, rfl, hh, hframes, label', hx, hm⟩ := hT.mapFresh hr hv
    (fun v ppn _ _ _ => userPage_u (Finset.mem_insert_of_mem hu)) hok
  exact ⟨label', hx, hm.changed hr hlt hlast (Finset.mem_insert_of_mem hv) hframes hh⟩

theorem Tree.segments_changed {segs : List Segment} {m m' : Nat} (hT : Tree (UserPage kernel) kernel shared label h)
    (hr : label s.root = some (.root s.root)) (hok : Vm.mapSegments R A segs h s m = .ok (s', m', h')) :
    ∃ label', Extends (UserPage kernel) kernel shared label label' h' ∧ Changed P label h h' s s' := by
  induction segs generalizing h s label m with
  | nil =>
    cases hok
    exact ⟨label, ⟨fun hl => hl, hT⟩, .refl⟩
  | cons seg segs ih =>
    unfold Vm.mapSegments at hok
    dsimp only at hok
    split at hok
    · cases hok
    · obtain ⟨⟨s1, h1⟩, hmap, hok⟩ := bind_eq_ok.mp hok
      obtain ⟨p, hfresh⟩ := map_fresh hmap
      obtain ⟨hu, hv⟩ := userFlags_u seg.execute seg.write seg.read
      obtain ⟨label1, hx1, hc1⟩ := hT.fresh_changed (P := P) hr hu hv hfresh
      obtain ⟨label2, hx2, hc2⟩ := ih hx1.tree (by rw [hc1.root]; exact hx1.keep hr) hok
      exact ⟨label2, hx1.trans hx2, hc1.trans hx1.keep hc2⟩

theorem Tree.stack_changed {stack : Nat} {h1 : Heap} (hT : Tree (UserPage kernel) kernel shared label h)
    (hr : label s.root = some (.root s.root)) (halloc : h.pageAlloc A (last - first) = .ok (stack, h1))
    (hok : AddressSpace.mapExtern A h1 s first last stack {.u, .w, .r, .v} = .ok (s', h')) :
    ∃ label', Extends (UserPage kernel) kernel shared label label' h' ∧ Changed P label h h' s s' := by
  obtain ⟨hlt, hlast, rfl, hh, hframes, label', hx, hm⟩ := hT.mapFrames hr (by decide)
    (fun v ppn _ _ _ => userPage_u (by simp)) halloc rfl rfl hok
  exact ⟨label', hx, hm.changed hr hlt hlast (by decide) hframes hh⟩

theorem Tree.fromElf_born {k : AddressSpace} {elf : ElfFile} {p : Process}
    (hT : Tree (UserPage k.root) k.root shared label h) (hok : Process.fromElf R A h k elf = .ok (some (p, h'))) :
    Born P label h h' p.space := by
  unfold Process.fromElf at hok
  split at hok
  · cases hok
  · obtain ⟨⟨s0, h0⟩, hnew, hok⟩ := bind_eq_ok.mp hok
    obtain ⟨⟨s1, maxEndVa, h1⟩, hsegs, hok⟩ := bind_eq_ok.mp hok
    obtain ⟨⟨stack, h2⟩, halloc, hok⟩ := bind_eq_ok.mp hok
    obtain ⟨⟨s3, h3⟩, hstack, hok⟩ := bind_eq_ok.mp hok
    cases hok
    obtain ⟨-, hnone, -, label0, hx0, hr0, -, -⟩ := hT.new hnew
    obtain ⟨label1, hx1, hc1⟩ := hx0.tree.segments_changed (P := P) hr0 hsegs
    have hr1 : label1 s1.root = some (.root s1.root) := by
      rw [hc1.root]
      exact hx1.keep hr0
    obtain ⟨label3, hx3, hc3⟩ := hx1.tree.stack_changed (P := P) hr1 halloc hstack
    have hr3 : label3 s3.root = some (.root s3.root) := by
      rw [hc3.root]
      exact hx3.keep hr1
    have hx := (hx0.trans hx1).trans hx3
    exact ((hT.born hnew).change hnone hx0.keep (hc1.trans hx1.keep hc3)).portal hx3.tree hx.keep hr3

theorem Tree.fork_born {k : AddressSpace} {p p' : Process} (hT : Tree (UserPage k.root) k.root shared label h)
    (hp : p.space.root ∈ shared) (hpk : p.space.root ≠ k.root) (hok : Process.fork A h k p = .ok (p', h')) :
    Born P label h h' p'.space := by
  obtain ⟨⟨s0, h0⟩, hnew, hok⟩ := bind_eq_ok.mp hok
  obtain ⟨⟨s1, h1⟩, hclone, hok⟩ := bind_eq_ok.mp hok
  cases hok
  obtain ⟨-, hnone, -, label0, hx0, hr0, -, -⟩ := hT.new hnew
  have hlabel := (hT.lent hp).1
  have hold : ∀ {r}, label r = some (.root r) → r ≠ s0.root := by
    intro r hl e
    rw [e, hnone] at hl
    cases hl
  obtain ⟨label1, hx1, hc1⟩ := hx0.tree.cloneAll (P := P) (hx0.keep hlabel) hpk hr0 (hold hT.kern).symm
    (fun e => hold (hT.lent e).1 rfl) (hold hlabel) hclone
  have hr1 : label1 s1.root = some (.root s1.root) := by
    rw [hc1.changed.root]
    exact hx1.keep hr0
  exact ((hT.born hnew).change hnone hx0.keep hc1.changed).portal hx1.tree (hx0.trans hx1).keep hr1

/-- An effect on a space; a range that is unmapped is one of page numbers. -/
theorem Tree.did_changed {x : Effect} (hT : Tree (UserPage kernel) kernel shared label h)
    (hr : label s.root = some (.root s.root)) (hdid : x.Did A h s s' h')
    (hx : ∀ first last, x = .unmap first last → (P → first ≤ last) ∧ last ≤ vpnMax + 1) : Changed P label h h' s s' := by
  cases x with
  | none =>
    obtain ⟨rfl, rfl⟩ := hdid
    exact .refl
  | map first last =>
    obtain ⟨ppn, flags, hu, hv, hfresh⟩ := hdid
    obtain ⟨label', -, hc⟩ := hT.fresh_changed hr hu hv hfresh
    exact hc
  | unmap first last =>
    obtain ⟨rfl, rfl⟩ := hdid
    obtain ⟨hle, hlast⟩ := hx first last rfl
    obtain ⟨hh, -, hc⟩ := hT.clearPages (v := first) (n := last - first) hr
    exact hc.changed hr hle hlast hh

/-- A call unmaps a range of page numbers; one that is proper does not end before it begins. -/
theorem unmap_range {p : Process} {c : MemCall} {i : Nat} (hR : R.Lawful) (hc : P → (c.event i).Proper R)
    (he : c.effect R p = .unmap first last) : (P → first ≤ last) ∧ last ≤ vpnMax + 1 := by
  cases c with
  | mmap addr len prot =>
    rw [MemCall.effect] at he
    split at he
    · cases he
    · cases he
  | munmap addr len =>
    rw [MemCall.effect] at he
    split at he
    · cases he
      exact ⟨fun hn => Nat.le_of_lt (hc hn), hR.bound _⟩
    · cases he
  | sbrk size =>
    rw [MemCall.effect] at he
    split at he
    · cases he
    · split at he
      · cases he
      · split at he
        · rename_i hlt
          cases he
          exact ⟨fun _ => Nat.le_of_lt hlt.2, hR.bound _⟩
        · cases he

/-! ## Runs -/

theorem FramesApart.symm {a b : AddressSpace} (hf : FramesApart h a b) : FramesApart h b a :=
  fun v w hv hw hvv hvw e => hf w v hw hv hvw hvv e.symm

/-- A process whose space an event left alone, beside the one that the event made or changed. -/
structure Stays (s : Machine) (h' : Heap) (x q : Process) : Prop where
  mem : q ∈ s.procs
  same : ∀ v, v < portalStart → entry h' q.space.root v = entry s.heap q.space.root v
  apart : FramesApart h' x.space q.space

end

section

variable {P : Prop} {A : FrameAllocator} {R : Rounding} {s s' : Machine} {shared : List Nat} {label : Nat → Option Node}
  {p p' q : Process} {i : Nat} {h' : Heap} {procs : List Process}

theorem SInv.put (hs : SInv P s) (hh : ∀ f, s.heap.Handed f → h'.Handed f) (hsound : Sound P h' p'.space)
    (hprocs : ∀ q ∈ procs, q = p' ∨ Stays s h' p' q) : SInv P ⟨h', s.kernel, procs⟩ := by
  refine ⟨?_, ?_⟩
  · intro q hq
    rcases hprocs q hq with rfl | hq
    · exact hsound
    · exact (hs.sound q hq.mem).congr hh hq.same
  · intro q hq r hr hne
    rcases hprocs q hq with rfl | hq
    · rcases hprocs r hr with rfl | hr
      · exact absurd rfl hne
      · exact hr.apart
    · rcases hprocs r hr with rfl | hr
      · exact hq.apart.symm
      · intro v w hv hw
        show (entry h' q.space.root v).isValid = true → (entry h' r.space.root w).isValid = true →
          (entry h' q.space.root v).ppn ≠ (entry h' r.space.root w).ppn
        rw [hq.same v hv, hr.same w hw]
        exact hs.apart q hq.mem r hr.mem hne v w hv hw

/-- A new process, beside the others or in the place of one. -/
theorem SInv.add (hi : MInv s shared label) (hs : SInv P s) (hb : Born P label s.heap h' p'.space)
    (hprocs : ∀ q ∈ procs, q ∈ s.procs ∨ q = p') : SInv P ⟨h', s.kernel, procs⟩ := by
  refine hs.put hb.handed hb.sound fun q hq => ?_
  rcases hprocs q hq with hq | rfl
  · have hsame := hb.others _ (hi.root hq)
    refine .inr ⟨hq, hsame, ?_⟩
    intro v w hv hw hvv hvw heq
    have hnew := hb.pages v hv hvv
    rw [hsame w hw] at hvw heq
    rw [heq] at hnew
    exact hnew ((hs.sound q hq).handed w hw hvw)
  · exact .inl rfl

theorem mem_update (hr : Roots s) (hp : s.caller i = .ok p) (hq : q ∈ s.procs.set i p') :
    q = p' ∨ q ∈ s.procs ∧ q.space.root ≠ p.space.root := by
  obtain ⟨j, hj⟩ := List.mem_iff_getElem?.mp hq
  by_cases hji : j = i
  · rw [hji, List.getElem?_set_self (List.getElem?_eq_some_iff.mp (caller_get hp)).1] at hj
    exact .inl (Option.some.inj hj).symm
  · rw [List.getElem?_set_ne (Ne.symm hji)] at hj
    exact .inr ⟨List.mem_of_getElem? hj, hr.ne (caller_get hp) hj hji⟩

/-- A process that changed its space. -/
theorem SInv.update (hi : MInv s shared label) (hs : SInv P s) (hr : Roots s) (hp : s.caller i = .ok p)
    (hc : Changed P label s.heap h' p.space p'.space) : SInv P (s.update i p' h') := by
  have hmem := caller_ok hp
  refine hs.put hc.handed (hc.sound (hs.sound p hmem)) fun q hq => ?_
  rcases mem_update hr hp hq with he | ⟨hq, hne⟩
  · exact .inl he
  · have hsame := hc.others _ (hi.root hq) hne
    refine .inr ⟨hq, hsame, ?_⟩
    intro v w hv hw hvv hvw
    rw [hc.root] at hvv ⊢
    rw [hsame w hw] at hvw ⊢
    rcases hc.pages v hv hvv with he | hnew
    · rw [he] at hvv ⊢
      exact hs.apart p hmem q hq hne.symm v w hv hw hvv hvw
    · intro e
      exact hnew (e ▸ (hs.sound q hq).handed w hw hvw)

theorem SInv.step {e : Event} (hR : R.Lawful) (hi : MInv s shared label) (hs : SInv P s) (hr : Roots s)
    (he : P → e.Proper R) (hok : s.step R A e = .ok s') : SInv P s' := by
  cases Machine.step_did hok with
  | refused => exact hs
  | spawn helf => exact hs.add hi (hi.tree.fromElf_born helf) fun q hq => (List.mem_append.mp hq).imp id List.mem_singleton.mp
  | exec _ helf => exact hs.add hi (hi.tree.fromElf_born helf) fun q hq => List.mem_or_eq_of_mem_set hq
  | fork hp hfork =>
    obtain ⟨hsh, hpk⟩ := hi.procs _ (caller_ok hp)
    exact hs.add hi (hi.tree.fork_born hsh hpk hfork) fun q hq => (List.mem_append.mp hq).imp id List.mem_singleton.mp
  | call hp hcall =>
    have hc := hi.tree.did_changed (hi.root (caller_ok hp)) (MemCall.did hcall).1 fun first last hx => unmap_range hR he hx
    exact hs.update hi hr hp hc
  | threadCreate hp hcall =>
    obtain ⟨v, -, hcall⟩ := bind_eq_ok.mp hcall
    obtain ⟨⟨stack, h1⟩, halloc, hcall⟩ := bind_eq_ok.mp hcall
    obtain ⟨⟨s1, h2⟩, hmap, hcall⟩ := bind_eq_ok.mp hcall
    cases hcall
    have halloc : s.heap.pageAlloc A (v + 2 - v) = .ok (stack, h1) := by
      rw [Nat.add_sub_cancel_left]
      exact halloc
    obtain ⟨label', -, hc⟩ := hi.tree.stack_changed (hi.root (caller_ok hp)) halloc hmap
    exact hs.update hi hr hp hc
  | exit =>
    have hsub : ∀ {i q}, q ∈ s.procs.eraseIdx i → q ∈ s.procs := List.mem_of_mem_eraseIdx
    exact ⟨fun q hq => hs.sound q (hsub hq), fun q hq r hr => hs.apart q (hsub hq) r (hsub hr)⟩

/-- `P` as in `Covers`: no event of the run unmaps a range that ends before it begins. -/
theorem sInv_run {h : Heap} {layout : KernelLayout} {portal : Nat} {es : List Event} (hR : R.Lawful)
    (hboot : Machine.boot A h layout portal = .ok s) (hrun : Runs R A s es s') (hes : P → ∀ e ∈ es, e.Proper R) :
    SInv P s' ∧ Roots s' ∧ ∃ shared label, MInv s' shared label := by
  have h0 : SInv P s := by
    obtain ⟨⟨k, h1⟩, -, hboot⟩ := bind_eq_ok.mp hboot
    cases hboot
    refine ⟨?_, ?_⟩
    · intro p hp
      cases hp
    · intro p hp
      cases hp
  obtain ⟨hr0, hi0⟩ := roots_run (R := R) hboot (.nil s)
  refine hrun.inv (P := fun es s => (P → ∀ e ∈ es, e.Proper R) → SInv P s ∧ Roots s ∧ ∃ shared label, MInv s shared label)
    (fun _ => ⟨h0, hr0, hi0⟩) ?_ hes
  intro es t e u hi hok hes
  obtain ⟨hs, hr, shared, label, hi⟩ := hi fun hn x hx => hes hn x (List.mem_append_left _ hx)
  have he := fun hn => hes hn e (List.mem_append_right _ (List.mem_singleton_self e))
  exact ⟨hs.step hR hi hr he hok, hr.step hi hok, hi.step hok⟩

end

/-- In every state that the kernel reaches, two processes have no frame in common below the
    portal: what one writes to its memory, the other never reads. -/
theorem frames_apart {R : Rounding} {A : FrameAllocator} {h : Heap} {layout : KernelLayout} {portal : Nat}
    {s t : Machine} {es : List Event} (hR : R.Lawful) (hboot : Machine.boot A h layout portal = .ok s)
    (hrun : Runs R A s es t) {i j : Nat} {p q : Process} (hij : i ≠ j)
    (hp : t.procs[i]? = some p) (hq : t.procs[j]? = some q) {v w : Nat} {e f : Pte} (hv : v < portalStart)
    (hw : w < portalStart) (he : visit t.heap p.space v = some e) (hf : visit t.heap q.space w = some f) :
    e.ppn ≠ f.ppn := by
  obtain ⟨hs, hr, -⟩ := sInv_run (P := False) hR hboot hrun False.elim
  obtain ⟨-, rfl, hvalid⟩ := visit_some he
  obtain ⟨-, rfl, hvalid'⟩ := visit_some hf
  exact hs.apart p (List.mem_of_getElem? hp) q (List.mem_of_getElem? hq) (hr.ne hq hp hij) v w hv hw hvalid hvalid'

/-! ## The child -/

/-- The child against its parent, when it was made: below the portal it has the pages of the
    parent, with their permissions and bytes, each in a frame that nobody had. -/
structure IsCopy (h h' : Heap) (s child : AddressSpace) : Prop where
  mapped : ∀ v, v < portalStart → ((visit h' child v).isSome = true ↔ (visit h s v).isSome = true)
  flags : ∀ v e e', v < portalStart → visit h s v = some e → visit h' child v = some e' →
    ∀ f, f ∈ [Flag.r, Flag.w, Flag.x, Flag.u] → (f ∈ e'.flags ↔ f ∈ e.flags)
  bytes : ∀ v e e', v < portalStart → visit h s v = some e → visit h' child v = some e' →
    ∀ i, i < pageSize → h'.mem (e'.ppn * pageSize + i) = h.mem (e.ppn * pageSize + i)
  apart : ∀ v w e e', v < portalStart → w < portalStart → visit h s v = some e → visit h' child w = some e' → e'.ppn ≠ e.ppn
  once : ∀ v w e e', v < portalStart → w < portalStart → visit h' child v = some e → visit h' child w = some e' →
    e.ppn = e'.ppn → v = w
  parent : ∀ v, v < portalStart → visit h' s v = visit h s v

section

variable {P : Prop} {A : FrameAllocator} {R : Rounding} {s : Machine} {shared : List Nat} {label : Nat → Option Node} {p : Process}
  {c child : AddressSpace} {h1 h2 : Heap}

theorem MInv.clone (hi : MInv s shared label) (hs : SInv P s) (hp : p ∈ s.procs)
    (hnew : AddressSpace.new A s.heap = .ok (c, h1)) (hok : cloneself A p.space p.space.areas h1 c = .ok (child, h2)) :
    IsCopy s.heap h2 p.space child := by
  obtain ⟨hsh, hpk⟩ := hi.procs p hp
  have hsound := hs.sound p hp
  have hlabel := hi.root hp
  have hb := hi.tree.born (P := P) hnew
  obtain ⟨hareas, hnone, -, label0, hx0, hr0, hsame, -⟩ := hi.tree.new hnew
  have hgrown : Grown s.heap h1 := by
    obtain ⟨⟨f, h0⟩, halloc, hnew⟩ := bind_eq_ok.mp hnew
    cases hnew
    exact pageAlloc_grown halloc
  have hold : ∀ {r}, label r = some (.root r) → r ≠ c.root := by
    intro r hl e
    rw [e, hnone] at hl
    cases hl
  have hsound1 : Sound P h1 p.space := hsound.congr hgrown.handed fun v _ => hsame _ v hlabel
  obtain ⟨label1, hx1, hc⟩ := hx0.tree.cloneAll (hx0.keep hlabel) hpk hr0 (hold hi.tree.kern).symm
    (fun e => hold (hi.tree.lent e).1 rfl) (hold hlabel) hok
  have hchild := hb.change hnone hx0.keep hc.changed
  have hroot := hc.changed.root
  have hrec : child.areas = p.space.areas := by
    rw [hc.recorded, hareas, List.nil_append]
  have hparent : ∀ v, v < portalStart → entry h2 p.space.root v = entry s.heap p.space.root v :=
    fun v hv => hchild.others _ hlabel v hv
  -- A page of the child lies in an area, and so does the one it was made from.
  have hcopy : ∀ v e e', v < portalStart → visit s.heap p.space v = some e → visit h2 child v = some e' →
      PageCopy h1 h2 e e' := by
    intro v e e' hv he he'
    obtain ⟨-, rfl, hvalid⟩ := visit_some he
    obtain ⟨-, rfl, -⟩ := visit_some he'
    obtain ⟨a, ha, hva⟩ := (hsound.covers.valid_iff hv).mp hvalid
    have hpage := (hc.copies hsound1 hb.sound (fun _ hm => hm) a ha v hv hva).1
    rwa [hsame _ v hlabel, ← hroot] at hpage
  refine ⟨?_, ?_, ?_, ?_, ?_, ?_⟩
  · intro v hv
    rw [visit_eq _ _ (le_vpnMax hv), visit_eq _ _ (le_vpnMax hv)]
    have hiff : (entry h2 child.root v).isValid = true ↔ (entry s.heap p.space.root v).isValid = true := by
      rw [hchild.sound.covers.valid_iff hv, hsound.covers.valid_iff hv, hrec]
    by_cases hvalid : (entry s.heap p.space.root v).isValid = true
    · rw [if_pos hvalid, if_pos (hiff.mpr hvalid)]
      exact Iff.intro (fun _ => rfl) fun _ => rfl
    · rw [if_neg hvalid, if_neg fun e => hvalid (hiff.mp e)]
  · intro v e e' hv he he' f hf
    rw [(hcopy v e e' hv he he').flags, Finset.mem_insert]
    refine or_iff_right fun e => ?_
    rw [e] at hf
    simp at hf
  · intro v e e' hv he he' i hlt
    rw [(hcopy v e e' hv he he').bytes i hlt]
    obtain ⟨-, rfl, hvalid⟩ := visit_some he
    exact hgrown.bytes _ i (hsound.handed v hv hvalid) hlt
  · intro v w e e' hv hw he he' heq
    obtain ⟨-, rfl, hvalid⟩ := visit_some he
    obtain ⟨-, rfl, hvalid'⟩ := visit_some he'
    have hnew := hchild.pages w hw hvalid'
    rw [heq] at hnew
    exact hnew (hsound.handed v hv hvalid)
  · intro v w e e' hv hw he he'
    obtain ⟨-, rfl, hvalid⟩ := visit_some he
    obtain ⟨-, rfl, hvalid'⟩ := visit_some he'
    exact hchild.sound.once v w hv hw hvalid hvalid'
  · intro v hv
    rw [visit_eq _ _ (le_vpnMax hv), visit_eq _ _ (le_vpnMax hv), hparent v hv]

theorem MInv.clone_total {f : Nat} (hi : MInv s shared label) (hs : SInv True s) (hp : p ∈ s.procs)
    (halloc : s.heap.pageAlloc A 1 = .ok (f, h1)) (hserved : Served (cloneself A p.space p.space.areas h1 ⟨[], f⟩))
    (hlow : ∀ a ∈ p.space.areas, a.2 ≤ portalStart) : ∃ x, cloneself A p.space p.space.areas h1 ⟨[], f⟩ = .ok x := by
  have hnew : AddressSpace.new A s.heap = .ok (⟨[], f⟩, h1) := bind_eq_ok.mpr ⟨_, halloc, rfl⟩
  obtain ⟨hsh, hpk⟩ := hi.procs p hp
  have hsound := hs.sound p hp
  have hlabel := hi.root hp
  have hb := hi.tree.born (P := True) hnew
  obtain ⟨-, hnone, -, label0, hx0, hr0, hsame, -⟩ := hi.tree.new hnew
  have hold : ∀ {r}, label r = some (.root r) → r ≠ f := by
    intro r hl e
    rw [e] at hl
    have hnone : label f = none := hnone
    rw [hnone] at hl
    cases hl
  exact hx0.tree.cloneAll_total (s := p.space) (c := ⟨[], f⟩) hserved (hx0.keep hlabel) hpk hr0 (hold hi.tree.kern).symm (fun e => hold (hi.tree.lent e).1 rfl) (hold hlabel)
    (hsound.congr hb.handed fun v _ => hsame _ v hlabel) hb.sound (fun _ ha => ha) hlow
    (hsound.covers.apart trivial)

end

/-- For every process of every state that the kernel reaches: what `cloneself` puts into a new
    space is a copy of it. With frames enough it returns, as long as no recorded area reaches
    under the portal's root entry. -/
theorem fork_copies {R : Rounding} {A : FrameAllocator} {h : Heap} {layout : KernelLayout} {portal : Nat}
    {s t : Machine} {es : List Event} (hR : R.Lawful) (hboot : Machine.boot A h layout portal = .ok s)
    (hrun : Runs R A s es t) (hes : ∀ e ∈ es, e.Proper R) {p : Process} (hp : p ∈ t.procs) :
    (∀ c h1 child h2, AddressSpace.new A t.heap = .ok (c, h1) →
      cloneself A p.space p.space.areas h1 c = .ok (child, h2) → IsCopy t.heap h2 p.space child) ∧
    ((∀ h n, (A.alloc h n).isSome = true) → (∀ a ∈ p.space.areas, a.2 ≤ portalStart) →
      ∃ c h1 child h2, AddressSpace.new A t.heap = .ok (c, h1) ∧
        cloneself A p.space p.space.areas h1 c = .ok (child, h2)) := by
  obtain ⟨hs, -, shared, label, hi⟩ := sInv_run (P := True) hR hboot hrun fun _ => hes
  refine ⟨fun _ _ _ _ hnew hok => hi.clone hs hp hnew hok, fun hA hlow => ?_⟩
  obtain ⟨⟨f, h1⟩, halloc⟩ := (pageAlloc_served hA t.heap 1).pageAlloc
  obtain ⟨⟨child, h2⟩, hok⟩ := hi.clone_total hs hp halloc (cloneself_served hA _) hlow
  exact ⟨_, h1, child, h2, bind_eq_ok.mpr ⟨_, halloc, rfl⟩, hok⟩

theorem shift_lawful : shift.Lawful := by
  refine ⟨?_, ?_⟩
  · intro a
    unfold shift pageSize vpnMax
    dsimp only
    omega
  · intro v
    unfold shift
    dsimp only
    split <;> omega

/-- A process whose heap grew by a page. -/
theorem fork_copies_heap : ∃ (s t : Machine) (p : Process) (c child : AddressSpace) (h1 h2 : Heap),
    Runs shift bump s [.spawn bareElf, .sbrk 0 8192] t ∧ t.procs = [p] ∧
    p.space.areas = [(2 ^ 26 - 2, 2 ^ 26), (0, 2)] ∧ cloneself bump p.space p.space.areas h1 c = .ok (child, h2) ∧
    IsCopy t.heap h2 p.space child := by
  have hrun : (do
      let s ← Machine.boot bump bareHeap bareLayout 0x80020
      let s1 ← s.step shift bump (.spawn bareElf)
      let t ← s1.step shift bump (.sbrk 0 8192)
      .ok (s, t)).map (fun x : Machine × Machine => x.2.procs.map fun p : Process => p.space.areas) =
      .ok [[(2 ^ 26 - 2, 2 ^ 26), (0, 2)]] := by
    rfl
  obtain ⟨⟨s, t⟩, hrun, hareas⟩ := map_eq_ok hrun
  obtain ⟨s, hboot, hrun⟩ := bind_eq_ok.mp hrun
  obtain ⟨s1, h1, hrun⟩ := bind_eq_ok.mp hrun
  obtain ⟨t, h2, hrun⟩ := bind_eq_ok.mp hrun
  cases hrun
  obtain ⟨p, hp, hpa⟩ := List.map_eq_singleton_iff.mp hareas
  have hruns : Runs shift bump s [.spawn bareElf, .sbrk 0 8192] t := .snoc (.single h1) h2
  have hcopies := fork_copies shift_lawful hboot hruns (by simp [Event.Proper]) (p := p) (by rw [hp]; exact List.mem_singleton_self p)
  have hlow : ∀ a ∈ p.space.areas, a.2 ≤ portalStart := by
    rw [hpa]
    decide
  obtain ⟨c, k1, child, k2, hnew, hok⟩ := hcopies.2 (fun _ _ => rfl) hlow
  exact ⟨s, t, p, c, child, k1, k2, hruns, hp, hpa, hok, hcopies.1 c k1 child k2 hnew hok⟩

end TgRcore.Vm
