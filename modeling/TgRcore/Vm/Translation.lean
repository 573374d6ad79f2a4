/-
  TgRcore.Vm.Translation — the pages of one space before and after the operations on it.

  - `Rounding.Exact`: addresses of 39 bits are rounded down and up to pages.
  - `Maps`, `Unmaps`: pages that had no frames get fresh ones, with flags and bytes; pages lose
    theirs; no other page changes.
  - `Tree.maps`, `Tree.mapExtern_total`: what a mapping does, and that it returns when its pages
    have no frames and there are enough of them.
  - `Known`, `known_run`: what holds of every process in every state that the kernel reaches.
-/

import TgRcore.Vm.Fork

namespace TgRcore.Vm

open TgRcore.BlockProg AddressSpace

/-- Addresses of 39 bits are rounded down and up, and page numbers of the lower half give the
    address where they begin. -/
structure Rounding.Exact (R : Rounding) : Prop extends R.Lawful where
  floor : ∀ a, a < 2 ^ 39 → R.floor a = a / pageSize
  ceil : ∀ a, a < 2 ^ 39 → R.ceil a = (a + (pageSize - 1)) / pageSize
  base : ∀ v, v < 2 ^ 26 → R.base v = v * pageSize

theorem shift_exact : shift.Exact := by
  refine ⟨shift_lawful, ?_, ?_, ?_⟩
  · intro a ha
    unfold shift
    dsimp only
    rw [Nat.mod_eq_of_lt ha]
  · intro a ha
    unfold shift
    dsimp only
    rw [Nat.mod_eq_of_lt ha]
  · intro v hv
    have hsmall : v * pageSize < 2 ^ 38 := by
      unfold pageSize
      omega
    unfold shift
    dsimp only
    rw [Nat.mod_eq_of_lt (by omega), if_pos hsmall]

/-- The pages that `len` bytes take. -/
def pagesOf (len : Nat) : Nat := (len + (pageSize - 1)) / pageSize

theorem Rounding.Exact.ceil_eq {R : Rounding} (hR : R.Exact) {a : Nat} (ha : a < 2 ^ 39) : R.ceil a = pagesOf a := hR.ceil a ha

theorem Rounding.Exact.range {R : Rounding} (hR : R.Exact) {addr len : Nat} (ha : addr % pageSize = 0)
    (hend : addr + len < 2 ^ 39) : R.ceil (addr + len) = R.floor addr + pagesOf len := by
  rw [hR.ceil _ hend, hR.floor _ (by omega), pagesOf]
  unfold pageSize at *
  omega

/-! ## Pages -/

/-- Pages from `first` on, which had no frames, get fresh ones, one after the other. -/
structure Maps (h h' : Heap) (s s' : AddressSpace) (first n : Nat) (flags : VmFlags) (byte : Nat → UInt8) : Prop where
  before : ∀ k, k < n → visit h s (first + k) = none
  pages : ∃ ppn, ∀ k, k < n → visit h' s' (first + k) = some ⟨ppn + k, flags⟩ ∧ ¬ h.Handed (ppn + k) ∧
    h'.Handed (ppn + k) ∧ ∀ i, i < pageSize → h'.mem ((ppn + k) * pageSize + i) = byte (k * pageSize + i)
  others : ∀ v, (∀ k, k < n → v ≠ first + k) → visit h' s' v = visit h s v
  bytes : Grown h h'

/-- A page of the range had no frame. -/
theorem Maps.free {h h' : Heap} {s s' : AddressSpace} {first n v : Nat} {flags : VmFlags} {byte : Nat → UInt8}
    (hm : Maps h h' s s' first n flags byte) (hlo : first ≤ v) (hhi : v < first + n) : visit h s v = none := by
  have hfree := hm.before (v - first) (by omega)
  rwa [Nat.add_sub_cancel' hlo] at hfree

/-- Pages from `first` on have no frames afterwards. -/
structure Unmaps (h h' : Heap) (s s' : AddressSpace) (first n : Nat) : Prop where
  pages : ∀ k, k < n → visit h' s' (first + k) = none
  others : ∀ v, (∀ k, k < n → v ≠ first + k) → visit h' s' v = visit h s v

section

variable {good : PageProp} {kernel : Nat} {shared : List Nat} {label : Nat → Option Node} {h h1 h2 h' : Heap}
  {A : FrameAllocator} {R : Rounding} {s s' : AddressSpace} {first last ppn n v w : Nat} {flags : VmFlags}
  {byte : Nat → UInt8} {data : List UInt8} {offset : Nat}

theorem visit_beyond (h : Heap) (s : AddressSpace) (hv : vpnMax < v) : visit h s v = none := if_pos hv

theorem visit_none (hv : v ≤ vpnMax) : visit h s v = none ↔ (entry h s.root v).isValid = false := by
  rw [visit_eq h s hv]
  cases (entry h s.root v).isValid with
  | false => simp
  | true => simp

theorem visit_same (he : v ≤ vpnMax → entry h' s'.root v = entry h s.root v) : visit h' s' v = visit h s v := by
  by_cases hv : v ≤ vpnMax
  · rw [visit_eq _ _ hv, visit_eq _ _ hv, he hv]
  · rw [visit_beyond _ _ (Nat.not_le.mp hv), visit_beyond _ _ (Nat.not_le.mp hv)]

theorem not_inside (hno : ∀ k, k < last - first → v ≠ first + k) : ¬ Inside v (first, last) := by
  intro hin
  unfold Inside at hin
  dsimp only at hin
  exact hno (v - first) (by omega) (by omega)

/-- Unmapping what was mapped leaves every page as it was. -/
theorem Unmaps.undo {s2 : AddressSpace} (hu : Unmaps h' h2 s' s2 first n) (hm : Maps h h' s s' first n flags byte) (v : Nat) :
    visit h2 s2 v = visit h s v := by
  by_cases hv : ∀ k, k < n → v ≠ first + k
  · rw [hu.others v hv, hm.others v hv]
  · push Not at hv
    obtain ⟨k, hk, rfl⟩ := hv
    rw [hu.pages k hk, hm.before k hk]

/-! ## Frames for a mapping -/

/-- Frames were handed out and filled. -/
structure Filled (A : FrameAllocator) (h : Heap) (n ppn : Nat) (h2 : Heap) (byte : Nat → UInt8) : Prop where
  alloc : ∃ h1, h.pageAlloc A n = .ok (ppn, h1) ∧ h2.tables = h1.tables ∧ h2.used = h1.used
  bytes : ∀ j, j < n * pageSize → h2.mem (ppn * pageSize + j) = byte j
  grown : Grown h h2

theorem pageAlloc_zero (halloc : h.pageAlloc A n = .ok (ppn, h1)) {j : Nat} (hj : j < n * pageSize) :
    h1.mem (ppn * pageSize + j) = 0 := by
  unfold Heap.pageAlloc at halloc
  split at halloc
  · cases halloc
  · cases halloc
    exact if_pos ⟨Nat.le_add_right _ _, by rw [Nat.add_mul]; omega⟩

theorem filled_alloc (halloc : h.pageAlloc A n = .ok (ppn, h1)) : Filled A h n ppn h1 fun _ => 0 :=
  ⟨⟨h1, halloc, rfl, rfl⟩, fun _ hj => pageAlloc_zero halloc hj, pageAlloc_grown halloc⟩

/-- Writing into the frames. -/
theorem Filled.write (hf : Filled A h n ppn h2 byte) (data : List UInt8) (offset : Nat) (hfit : offset + data.length ≤ n * pageSize) :
    Filled A h n ppn (h2.write (ppn * pageSize + offset) data) fun j =>
      if offset ≤ j ∧ j < offset + data.length then data.getD (j - offset) 0 else byte j := by
  obtain ⟨h1, halloc, htables, hused⟩ := hf.alloc
  obtain ⟨hin, -, -⟩ := pageAlloc_ok halloc
  refine ⟨⟨h1, halloc, htables, hused⟩, ?_, ?_, ?_⟩
  · intro j hj
    unfold Heap.write
    dsimp only
    rw [hf.bytes j hj, show ppn * pageSize + j - (ppn * pageSize + offset) = j - offset by omega]
    refine if_congr ?_ rfl rfl
    omega
  · intro f hh
    obtain ⟨q, c, hm, hlt⟩ := hf.grown.handed f hh
    exact ⟨q, c, hm, hlt⟩
  · intro f i hh hi
    rw [← hf.grown.bytes f i hh hi]
    refine if_neg fun e => (hin f ?_ ?_).1 hh
    · unfold pageSize at *
      omega
    · unfold pageSize at *
      omega

/-- The bytes that `map` puts into its frames. -/
def loaded (data : List UInt8) (offset j : Nat) : UInt8 :=
  if offset ≤ j ∧ j < offset + data.length then data.getD (j - offset) 0 else 0

theorem getD_zeros (m j : Nat) : (List.replicate m (0 : UInt8)).getD j 0 = 0 := by
  rw [List.getD_eq_getElem?_getD, List.getElem?_replicate]
  split
  · rfl
  · rfl

/-- What `map` does when its data fit. -/
theorem map_eq (s : AddressSpace) (flags : VmFlags) (hle : first ≤ last) (hfit : data.length + offset ≤ (last - first) * pageSize)
    (halloc : h.pageAlloc A (last - first) = .ok (ppn, h1)) :
    ∃ h2, Filled A h (last - first) ppn h2 (loaded data offset) ∧
      AddressSpace.map A h s first last data offset flags =
        AddressSpace.mapExtern A h2 s first last ppn (insert Flag.owned flags) := by
  let size := (last - first) * pageSize
  let h2 := ((h1.write (ppn * pageSize) (List.replicate offset 0)).write (ppn * pageSize + offset) data).write
    (ppn * pageSize + offset + data.length) (List.replicate (size - (offset + data.length)) 0)
  refine ⟨h2, ?_, ?_⟩
  · have hf1 := (filled_alloc halloc).write (List.replicate offset 0) 0 (by
      rw [List.length_replicate]
      omega)
    have hf2 := hf1.write data offset (by omega)
    have hf3 := hf2.write (List.replicate (size - (offset + data.length)) 0) (offset + data.length) (by
      rw [List.length_replicate]
      dsimp only [size]
      omega)
    rw [Nat.add_zero, ← Nat.add_assoc] at hf3
    refine ⟨hf3.alloc, fun j hj => ?_, hf3.grown⟩
    rw [hf3.bytes j hj, getD_zeros, getD_zeros, ite_self]
    unfold loaded
    split
    · rename_i hj'
      exact (if_neg (by omega)).symm
    · rfl
  · unfold AddressSpace.map
    rw [if_neg (Nat.not_lt.mpr hle)]
    dsimp only
    rw [if_neg (Nat.not_lt.mpr hfit), allocate, halloc]
    rfl

theorem mapAnonymous_eq (s : AddressSpace) (flags : VmFlags) (hle : first ≤ last) (halloc : h.pageAlloc A (last - first) = .ok (ppn, h1)) :
    ∃ h2, Filled A h (last - first) ppn h2 (fun _ => 0) ∧
      AddressSpace.mapAnonymous A h s first last flags =
        AddressSpace.mapExtern A h2 s first last ppn (insert Flag.owned flags) := by
  refine ⟨h1.write (ppn * pageSize) (List.replicate ((last - first) * pageSize) 0), ?_, ?_⟩
  · have hf := (filled_alloc halloc).write (List.replicate ((last - first) * pageSize) 0) 0
      (by rw [List.length_replicate, Nat.zero_add])
    rw [Nat.add_zero] at hf
    refine ⟨hf.alloc, fun j hj => ?_, hf.grown⟩
    rw [hf.bytes j hj, getD_zeros]
    exact ite_self _
  · unfold AddressSpace.mapAnonymous
    rw [if_neg (Nat.not_lt.mpr hle)]
    dsimp only
    rw [allocate, halloc]
    rfl

/-! ## Mapping and unmapping -/

/-- What a mapping of filled frames did. -/
theorem Tree.maps (hT : Tree (UserPage kernel) kernel shared label h) (hr : label s.root = some (.root s.root))
    (hu : Flag.u ∈ flags) (hv : Flag.v ∈ flags) (hf : Filled A h (last - first) ppn h2 byte)
    (hok : AddressSpace.mapExtern A h2 s first last ppn flags = .ok (s', h')) :
    first < last ∧ last ≤ vpnMax + 1 ∧ Maps h h' s s' first (last - first) flags byte ∧
      ∃ label', Extends (UserPage kernel) kernel shared label label' h' ∧ Changed False label h h' s s' := by
  obtain ⟨h1, halloc, htables, hused⟩ := hf.alloc
  obtain ⟨hlt, hlast, rfl, hh, hframes, label', hx, hm⟩ := hT.mapFrames hr hv (fun v ppn _ _ _ => userPage_u hu) halloc
    htables hused hok
  obtain ⟨hin, hout⟩ := hm.own hr hlast
  have hgrown := mapExtern_grown hok
  have hpage : ∀ k, k < last - first → entry h' s.root (first + k) = ⟨ppn + k, flags⟩ ∧
      (entry h s.root (first + k)).isValid = false := by
    intro k hk
    obtain ⟨he, hfree⟩ := hin (first + k) (by omega) ⟨Nat.le_add_right _ _, by dsimp only; omega⟩
    rw [Nat.add_sub_cancel_left] at he
    exact ⟨he, hfree⟩
  refine ⟨hlt, hlast, ⟨?_, ⟨ppn, ?_⟩, ?_, hf.grown.trans hgrown⟩, label', hx, hm.changed hr hlt hlast hv hframes hh⟩
  · intro k hk
    exact (visit_none (by omega)).mpr (hpage k hk).2
  · intro k hk
    refine ⟨?_, (hframes k hk).1, (hframes k hk).2, ?_⟩
    · rw [visit_eq _ _ (by omega)]
      dsimp only
      rw [(hpage k hk).1]
      exact if_pos (by simpa [Pte.isValid] using hv)
    · intro i hi
      have hj : k * pageSize + i < (last - first) * pageSize := by
        unfold pageSize at *
        omega
      obtain ⟨hnew, -, -⟩ := pageAlloc_ok halloc
      have hhanded : h2.Handed (ppn + k) := by
        obtain ⟨q, c, hm, hlt⟩ := (hnew (ppn + k) (by omega) (by omega)).2.1
        exact ⟨q, c, by rwa [hused], hlt⟩
      rw [hgrown.bytes _ i hhanded hi, ← hf.bytes _ hj, Nat.add_mul, Nat.add_assoc]
  · intro v hno
    exact visit_same fun hle => hout v hle (not_inside hno)

theorem Tree.mapExtern_total (hT : Tree (UserPage kernel) kernel shared label h)
    (hserved : Served (AddressSpace.mapExtern A h2 s first last ppn flags)) (hr : label s.root = some (.root s.root)) (hu : Flag.u ∈ flags)
    (hlt : first < last) (hlast : last ≤ vpnMax + 1) (hf : Filled A h (last - first) ppn h2 byte)
    (hfree : ∀ k, k < last - first → visit h s (first + k) = none) :
    ∃ s' h', AddressSpace.mapExtern A h2 s first last ppn flags = .ok (s', h') := by
  obtain ⟨h1, halloc, htables, hused⟩ := hf.alloc
  have hsame : ∀ f k, label f = some k → h2.tables f = h.tables f := by
    intro f k hl
    rw [htables, hT.alloc_same halloc hl]
  have hT2 : Tree (UserPage kernel) kernel shared label h2 := hT.same hf.grown.handed hsame
  have hfree2 : ∀ k, k < last - first → (entry h2 s.root (first + k)).isValid = false := by
    intro k hk
    rw [hT.entry_same hsame hr]
    exact (visit_none (by omega)).mp (hfree k hk)
  unfold AddressSpace.mapExtern at hserved
  rw [if_neg (Nat.not_le.mpr hlt)] at hserved
  have hwalk : ∃ h3, Vm.walkMut A s.root flags h2 first ppn (last - first) = .ok h3 :=
    hT2.walkMut_total hserved.first hr (by omega) (fun k _ _ => userPage_u hu) hfree2
  obtain ⟨h3, hwalk⟩ := hwalk
  exact ⟨_, h3, mapExtern_of_walk hlt hwalk⟩

theorem Tree.unmaps (hT : Tree good kernel shared label h) (hr : label s.root = some (.root s.root)) (first n : Nat)
    (hlast : first + n ≤ vpnMax + 1) :
    Unmaps h (AddressSpace.unmap h s first (first + n)).2 s (AddressSpace.unmap h s first (first + n)).1 first n := by
  have hc := (hT.clearPages (v := first) (n := first + n - first) hr).2.2
  obtain ⟨hin, hout⟩ := hc.own hr hlast
  refine ⟨?_, ?_⟩
  · intro k hk
    refine (visit_none (by omega)).mpr (hin (first + k) (by omega) ⟨Nat.le_add_right _ _, ?_⟩)
    dsimp only
    omega
  · intro v hno
    exact visit_same fun hle => hout v hle (not_inside fun k hk => hno k (by omega))

/-! ## Every process of every run -/

/-- What is known of a process between calls. -/
structure Known (kernel : Nat) (shared : List Nat) (label : Nat → Option Node) (h : Heap) (p : Process) : Prop where
  tree : Tree (UserPage kernel) kernel shared label h
  root : label p.space.root = some (.root p.space.root)
  sound : Sound False h p.space

theorem Known.visit_iff {p : Process} (hk : Known kernel shared label h p) (hv : v < portalStart) :
    visit h p.space v ≠ none ↔ ∃ a ∈ p.space.areas, Inside v a := by
  rw [← hk.sound.covers.valid_iff hv, ne_eq, visit_none (le_vpnMax hv), Bool.not_eq_false]

/-- A call on the memory of a process, of any range. -/
theorem Known.changed {p p' : Process} {c : MemCall} {ret : Int} (hR : R.Lawful) (hk : Known kernel shared label h p)
    (hok : c.run R A h p = .ok (ret, p', h')) : Changed False label h h' p.space p'.space :=
  hk.tree.did_changed hk.root (MemCall.did hok).1 fun _ _ hx => unmap_range (i := 0) hR False.elim hx

theorem Known.call {p p' : Process} {c : MemCall} {ret : Int} (hR : R.Lawful) (hk : Known kernel shared label h p)
    (hok : c.run R A h p = .ok (ret, p', h')) : ∃ label', Known kernel shared label' h' p' := by
  have hc := hk.changed hR hok
  obtain ⟨hroot, label', hx⟩ := hk.tree.memCall hk.root hok
  refine ⟨label', hx.tree, ?_, hc.sound hk.sound⟩
  rw [hroot]
  exact hx.keep hk.root

end

section

variable {A : FrameAllocator} {R : Rounding} {s t : Machine} {shared : List Nat} {label : Nat → Option Node} {p : Process}

theorem MInv.known (hi : MInv s shared label) (hs : SInv False s) (hp : p ∈ s.procs) :
    Known s.kernel.root shared label s.heap p := ⟨hi.tree, hi.root hp, hs.sound p hp⟩

theorem known_run {h : Heap} {layout : KernelLayout} {portal : Nat} {es : List Event} (hR : R.Lawful)
    (hboot : Machine.boot A h layout portal = .ok s) (hrun : Runs R A s es t) (hp : p ∈ t.procs) :
    ∃ shared label, Known t.kernel.root shared label t.heap p := by
  obtain ⟨hs, -, shared, label, hi⟩ := sInv_run hR hboot hrun False.elim
  exact ⟨shared, label, hi.known hs hp⟩

end

end TgRcore.Vm
