/-
  TgRcore.Vm.Mmap — `mmap` and `munmap` against their description, chapters 4 to 8.

  - `MmapMeets`: the call returns 0 exactly for an aligned address, permissions 1 to 7 and pages
    that are all free, and then those pages have zeroed frames of their own; otherwise it
    returns -1 and nothing changes.
  - `mmap_meets`: it does so unless it is asked for no bytes at all with arguments that are right
    otherwise. A mapping of no page stops the kernel.
  - `munmap_meets`: `munmap` returns 0 exactly when all pages are mapped, and undoes `mmap`.
-/

import TgRcore.Vm.Translation

namespace TgRcore.Vm

open TgRcore.BlockProg TgRcore.Sync AddressSpace

section

variable {A : FrameAllocator} {R : Rounding} {kernel : Nat} {shared : List Nat} {label : Nat → Option Node} {h h' : Heap}
  {s : AddressSpace} {p p' : Process} {first last n v addr len : Nat} {prot ret : Int}

/-! ## The areas of a process -/

theorem haveMapped_iff : haveMapped s first last = true ↔ ∃ a ∈ s.areas, a.1 < last ∧ first < a.2 := by
  simp [haveMapped]

theorem Known.have_mapped (hk : Known kernel shared label h p) (hn : 0 < n) (hlast : first + n ≤ portalStart) :
    haveMapped p.space first (first + n) = true ↔ ∃ k, k < n ∧ visit h p.space (first + k) ≠ none := by
  rw [haveMapped_iff]
  constructor
  · intro ⟨a, ha, hlo, hhi⟩
    -- The later of the two starts lies in the range and in the area.
    have hlt := (hk.sound.covers.bounds a ha).1
    refine ⟨max first a.1 - first, by omega, ?_⟩
    rw [show first + (max first a.1 - first) = max first a.1 by omega]
    exact (hk.visit_iff (by omega)).mpr ⟨a, ha, Nat.le_max_right _ _, by omega⟩
  · intro ⟨k, hk', hv⟩
    obtain ⟨a, ha, hlo, hhi⟩ := (hk.visit_iff (by omega)).mp hv
    exact ⟨a, ha, by omega, by omega⟩

theorem Known.have_page (hk : Known kernel shared label h p) (hv : v < portalStart) :
    haveMapped p.space v (v + 1) = true ↔ visit h p.space v ≠ none := by
  rw [hk.have_mapped Nat.one_pos hv]
  constructor
  · intro ⟨k, hk, hne⟩
    rwa [Nat.lt_one_iff.mp hk] at hne
  · intro hne
    exact ⟨0, Nat.one_pos, hne⟩

/-! ## `mmap` -/

/-- What a mapping may be asked for. -/
structure Mappable (h : Heap) (p : Process) (addr len : Nat) (prot : Int) : Prop where
  aligned : addr % pageSize = 0
  prot : 1 ≤ prot ∧ prot ≤ 7
  free : ∀ k, k < pagesOf len → visit h p.space (addr / pageSize + k) = none

/-- U, V and the letters of the bits: 0 for R, 1 for W, 2 for X. -/
def protFlags (prot : Int) : VmFlags := userFlags (prot / 4 % 2 = 1) (prot / 2 % 2 = 1) (prot % 2 = 1)

theorem protFlags_u (prot : Int) : Flag.u ∈ protFlags prot ∧ Flag.v ∈ protFlags prot := userFlags_u _ _ _

structure MmapDone (h h' : Heap) (p p' : Process) (addr len : Nat) (prot ret : Int) : Prop where
  answer : ret = 0 ∨ ret = -1
  accepts : ret = 0 ↔ Mappable h p addr len prot
  mapped : ret = 0 → Maps h h' p.space p'.space (addr / pageSize) (pagesOf len) (insert .owned (protFlags prot)) fun _ => 0
  brk : p'.heapBottom = p.heapBottom ∧ p'.programBrk = p.programBrk
  refused : ret = -1 → p' = p ∧ h' = h

/-- The call returns, and does what it is described to do. -/
def MmapMeets (R : Rounding) (A : FrameAllocator) (h : Heap) (p : Process) (addr len : Nat) (prot : Int) : Prop :=
  ∃ ret p' h', Process.mmap R A h p addr len prot = .ok (ret, p', h') ∧ MmapDone h h' p p' addr len prot ret

theorem mmap_args (hno : addr % pageSize ≠ 0 ∨ prot < 1 ∨ 7 < prot) :
    Process.mmap R A h p addr len prot = .ok (-1, p, h) := by
  unfold Process.mmap
  by_cases haddr : addr % pageSize ≠ 0
  · rw [if_pos haddr]
  · rw [if_neg haddr, if_pos (by omega)]

/-- With arguments that are right, `mmap` asks the areas. -/
theorem mmap_eq (hR : R.Exact) (haddr : addr % pageSize = 0) (hprot : 1 ≤ prot ∧ prot ≤ 7) (hrange : addr + len ≤ 2 ^ 38) :
    Process.mmap R A h p addr len prot =
      if haveMapped p.space (addr / pageSize) (addr / pageSize + pagesOf len) then .ok (-1, p, h)
      else (mapAnonymous A h p.space (addr / pageSize) (addr / pageSize + pagesOf len) (protFlags prot)).bind
        fun x => .ok (0, { p with space := x.1 }, x.2) := by
  unfold Process.mmap
  rw [if_neg (not_not.mpr haddr), if_neg (by omega), if_neg (by omega), hR.range haddr (by omega), hR.floor _ (by omega)]
  rfl

theorem refused_done (hno : ¬ Mappable h p addr len prot) : MmapDone h h p p addr len prot (-1) := by
  refine ⟨.inr rfl, ?_, ?_, ⟨rfl, rfl⟩, fun _ => ⟨rfl, rfl⟩⟩
  · exact iff_of_false (by decide) hno
  · intro e
    cases e

/-- What a mapping that returned 0 did. -/
theorem Known.mmap_maps (hR : R.Exact) (hk : Known kernel shared label h p) (hrange : addr + len ≤ 2 ^ 38)
    (hok : Process.mmap R A h p addr len prot = .ok (0, p', h')) :
    addr % pageSize = 0 ∧ p'.heapBottom = p.heapBottom ∧ p'.programBrk = p.programBrk ∧
      Maps h h' p.space p'.space (addr / pageSize) (pagesOf len) (insert .owned (protFlags prot)) fun _ => 0 := by
  by_cases hargs : addr % pageSize ≠ 0 ∨ prot < 1 ∨ 7 < prot
  · rw [mmap_args hargs] at hok
    cases hok
  · have haddr : addr % pageSize = 0 := by omega
    rw [mmap_eq hR haddr (by omega) hrange] at hok
    split at hok
    · cases hok
    · obtain ⟨⟨s', h1⟩, hmap, hok⟩ := bind_eq_ok.mp hok
      cases hok
      obtain ⟨ppn, h2, -, halloc, -, -, -⟩ := mapAnonymous_fresh hmap
      obtain ⟨h3, hf, heq⟩ := mapAnonymous_eq p.space (protFlags prot) (Nat.le_add_right _ _) halloc
      rw [heq] at hmap
      obtain ⟨hu, hv⟩ := protFlags_u prot
      obtain ⟨-, -, hm, -⟩ := hk.tree.maps hk.root (Finset.mem_insert_of_mem hu) (Finset.mem_insert_of_mem hv) hf hmap
      rw [Nat.add_sub_cancel_left] at hm
      exact ⟨haddr, rfl, rfl, hm⟩

/-- A mapping that is served is given its frames. -/
theorem mapAnonymous_frames {flags : VmFlags} (hserved : Served (mapAnonymous A h s first last flags)) (hle : first ≤ last) :
    Served (h.pageAlloc A (last - first)) := by
  unfold mapAnonymous at hserved
  rw [if_neg (Nat.not_lt.mpr hle)] at hserved
  exact hserved.first.first

theorem Known.mmap_total (hR : R.Exact) (hserved : Served (Process.mmap R A h p addr len prot))
    (hk : Known kernel shared label h p) (hrange : addr + len ≤ 2 ^ 38) (hlen : 0 < len) (hm : Mappable h p addr len prot) :
    ∃ p' h', Process.mmap R A h p addr len prot = .ok (0, p', h') := by
  have hn : 0 < pagesOf len := by
    unfold pagesOf pageSize
    omega
  have hlast : addr / pageSize + pagesOf len ≤ 2 ^ 26 := by
    have := hm.aligned
    unfold pagesOf pageSize at *
    omega
  have hmapped : ¬ haveMapped p.space (addr / pageSize) (addr / pageSize + pagesOf len) = true := by
    rw [hk.have_mapped hn (by unfold portalStart; omega)]
    intro ⟨k, hk', hv⟩
    exact hv (hm.free k hk')
  rw [mmap_eq hR hm.aligned hm.prot hrange, if_neg hmapped] at hserved
  have hmap : Served (mapAnonymous A h p.space (addr / pageSize) (addr / pageSize + pagesOf len) (protFlags prot)) :=
    hserved.first
  obtain ⟨⟨ppn, h1⟩, halloc⟩ := (mapAnonymous_frames hmap (Nat.le_add_right _ _)).pageAlloc
  obtain ⟨h2, hf, heq⟩ := mapAnonymous_eq p.space (protFlags prot) (Nat.le_add_right _ _) halloc
  have hu := (protFlags_u prot).1
  rw [heq] at hmap
  obtain ⟨s', h', hok⟩ := hk.tree.mapExtern_total hmap hk.root (Finset.mem_insert_of_mem hu) (Nat.lt_add_of_pos_right hn)
    (by unfold vpnMax; omega) hf fun k hk' => hm.free k (by omega)
  refine ⟨{ p with space := s' }, h', ?_⟩
  rw [mmap_eq hR hm.aligned hm.prot hrange, if_neg hmapped, heq, hok]
  rfl

/-- Pages that are all free are mapped, any other range is refused. -/
theorem Known.mmap_pages (hR : R.Exact) (hserved : Served (Process.mmap R A h p addr len prot))
    (hk : Known kernel shared label h p) (haddr : addr % pageSize = 0) (hprot : 1 ≤ prot ∧ prot ≤ 7) (hrange : addr + len ≤ 2 ^ 38) (hlen : 0 < len) :
    MmapMeets R A h p addr len prot := by
  by_cases hm : Mappable h p addr len prot
  · obtain ⟨p', h', hok⟩ := hk.mmap_total hR hserved hrange hlen hm
    obtain ⟨-, hbottom, hbrk, hmaps⟩ := hk.mmap_maps hR hrange hok
    refine ⟨0, p', h', hok, .inl rfl, iff_of_true rfl hm, fun _ => hmaps, ⟨hbottom, hbrk⟩, ?_⟩
    intro e
    cases e
  · refine ⟨-1, p, h, ?_, refused_done hm⟩
    have hlast : addr / pageSize + pagesOf len ≤ portalStart := by
      unfold pagesOf pageSize portalStart at *
      omega
    have hn : 0 < pagesOf len := by
      unfold pagesOf pageSize
      omega
    rw [mmap_eq hR haddr hprot hrange, if_pos]
    by_contra hno
    refine hm ⟨haddr, hprot, fun k hk' => ?_⟩
    by_contra hv
    exact hno ((hk.have_mapped hn hlast).mpr ⟨k, hk', hv⟩)

/-- A range of no page that passes the checks is refused, or the mapping of it never ends. -/
theorem mmap_empty (hR : R.Exact) (hserved : Served (Process.mmap R A h p addr 0 prot)) (haddr : addr % pageSize = 0)
    (hprot : 1 ≤ prot ∧ prot ≤ 7) (hrange : addr + 0 ≤ 2 ^ 38) :
    Process.mmap R A h p addr 0 prot =
      if haveMapped p.space (addr / pageSize) (addr / pageSize) then .ok (-1, p, h) else .error .panic := by
  rw [mmap_eq hR haddr hprot hrange, show pagesOf 0 = 0 from rfl, Nat.add_zero] at hserved ⊢
  split
  · rfl
  · rename_i hno
    rw [if_neg hno] at hserved
    obtain ⟨⟨ppn, h1⟩, halloc⟩ := (mapAnonymous_frames hserved.first (Nat.le_refl _)).pageAlloc
    obtain ⟨h2, -, heq⟩ := mapAnonymous_eq p.space (protFlags prot) (Nat.le_refl _) halloc
    rw [heq, AddressSpace.mapExtern, if_pos (Nat.le_refl _)]
    rfl

theorem mmap_empty_fails (hR : R.Exact) (hserved : Served (Process.mmap R A h p addr 0 prot)) (haddr : addr % pageSize = 0)
    (hprot : 1 ≤ prot ∧ prot ≤ 7) (hrange : addr + 0 ≤ 2 ^ 38) : ¬ MmapMeets R A h p addr 0 prot := by
  intro ⟨ret, p', h', hok, hd⟩
  have hret : ret = 0 := hd.accepts.mpr ⟨haddr, hprot, fun k hk => absurd hk (Nat.not_lt_zero k)⟩
  rw [mmap_empty hR hserved haddr hprot hrange, hret] at hok
  split at hok
  · cases hok
  · cases hok

end

/-- For every process of every state that the kernel reaches, when the frames of the call are
    there: `mmap` does what it is described to do, unless it is asked for no bytes with arguments
    that are right otherwise. -/
theorem mmap_meets {R : Rounding} {A : FrameAllocator} {h : Heap} {layout : KernelLayout} {portal : Nat}
    {s t : Machine} {es : List Event} (hR : R.Exact) (hboot : Machine.boot A h layout portal = .ok s)
    (hrun : Runs R A s es t) {p : Process} (hp : p ∈ t.procs) {addr len : Nat} {prot : Int} (hrange : addr + len ≤ 2 ^ 38)
    (hserved : Served (Process.mmap R A t.heap p addr len prot)) :
    MmapMeets R A t.heap p addr len prot ↔ 0 < len ∨ addr % pageSize ≠ 0 ∨ prot < 1 ∨ 7 < prot := by
  obtain ⟨shared, label, hk⟩ := known_run hR.toLawful hboot hrun hp
  by_cases hargs : addr % pageSize ≠ 0 ∨ prot < 1 ∨ 7 < prot
  · refine iff_of_true ⟨-1, p, t.heap, mmap_args hargs, refused_done fun hm => ?_⟩ (.inr hargs)
    have := hm.aligned
    have := hm.prot
    omega
  · rw [or_iff_left hargs]
    have haddr : addr % pageSize = 0 := by omega
    constructor
    · intro hmeets
      by_contra hlen
      obtain rfl : len = 0 := by omega
      exact mmap_empty_fails hR hserved haddr (by omega) hrange hmeets
    · intro hlen
      exact hk.mmap_pages hR hserved haddr (by omega) hrange hlen

/-- A process with a stack and nothing else, in a kernel that just booted. -/
theorem bare_spawned : ∃ (s t : Machine) (p : Process), Machine.boot bump bareHeap bareLayout 0x80020 = .ok s ∧
    Runs shift bump s [.spawn bareElf] t ∧ t.procs = [p] ∧ p.space.areas = [(2 ^ 26 - 2, 2 ^ 26)] := by
  have hrun : (do
      let s ← Machine.boot bump bareHeap bareLayout 0x80020
      let t ← s.step shift bump (.spawn bareElf)
      .ok (s, t)).map (fun x : Machine × Machine => x.2.procs.map fun p : Process => p.space.areas) =
      .ok [[(2 ^ 26 - 2, 2 ^ 26)]] := by
    rfl
  obtain ⟨⟨s, t⟩, hrun, hareas⟩ := map_eq_ok hrun
  obtain ⟨s, hboot, hrun⟩ := bind_eq_ok.mp hrun
  obtain ⟨t, hspawn, hrun⟩ := bind_eq_ok.mp hrun
  cases hrun
  obtain ⟨p, hp, hpa⟩ := List.map_eq_singleton_iff.mp hareas
  exact ⟨s, t, p, hboot, .single hspawn, hp, hpa⟩

theorem bump_total (h : Heap) (n : Nat) : (bump.alloc h n).isSome = true := rfl

/-- Two pages are mapped, readable and writable. -/
theorem mmap_meets_pages : ∃ (t : Machine) (p : Process), t.procs = [p] ∧ MmapMeets shift bump t.heap p 0x10000000 8192 3 := by
  obtain ⟨s, t, p, hboot, hrun, hp, -⟩ := bare_spawned
  have hmem : p ∈ t.procs := by simp [hp]
  exact ⟨t, p, hp, (mmap_meets shift_exact hboot hrun hmem (by decide) (Process.mmap_served bump_total _ _ _)).mpr (.inl (by decide))⟩

/-- No bytes, readable and writable, at an address where nothing is: the kernel stops. -/
theorem mmap_nothing_stops : ∃ (s t : Machine) (p : Process), Machine.boot bump bareHeap bareLayout 0x80020 = .ok s ∧
    Runs shift bump s [.spawn bareElf] t ∧ t.procs = [p] ∧
    Process.mmap shift bump t.heap p 0x10000000 0 3 = .error .panic ∧ ¬ MmapMeets shift bump t.heap p 0x10000000 0 3 := by
  obtain ⟨s, t, p, hboot, hrun, hp, hareas⟩ := bare_spawned
  refine ⟨s, t, p, hboot, hrun, hp, ?_, ?_⟩
  · rw [mmap_empty shift_exact (Process.mmap_served bump_total _ _ _) (by decide) (by decide) (by decide), if_neg]
    rw [haveMapped_iff, hareas]
    simp [pageSize]
  · exact mmap_empty_fails shift_exact (Process.mmap_served bump_total _ _ _) (by decide) (by decide) (by decide)

/-! ## `munmap` -/

section

variable {A : FrameAllocator} {R : Rounding} {kernel : Nat} {shared : List Nat} {label : Nat → Option Node} {h h' : Heap}
  {s : AddressSpace} {p p' : Process} {addr len : Nat} {prot ret : Int}

/-- What an unmapping may be asked for. -/
structure Unmappable (h : Heap) (p : Process) (addr len : Nat) : Prop where
  aligned : addr % pageSize = 0
  mapped : ∀ k, k < pagesOf len → visit h p.space (addr / pageSize + k) ≠ none

structure MunmapDone (h h' : Heap) (p p' : Process) (addr len : Nat) (ret : Int) : Prop where
  answer : ret = 0 ∨ ret = -1
  accepts : ret = 0 ↔ Unmappable h p addr len
  unmapped : ret = 0 → Unmaps h h' p.space p'.space (addr / pageSize) (pagesOf len)
  brk : p'.heapBottom = p.heapBottom ∧ p'.programBrk = p.programBrk
  refused : ret = -1 → p' = p ∧ h' = h

theorem munmap_eq (hR : R.Exact) (haddr : addr % pageSize = 0) (hrange : addr + len ≤ 2 ^ 38) :
    Process.munmap R h p addr len =
      let x := AddressSpace.unmap h p.space (addr / pageSize) (addr / pageSize + pagesOf len)
      if (List.range' (addr / pageSize) (pagesOf len)).all fun x => haveMapped p.space x (x + 1) then
        .ok (0, { p with space := x.1 }, x.2)
      else .ok (-1, p, h) := by
  unfold Process.munmap
  rw [if_neg (not_not.mpr haddr), if_neg (by omega), hR.range haddr (by omega), hR.floor _ (by omega)]
  dsimp only
  rw [Nat.add_sub_cancel_left]

/-- `munmap` asks for every page. -/
theorem Known.have_pages (hk : Known kernel shared label h p) (haddr : addr % pageSize = 0) (hrange : addr + len ≤ 2 ^ 38) :
    ((List.range' (addr / pageSize) (pagesOf len)).all fun x => haveMapped p.space x (x + 1)) = true ↔
      Unmappable h p addr len := by
  have hlast : addr / pageSize + pagesOf len ≤ portalStart := by
    unfold pagesOf pageSize portalStart at *
    omega
  rw [List.all_eq_true]
  constructor
  · intro hall
    refine ⟨haddr, fun k hk' => (hk.have_page (by omega)).mp (hall _ ?_)⟩
    rw [List.mem_range'_1]
    omega
  · intro hu x hx
    rw [List.mem_range'_1] at hx
    have hv := hu.mapped (x - addr / pageSize) (by omega)
    rw [show addr / pageSize + (x - addr / pageSize) = x by omega] at hv
    exact (hk.have_page (by omega)).mpr hv

theorem Known.munmap_ok (hR : R.Exact) (hk : Known kernel shared label h p) (hrange : addr + len ≤ 2 ^ 38)
    (hu : Unmappable h p addr len) : ∃ p' h', Process.munmap R h p addr len = .ok (0, p', h') ∧
      p'.heapBottom = p.heapBottom ∧ p'.programBrk = p.programBrk ∧
      Unmaps h h' p.space p'.space (addr / pageSize) (pagesOf len) := by
  have haddr := hu.aligned
  have hlast : addr / pageSize + pagesOf len ≤ vpnMax + 1 := by
    unfold pagesOf pageSize vpnMax at *
    omega
  let x := AddressSpace.unmap h p.space (addr / pageSize) (addr / pageSize + pagesOf len)
  refine ⟨{ p with space := x.1 }, x.2, ?_, rfl, rfl, hk.tree.unmaps hk.root _ _ hlast⟩
  rw [munmap_eq hR haddr hrange]
  exact if_pos ((hk.have_pages haddr hrange).mpr hu)

theorem Known.munmap_done (hR : R.Exact) (hk : Known kernel shared label h p) (hrange : addr + len ≤ 2 ^ 38) :
    ∃ ret p' h', Process.munmap R h p addr len = .ok (ret, p', h') ∧ MunmapDone h h' p p' addr len ret := by
  by_cases hu : Unmappable h p addr len
  · obtain ⟨p', h', hok, hbottom, hbrk, hun⟩ := hk.munmap_ok hR hrange hu
    refine ⟨0, p', h', hok, .inl rfl, iff_of_true rfl hu, fun _ => hun, ⟨hbottom, hbrk⟩, ?_⟩
    intro e
    cases e
  · refine ⟨-1, p, h, ?_, .inr rfl, iff_of_false (by decide) hu, ?_, ⟨rfl, rfl⟩, fun _ => ⟨rfl, rfl⟩⟩
    · by_cases haddr : addr % pageSize = 0
      · rw [munmap_eq hR haddr hrange]
        exact if_neg fun hall => hu ((hk.have_pages haddr hrange).mp hall)
      · unfold Process.munmap
        exact if_pos haddr
    · intro e
      cases e

/-- `munmap` takes back what `mmap` did. -/
theorem Known.munmap_mmap (hR : R.Exact) (hk : Known kernel shared label h p) (hrange : addr + len ≤ 2 ^ 38)
    (hok : Process.mmap R A h p addr len prot = .ok (0, p', h')) :
    ∃ p2 h2, Process.munmap R h' p' addr len = .ok (0, p2, h2) ∧ ∀ v, visit h2 p2.space v = visit h p.space v := by
  obtain ⟨haddr, -, -, hm⟩ := hk.mmap_maps hR hrange hok
  obtain ⟨label', hk'⟩ := hk.call (c := .mmap addr len prot) hR.toLawful hok
  have hu : Unmappable h' p' addr len := by
    refine ⟨haddr, fun k hlt => ?_⟩
    obtain ⟨ppn, hpages⟩ := hm.pages
    rw [(hpages k hlt).1]
    simp
  obtain ⟨p2, h2, hok2, -, -, hun⟩ := hk'.munmap_ok hR hrange hu
  exact ⟨p2, h2, hok2, hun.undo hm⟩

end

/-- For every process of every state that the kernel reaches: `munmap` returns 0 exactly when the
    address is aligned and every page of the range is mapped, then these pages are unmapped and no
    other changes; otherwise it returns -1 and nothing changes. After an `mmap` that returned 0 it
    brings back every page. -/
theorem munmap_meets {R : Rounding} {A : FrameAllocator} {h : Heap} {layout : KernelLayout} {portal : Nat}
    {s t : Machine} {es : List Event} (hR : R.Exact) (hboot : Machine.boot A h layout portal = .ok s)
    (hrun : Runs R A s es t) {p : Process} (hp : p ∈ t.procs) {addr len : Nat} (hrange : addr + len ≤ 2 ^ 38) :
    (∃ ret p' h', Process.munmap R t.heap p addr len = .ok (ret, p', h') ∧ MunmapDone t.heap h' p p' addr len ret) ∧
    ∀ prot p1 h1, 0 < len → Process.mmap R A t.heap p addr len prot = .ok (0, p1, h1) →
      ∃ p2 h2, Process.munmap R h1 p1 addr len = .ok (0, p2, h2) ∧ ∀ v, visit h2 p2.space v = visit t.heap p.space v := by
  obtain ⟨shared, label, hk⟩ := known_run hR.toLawful hboot hrun hp
  exact ⟨hk.munmap_done hR hrange, fun _ _ _ _ hok => hk.munmap_mmap hR hrange hok⟩

/-- One page of the stack is unmapped, and two pages elsewhere are mapped and unmapped again. -/
theorem munmap_meets_stack : ∃ (t : Machine) (p : Process), t.procs = [p] ∧
    (∃ ret p' h', Process.munmap shift t.heap p 0x3fffffe000 1 = .ok (ret, p', h') ∧
      MunmapDone t.heap h' p p' 0x3fffffe000 1 ret) ∧
    ∃ p1 h1 p2 h2, Process.mmap shift bump t.heap p 0x10000000 8192 3 = .ok (0, p1, h1) ∧
      Process.munmap shift h1 p1 0x10000000 8192 = .ok (0, p2, h2) ∧ ∀ v, visit h2 p2.space v = visit t.heap p.space v := by
  obtain ⟨s, t, p, hboot, hrun, hp, hareas⟩ := bare_spawned
  have hmem : p ∈ t.procs := by simp [hp]
  obtain ⟨shared, label, hk⟩ := known_run shift_lawful hboot hrun hmem
  have hfree : Mappable t.heap p 0x10000000 8192 3 := by
    refine ⟨by decide, by decide, fun k hlt => ?_⟩
    have hpages : pagesOf 8192 = 2 := rfl
    by_contra hv
    rw [← ne_eq, hk.visit_iff (by unfold portalStart pageSize; omega), hareas] at hv
    simp [Inside, pageSize] at hv
    omega
  obtain ⟨p1, h1, hok⟩ := hk.mmap_total shift_exact (Process.mmap_served bump_total _ _ _) (by decide) (by decide) hfree
  obtain ⟨p2, h2, hun⟩ := (munmap_meets shift_exact hboot hrun hmem (by decide)).2 3 p1 h1 (by decide) hok
  exact ⟨t, p, hp, (munmap_meets shift_exact hboot hrun hmem (by decide)).1, p1, h1, p2, h2, hok, hun⟩

end TgRcore.Vm
