/-
  TgRcore.Vm.Break — `sbrk`: the break moves as a whole or not at all.

  - `SbrkMeets`: the call returns the old break, has moved it by the size and has mapped zeroed
    pages, or unmapped pages, between the two breaks; or it returns -1 and nothing changes.
  - `SbrkFits`: the pages that the heap grows into are page numbers and have no frames. Nothing
    in the code sees to that: `mmap` may have taken them.
  - `sbrk_meets`: with frames enough the call meets its description exactly when they fit.
  - `brkOk_run`: the break of a process is never below its heap.
-/

import TgRcore.Vm.Mmap

namespace TgRcore.Vm

open TgRcore.BlockProg TgRcore.Sync AddressSpace

/-- "U_WRV" -/
abbrev heapFlags : VmFlags := {.u, .w, .r, .v}

/-- `as usize` of an isize. -/
def asUsize (x : Int) : Nat := (x % 2 ^ 64).toNat

/-- The pages between the breaks, both rounded up: zeroed ones where the heap grew, none where it
    shrank. -/
def BrkPages (R : Rounding) (h h' : Heap) (p p' : Process) (size : Int) : Prop :=
  if 0 ≤ size then
    R.ceil p.programBrk ≤ R.ceil p'.programBrk ∧
      Maps h h' p.space p'.space (R.ceil p.programBrk) (R.ceil p'.programBrk - R.ceil p.programBrk)
        (insert .owned heapFlags) fun _ => 0
  else
    R.ceil p'.programBrk ≤ R.ceil p.programBrk ∧
      Unmaps h h' p.space p'.space (R.ceil p'.programBrk) (R.ceil p.programBrk - R.ceil p'.programBrk)

/-- The break was moved. The code compares breaks as `isize`. -/
structure BrkMoved (R : Rounding) (h h' : Heap) (p p' : Process) (size ret : Int) : Prop where
  old : ret = asIsize p.programBrk
  new : asIsize p'.programBrk = asIsize p.programBrk + size
  usize : p'.programBrk < 2 ^ 64
  bottom : p'.heapBottom = p.heapBottom
  above : asIsize p.heapBottom ≤ asIsize p'.programBrk
  pages : BrkPages R h h' p p' size

def SbrkMeets (R : Rounding) (A : FrameAllocator) (h : Heap) (p : Process) (size : Int) : Prop :=
  ∃ ret p' h', Process.sbrk R A h p size = .ok (ret, p', h') ∧
    (BrkMoved R h h' p p' size ret ∨ ret = -1 ∧ p' = p ∧ h' = h)

/-- The new break is an `isize`. If it is not below the heap, then it lies on the side of the old
    one that the size says, in page numbers, and no page that the heap would grow into is mapped. -/
structure SbrkFits (R : Rounding) (h : Heap) (p : Process) (size : Int) : Prop where
  isize : -2 ^ 63 ≤ asIsize p.programBrk + size ∧ asIsize p.programBrk + size < 2 ^ 63
  up : asIsize p.heapBottom ≤ asIsize p.programBrk + size → 0 ≤ size →
    R.ceil p.programBrk ≤ R.ceil (asUsize (asIsize p.programBrk + size))
  down : asIsize p.heapBottom ≤ asIsize p.programBrk + size → size < 0 →
    R.ceil (asUsize (asIsize p.programBrk + size)) ≤ R.ceil p.programBrk
  free : asIsize p.heapBottom ≤ asIsize p.programBrk + size → 0 ≤ size → ∀ v, R.ceil p.programBrk ≤ v →
    v < R.ceil (asUsize (asIsize p.programBrk + size)) → visit h p.space v = none

/-- What is known of every break: it is a `usize`, and as an `isize` not below the heap. -/
structure BrkOk (p : Process) : Prop where
  usize : p.programBrk < 2 ^ 64
  above : asIsize p.heapBottom ≤ asIsize p.programBrk

section

variable {A : FrameAllocator} {R : Rounding} {kernel : Nat} {shared : List Nat} {label : Nat → Option Node} {h h' : Heap}
  {s s' : AddressSpace} {p p' : Process} {first last n v : Nat} {size ret : Int} {flags : VmFlags}

theorem loaded_nil : loaded [] 0 = fun _ => 0 := by
  funext j
  simp [loaded]

theorem Maps.none (h : Heap) (s : AddressSpace) (first : Nat) (flags : VmFlags) : Maps h h s s first 0 flags fun _ => 0 :=
  ⟨fun _ hk => absurd hk (Nat.not_lt_zero _), ⟨0, fun _ hk => absurd hk (Nat.not_lt_zero _)⟩, fun _ _ => rfl, .refl⟩

/-! ## `map` -/

/-- What `map` did when it returned. -/
theorem Tree.map_maps {data : List UInt8} {offset : Nat} (hT : Tree (UserPage kernel) kernel shared label h)
    (hr : label s.root = some (.root s.root)) (hu : Flag.u ∈ flags) (hv : Flag.v ∈ flags)
    (hok : AddressSpace.map A h s first last data offset flags = .ok (s', h')) :
    data.length + offset ≤ (last - first) * pageSize ∧ first < last ∧ last ≤ vpnMax + 1 ∧
      Maps h h' s s' first (last - first) (insert .owned flags) (loaded data offset) ∧
      ∃ label', Extends (UserPage kernel) kernel shared label label' h' ∧ Changed False label h h' s s' := by
  have hle : first ≤ last ∧ data.length + offset ≤ (last - first) * pageSize := by
    unfold AddressSpace.map at hok
    split at hok
    · cases hok
    · dsimp only at hok
      split at hok
      · cases hok
      · omega
  obtain ⟨ppn, h1, -, halloc, -, -, -⟩ := map_fresh hok
  obtain ⟨h2, hf, heq⟩ := map_eq s flags hle.1 hle.2 halloc
  rw [heq] at hok
  exact ⟨hle.2, hT.maps hr (Finset.mem_insert_of_mem hu) (Finset.mem_insert_of_mem hv) hf hok⟩

theorem Tree.map_total {data : List UInt8} {offset : Nat} (hT : Tree (UserPage kernel) kernel shared label h)
    (hserved : Served (AddressSpace.map A h s first last data offset flags)) (hr : label s.root = some (.root s.root))
    (hu : Flag.u ∈ flags) (hfit : data.length + offset ≤ (last - first) * pageSize) (hlt : first < last)
    (hlast : last ≤ vpnMax + 1) (hfree : ∀ k, k < last - first → visit h s (first + k) = none) :
    ∃ s' h', AddressSpace.map A h s first last data offset flags = .ok (s', h') := by
  have hframes : Served (h.pageAlloc A (last - first)) := by
    unfold AddressSpace.map at hserved
    dsimp only at hserved
    rw [if_neg (by omega), if_neg (by omega)] at hserved
    exact hserved.first.first
  obtain ⟨⟨ppn, h1⟩, halloc⟩ := hframes.pageAlloc
  obtain ⟨h2, hf, heq⟩ := map_eq s flags (Nat.le_of_lt hlt) hfit halloc
  rw [heq] at hserved ⊢
  exact hT.mapExtern_total hserved hr (Finset.mem_insert_of_mem hu) hlt hlast hf hfree

/-! ## The break -/

theorem asIsize_asUsize {x : Int} (hx : -2 ^ 63 ≤ x ∧ x < 2 ^ 63) : asIsize (asUsize x) = x := by
  unfold asIsize asUsize
  split <;> omega

theorem asUsize_lt (x : Int) : asUsize x < 2 ^ 64 := by
  unfold asUsize
  omega

theorem asUsize_asIsize {a : Nat} (ha : a < 2 ^ 64) : asUsize (asIsize a) = a := by
  unfold asIsize asUsize
  split <;> omega

/-- A break below the heap is refused. -/
theorem sbrk_below (hsize : -2 ^ 63 ≤ asIsize p.programBrk + size ∧ asIsize p.programBrk + size < 2 ^ 63)
    (hlow : asIsize p.programBrk + size < asIsize p.heapBottom) : Process.sbrk R A h p size = .ok (-1, p, h) := by
  unfold Process.sbrk Process.changeProgramBrk
  rw [if_neg (by omega), if_pos hlow]
  rfl

/-- Any other break is the new one; pages are mapped or unmapped. -/
theorem sbrk_eq (hsize : -2 ^ 63 ≤ asIsize p.programBrk + size ∧ asIsize p.programBrk + size < 2 ^ 63)
    (hlow : asIsize p.heapBottom ≤ asIsize p.programBrk + size) {new : Nat} (hnew : asUsize (asIsize p.programBrk + size) = new) :
    Process.sbrk R A h p size =
      if 0 < size ∧ R.ceil p.programBrk < R.ceil new then
        (AddressSpace.map A h p.space (R.ceil p.programBrk) (R.ceil new) [] 0 heapFlags).bind
          fun x => .ok (asIsize p.programBrk, { p with space := x.1, programBrk := new }, x.2)
      else if size < 0 ∧ R.ceil new < R.ceil p.programBrk then
        let x := AddressSpace.unmap h p.space (R.ceil new) (R.ceil p.programBrk)
        .ok (asIsize p.programBrk, { p with space := x.1, programBrk := new }, x.2)
      else .ok (asIsize p.programBrk, { p with programBrk := new }, h) := by
  unfold asUsize at hnew
  unfold Process.sbrk Process.changeProgramBrk
  rw [if_neg (by omega), if_neg (by omega), hnew]
  dsimp only
  by_cases hgrow : 0 < size ∧ R.ceil p.programBrk < R.ceil new
  · rw [if_pos hgrow, if_pos hgrow]
    cases AddressSpace.map A h p.space (R.ceil p.programBrk) (R.ceil new) [] 0 heapFlags with
    | error e => rfl
    | ok x => rfl
  · rw [if_neg hgrow, if_neg hgrow]
    by_cases hshrink : size < 0 ∧ R.ceil new < R.ceil p.programBrk
    · rw [if_pos hshrink, if_pos hshrink]
      rfl
    · rw [if_neg hshrink, if_neg hshrink]
      rfl

theorem Known.grow_maps (hk : Known kernel shared label h p)
    (hmap : AddressSpace.map A h p.space first last [] 0 heapFlags = .ok (s', h')) :
    Maps h h' p.space s' first (last - first) (insert .owned heapFlags) fun _ => 0 := by
  obtain ⟨-, -, -, hm, -⟩ := hk.tree.map_maps hk.root (by decide) (by decide) hmap
  rwa [loaded_nil] at hm

theorem sbrk_range (hok : Process.sbrk R A h p size = .ok (ret, p', h')) :
    -2 ^ 63 ≤ asIsize p.programBrk + size ∧ asIsize p.programBrk + size < 2 ^ 63 := by
  by_contra hout
  unfold Process.sbrk Process.changeProgramBrk at hok
  rw [if_pos (by omega)] at hok
  cases hok

theorem sbrk_moves (hok : Process.sbrk R A h p size = .ok (ret, p', h'))
    (hlow : asIsize p.heapBottom ≤ asIsize p.programBrk + size) : p'.programBrk = asUsize (asIsize p.programBrk + size) := by
  rw [sbrk_eq (sbrk_range hok) hlow rfl] at hok
  split at hok
  · obtain ⟨x, -, hok⟩ := bind_eq_ok.mp hok
    cases hok
    rfl
  · split at hok
    · cases hok
      rfl
    · cases hok
      rfl

/-- A heap that grew found its pages free. -/
theorem Known.sbrk_free (hk : Known kernel shared label h p) (hok : Process.sbrk R A h p size = .ok (ret, p', h'))
    (hlow : asIsize p.heapBottom ≤ asIsize p.programBrk + size) (hpos : 0 < size) (hlo : R.ceil p.programBrk ≤ v)
    (hhi : v < R.ceil (asUsize (asIsize p.programBrk + size))) : visit h p.space v = none := by
  rw [sbrk_eq (sbrk_range hok) hlow rfl, if_pos ⟨hpos, by omega⟩] at hok
  obtain ⟨⟨s', h1⟩, hmap, -⟩ := bind_eq_ok.mp hok
  exact (hk.grow_maps hmap).free hlo (by omega)

/-- A call that did what it should found its pages free. -/
theorem SbrkMeets.fits (hmeets : SbrkMeets R A h p size) : SbrkFits R h p size := by
  obtain ⟨ret, p', h', hok, hdone⟩ := hmeets
  refine ⟨sbrk_range hok, ?_, ?_, ?_⟩
  · intro hlow hpos
    rw [← sbrk_moves hok hlow]
    rcases hdone with hd | ⟨-, rfl, -⟩
    · have hpages := hd.pages
      rw [BrkPages, if_pos hpos] at hpages
      exact hpages.1
    · exact Nat.le_refl _
  · intro hlow hneg
    rw [← sbrk_moves hok hlow]
    rcases hdone with hd | ⟨-, rfl, -⟩
    · have hpages := hd.pages
      rw [BrkPages, if_neg (Int.not_le.mpr hneg)] at hpages
      exact hpages.1
    · exact Nat.le_refl _
  · intro hlow hpos v hlo hhi
    rw [← sbrk_moves hok hlow] at hhi
    rcases hdone with hd | ⟨-, rfl, -⟩
    · have hpages := hd.pages
      rw [BrkPages, if_pos hpos] at hpages
      exact hpages.2.free hlo (by omega)
    · omega

theorem Unmaps.none (h : Heap) (s : AddressSpace) (first : Nat) : Unmaps h h s s first 0 :=
  ⟨fun _ hk => absurd hk (Nat.not_lt_zero _), fun _ _ => rfl⟩

/-- A break that reaches no new page, and leaves none, is moved. -/
theorem BrkPages.keep {new : Nat} (hceil : R.ceil new = R.ceil p.programBrk) :
    BrkPages R h h p { p with programBrk := new } size := by
  unfold BrkPages
  dsimp only
  rw [hceil, Nat.sub_self]
  split
  · exact ⟨Nat.le_refl _, .none h p.space _ _⟩
  · exact ⟨Nat.le_refl _, .none h p.space _⟩

/-- A heap whose pages fit grows or shrinks. -/
theorem Known.sbrk_of_fits (hR : R.Lawful) (hserved : Served (Process.sbrk R A h p size)) (hk : Known kernel shared label h p)
    (hb : BrkOk p) (hfits : SbrkFits R h p size) : SbrkMeets R A h p size := by
  have hisize := hfits.isize
  by_cases hlow : asIsize p.programBrk + size < asIsize p.heapBottom
  · exact ⟨-1, p, h, sbrk_below hisize hlow, .inr ⟨rfl, rfl, rfl⟩⟩
  · have hlow : asIsize p.heapBottom ≤ asIsize p.programBrk + size := Int.not_lt.mp hlow
    have hup := hfits.up hlow
    have hdown := hfits.down hlow
    have hfree := hfits.free hlow
    have heq := sbrk_eq (R := R) (A := A) (h := h) hisize hlow rfl
    generalize hnew : asUsize (asIsize p.programBrk + size) = new at heq hup hdown hfree
    have hmoved : ∀ s' h', BrkPages R h h' p { p with space := s', programBrk := new } size →
        BrkMoved R h h' p { p with space := s', programBrk := new } size (asIsize p.programBrk) := by
      intro s' h' hpages
      have hval : asIsize new = asIsize p.programBrk + size := by
        rw [← hnew, asIsize_asUsize hisize]
      exact ⟨rfl, hval, hnew ▸ asUsize_lt _, rfl, by rw [hval]; exact hlow, hpages⟩
    by_cases hgrow : 0 < size ∧ R.ceil p.programBrk < R.ceil new
    · rw [if_pos hgrow] at heq
      rw [heq] at hserved
      obtain ⟨s', h', hmap⟩ := hk.tree.map_total (Served.first hserved) hk.root (by decide)
        (Nat.zero_le _) hgrow.2 (hR.bound new) fun k hlt => hfree (by omega) _ (Nat.le_add_right _ _) (by omega)
      rw [hmap] at heq
      refine ⟨_, _, h', heq, .inl (hmoved s' h' ?_)⟩
      unfold BrkPages
      rw [if_pos (by omega)]
      exact ⟨Nat.le_of_lt hgrow.2, hk.grow_maps hmap⟩
    · rw [if_neg hgrow] at heq
      by_cases hshrink : size < 0 ∧ R.ceil new < R.ceil p.programBrk
      · rw [if_pos hshrink] at heq
        let x := AddressSpace.unmap h p.space (R.ceil new) (R.ceil p.programBrk)
        have heq : Process.sbrk R A h p size = .ok (asIsize p.programBrk, { p with space := x.1, programBrk := new }, x.2) := heq
        refine ⟨_, _, x.2, heq, .inl (hmoved x.1 x.2 ?_)⟩
        have hlast := hR.bound p.programBrk
        have hun := hk.tree.unmaps hk.root (R.ceil new) (R.ceil p.programBrk - R.ceil new) (by omega)
        rw [show R.ceil new + (R.ceil p.programBrk - R.ceil new) = R.ceil p.programBrk by omega] at hun
        unfold BrkPages
        rw [if_neg (by omega)]
        exact ⟨Nat.le_of_lt hshrink.2, hun⟩
      · rw [if_neg hshrink] at heq
        refine ⟨_, _, h, heq, .inl (hmoved p.space h (.keep ?_))⟩
        rcases Int.lt_trichotomy size 0 with hneg | rfl | hpos
        · have := hdown hneg
          omega
        · rw [← hnew, Int.add_zero, asUsize_asIsize hb.usize]
        · have := hup (Int.le_of_lt hpos)
          omega

/-! ## The break over runs -/

theorem BrkOk.sbrk (hb : BrkOk p) (hok : Process.sbrk R A h p size = .ok (ret, p', h')) : BrkOk p' := by
  have hisize := sbrk_range hok
  obtain ⟨old, hbrk⟩ := sbrk_ok hok
  obtain ⟨-, he, hnew | ⟨hlow, -, hnew⟩⟩ := brk_did hbrk
  · exact ⟨by rw [hnew]; exact hb.usize, by rw [he, hnew]; exact hb.above⟩
  · have hnew : p'.programBrk = asUsize (asIsize p.programBrk + size) := hnew
    refine ⟨by rw [hnew]; exact asUsize_lt _, ?_⟩
    rw [he, hnew, asIsize_asUsize hisize]
    exact hlow

end

section

variable {A : FrameAllocator} {R : Rounding} {s t : Machine} {shared : List Nat} {label : Nat → Option Node} {p : Process}

theorem fromElf_brk {h h' : Heap} {k : AddressSpace} {elf : ElfFile} (hR : R.Lawful)
    (hok : Process.fromElf R A h k elf = .ok (some (p, h'))) : BrkOk p := by
  unfold Process.fromElf at hok
  split at hok
  · cases hok
  · obtain ⟨⟨s0, h0⟩, -, hok⟩ := bind_eq_ok.mp hok
    obtain ⟨⟨s1, maxEndVa, h1⟩, -, hok⟩ := bind_eq_ok.mp hok
    obtain ⟨⟨stack, h2⟩, -, hok⟩ := bind_eq_ok.mp hok
    obtain ⟨⟨s3, h3⟩, -, hok⟩ := bind_eq_ok.mp hok
    cases hok
    exact ⟨hR.usize _, Int.le_refl _⟩

/-- One event keeps what is known of every break. -/
theorem brkOk_step {e : Event} (hR : R.Lawful) (hb : ∀ p ∈ s.procs, BrkOk p) (hok : s.step R A e = .ok t) :
    ∀ p ∈ t.procs, BrkOk p := by
  have hset : ∀ {i p' h'}, BrkOk p' → ∀ q ∈ (s.update i p' h').procs, BrkOk q := by
    intro i p' h' hp' q hq
    rcases List.mem_or_eq_of_mem_set hq with hq | rfl
    · exact hb q hq
    · exact hp'
  have hsnoc : ∀ {p' : Process}, BrkOk p' → ∀ q ∈ s.procs ++ [p'], BrkOk q := by
    intro p' hp' q hq
    rcases List.mem_append.mp hq with hq | hq
    · exact hb q hq
    · rwa [List.mem_singleton.mp hq]
  -- a process whose break and heap stay
  have hsame : ∀ {p p' : Process}, p ∈ s.procs → p'.heapBottom = p.heapBottom → p'.programBrk = p.programBrk → BrkOk p' := by
    intro p p' hp hbottom hbrk
    have hp := hb p hp
    exact ⟨by rw [hbrk]; exact hp.usize, by rw [hbottom, hbrk]; exact hp.above⟩
  cases Machine.step_did hok with
  | refused => exact hb
  | spawn helf => exact hsnoc (fromElf_brk hR helf)
  | exec _ helf => exact hset (fromElf_brk hR helf)
  | fork hp hfork =>
    obtain ⟨⟨s0, h0⟩, -, hfork⟩ := bind_eq_ok.mp hfork
    obtain ⟨⟨s1, h1⟩, -, hfork⟩ := bind_eq_ok.mp hfork
    cases hfork
    exact hsnoc (hsame (caller_ok hp) rfl rfl)
  | @call i c p p' ret h' hp hcall =>
    have hp := caller_ok hp
    apply hset
    cases c with
    | mmap addr len prot =>
      obtain ⟨-, hbottom, hbrk⟩ := mmap_did hcall
      exact hsame hp hbottom hbrk
    | munmap addr len =>
      obtain ⟨-, hbottom, hbrk⟩ := munmap_did (A := A) hcall
      exact hsame hp hbottom hbrk
    | sbrk size => exact (hb p hp).sbrk hcall
  | threadCreate hp hcall =>
    obtain ⟨v, -, hcall⟩ := bind_eq_ok.mp hcall
    obtain ⟨⟨stack, h1⟩, -, hcall⟩ := bind_eq_ok.mp hcall
    obtain ⟨⟨s1, h2⟩, -, hcall⟩ := bind_eq_ok.mp hcall
    cases hcall
    exact hset (hsame (caller_ok hp) rfl rfl)
  | exit => exact fun q hq => hb q (List.mem_of_mem_eraseIdx hq)

theorem brkOk_run {h : Heap} {layout : KernelLayout} {portal : Nat} {es : List Event} (hR : R.Lawful)
    (hboot : Machine.boot A h layout portal = .ok s) (hrun : Runs R A s es t) (hp : p ∈ t.procs) : BrkOk p := by
  have h0 : s.procs = [] := by
    obtain ⟨⟨k, h1⟩, -, hboot⟩ := bind_eq_ok.mp hboot
    cases hboot
    rfl
  exact hrun.inv (P := fun _ t => ∀ p ∈ t.procs, BrkOk p) (by simp [h0]) (fun hb hok => brkOk_step hR hb hok) p hp

end

/-- For every process of every state that the kernel reaches, when the frames of the call are
    there: `sbrk` moves the break and its pages as a whole, or nothing, exactly when the new break
    is an `isize` and, unless it is below the heap, page numbers grow with it and the pages that
    the heap would grow into are not mapped. The break is never below the heap. -/
theorem sbrk_meets {R : Rounding} {A : FrameAllocator} {h : Heap} {layout : KernelLayout} {portal : Nat}
    {s t : Machine} {es : List Event} (hR : R.Lawful) (hboot : Machine.boot A h layout portal = .ok s)
    (hrun : Runs R A s es t) {p : Process} (hp : p ∈ t.procs) {size : Int} (hserved : Served (Process.sbrk R A t.heap p size)) :
    asIsize p.heapBottom ≤ asIsize p.programBrk ∧ (SbrkMeets R A t.heap p size ↔ SbrkFits R t.heap p size) := by
  obtain ⟨shared, label, hk⟩ := known_run hR hboot hrun hp
  have hb := brkOk_run hR hboot hrun hp
  exact ⟨hb.above, SbrkMeets.fits, hk.sbrk_of_fits hR hserved hb⟩

/-- Below the upper half of the addresses, with a size of 32 bits, only the pages count. -/
theorem sbrkFits_low {R : Rounding} {h : Heap} {p : Process} {size : Int} (hR : R.Exact) (hbottom : p.heapBottom ≤ p.programBrk)
    (hbrk : p.programBrk ≤ 2 ^ 38) (hsize : -2 ^ 31 ≤ size ∧ size < 2 ^ 31) :
    SbrkFits R h p size ↔
      ∀ v, pagesOf p.programBrk ≤ v → v < pagesOf (p.programBrk + size.toNat) → visit h p.space v = none := by
  have hold : asIsize p.programBrk = p.programBrk := if_pos (by omega)
  have hheap : asIsize p.heapBottom = p.heapBottom := if_pos (by omega)
  have hnew : ∀ {n : Nat}, (n : Int) = p.programBrk + size → asUsize (asIsize p.programBrk + size) = n := by
    intro n hn
    rw [hold, ← hn]
    unfold asUsize
    omega
  constructor
  · intro hf v hlo hhi
    have hpos : 0 ≤ size := by
      by_contra hno
      rw [show size.toNat = 0 by omega] at hhi
      exact absurd (Nat.lt_of_le_of_lt hlo hhi) (Nat.lt_irrefl _)
    refine hf.free (by omega) hpos v ?_ ?_
    · rw [hR.ceil_eq (by omega)]
      exact hlo
    · rw [hnew (n := p.programBrk + size.toNat) (by omega), hR.ceil_eq (by omega)]
      exact hhi
  · intro hfree
    refine ⟨by omega, ?_, ?_, ?_⟩
    · intro hlow hpos
      rw [hnew (n := p.programBrk + size.toNat) (by omega), hR.ceil_eq (by omega), hR.ceil_eq (by omega)]
      unfold pagesOf pageSize
      omega
    · intro hlow hneg
      rw [hnew (n := p.programBrk - (-size).toNat) (by omega), hR.ceil_eq (by omega), hR.ceil_eq (by omega)]
      unfold pagesOf pageSize
      omega
    · intro hlow hpos v hlo hhi
      rw [hR.ceil_eq (by omega)] at hlo
      rw [hnew (n := p.programBrk + size.toNat) (by omega), hR.ceil_eq (by omega)] at hhi
      exact hfree v hlo hhi

/-- A process with nothing but a stack: the first two pages of a heap. -/
theorem sbrk_meets_pages : ∃ (t : Machine) (p : Process), t.procs = [p] ∧ SbrkMeets shift bump t.heap p 8192 := by
  have hrun : (do
      let s ← Machine.boot bump bareHeap bareLayout 0x80020
      let t ← s.step shift bump (.spawn bareElf)
      .ok (s, t)).map (fun x : Machine × Machine =>
        x.2.procs.map fun p : Process => (p.space.areas, p.heapBottom, p.programBrk)) =
      .ok [([(2 ^ 26 - 2, 2 ^ 26)], 0, 0)] := by
    decide +kernel
  obtain ⟨⟨s, t⟩, hrun, hshape⟩ := map_eq_ok hrun
  obtain ⟨s, hboot, hrun⟩ := bind_eq_ok.mp hrun
  obtain ⟨t, hspawn, hrun⟩ := bind_eq_ok.mp hrun
  cases hrun
  obtain ⟨p, hp, hpa⟩ := List.map_eq_singleton_iff.mp hshape
  simp only [Prod.mk.injEq] at hpa
  obtain ⟨hareas, hbottom, hbrk⟩ := hpa
  have hmem : p ∈ t.procs := by
    rw [hp]
    exact List.mem_singleton_self p
  obtain ⟨shared, label, hk⟩ := known_run shift_lawful hboot (.single hspawn) hmem
  have hfits : SbrkFits shift t.heap p 8192 := by
    refine (sbrkFits_low shift_exact (by omega) (by omega) (by decide)).mpr fun v hlo hhi => ?_
    rw [hbrk] at hhi
    have hhi : v < 2 := hhi
    by_contra hv
    obtain ⟨a, ha, hin⟩ := (hk.visit_iff (by unfold portalStart; omega)).mp hv
    rw [hareas, List.mem_singleton] at ha
    rw [ha] at hin
    have hin : 2 ^ 26 - 2 ≤ v := hin.1
    omega
  exact ⟨t, p, hp, (sbrk_meets shift_lawful hboot (.single hspawn) hmem (Process.sbrk_served bump_total _)).2.mpr hfits⟩

/-- The second page above the break is taken by `mmap`; then the heap is to grow by two pages. -/
theorem sbrk_over_mmap : ∃ (s t : Machine) (p : Process), Machine.boot bump bareHeap bareLayout 0x80020 = .ok s ∧
    Runs shift bump s [.spawn bareElf, .mmap 0 0x1000 4096 3] t ∧ t.procs = [p] ∧
    (∀ x, Process.sbrk shift bump t.heap p 8192 ≠ .ok x) ∧ ¬ SbrkMeets shift bump t.heap p 8192 := by
  have hrun : (do
      let s ← Machine.boot bump bareHeap bareLayout 0x80020
      let s1 ← s.step shift bump (.spawn bareElf)
      let t ← s1.step shift bump (.mmap 0 0x1000 4096 3)
      .ok (s, t)).map (fun x : Machine × Machine =>
        x.2.procs.map fun p : Process => (p.space.areas, p.heapBottom, p.programBrk)) =
      .ok [([(2 ^ 26 - 2, 2 ^ 26), (1, 2)], 0, 0)] := by
    decide +kernel
  obtain ⟨⟨s, t⟩, hrun, hshape⟩ := map_eq_ok hrun
  obtain ⟨s, hboot, hrun⟩ := bind_eq_ok.mp hrun
  obtain ⟨s1, hspawn, hrun⟩ := bind_eq_ok.mp hrun
  obtain ⟨t, hmmap, hrun⟩ := bind_eq_ok.mp hrun
  cases hrun
  obtain ⟨p, hp, hpa⟩ := List.map_eq_singleton_iff.mp hshape
  simp only [Prod.mk.injEq] at hpa
  obtain ⟨hareas, hbottom, hbrk⟩ := hpa
  have hruns : Runs shift bump s [.spawn bareElf, .mmap 0 0x1000 4096 3] t := .snoc (.single hspawn) hmmap
  have hmem : p ∈ t.procs := by
    rw [hp]
    exact List.mem_singleton_self p
  obtain ⟨shared, label, hk⟩ := known_run shift_lawful hboot hruns hmem
  have htaken : visit t.heap p.space 1 ≠ none := by
    refine (hk.visit_iff (by decide)).mpr ⟨(1, 2), ?_, Nat.le_refl _, Nat.lt_succ_self _⟩
    rw [hareas]
    decide
  have hstop : ∀ x, Process.sbrk shift bump t.heap p 8192 ≠ .ok x := by
    intro ⟨ret, p', h'⟩ hok
    refine htaken (hk.sbrk_free hok ?_ (by decide) ?_ ?_)
    · rw [hbottom, hbrk]
      decide
    · rw [hbrk]
      decide
    · rw [hbrk]
      decide
  exact ⟨s, t, p, hboot, hruns, hp, hstop, fun ⟨_, _, _, hok, _⟩ => hstop _ hok⟩

end TgRcore.Vm
