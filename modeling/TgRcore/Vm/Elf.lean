/-
  TgRcore.Vm.Elf — `from_elf` against the ELF file, chapters 6 to 8.

  - `Elf`: what the parser reports of a file; `mapPrograms` and `UserProcess.fromElf` follow the
    source, `mapPrograms_ok` reads them as the mapping of segments.
  - `Segment.Fits`, `Segment.Apart`: what the code asks of the segments; it stops the kernel
    otherwise.
  - `Image`: a space that has the segments, the stack and nothing else below the portal.
  - `from_elf_image`: from every file that is well formed the image is made.
-/

import TgRcore.Kernel.Signal
import TgRcore.Task.Managers
import TgRcore.Vm.Break
import TgRcore.Vm.FileIo

namespace TgRcore.Vm

open TgRcore.BlockProg TgRcore.Kernel TgRcore.Task AddressSpace

/-! ## Segments -/

namespace Segment

variable (R : Rounding) (seg : Segment)

def first : Nat := R.floor seg.virtualAddr

def last : Nat := R.ceil (seg.virtualAddr + seg.memSize)

def flags : VmFlags := insert .owned (userFlags seg.execute seg.write seg.read)

/-- A page of the segment. -/
def Has (v : Nat) : Prop := seg.first R ≤ v ∧ v < seg.last R

/-- The byte of one of its pages: its data lie one page after the other, from the place in the
    first page that the address says. -/
def byte (v i : Nat) : UInt8 := loaded seg.data (seg.virtualAddr % pageSize) ((v - seg.first R) * pageSize + i)

/-- What must hold of a segment for its mapping. -/
structure Fits : Prop where
  ends : seg.virtualAddr + seg.memSize < 2 ^ 64
  congruent : seg.offset % pageSize = seg.virtualAddr % pageSize
  pages : seg.first R < seg.last R
  data : seg.data.length + seg.virtualAddr % pageSize ≤ (seg.last R - seg.first R) * pageSize

/-- Two segments have no page in common. -/
def Apart (a b : Segment) : Prop := ∀ v, a.Has R v → ¬ b.Has R v

/-- Where addresses are rounded exactly, the byte is that at the address. -/
theorem byte_eq {R : Rounding} {seg : Segment} {v i : Nat} (hR : R.Exact) (hva : seg.virtualAddr < 2 ^ 39)
    (hv : seg.first R ≤ v) : seg.byte R v i =
      if seg.virtualAddr ≤ v * pageSize + i ∧ v * pageSize + i < seg.virtualAddr + seg.data.length then
        seg.data.getD (v * pageSize + i - seg.virtualAddr) 0 else 0 := by
  have hfirst : seg.first R = seg.virtualAddr / pageSize := hR.floor _ hva
  rw [hfirst] at hv
  have hpage : (v - seg.virtualAddr / pageSize) * pageSize + i + seg.virtualAddr =
      v * pageSize + i + seg.virtualAddr % pageSize := by
    unfold pageSize at *
    omega
  unfold byte loaded
  rw [hfirst, show (v - seg.virtualAddr / pageSize) * pageSize + i - seg.virtualAddr % pageSize =
    v * pageSize + i - seg.virtualAddr by omega]
  refine if_congr ?_ rfl rfl
  omega

end Segment

/-- A page has a frame of its own, with flags and bytes. -/
def PageIs (h : Heap) (s : AddressSpace) (v : Nat) (flags : VmFlags) (byte : Nat → UInt8) : Prop :=
  ∃ ppn, visit h s v = some ⟨ppn, flags⟩ ∧ h.Handed ppn ∧ ∀ i, i < pageSize → h.mem (ppn * pageSize + i) = byte i

/-- The end of the highest segment. -/
def maxEnd (segs : List Segment) (m : Nat) : Nat := segs.foldl (fun m seg => max m (seg.virtualAddr + seg.memSize)) m

section

variable {A : FrameAllocator} {R : Rounding} {kernel : Nat} {shared : List Nat} {label : Nat → Option Node}
  {h h' h1 : Heap} {s s' s1 : AddressSpace} {segs : List Segment} {seg : Segment} {first n v m m' : Nat} {flags : VmFlags}
  {byte : Nat → UInt8}

/-- A page stays as it is while other pages are mapped. -/
theorem PageIs.keep (hp : PageIs h s v flags byte) (hv : visit h' s' v = visit h s v) (hg : Grown h h') :
    PageIs h' s' v flags byte := by
  obtain ⟨ppn, hvisit, hh, hbytes⟩ := hp
  refine ⟨ppn, by rw [hv, hvisit], hg.handed _ hh, fun i hi => ?_⟩
  rw [hg.bytes ppn i hh hi, hbytes i hi]

theorem Maps.page (hm : Maps h h' s s' first n flags byte) (hlo : first ≤ v) (hhi : v < first + n) :
    PageIs h' s' v flags fun i => byte ((v - first) * pageSize + i) := by
  obtain ⟨ppn, hpages⟩ := hm.pages
  obtain ⟨hvisit, -, hh, hbytes⟩ := hpages (v - first) (by omega)
  rw [show first + (v - first) = v by omega] at hvisit
  exact ⟨ppn + (v - first), hvisit, hh, hbytes⟩

/-- What the mapping of the segments did. -/
structure SegmentsDone (R : Rounding) (h h' : Heap) (s s' : AddressSpace) (segs : List Segment) : Prop where
  root : s'.root = s.root
  fits : ∀ seg ∈ segs, seg.Fits R
  apart : segs.Pairwise (Segment.Apart R)
  free : ∀ seg ∈ segs, ∀ v, seg.Has R v → visit h s v = none
  pages : ∀ seg ∈ segs, ∀ v, seg.Has R v → PageIs h' s' v seg.flags (seg.byte R v)
  others : ∀ v, (∀ seg ∈ segs, ¬ seg.Has R v) → visit h' s' v = visit h s v
  grown : Grown h h'

/-- One segment before the others. -/
theorem SegmentsDone.cons (hroot : s1.root = s.root) (hfits : seg.Fits R)
    (hm : Maps h h1 s s1 (seg.first R) (seg.last R - seg.first R) seg.flags (loaded seg.data (seg.virtualAddr % pageSize)))
    (hd : SegmentsDone R h1 h' s1 s' segs) : SegmentsDone R h h' s s' (seg :: segs) := by
  have hpage : ∀ v, seg.Has R v → PageIs h1 s1 v seg.flags (seg.byte R v) :=
    fun v hv => hm.page hv.1 (by unfold Segment.Has at hv; omega)
  have hother : ∀ v, ¬ seg.Has R v → visit h1 s1 v = visit h s v := by
    intro v hv
    refine hm.others v fun k hk e => hv ?_
    unfold Segment.Has
    omega
  -- The pages of a later segment had no frames when the first one was there.
  have hapart : ∀ b ∈ segs, ∀ v, seg.Has R v → ¬ b.Has R v := by
    intro b hb v hv hbv
    obtain ⟨ppn, hvisit, -⟩ := hpage v hv
    rw [hd.free b hb v hbv] at hvisit
    cases hvisit
  refine ⟨hd.root.trans hroot, ?_, ?_, ?_, ?_, ?_, hm.bytes.trans hd.grown⟩
  · intro b hb
    rcases List.mem_cons.mp hb with rfl | hb
    · exact hfits
    · exact hd.fits b hb
  · exact List.pairwise_cons.mpr ⟨hapart, hd.apart⟩
  · intro b hb v hv
    rcases List.mem_cons.mp hb with rfl | hb
    · unfold Segment.Has at hv
      exact hm.free hv.1 (by omega)
    · rw [← hother v fun e => hapart b hb v e hv]
      exact hd.free b hb v hv
  · intro b hb v hv
    rcases List.mem_cons.mp hb with rfl | hb
    · exact (hpage v hv).keep (hd.others v fun c hc => hapart c hc v hv) hd.grown
    · exact hd.pages b hb v hv
  · intro v hv
    rw [hd.others v fun b hb => hv b (List.mem_cons_of_mem _ hb), hother v (hv seg List.mem_cons_self)]

/-- What the loop over the segments did, if it returned. -/
theorem Tree.segments_done (hT : Tree (UserPage kernel) kernel shared label h)
    (hr : label s.root = some (.root s.root)) (hok : Vm.mapSegments R A segs h s m = .ok (s', m', h')) :
    SegmentsDone R h h' s s' segs ∧ m' = maxEnd segs m ∧
      ∃ label', Extends (UserPage kernel) kernel shared label label' h' := by
  induction segs generalizing h s label m with
  | nil =>
    cases hok
    exact ⟨⟨rfl, by simp, .nil, by simp, by simp, fun _ _ => rfl, .refl⟩, rfl, label, fun hl => hl, hT⟩
  | cons seg segs ih =>
    unfold Vm.mapSegments at hok
    dsimp only at hok
    split at hok
    · cases hok
    · rename_i hno
      obtain ⟨⟨s1, h1⟩, hmap, hok⟩ := bind_eq_ok.mp hok
      obtain ⟨hu, hv⟩ := userFlags_u seg.execute seg.write seg.read
      obtain ⟨hdata, hlt, -, hm, label1, hx1, hc1⟩ := hT.map_maps hr hu hv hmap
      obtain ⟨hd, hmax, label2, hx2⟩ := ih hx1.tree (by rw [hc1.root]; exact hx1.keep hr) hok
      have hfits : seg.Fits R := ⟨by omega, by omega, hlt, hdata⟩
      exact ⟨hd.cons hc1.root hfits hm, hmax, label2, hx1.trans hx2⟩

/-- Segments that fit, are apart and find their pages free are mapped, if the frames are there. -/
theorem Tree.segments_total (hR : R.Lawful) (hserved : Served (Vm.mapSegments R A segs h s m))
    (hT : Tree (UserPage kernel) kernel shared label h) (hr : label s.root = some (.root s.root))
    (hfits : ∀ seg ∈ segs, seg.Fits R) (hapart : segs.Pairwise (Segment.Apart R))
    (hfree : ∀ seg ∈ segs, ∀ v, seg.Has R v → visit h s v = none) : ∃ x, Vm.mapSegments R A segs h s m = .ok x := by
  induction segs generalizing h s label m with
  | nil => exact ⟨_, rfl⟩
  | cons seg segs ih =>
    obtain ⟨hseg, hrest⟩ := List.pairwise_cons.mp hapart
    have hf := hfits seg List.mem_cons_self
    have hends := hf.ends
    have hcong := hf.congruent
    obtain ⟨hu, hv⟩ := userFlags_u seg.execute seg.write seg.read
    unfold Vm.mapSegments at hserved ⊢
    dsimp only at hserved ⊢
    rw [if_neg (by omega)] at hserved ⊢
    obtain ⟨s1, h1, hmap⟩ := hT.map_total hserved.first hr hu hf.data hf.pages (hR.bound _)
      fun k hk => hfree seg List.mem_cons_self _ ⟨Nat.le_add_right _ _, by unfold Segment.last; omega⟩
    obtain ⟨-, -, -, hm, label1, hx1, hc1⟩ := hT.map_maps hr hu hv hmap
    have hfree1 : ∀ b ∈ segs, ∀ v, b.Has R v → visit h1 s1 v = none := by
      intro b hb v hbv
      rw [hm.others v fun k hk e => hseg b hb v ⟨by unfold Segment.first; omega, by unfold Segment.last; omega⟩ hbv]
      exact hfree b (List.mem_cons_of_mem _ hb) v hbv
    obtain ⟨x, hx⟩ := ih (hserved.next hmap) hx1.tree (by rw [hc1.root]; exact hx1.keep hr)
      (fun b hb => hfits b (List.mem_cons_of_mem _ hb)) hrest hfree1
    exact ⟨x, bind_eq_ok.mpr ⟨(s1, h1), hmap, hx⟩⟩

end

/-! ## The image -/

/-- The two pages of the stack. -/
def StackPage (v : Nat) : Prop := 2 ^ 26 - 2 ≤ v ∧ v < 2 ^ 26

/-- What the code asks of the segments together. -/
structure Loadable (R : Rounding) (segs : List Segment) : Prop where
  fits : ∀ seg ∈ segs, seg.Fits R
  apart : segs.Pairwise (Segment.Apart R)
  stack : ∀ seg ∈ segs, ∀ v, seg.Has R v → ¬ StackPage v

/-- The segments, the stack and nothing else; what lies under the portal's root entry is lost. -/
structure Image (R : Rounding) (h : Heap) (p : Process) (segs : List Segment) : Prop where
  segments : ∀ seg ∈ segs, ∀ v, seg.Has R v → v < portalStart → PageIs h p.space v seg.flags (seg.byte R v)
  stack : ∀ v, StackPage v → PageIs h p.space v heapFlags fun _ => 0
  others : ∀ v, v < portalStart → (∀ seg ∈ segs, ¬ seg.Has R v) → ¬ StackPage v → visit h p.space v = none
  bottom : p.heapBottom = R.base (R.ceil (maxEnd segs 0))
  brk : p.programBrk = p.heapBottom

section

variable {A : FrameAllocator} {R : Rounding} {kernel : Nat} {shared : List Nat} {label : Nat → Option Node}
  {h h' h1 : Heap} {s s' s1 k : AddressSpace} {segs : List Segment} {elf : ElfFile} {p : Process} {v stack : Nat}

/-- The portal changes no page below it. -/
theorem Tree.visit_portal (hT : Tree (UserPage kernel) kernel shared label h) (hr : label s.root = some (.root s.root))
    (hv : v < portalStart) : visit (Vm.mapPortal h k s) s v = visit h s v :=
  visit_same fun _ => hT.entry_portal hr hr hv

theorem mapPortal_grown : Grown h (mapPortal h k s) := ⟨fun _ hf => hf, fun _ _ _ _ => rfl⟩

/-- The stack over the segments. -/
theorem Tree.stack_image (hT : Tree (UserPage kernel) kernel shared label h1) (hr : label s1.root = some (.root s1.root))
    (hd : SegmentsDone R h h1 s s1 segs) (hnew : ∀ v, visit h s v = none) {h2 h3 : Heap} {s3 : AddressSpace}
    (halloc : h1.pageAlloc A 2 = .ok (stack, h2))
    (hok : AddressSpace.mapExtern A h2 s1 (2 ^ 26 - 2) (2 ^ 26) stack heapFlags = .ok (s3, h3)) :
    Loadable R segs ∧
      Image R (Vm.mapPortal h3 k s3) ⟨s3, R.base (R.ceil (maxEnd segs 0)), R.base (R.ceil (maxEnd segs 0))⟩ segs := by
  have halloc : h1.pageAlloc A (2 ^ 26 - (2 ^ 26 - 2)) = .ok (stack, h2) := halloc
  obtain ⟨-, -, hm, label3, hx3, hc3⟩ := hT.maps hr (by decide) (by decide) (filled_alloc halloc) hok
  have hr3 : label3 s3.root = some (.root s3.root) := by
    rw [hc3.root]
    exact hx3.keep hr
  have hportal : ∀ v, v < portalStart → visit (Vm.mapPortal h3 k s3) s3 v = visit h3 s3 v :=
    fun v hv => hx3.tree.visit_portal hr3 hv
  have hsame : ∀ v, ¬ StackPage v → visit h3 s3 v = visit h1 s1 v := by
    intro v hv
    refine hm.others v fun k hk e => hv ?_
    unfold StackPage
    omega
  have hclear : ∀ seg ∈ segs, ∀ v, seg.Has R v → ¬ StackPage v := by
    intro seg hseg v hv hst
    obtain ⟨ppn, hvisit, -⟩ := hd.pages seg hseg v hv
    unfold StackPage at hst
    have hfree := hm.free (v := v) (by omega) (by omega)
    rw [hvisit] at hfree
    cases hfree
  refine ⟨⟨hd.fits, hd.apart, hclear⟩, ?_, ?_, ?_, rfl, rfl⟩
  · intro seg hseg v hv hlow
    have hpage := (hd.pages seg hseg v hv).keep (hsame v (hclear seg hseg v hv)) hm.bytes
    exact hpage.keep (hportal v hlow) mapPortal_grown
  · intro v hv
    have hpage := hm.page hv.1 (by unfold StackPage at hv; omega)
    exact hpage.keep (hportal v (by unfold StackPage at hv; unfold portalStart; omega)) mapPortal_grown
  · intro v hlow hno hst
    show visit (Vm.mapPortal h3 k s3) s3 v = none
    rw [hportal v hlow, hsame v hst, hd.others v hno, hnew]

/-- A space that was just made has no page. -/
theorem Tree.new_empty (hT : Tree (UserPage kernel) kernel shared label h) (hok : AddressSpace.new A h = .ok (s, h')) :
    ∃ label', Extends (UserPage kernel) kernel shared label label' h' ∧ label' s.root = some (.root s.root) ∧
      ∀ v, visit h' s v = none := by
  obtain ⟨-, -, -, label', hx, hr, -, hzero⟩ := hT.new hok
  refine ⟨label', hx, hr, fun v => ?_⟩
  by_cases hv : v ≤ vpnMax
  · rw [visit_none hv, hzero]
    rfl
  · exact visit_beyond _ _ (Nat.not_le.mp hv)

/-- What `from_elf` made, if it returned. -/
theorem Tree.fromElf_done (hT : Tree (UserPage kernel) kernel shared label h)
    (hok : Process.fromElf R A h k elf = .ok (some (p, h'))) : Loadable R elf.segments ∧ Image R h' p elf.segments := by
  unfold Process.fromElf at hok
  split at hok
  · cases hok
  · obtain ⟨⟨s0, h0⟩, hnew, hok⟩ := bind_eq_ok.mp hok
    obtain ⟨⟨s1, m, h1⟩, hsegs, hok⟩ := bind_eq_ok.mp hok
    obtain ⟨⟨stack, h2⟩, halloc, hok⟩ := bind_eq_ok.mp hok
    obtain ⟨⟨s3, h3⟩, hstack, hok⟩ := bind_eq_ok.mp hok
    cases hok
    obtain ⟨label0, hx0, hr0, hempty⟩ := hT.new_empty hnew
    obtain ⟨hd, rfl, label1, hx1⟩ := hx0.tree.segments_done hr0 hsegs
    exact hx1.tree.stack_image (by rw [hd.root]; exact hx1.keep hr0) hd hempty halloc hstack

/-- Segments that can be loaded are, if the frames are there. -/
theorem Tree.fromElf_total (hT : Tree (UserPage kernel) kernel shared label h) (hR : R.Lawful)
    (hserved : Served (Process.fromElf R A h k elf)) (hexec : elf.executable = true) (hl : Loadable R elf.segments) :
    ∃ p h', Process.fromElf R A h k elf = .ok (some (p, h')) := by
  unfold Process.fromElf at hserved ⊢
  rw [hexec] at hserved ⊢
  obtain ⟨⟨f, h0⟩, hroot⟩ := hserved.first.first.pageAlloc
  have hnew : AddressSpace.new A h = .ok (⟨[], f⟩, h0) := bind_eq_ok.mpr ⟨_, hroot, rfl⟩
  have hserved := hserved.next hnew
  obtain ⟨label0, hx0, hr0, hempty⟩ := hT.new_empty hnew
  obtain ⟨⟨s1, m, h1⟩, hsegs⟩ := hx0.tree.segments_total hR hserved.first hr0 hl.fits hl.apart fun _ _ v _ => hempty v
  have hserved := hserved.next hsegs
  obtain ⟨hd, -, label1, hx1⟩ := hx0.tree.segments_done hr0 hsegs
  have hr1 : label1 s1.root = some (.root s1.root) := by
    rw [hd.root]
    exact hx1.keep hr0
  obtain ⟨⟨stack, h2⟩, halloc⟩ := hserved.first.pageAlloc
  have hserved := hserved.next halloc
  have hf : Filled A h1 (2 ^ 26 - (2 ^ 26 - 2)) stack h2 fun _ => 0 := filled_alloc halloc
  have hu : Flag.u ∈ heapFlags := by decide
  obtain ⟨s3, h3, hstack⟩ := hx1.tree.mapExtern_total hserved.first hr1 hu (by decide) (by decide) hf
    fun i hi => by
      rw [hd.others _ fun seg hseg hv => hl.stack seg hseg _ hv ⟨Nat.le_add_right _ _, by omega⟩]
      exact hempty _
  refine ⟨⟨s3, R.base (R.ceil m), R.base (R.ceil m)⟩, Vm.mapPortal h3 k s3, ?_⟩
  refine bind_eq_ok.mpr ⟨_, hnew, bind_eq_ok.mpr ⟨(s1, m, h1), hsegs, bind_eq_ok.mpr ⟨(stack, h2), halloc, ?_⟩⟩⟩
  exact bind_eq_ok.mpr ⟨(s3, h3), hstack, rfl⟩

end

/-! ## The file -/

/-- An entry of the program header table; `load` when its type is LOAD. -/
structure ProgramHeader where
  load : Bool
  offset : Nat
  fileSize : Nat
  virtualAddr : Nat
  memSize : Nat
  execute : Bool
  write : Bool
  read : Bool

/-- What the parser reports of a file; `executable` as in `ElfFile`. -/
structure Elf where
  input : List UInt8
  executable : Bool
  entryPoint : Nat
  programs : List ProgramHeader

namespace ProgramHeader

/-- Its part of the file is there. -/
def InFile (program : ProgramHeader) (input : List UInt8) : Prop := program.offset + program.fileSize ≤ input.length

def segment (input : List UInt8) (program : ProgramHeader) : Segment where
  offset := program.offset
  virtualAddr := program.virtualAddr
  memSize := program.memSize
  data := (input.drop program.offset).take program.fileSize
  execute := program.execute
  write := program.write
  read := program.read

end ProgramHeader

namespace Elf

def loads (elf : Elf) : List ProgramHeader := elf.programs.filter (·.load)

def segments (elf : Elf) : List Segment := elf.loads.map (·.segment elf.input)

def file (elf : Elf) : ElfFile := ⟨elf.executable, elf.segments⟩

end Elf

/-- `input[offset..][..len]` -/
def slice (input : List UInt8) (offset len : Nat) : Except Halt (List UInt8) :=
  if offset ≤ input.length ∧ len ≤ input.length - offset then .ok ((input.drop offset).take len) else .error .panic

/-- The loop of `from_elf` over the program headers. -/
def mapPrograms (R : Rounding) (A : FrameAllocator) (input : List UInt8) :
    List ProgramHeader → Heap → AddressSpace → Nat → Except Halt (AddressSpace × Nat × Heap)
  | [], h, s, maxEndVa => .ok (s, maxEndVa, h)
  | program :: programs, h, s, maxEndVa =>
    if !program.load then mapPrograms R A input programs h s maxEndVa
    else
      let offMem := program.virtualAddr
      let endMem := offMem + program.memSize
      if endMem ≥ 2 ^ 64 ∨ program.offset % pageSize ≠ offMem % pageSize then .error .panic
      else do
        let data ← slice input program.offset program.fileSize
        let (s, h) ← AddressSpace.map A h s (R.floor offMem) (R.ceil endMem) data (offMem % pageSize)
          (userFlags program.execute program.write program.read)
        mapPrograms R A input programs h s (max maxEndVa endMem)

/-- `Process` of chapter 6; `image` is its `address_space`, `heap_bottom` and `program_brk`. -/
structure UserProcess where
  pid : ProcId
  context : LocalContext
  satp : Nat
  image : Process
  fdTable : List (Option FileHandle)
  stride : Stride

/-- The `satp` of a space: Sv39 and the frame of its root. -/
def satpOf (s : AddressSpace) : Nat := 8 <<< 60 ||| s.root

/-- `pid` is the number that `ProcId::new` gives next. -/
def UserProcess.fromElf (R : Rounding) (A : FrameAllocator) (h : Heap) (kernel : AddressSpace) (pid : ProcId) (elf : Elf) :
    Except Halt (Option (UserProcess × Heap)) :=
  if !elf.executable then .ok none
  else do
    let entry := elf.entryPoint
    let (s, h) ← AddressSpace.new A h
    let (s, maxEndVa, h) ← mapPrograms R A elf.input elf.programs h s 0
    let heapBottom := R.base (R.ceil maxEndVa)
    let (stack, h) ← h.pageAlloc A 2
    let (s, h) ← mapExtern A h s (2 ^ 26 - 2) (2 ^ 26) stack heapFlags
    let h := mapPortal h kernel s
    .ok (some ({
      pid := pid
      context := (LocalContext.user entry).setX 2 (2 ^ 38)
      satp := satpOf s
      image := ⟨s, heapBottom, heapBottom⟩
      fdTable := [some (.empty true false), some (.empty false true), some (.empty false true)]
      stride := Stride.new }, h))

/-- The process around an image. -/
def UserProcess.ofImage (elf : Elf) (pid : ProcId) (p : Process) : UserProcess where
  pid := pid
  context := (LocalContext.user elf.entryPoint).setX 2 (2 ^ 38)
  satp := satpOf p.space
  image := p
  fdTable := [some (.empty true false), some (.empty false true), some (.empty false true)]
  stride := Stride.new

section

variable {A : FrameAllocator} {R : Rounding} {kernel : Nat} {shared : List Nat} {label : Nat → Option Node}
  {h h' : Heap} {s k : AddressSpace} {input : List UInt8} {programs : List ProgramHeader} {elf : Elf} {pid : ProcId}
  {q : UserProcess} {m : Nat}

theorem slice_ok {offset len : Nat} {data : List UInt8} : slice input offset len = .ok data ↔
    offset + len ≤ input.length ∧ data = (input.drop offset).take len := by
  unfold slice
  split
  · rename_i hin
    rw [Except.ok.injEq, eq_comm]
    exact (and_iff_right (by omega)).symm
  · rename_i hin
    exact iff_of_false (by simp) fun e => hin (by omega)

theorem mapSegments_cons {seg : Segment} {segs : List Segment} {x : AddressSpace × Nat × Heap} :
    mapSegments R A (seg :: segs) h s m = .ok x ↔
      ¬ (seg.virtualAddr + seg.memSize ≥ 2 ^ 64 ∨ seg.offset % pageSize ≠ seg.virtualAddr % pageSize) ∧
      ∃ y, AddressSpace.map A h s (R.floor seg.virtualAddr) (R.ceil (seg.virtualAddr + seg.memSize)) seg.data
        (seg.virtualAddr % pageSize) (userFlags seg.execute seg.write seg.read) = .ok y ∧
        mapSegments R A segs y.2 y.1 (max m (seg.virtualAddr + seg.memSize)) = .ok x := by
  rw [mapSegments]
  split
  · rename_i hno
    exact iff_of_false (by simp) fun e => e.1 hno
  · rename_i hno
    rw [bind_eq_ok]
    exact (and_iff_right hno).symm

theorem mapPrograms_cons {program : ProgramHeader} {x : AddressSpace × Nat × Heap} (hload : program.load = true) :
    mapPrograms R A input (program :: programs) h s m = .ok x ↔ program.InFile input ∧
      ¬ (program.virtualAddr + program.memSize ≥ 2 ^ 64 ∨ program.offset % pageSize ≠ program.virtualAddr % pageSize) ∧
      ∃ y, AddressSpace.map A h s (R.floor program.virtualAddr) (R.ceil (program.virtualAddr + program.memSize))
        ((input.drop program.offset).take program.fileSize) (program.virtualAddr % pageSize)
        (userFlags program.execute program.write program.read) = .ok y ∧
        mapPrograms R A input programs y.2 y.1 (max m (program.virtualAddr + program.memSize)) = .ok x := by
  rw [mapPrograms, hload, if_neg (by simp)]
  dsimp only
  split
  · rename_i hno
    exact iff_of_false (by simp) fun e => e.2.1 hno
  · rename_i hno
    rw [bind_eq_ok]
    constructor
    · intro ⟨data, hslice, hrest⟩
      obtain ⟨hin, rfl⟩ := slice_ok.mp hslice
      exact ⟨hin, hno, bind_eq_ok.mp hrest⟩
    · intro ⟨hin, _, hrest⟩
      exact ⟨_, slice_ok.mpr ⟨hin, rfl⟩, bind_eq_ok.mpr hrest⟩

/-- The loop maps the segments of the headers, if their parts of the file are there. -/
theorem mapPrograms_ok {x : AddressSpace × Nat × Heap} : mapPrograms R A input programs h s m = .ok x ↔
    (∀ program ∈ programs.filter (·.load), program.InFile input) ∧
      mapSegments R A ((programs.filter (·.load)).map (·.segment input)) h s m = .ok x := by
  induction programs generalizing h s m with
  | nil => simp [mapPrograms, mapSegments]
  | cons program programs ih =>
    cases hload : program.load with
    | false =>
      rw [mapPrograms, hload, List.filter_cons_of_neg (by simp [hload])]
      exact ih
    | true =>
      rw [mapPrograms_cons hload, List.filter_cons_of_pos hload, List.map_cons, mapSegments_cons, List.forall_mem_cons]
      constructor
      · intro ⟨hin, hno, y, hmap, hrest⟩
        obtain ⟨hfile, hrest⟩ := ih.mp hrest
        exact ⟨⟨hin, hfile⟩, hno, y, hmap, hrest⟩
      · intro ⟨⟨hin, hfile⟩, hno, y, hmap, hrest⟩
        exact ⟨hin, hno, y, hmap, ih.mpr ⟨hfile, hrest⟩⟩

theorem mapPrograms_eq (hfile : ∀ program ∈ programs.filter (·.load), program.InFile input) :
    mapPrograms R A input programs h s m = mapSegments R A ((programs.filter (·.load)).map (·.segment input)) h s m := by
  induction programs generalizing h s m with
  | nil => rfl
  | cons program programs ih =>
    cases hload : program.load with
    | false =>
      rw [List.filter_cons_of_neg (by simp [hload])] at hfile ⊢
      rw [mapPrograms, hload]
      exact ih hfile
    | true =>
      rw [List.filter_cons_of_pos hload] at hfile ⊢
      rw [List.forall_mem_cons] at hfile
      have hdata := slice_ok.mpr ⟨hfile.1, rfl⟩
      rw [List.map_cons, mapPrograms, mapSegments, hload, if_neg (by simp)]
      simp only [hdata, ih hfile.2]
      rfl

/-- `from_elf` makes the image of the segments and puts a process around it. -/
theorem fromElf_ok : UserProcess.fromElf R A h k pid elf = .ok (some (q, h')) ↔
    (∀ program ∈ elf.loads, program.InFile elf.input) ∧
      ∃ p, Process.fromElf R A h k elf.file = .ok (some (p, h')) ∧ q = .ofImage elf pid p := by
  unfold UserProcess.fromElf Process.fromElf
  cases hexec : elf.executable with
  | false =>
    have hexec : elf.file.executable = false := hexec
    simp [hexec]
  | true =>
    have hexec : elf.file.executable = true := hexec
    simp only [hexec, Bool.not_true, Bool.false_eq_true, if_false, bind_eq_ok]
    constructor
    · intro ⟨⟨s0, h0⟩, hnew, ⟨s1, m, h1⟩, hmap, ⟨stack, h2⟩, halloc, ⟨s3, h3⟩, hstack, hq⟩
      obtain ⟨hfile, hmap⟩ := mapPrograms_ok.mp hmap
      cases hq
      exact ⟨hfile, _, ⟨(s0, h0), hnew, (s1, m, h1), hmap, (stack, h2), halloc, (s3, h3), hstack, rfl⟩, rfl⟩
    · intro ⟨hfile, p, ⟨⟨s0, h0⟩, hnew, ⟨s1, m, h1⟩, hmap, ⟨stack, h2⟩, halloc, ⟨s3, h3⟩, hstack, hp⟩, hq⟩
      cases hp
      subst hq
      exact ⟨(s0, h0), hnew, (s1, m, h1), mapPrograms_ok.mpr ⟨hfile, hmap⟩, (stack, h2), halloc, (s3, h3), hstack, rfl⟩

theorem served_iff (hfile : ∀ program ∈ elf.loads, program.InFile elf.input) :
    Served (UserProcess.fromElf R A h k pid elf) ↔ Served (Process.fromElf R A h k elf.file) := by
  have hprograms := fun h s m => mapPrograms_eq (R := R) (A := A) (h := h) (s := s) (m := m) hfile
  unfold UserProcess.fromElf Process.fromElf
  cases hexec : elf.executable with
  | false =>
    have hexec : elf.file.executable = false := hexec
    simp [hexec, served_ok]
  | true =>
    have hexec : elf.file.executable = true := hexec
    simp only [hexec, Bool.not_true, Bool.false_eq_true, if_false, served_bind, hprograms, served_ok]
    rfl

end

/-! ## What the file describes -/

/-- The byte behind a virtual address. -/
def userByte (h : Heap) (s : AddressSpace) (a : Nat) : Option UInt8 :=
  (visit h s (a / pageSize)).map fun pte => h.mem (pte.ppn * pageSize + a % pageSize)

namespace ProgramHeader

def first (program : ProgramHeader) : Nat := program.virtualAddr / pageSize

def last (program : ProgramHeader) : Nat := pagesOf (program.virtualAddr + program.memSize)

/-- A page of the segment. -/
def Has (program : ProgramHeader) (v : Nat) : Prop := program.first ≤ v ∧ v < program.last

end ProgramHeader

/-- An executable whose segments lie in the file, take pages below the stack and have none in
    common. -/
structure Elf.WellFormed (elf : Elf) : Prop where
  executable : elf.executable = true
  sizes : ∀ program ∈ elf.loads, program.fileSize ≤ program.memSize
  congruent : ∀ program ∈ elf.loads, program.offset % pageSize = program.virtualAddr % pageSize
  inFile : ∀ program ∈ elf.loads, program.InFile elf.input
  pages : ∀ program ∈ elf.loads, program.first < program.last ∧ program.last ≤ 2 ^ 26 - 2
  apart : elf.loads.Pairwise fun a b => ∀ v, a.Has v → ¬ b.Has v

/-- The process that the file describes. -/
structure Elf.Built (elf : Elf) (h : Heap) (q : UserProcess) : Prop where
  bytes : ∀ program ∈ elf.loads, ∀ a, program.Has (a / pageSize) → userByte h q.image.space a = some
    (if program.virtualAddr ≤ a ∧ a < program.virtualAddr + program.fileSize then
      elf.input.getD (program.offset + (a - program.virtualAddr)) 0 else 0)
  flags : ∀ program ∈ elf.loads, ∀ v, program.Has v → (visit h q.image.space v).map Pte.flags =
    some (insert .owned (userFlags program.execute program.write program.read))
  stack : ∀ v, StackPage v → (visit h q.image.space v).map Pte.flags = some heapFlags
  stackBytes : ∀ a, StackPage (a / pageSize) → userByte h q.image.space a = some 0
  others : ∀ v, v < portalStart → (∀ program ∈ elf.loads, ¬ program.Has v) → ¬ StackPage v → visit h q.image.space v = none
  aligned : q.image.heapBottom % pageSize = 0
  above : ∀ program ∈ elf.loads, program.virtualAddr + program.memSize ≤ q.image.heapBottom
  least : ∀ b, b % pageSize = 0 → (∀ program ∈ elf.loads, program.virtualAddr + program.memSize ≤ b) → q.image.heapBottom ≤ b
  brk : q.image.programBrk = q.image.heapBottom
  entry : q.context.sepc = elf.entryPoint
  sp : q.context.x 2 = 2 ^ 38

section

variable {elf : Elf} {h : Heap} {p : Process} {segs : List Segment} {s : AddressSpace} {m b a v : Nat} {flags : VmFlags}
  {byte : Nat → UInt8}

theorem maxEnd_le : maxEnd segs m ≤ b ↔ m ≤ b ∧ ∀ seg ∈ segs, seg.virtualAddr + seg.memSize ≤ b := by
  induction segs generalizing m with
  | nil => simp [maxEnd]
  | cons seg segs ih =>
    show maxEnd segs (max m (seg.virtualAddr + seg.memSize)) ≤ b ↔ _
    rw [ih, List.forall_mem_cons, Nat.max_le, and_assoc]

/-- The pages that bytes take reach to the first boundary that is not below their end. -/
theorem pagesOf_le : pagesOf a * pageSize ≤ b * pageSize ↔ a ≤ b * pageSize := by
  unfold pagesOf pageSize
  omega

theorem PageIs.userByte (hp : PageIs h s (a / pageSize) flags byte) : userByte h s a = some (byte (a % pageSize)) := by
  obtain ⟨ppn, hvisit, -, hbytes⟩ := hp
  unfold Vm.userByte
  rw [hvisit, Option.map_some, hbytes _ (Nat.mod_lt _ (by decide))]

theorem PageIs.flags_eq (hp : PageIs h s v flags byte) : (visit h s v).map Pte.flags = some flags := by
  obtain ⟨ppn, hvisit, -, -⟩ := hp
  rw [hvisit]
  rfl

/-- A segment reads its part of the file. -/
theorem ProgramHeader.byte_eq {R : Rounding} {program : ProgramHeader} {input : List UInt8} (hR : R.Exact)
    (hin : program.InFile input) (hva : program.virtualAddr < 2 ^ 39) (ha : program.virtualAddr / pageSize ≤ a / pageSize) :
    (program.segment input).byte R (a / pageSize) (a % pageSize) =
      if program.virtualAddr ≤ a ∧ a < program.virtualAddr + program.fileSize then
        input.getD (program.offset + (a - program.virtualAddr)) 0 else 0 := by
  have hlen : ((input.drop program.offset).take program.fileSize).length = program.fileSize := by
    unfold ProgramHeader.InFile at hin
    rw [List.length_take, List.length_drop]
    omega
  have hfirst : (program.segment input).first R = program.virtualAddr / pageSize := hR.floor _ hva
  have hle : (program.segment input).first R ≤ a / pageSize := by
    rw [hfirst]
    exact ha
  rw [Segment.byte_eq hR hva hle, Nat.div_add_mod' a pageSize]
  unfold ProgramHeader.segment
  dsimp only
  rw [hlen]
  split
  · rename_i hr
    rw [List.getD_eq_getElem?_getD, List.getD_eq_getElem?_getD, List.getElem?_take, if_pos (by omega), List.getElem?_drop]
  · rfl

/-- The segments end below the stack. -/
theorem Elf.WellFormed.ends (hw : elf.WellFormed) {program : ProgramHeader} (hp : program ∈ elf.loads) :
    program.virtualAddr + program.memSize ≤ (2 ^ 26 - 2) * pageSize := by
  have hlast := (hw.pages program hp).2
  have hend : program.virtualAddr + program.memSize ≤ program.last * pageSize := pagesOf_le.mp (Nat.le_refl _)
  exact hend.trans (Nat.mul_le_mul_right _ hlast)

/-- Their pages are those that the rounding gives. -/
theorem Elf.WellFormed.has_iff {R : Rounding} (hR : R.Exact) (hw : elf.WellFormed) {program : ProgramHeader}
    (hp : program ∈ elf.loads) : (program.segment elf.input).Has R v ↔ program.Has v := by
  have hend := hw.ends hp
  unfold pageSize at hend
  have hfirst : (program.segment elf.input).first R = program.first :=
    hR.floor _ (by show program.virtualAddr < 2 ^ 39; omega)
  have hlast : (program.segment elf.input).last R = program.last :=
    hR.ceil_eq (by show program.virtualAddr + program.memSize < 2 ^ 39; omega)
  unfold Segment.Has ProgramHeader.Has
  rw [hfirst, hlast]

theorem Elf.WellFormed.loadable {R : Rounding} (hR : R.Exact) (hw : elf.WellFormed) : Loadable R elf.segments := by
  refine ⟨?_, ?_, ?_⟩
  · intro seg hseg
    obtain ⟨program, hp, rfl⟩ := List.mem_map.mp hseg
    obtain ⟨hlt, hlast⟩ := hw.pages program hp
    have hsize := hw.sizes program hp
    have hlen : ((elf.input.drop program.offset).take program.fileSize).length ≤ program.fileSize := List.length_take_le _ _
    have hend : program.virtualAddr + program.memSize ≤ program.last * pageSize := pagesOf_le.mp (Nat.le_refl _)
    have hbelow := hw.ends hp
    have hva : program.virtualAddr = program.first * pageSize + program.virtualAddr % pageSize := by
      unfold ProgramHeader.first pageSize
      omega
    unfold pageSize at hbelow
    have hfirst : (program.segment elf.input).first R = program.first :=
      hR.floor _ (by show program.virtualAddr < 2 ^ 39; omega)
    have hlast' : (program.segment elf.input).last R = program.last :=
      hR.ceil_eq (by show program.virtualAddr + program.memSize < 2 ^ 39; omega)
    refine ⟨?_, hw.congruent program hp, ?_, ?_⟩
    · show program.virtualAddr + program.memSize < 2 ^ 64
      omega
    · rw [hfirst, hlast']
      exact hlt
    · rw [hfirst, hlast']
      show _ + program.virtualAddr % pageSize ≤ (program.last - program.first) * pageSize
      refine Nat.le_trans (Nat.add_le_add_right hlen _) ?_
      unfold pageSize at *
      omega
  · refine List.pairwise_map.mpr (List.Pairwise.imp_of_mem ?_ hw.apart)
    intro a b ha hb hab v hva hvb
    exact hab v ((hw.has_iff hR ha).mp hva) ((hw.has_iff hR hb).mp hvb)
  · intro seg hseg v hv hst
    obtain ⟨program, hp, rfl⟩ := List.mem_map.mp hseg
    have hlast := (hw.pages program hp).2
    have hhi : v < program.last := ((hw.has_iff hR hp).mp hv).2
    unfold StackPage at hst
    omega

/-- The heap begins at the page boundary after them. -/
theorem Elf.WellFormed.bottom {R : Rounding} (hR : R.Exact) (hw : elf.WellFormed) :
    R.base (R.ceil (maxEnd elf.segments 0)) = pagesOf (maxEnd elf.segments 0) * pageSize := by
  have hend : maxEnd elf.segments 0 ≤ (2 ^ 26 - 2) * pageSize := by
    refine maxEnd_le.mpr ⟨Nat.zero_le _, fun seg hseg => ?_⟩
    obtain ⟨program, hp, rfl⟩ := List.mem_map.mp hseg
    exact hw.ends hp
  have hpages := pagesOf_le.mpr hend
  unfold pageSize at hend hpages
  rw [hR.ceil_eq (by omega), hR.base _ (by omega)]

/-- An image of the segments is what the file describes. -/
theorem Elf.WellFormed.built {R : Rounding} (hR : R.Exact) (hw : elf.WellFormed) (hi : Image R h p elf.segments)
    (pid : ProcId) : elf.Built h (.ofImage elf pid p) := by
  have hpage : ∀ program ∈ elf.loads, ∀ v, program.Has v →
      PageIs h p.space v (insert .owned (userFlags program.execute program.write program.read))
        ((program.segment elf.input).byte R v) := by
    intro program hp v hv
    have hlast := (hw.pages program hp).2
    refine hi.segments _ (List.mem_map_of_mem hp) v ((hw.has_iff hR hp).mpr hv) ?_
    unfold ProgramHeader.Has at hv
    unfold portalStart
    omega
  have hbottom : p.heapBottom = pagesOf (maxEnd elf.segments 0) * pageSize := hi.bottom.trans (hw.bottom hR)
  have hends : ∀ b, (∀ seg ∈ elf.segments, seg.virtualAddr + seg.memSize ≤ b) ↔
      ∀ program ∈ elf.loads, program.virtualAddr + program.memSize ≤ b := fun b => List.forall_mem_map
  refine ⟨?_, ?_, ?_, ?_, ?_, ?_, ?_, ?_, hi.brk, rfl, rfl⟩
  · intro program hp a ha
    have hend := hw.ends hp
    unfold pageSize at hend
    rw [← ProgramHeader.byte_eq hR (hw.inFile program hp) (by omega) ha.1]
    exact (hpage program hp _ ha).userByte
  · intro program hp v hv
    exact (hpage program hp v hv).flags_eq
  · intro v hv
    exact (hi.stack v hv).flags_eq
  · intro a ha
    exact (hi.stack _ ha).userByte
  · intro v hv hno hst
    refine hi.others v hv (fun seg hseg => ?_) hst
    obtain ⟨program, hp, rfl⟩ := List.mem_map.mp hseg
    exact fun hv => hno program hp ((hw.has_iff hR hp).mp hv)
  · show p.heapBottom % pageSize = 0
    rw [hbottom]
    exact Nat.mul_mod_left _ _
  · show ∀ program ∈ elf.loads, program.virtualAddr + program.memSize ≤ p.heapBottom
    rw [← hends, hbottom]
    exact (maxEnd_le.mp (pagesOf_le.mp (Nat.le_refl _))).2
  · intro b hb hle
    show p.heapBottom ≤ b
    rw [hbottom, ← Nat.div_add_mod' b pageSize, hb, Nat.add_zero, pagesOf_le, maxEnd_le, hends, Nat.div_mul_cancel (Nat.dvd_of_mod_eq_zero hb)]
    exact ⟨Nat.zero_le _, hle⟩

end

/-- In every state that the kernel reaches, when the frames that it asks for are there: from a
    well-formed executable `from_elf` makes the process that the file describes. -/
theorem from_elf_image {R : Rounding} {A : FrameAllocator} {h : Heap} {layout : KernelLayout} {portal : Nat}
    {s t : Machine} {es : List Event} (hR : R.Exact) (hboot : Machine.boot A h layout portal = .ok s)
    (hrun : Runs R A s es t) {elf : Elf} (hw : elf.WellFormed) {pid : ProcId}
    (hserved : Served (UserProcess.fromElf R A t.heap t.kernel pid elf)) :
    ∃ q h', UserProcess.fromElf R A t.heap t.kernel pid elf = .ok (some (q, h')) ∧ elf.Built h' q := by
  obtain ⟨-, -, shared, label, hi⟩ := sInv_run (P := False) hR.toLawful hboot hrun False.elim
  rw [served_iff hw.inFile] at hserved
  obtain ⟨p, h', hok⟩ := hi.tree.fromElf_total hR.toLawful hserved hw.executable (hw.loadable hR)
  obtain ⟨-, himage⟩ := hi.tree.fromElf_done hok
  exact ⟨.ofImage elf pid p, h', fromElf_ok.mpr ⟨hw.inFile, p, hok, rfl⟩, hw.built hR himage pid⟩

/-- Code at the start of a page, data with a tail of zeroes that begins within one, and a header
    of another type. -/
def smallElf : Elf where
  input := [1, 2, 3, 4, 5, 6, 7, 8, 9, 10, 11, 12, 13, 14, 15, 16]
  executable := true
  entryPoint := 0x20000
  programs := [
    { load := true, offset := 8, fileSize := 4, virtualAddr := 0x10008, memSize := 0x2000, execute := false, write := true, read := true },
    { load := false, offset := 0, fileSize := 100, virtualAddr := 0, memSize := 0, execute := false, write := false, read := true },
    { load := true, offset := 0, fileSize := 8, virtualAddr := 0x20000, memSize := 8, execute := true, write := false, read := true }]

theorem smallElf_wellFormed : smallElf.WellFormed := by
  refine ⟨rfl, ?_, ?_, ?_, ?_, ?_⟩
  · simp [Elf.loads, smallElf]
  · simp [Elf.loads, smallElf, pageSize]
  · simp [Elf.loads, smallElf, ProgramHeader.InFile]
  · simp [Elf.loads, smallElf, ProgramHeader.first, ProgramHeader.last, pagesOf, pageSize]
  · simp [Elf.loads, smallElf, ProgramHeader.Has, ProgramHeader.first, ProgramHeader.last, pagesOf, pageSize]
    omega

theorem from_elf_image_small : ∃ (t : Machine) (q : UserProcess) (h' : Heap),
    UserProcess.fromElf shift bump t.heap t.kernel 1 smallElf = .ok (some (q, h')) ∧ smallElf.Built h' q := by
  obtain ⟨s, t, p, hboot, hrun, -, -⟩ := bare_spawned
  obtain ⟨q, h', hok, hb⟩ := from_elf_image shift_exact hboot hrun smallElf_wellFormed
    ((served_iff smallElf_wellFormed.inFile).mpr (Process.fromElf_served bump_total t.kernel smallElf.file))
  exact ⟨t, q, h', hok, hb⟩

/-- The frames of `bump`, as long as no more than `frames` are handed out. -/
def bank (frames : Nat) : FrameAllocator where
  alloc h n := if (h.used.map Prod.snd).sum + n ≤ frames then bump.alloc h n else none
  fresh := by
    intro h n p f hp
    split at hp
    · exact bump.fresh hp
    · cases hp

/-- A segment of 64 MiB of zeroes. -/
def largeElf : Elf where
  input := []
  executable := true
  entryPoint := 0x10000
  programs := [
    { load := true, offset := 0, fileSize := 0, virtualAddr := 0x10000, memSize := 0x4000000, execute := true, write := true, read := true }]

theorem largeElf_wellFormed : largeElf.WellFormed := by
  refine ⟨rfl, ?_, ?_, ?_, ?_, ?_⟩
  · simp [Elf.loads, largeElf]
  · simp [Elf.loads, largeElf, pageSize]
  · simp [Elf.loads, largeElf, ProgramHeader.InFile]
  · simp [Elf.loads, largeElf, ProgramHeader.first, ProgramHeader.last, pagesOf, pageSize]
  · simp [Elf.loads, largeElf]

/-- `from_elf` in a kernel with 48 MiB of frames that has just booted. -/
def loadLarge : Except Halt (Machine × Except Halt (Option (UserProcess × Heap))) := do
  let s ← Machine.boot (bank 12288) bareHeap bareLayout 0x80020
  .ok (s, UserProcess.fromElf shift (bank 12288) s.heap s.kernel 0 largeElf)

def outOfMemory : Except Halt (Option (UserProcess × Heap)) → Bool
  | .error .memory => true
  | _ => false

theorem large_elf_stops : ∃ s : Machine, Machine.boot (bank 12288) bareHeap bareLayout 0x80020 = .ok s ∧
    largeElf.WellFormed ∧ UserProcess.fromElf shift (bank 12288) s.heap s.kernel 0 largeElf = .error .memory := by
  have hrun : loadLarge.map (fun x => outOfMemory x.2) = .ok true := by decide +kernel
  obtain ⟨⟨s, image⟩, hrun, hout⟩ := map_eq_ok hrun
  obtain ⟨s, hboot, hrun⟩ := bind_eq_ok.mp hrun
  cases hrun
  refine ⟨s, hboot, largeElf_wellFormed, ?_⟩
  unfold outOfMemory at hout
  split at hout
  · assumption
  · cases hout

end TgRcore.Vm
