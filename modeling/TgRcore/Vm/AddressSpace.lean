/-
  TgRcore.Vm.AddressSpace — Sv39 address spaces (`tg-rcore-tutorial-kernel-vm`) on the frames
  of a kernel (`Sv39Manager` of chapters 6 to 8).

  A frame of page-table entries and a frame of bytes are kept apart: frames are handed out
  zeroed, once, and never come back. A table is walked by the three index fields of the page
  number, one page at a time; a walk goes no further than the last page number, and no entry
  above the last level is a leaf.
  - `mapExtern`, `map`, `mapAnonymous`, `unmap`, `translate`, `cloneself` as in `space/mod.rs`.
  - `descend`: what the walk of a mapping does at a table that is not the last
    (`Mapper::meet`, `Mapper::block`).
-/

import Mathlib.Data.Finset.Basic
import TgRcore.Lib.BTreeMap

namespace TgRcore.Vm

open TgRcore.BlockProg

/-! ## Entries -/

/-- The bits of an entry below its page number; `owned` is `Sv39Manager::OWNED`. -/
inductive Flag where
  | v
  | r
  | w
  | x
  | u
  | g
  | a
  | d
  | owned
  deriving DecidableEq, Repr

/-- `build_flags("U_WRV")` is `{u, w, r, v}`. -/
abbrev VmFlags := Finset Flag

structure Pte where
  ppn : Nat
  flags : VmFlags

namespace Pte

def zero : Pte := ⟨0, ∅⟩

def isValid (pte : Pte) : Bool := decide (Flag.v ∈ pte.flags)

end Pte

abbrev pageSize : Nat := 4096

/-- `Sv39::MAX_LEVEL` -/
abbrev maxLevel : Nat := 2

/-- `VPN::MAX` -/
abbrev vpnMax : Nat := 2 ^ 27 - 1

/-- The index of a page number in a table of the level. -/
def indexIn (vpn level : Nat) : Nat := vpn / 512 ^ level % 512

/-- Addresses to page numbers (`VAddr::floor`, `VAddr::ceil`) and back (`VPN::base`, as an
    address). -/
structure Rounding where
  floor : Nat → Nat
  ceil : Nat → Nat
  base : Nat → Nat

/-! ## Frames -/

/-- The frames handed out (first frame and count, latest first), and what is in them. -/
structure Heap where
  used : List (Nat × Nat)
  tables : Nat → Nat → Pte
  mem : Nat → UInt8

/-- A frame was handed out. -/
def Heap.Handed (h : Heap) (f : Nat) : Prop := ∃ p n, (p, n) ∈ h.used ∧ p ≤ f ∧ f < p + n

/-- The global allocator: a run of frames none of which was handed out, or nothing. -/
structure FrameAllocator where
  alloc : Heap → Nat → Option Nat
  fresh : ∀ {h n p f}, alloc h n = some p → p ≤ f → f < p + n → ¬ h.Handed f

namespace Heap

/-- `page_alloc`: zeroed frames. An allocation that fails stops the kernel. -/
def pageAlloc (A : FrameAllocator) (h : Heap) (count : Nat) : Except Halt (Nat × Heap) :=
  match A.alloc h count with
  | none => .error .memory
  | some p => .ok (p, {
      used := (p, count) :: h.used
      tables := fun f i => if p ≤ f ∧ f < p + count then .zero else h.tables f i
      mem := fun a => if p * pageSize ≤ a ∧ a < (p + count) * pageSize then 0 else h.mem a })

def setPte (h : Heap) (table index : Nat) (pte : Pte) : Heap :=
  { h with tables := fun f i => if f = table ∧ i = index then pte else h.tables f i }

/-- Bytes are written from an address on. -/
def write (h : Heap) (addr : Nat) (data : List UInt8) : Heap :=
  { h with mem := fun a => if addr ≤ a ∧ a < addr + data.length then data.getD (a - addr) 0 else h.mem a }

/-- `copy_from_slice` of `size` bytes. -/
def copy (h : Heap) (src dst size : Nat) : Heap :=
  { h with mem := fun a => if dst ≤ a ∧ a < dst + size then h.mem (src + (a - dst)) else h.mem a }

end Heap

/-! ## The mapper -/

/-- Down one level. A table that is there must be owned; a missing one is made. -/
def descend (A : FrameAllocator) (h : Heap) (table index : Nat) : Except Halt (Nat × Heap) :=
  let pte := h.tables table index
  if pte.isValid then
    if Flag.owned ∈ pte.flags then .ok (pte.ppn, h) else .error .panic
  else do
    let (page, h) ← h.pageAlloc A 1
    .ok (page, h.setPte table index ⟨page, {.v, .owned}⟩)

/-- The page gets its entry; it must not have a valid one (`Mapper::arrive`). -/
def mapPage (A : FrameAllocator) (h : Heap) (root vpn : Nat) (pte : Pte) : Except Halt Heap := do
  let (mid, h) ← descend A h root (indexIn vpn 2)
  let (leaf, h) ← descend A h mid (indexIn vpn 1)
  if (h.tables leaf (indexIn vpn 0)).isValid then .error .panic
  else .ok (h.setPte leaf (indexIn vpn 0) pte)

/-- Consecutive pages to consecutive frames. A walk that ends before the mapper is done stops
    the kernel. -/
def walkMut (A : FrameAllocator) (root : Nat) (flags : VmFlags) : Heap → Nat → Nat → Nat → Except Halt Heap
  | h, _, _, 0 => .ok h
  | h, vpn, ppn, n + 1 =>
    if vpnMax < vpn then .error .panic
    else do
      let h ← mapPage A h root vpn ⟨ppn, flags⟩
      walkMut A root flags h (vpn + 1) (ppn + 1) n

/-! ## Address spaces -/

/-- The mapped ranges of page numbers, and the frame of the root table. -/
structure AddressSpace where
  areas : List (Nat × Nat)
  root : Nat

namespace AddressSpace

def new (A : FrameAllocator) (h : Heap) : Except Halt (AddressSpace × Heap) := do
  let (root, h) ← h.pageAlloc A 1
  .ok (⟨[], root⟩, h)

def haveMapped (s : AddressSpace) (first last : Nat) : Bool :=
  !s.areas.all fun area => decide (last ≤ area.1) || decide (first ≥ area.2)

/-- The mapper of an empty range never meets its end; one whose end is below its start has no
    count. -/
def mapExtern (A : FrameAllocator) (h : Heap) (s : AddressSpace) (first last pbase : Nat) (flags : VmFlags) :
    Except Halt (AddressSpace × Heap) :=
  if last ≤ first then .error .panic
  else do
    let h ← walkMut A s.root flags h first pbase (last - first)
    .ok ({ s with areas := s.areas ++ [(first, last)] }, h)

/-- `Sv39Manager::allocate` -/
def allocate (A : FrameAllocator) (h : Heap) (len : Nat) (flags : VmFlags) : Except Halt (Nat × VmFlags × Heap) := do
  let (page, h) ← h.pageAlloc A len
  .ok (page, insert Flag.owned flags, h)

def map (A : FrameAllocator) (h : Heap) (s : AddressSpace) (first last : Nat) (data : List UInt8) (offset : Nat)
    (flags : VmFlags) : Except Halt (AddressSpace × Heap) :=
  if last < first then .error .panic
  else
    let count := last - first
    let size := count * pageSize
    if size < data.length + offset then .error .panic
    else do
      let (page, flags, h) ← allocate A h count flags
      let base := page * pageSize
      let h := h.write base (List.replicate offset 0)
      let h := h.write (base + offset) data
      let h := h.write (base + offset + data.length) (List.replicate (size - (offset + data.length)) 0)
      mapExtern A h s first last page flags

def mapAnonymous (A : FrameAllocator) (h : Heap) (s : AddressSpace) (first last : Nat) (flags : VmFlags) :
    Except Halt (AddressSpace × Heap) :=
  if last < first then .error .panic
  else do
    let count := last - first
    let (page, flags, h) ← allocate A h count flags
    let h := h.write (page * pageSize) (List.replicate (count * pageSize) 0)
    mapExtern A h s first last page flags

/-- Where the entry of a page is, when there is a table for it; an entry with R or X above the
    last level ends the walk. -/
def findPteMut (h : Heap) (s : AddressSpace) (vpn : Nat) : Option (Nat × Nat) :=
  let isLeaf := fun pte : Pte => decide (Flag.r ∈ pte.flags) || decide (Flag.x ∈ pte.flags)
  let top := h.tables s.root (indexIn vpn 2)
  if !top.isValid then none
  else if isLeaf top then some (s.root, indexIn vpn 2)
  else
    let mid := h.tables top.ppn (indexIn vpn 1)
    if !mid.isValid then none
    else if isLeaf mid then some (top.ppn, indexIn vpn 1)
    else some (mid.ppn, indexIn vpn 0)

/-- The entry of each page is set to zero. -/
def clearPages (s : AddressSpace) : Heap → Nat → Nat → Heap
  | h, _, 0 => h
  | h, vpn, n + 1 =>
    match findPteMut h s vpn with
    | some (table, index) => clearPages s (h.setPte table index .zero) (vpn + 1) n
    | none => clearPages s h (vpn + 1) n

/-- What is left of an area. -/
def cutArea (first last : Nat) (area : Nat × Nat) : List (Nat × Nat) :=
  if area.2 ≤ first ∨ area.1 ≥ last then [area]
  else (if area.1 < first then [(area.1, first)] else []) ++ if area.2 > last then [(last, area.2)] else []

def unmap (h : Heap) (s : AddressSpace) (first last : Nat) : AddressSpace × Heap :=
  ({ s with areas := s.areas.flatMap (cutArea first last) }, clearPages s h first (last - first))

/-- The valid entry that the walk of a page arrives at. -/
def visit (h : Heap) (s : AddressSpace) (vpn : Nat) : Option Pte :=
  if vpnMax < vpn then none
  else
    let top := h.tables s.root (indexIn vpn 2)
    if top.isValid then
      let mid := h.tables top.ppn (indexIn vpn 1)
      if mid.isValid then
        let pte := h.tables mid.ppn (indexIn vpn 0)
        if pte.isValid then some pte else none
      else none
    else none

/-- The physical address behind a virtual one, when its page has the flags. -/
def translate (R : Rounding) (h : Heap) (s : AddressSpace) (addr : Nat) (flags : VmFlags) : Option Nat :=
  match visit h s (R.floor addr) with
  | some pte => if flags ⊆ pte.flags then some (pte.ppn * pageSize + addr % pageSize) else none
  | none => none

/-- The pages of one area, taken to have the flags of the first and to lie one after the other. -/
def cloneArea (A : FrameAllocator) (h : Heap) (s child : AddressSpace) (area : Nat × Nat) :
    Except Halt (AddressSpace × Heap) :=
  match visit h s area.1 with
  | none => .error .panic
  | some pte =>
    if area.2 < area.1 then .error .panic
    else do
      let count := area.2 - area.1
      let (page, flags, h) ← allocate A h count pte.flags
      let h := h.copy (pte.ppn * pageSize) (page * pageSize) (count * pageSize)
      mapExtern A h child area.1 area.2 page flags

def cloneself (A : FrameAllocator) (s : AddressSpace) : List (Nat × Nat) → Heap → AddressSpace →
    Except Halt (AddressSpace × Heap)
  | [], h, child => .ok (child, h)
  | area :: areas, h, child => do
    let (child, h) ← cloneArea A h s child area
    cloneself A s areas h child

end AddressSpace

/-! ## Frames enough -/

/-- No allocation of the computation failed. -/
def Served {α : Type} (x : Except Halt α) : Prop := x ≠ .error .memory

section

open AddressSpace

variable {α β : Type} {x : Except Halt α} {f : α → Except Halt β} {a : α} {A : FrameAllocator} {h : Heap}
  {s c : AddressSpace}

theorem served_ok : Served (.ok a : Except Halt α) := by
  intro e
  cases e

theorem served_panic : Served (.error .panic : Except Halt α) := by
  intro e
  cases e

theorem served_bind : Served (x >>= f) ↔ Served x ∧ ∀ a, x = .ok a → Served (f a) := by
  cases x with
  | ok a =>
    constructor
    · intro hs
      refine ⟨served_ok, fun b hb => ?_⟩
      cases hb
      exact hs
    · intro hs
      exact hs.2 a rfl
  | error e =>
    constructor
    · intro hs
      refine ⟨fun he => hs (congrArg Except.error (Except.error.inj he)), fun b hb => ?_⟩
      cases hb
    · intro hs he
      exact hs.1 (congrArg Except.error (Except.error.inj he))

theorem Served.first (hs : Served (x >>= f)) : Served x := (served_bind.mp hs).1

theorem Served.next (hs : Served (x >>= f)) (hx : x = .ok a) : Served (f a) := (served_bind.mp hs).2 a hx

theorem Served.bind (hx : Served x) (hf : ∀ a, Served (f a)) : Served (x >>= f) := served_bind.mpr ⟨hx, fun a _ => hf a⟩

/-- An allocation that did not fail gave frames. -/
theorem Served.pageAlloc {count : Nat} (hs : Served (h.pageAlloc A count)) : ∃ x, h.pageAlloc A count = .ok x := by
  unfold Served Heap.pageAlloc at *
  split at hs
  · exact absurd rfl hs
  · exact ⟨_, rfl⟩

/-! An allocator that never runs out serves every operation: -/

variable (hA : ∀ h n, (A.alloc h n).isSome = true)

include hA

theorem pageAlloc_served (h : Heap) (count : Nat) : Served (h.pageAlloc A count) := by
  obtain ⟨p, hp⟩ := Option.isSome_iff_exists.mp (hA h count)
  unfold Heap.pageAlloc
  rw [hp]
  exact served_ok

theorem descend_served (table index : Nat) : Served (descend A h table index) := by
  unfold descend
  dsimp only
  split
  · split
    · exact served_ok
    · exact served_panic
  · exact (pageAlloc_served hA h 1).bind fun _ => served_ok

theorem mapPage_served (root vpn : Nat) (pte : Pte) : Served (mapPage A h root vpn pte) := by
  refine (descend_served hA root _).bind fun _ => (descend_served hA _ _).bind fun _ => ?_
  dsimp only
  split
  · exact served_panic
  · exact served_ok

theorem walkMut_served (root : Nat) (flags : VmFlags) (vpn ppn n : Nat) : Served (walkMut A root flags h vpn ppn n) := by
  induction n generalizing h vpn ppn with
  | zero => exact served_ok
  | succ n ih =>
    unfold walkMut
    split
    · exact served_panic
    · exact (mapPage_served hA root vpn _).bind fun _ => ih _ _

theorem mapExtern_served (first last pbase : Nat) (flags : VmFlags) : Served (mapExtern A h s first last pbase flags) := by
  unfold mapExtern
  split
  · exact served_panic
  · exact (walkMut_served hA _ _ _ _ _).bind fun _ => served_ok

theorem allocate_served (len : Nat) (flags : VmFlags) : Served (allocate A h len flags) :=
  (pageAlloc_served hA h len).bind fun _ => served_ok

theorem map_served (first last : Nat) (data : List UInt8) (offset : Nat) (flags : VmFlags) :
    Served (AddressSpace.map A h s first last data offset flags) := by
  unfold AddressSpace.map
  split
  · exact served_panic
  · dsimp only
    split
    · exact served_panic
    · exact (allocate_served hA _ _).bind fun _ => mapExtern_served hA _ _ _ _

theorem mapAnonymous_served (first last : Nat) (flags : VmFlags) : Served (mapAnonymous A h s first last flags) := by
  unfold mapAnonymous
  split
  · exact served_panic
  · exact (allocate_served hA _ _).bind fun _ => mapExtern_served hA _ _ _ _

theorem cloneArea_served (area : Nat × Nat) : Served (cloneArea A h s c area) := by
  unfold cloneArea
  split
  · exact served_panic
  · split
    · exact served_panic
    · exact (allocate_served hA _ _).bind fun _ => mapExtern_served hA _ _ _ _

theorem cloneself_served (areas : List (Nat × Nat)) : Served (cloneself A s areas h c) := by
  induction areas generalizing h c with
  | nil => exact served_ok
  | cons area areas ih => exact (cloneArea_served hA area).bind fun _ => ih

end

/-! ## One allocator -/

/-- The end of the frames handed out. -/
def top (runs : List (Nat × Nat)) : Nat := runs.foldr (fun run m => max (run.1 + run.2) m) 0x80200

theorem le_top {runs : List (Nat × Nat)} {p n : Nat} (hm : (p, n) ∈ runs) : p + n ≤ top runs := by
  induction runs with
  | nil => cases hm
  | cons run runs ih =>
    rcases List.mem_cons.mp hm with rfl | hm
    · exact Nat.le_max_left _ _
    · exact (ih hm).trans (Nat.le_max_right _ _)

/-- The next frames are handed out, without end. -/
def bump : FrameAllocator where
  alloc h _ := some (top h.used)
  fresh := by
    intro h n p f hp hle _ ⟨q, m, hm, _, hf⟩
    have hp : top h.used = p := Option.some.inj hp
    have hend := le_top hm
    omega

/-- Addresses have 39 bits; the last one is extended. -/
def shift : Rounding where
  floor a := a % 2 ^ 39 / pageSize
  ceil a := (a % 2 ^ 39 + (pageSize - 1)) / pageSize
  base v := if v * pageSize % 2 ^ 39 < 2 ^ 38 then v * pageSize % 2 ^ 39 else v * pageSize % 2 ^ 39 + (2 ^ 64 - 2 ^ 39)

/-- The frames before the boot. -/
def bareHeap : Heap := ⟨[], fun _ _ => .zero, fun _ => 0⟩

end TgRcore.Vm
