/-
  TgRcore.Vm.Effects — what `mmap`, `munmap` and `sbrk` do to the space of their process.

  - `MemCall.effect`: nothing, a range mapped or a range unmapped, read off the arguments, the
    break and the recorded areas.
  - `MemCall.did`: a call that returns has had its effect.
  - `Machine.Did`: what an event that the machine takes has done, one case for each kind.
-/

import TgRcore.Vm.Mapping
import TgRcore.Vm.Process

namespace TgRcore.Vm

open TgRcore.BlockProg TgRcore.Sync AddressSpace

/-- The calls that change the memory of the process that makes them. -/
inductive MemCall where
  | mmap (addr len : Nat) (prot : Int)
  | munmap (addr len : Nat)
  | sbrk (size : Int)

/-- What a call does to a space. -/
inductive Effect where
  | none
  | map (first last : Nat)
  | unmap (first last : Nat)
  deriving DecidableEq, Repr

namespace MemCall

def event (i : Nat) : MemCall → Event
  | .mmap addr len prot => .mmap i addr len prot
  | .munmap addr len => .munmap i addr len
  | .sbrk size => .sbrk i size

def run (R : Rounding) (A : FrameAllocator) (h : Heap) (p : Process) : MemCall → Except Halt (Int × Process × Heap)
  | .mmap addr len prot => Process.mmap R A h p addr len prot
  | .munmap addr len => Process.munmap R h p addr len
  | .sbrk size => Process.sbrk R A h p size

/-- A call that is refused does nothing. -/
def effect (R : Rounding) (p : Process) : MemCall → Effect
  | .mmap addr len prot =>
    if addr % pageSize ≠ 0 ∨ prot / 8 ≠ 0 ∨ prot = 0 ∨ haveMapped p.space (R.floor addr) (R.ceil (addr + len)) then .none
    else .map (R.floor addr) (R.ceil (addr + len))
  | .munmap addr len =>
    let first := R.floor addr
    let last := R.ceil (addr + len)
    if addr % pageSize = 0 ∧ (List.range' first (last - first)).all fun x => haveMapped p.space x (x + 1) then
      .unmap first last
    else .none
  | .sbrk size =>
    let newBrk := asIsize p.programBrk + size
    let oldCeil := R.ceil p.programBrk
    let newCeil := R.ceil (newBrk % 2 ^ 64).toNat
    if newBrk < asIsize p.heapBottom then .none
    else if size > 0 ∧ newCeil > oldCeil then .map oldCeil newCeil
    else if size < 0 ∧ oldCeil > newCeil then .unmap newCeil oldCeil
    else .none

end MemCall

/-- A space had the effect. Pages are mapped for the process, to fresh frames. -/
def Effect.Did (A : FrameAllocator) (h : Heap) (s s' : AddressSpace) (h' : Heap) : Effect → Prop
  | .none => s' = s ∧ h' = h
  | .map first last => ∃ ppn flags, Flag.u ∈ flags ∧ Flag.v ∈ flags ∧ MapsFresh A h s first last ppn flags s' h'
  | .unmap first last => s' = (AddressSpace.unmap h s first last).1 ∧ h' = (AddressSpace.unmap h s first last).2

section

variable {R : Rounding} {A : FrameAllocator} {h h' : Heap} {p p' : Process} {ret : Int}

theorem userFlags_u (execute write read : Bool) : Flag.u ∈ userFlags execute write read ∧
    Flag.v ∈ userFlags execute write read := by
  simp [userFlags]

theorem mmap_did {addr len : Nat} {prot : Int} (hok : Process.mmap R A h p addr len prot = .ok (ret, p', h')) :
    (MemCall.effect R p (.mmap addr len prot)).Did A h p.space p'.space h' ∧ p'.heapBottom = p.heapBottom ∧
      p'.programBrk = p.programBrk := by
  unfold Process.mmap at hok
  dsimp only at hok
  split at hok
  · rename_i haddr
    cases hok
    rw [MemCall.effect, if_pos (.inl haddr)]
    exact ⟨⟨rfl, rfl⟩, rfl, rfl⟩
  · rename_i haddr
    split at hok
    · rename_i hprot
      cases hok
      rw [MemCall.effect, if_pos (.inr (hprot.imp id .inl))]
      exact ⟨⟨rfl, rfl⟩, rfl, rfl⟩
    · rename_i hprot
      split at hok
      · cases hok
      · split at hok
        · rename_i hmapped
          cases hok
          rw [MemCall.effect, if_pos (.inr (.inr (.inr hmapped)))]
          exact ⟨⟨rfl, rfl⟩, rfl, rfl⟩
        · rename_i hmapped
          obtain ⟨⟨s1, h1⟩, hmap, hok⟩ := bind_eq_ok.mp hok
          cases hok
          have hno : ¬ (addr % pageSize ≠ 0 ∨ prot / 8 ≠ 0 ∨ prot = 0 ∨
              haveMapped p.space (R.floor addr) (R.ceil (addr + len)) = true) := by
            rw [not_or] at hprot
            rw [not_or, not_or, not_or]
            exact ⟨haddr, hprot.1, hprot.2, hmapped⟩
          rw [MemCall.effect, if_neg hno]
          obtain ⟨q, hfresh⟩ := mapAnonymous_fresh hmap
          obtain ⟨hu, hv⟩ := userFlags_u (decide (prot / 4 % 2 = 1)) (decide (prot / 2 % 2 = 1)) (decide (prot % 2 = 1))
          exact ⟨⟨q, _, hu, hv, hfresh⟩, rfl, rfl⟩

theorem munmap_did {addr len : Nat} (hok : Process.munmap R h p addr len = .ok (ret, p', h')) :
    (MemCall.effect R p (.munmap addr len)).Did A h p.space p'.space h' ∧ p'.heapBottom = p.heapBottom ∧
      p'.programBrk = p.programBrk := by
  unfold Process.munmap at hok
  dsimp only at hok
  split at hok
  · rename_i haddr
    cases hok
    rw [MemCall.effect, if_neg fun e => haddr e.1]
    exact ⟨⟨rfl, rfl⟩, rfl, rfl⟩
  · rename_i haddr
    split at hok
    · cases hok
    · split at hok
      · rename_i hall
        cases hok
        rw [MemCall.effect, if_pos ⟨not_not.mp haddr, hall⟩]
        exact ⟨⟨rfl, rfl⟩, rfl, rfl⟩
      · rename_i hall
        cases hok
        rw [MemCall.effect, if_neg fun e => hall e.2]
        exact ⟨⟨rfl, rfl⟩, rfl, rfl⟩

/-- The new break of a process whose heap may grow or shrink. -/
theorem brk_did {old : Option Nat} {size : Int} (hok : Process.changeProgramBrk R A h p size = .ok (old, p', h')) :
    (MemCall.effect R p (.sbrk size)).Did A h p.space p'.space h' ∧ p'.heapBottom = p.heapBottom ∧
      (p'.programBrk = p.programBrk ∨ asIsize p.heapBottom ≤ asIsize p.programBrk + size ∧
        asIsize p.programBrk + size < 2 ^ 63 ∧
        p'.programBrk = ((asIsize p.programBrk + size) % 2 ^ 64).toNat) := by
  unfold Process.changeProgramBrk at hok
  dsimp only at hok
  split at hok
  · cases hok
  · rename_i hrange
    split at hok
    · rename_i hlow
      cases hok
      rw [MemCall.effect, if_pos hlow]
      exact ⟨⟨rfl, rfl⟩, rfl, .inl rfl⟩
    · rename_i hlow
      have hnew : asIsize p.heapBottom ≤ asIsize p.programBrk + size ∧ asIsize p.programBrk + size < 2 ^ 63 := by omega
      split at hok
      · rename_i hgrow
        obtain ⟨⟨s1, h1⟩, hmap, hok⟩ := bind_eq_ok.mp hok
        cases hok
        rw [MemCall.effect, if_neg hlow, if_pos hgrow]
        obtain ⟨q, hfresh⟩ := map_fresh hmap
        exact ⟨⟨q, _, by decide, by decide, hfresh⟩, rfl, .inr ⟨hnew.1, hnew.2, rfl⟩⟩
      · rename_i hgrow
        split at hok
        · rename_i hshrink
          cases hok
          rw [MemCall.effect, if_neg hlow, if_neg hgrow, if_pos hshrink]
          exact ⟨⟨rfl, rfl⟩, rfl, .inr ⟨hnew.1, hnew.2, rfl⟩⟩
        · rename_i hshrink
          cases hok
          rw [MemCall.effect, if_neg hlow, if_neg hgrow, if_neg hshrink]
          exact ⟨⟨rfl, rfl⟩, rfl, .inr ⟨hnew.1, hnew.2, rfl⟩⟩

theorem sbrk_ok {size : Int} (hok : Process.sbrk R A h p size = .ok (ret, p', h')) :
    ∃ old, Process.changeProgramBrk R A h p size = .ok (old, p', h') := by
  obtain ⟨⟨old, p1, h1⟩, hbrk, hok⟩ := bind_eq_ok.mp hok
  dsimp only at hok
  split at hok
  · cases hok
    exact ⟨_, hbrk⟩
  · cases hok
    exact ⟨_, hbrk⟩

/-- A call that returns has had its effect, and nothing else. -/
theorem MemCall.did {c : MemCall} (hok : c.run R A h p = .ok (ret, p', h')) :
    (c.effect R p).Did A h p.space p'.space h' ∧ p'.heapBottom = p.heapBottom := by
  cases c with
  | mmap addr len prot =>
    obtain ⟨hdid, hbottom, -⟩ := mmap_did hok
    exact ⟨hdid, hbottom⟩
  | munmap addr len =>
    obtain ⟨hdid, hbottom, -⟩ := munmap_did (A := A) hok
    exact ⟨hdid, hbottom⟩
  | sbrk size =>
    obtain ⟨old, hbrk⟩ := sbrk_ok hok
    obtain ⟨hdid, hbottom, -⟩ := brk_did hbrk
    exact ⟨hdid, hbottom⟩

theorem MemCall.step_ok {s s' : Machine} {i : Nat} {c : MemCall} (hs : s.step R A (c.event i) = .ok s') :
    ∃ p ret p' h', s.caller i = .ok p ∧ c.run R A s.heap p = .ok (ret, p', h') ∧ s' = s.update i p' h' := by
  cases c with
  | mmap addr len prot =>
    obtain ⟨p, hp, hs⟩ := bind_eq_ok.mp hs
    obtain ⟨⟨ret, p', h'⟩, hcall, hs⟩ := bind_eq_ok.mp hs
    cases hs
    exact ⟨p, ret, p', h', hp, hcall, rfl⟩
  | munmap addr len =>
    obtain ⟨p, hp, hs⟩ := bind_eq_ok.mp hs
    obtain ⟨⟨ret, p', h'⟩, hcall, hs⟩ := bind_eq_ok.mp hs
    cases hs
    exact ⟨p, ret, p', h', hp, hcall, rfl⟩
  | sbrk size =>
    obtain ⟨p, hp, hs⟩ := bind_eq_ok.mp hs
    obtain ⟨⟨ret, p', h'⟩, hcall, hs⟩ := bind_eq_ok.mp hs
    cases hs
    exact ⟨p, ret, p', h', hp, hcall, rfl⟩

/-- What an event has done to the machine. -/
inductive Machine.Did (R : Rounding) (A : FrameAllocator) (s : Machine) : Event → Machine → Prop
  | refused {elf : ElfFile} : Process.fromElf R A s.heap s.kernel elf = .ok none → Did R A s (.spawn elf) s
  | spawn {elf : ElfFile} {p : Process} {h : Heap} : Process.fromElf R A s.heap s.kernel elf = .ok (some (p, h)) →
      Did R A s (.spawn elf) { s with heap := h, procs := s.procs ++ [p] }
  | exec {i : Nat} {elf : ElfFile} {old p : Process} {h : Heap} : s.caller i = .ok old →
      Process.fromElf R A s.heap s.kernel elf = .ok (some (p, h)) → Did R A s (.exec i elf) (s.update i p h)
  | fork {i : Nat} {p child : Process} {h : Heap} : s.caller i = .ok p → Process.fork A s.heap s.kernel p = .ok (child, h) →
      Did R A s (.fork i) { s with heap := h, procs := s.procs ++ [child] }
  | call {i : Nat} {c : MemCall} {p p' : Process} {ret : Int} {h : Heap} : s.caller i = .ok p →
      c.run R A s.heap p = .ok (ret, p', h) → Did R A s (c.event i) (s.update i p' h)
  | threadCreate {i : Nat} {p p' : Process} {h : Heap} : s.caller i = .ok p → Process.threadStack A s.heap p = .ok (p', h) →
      Did R A s (.threadCreate i) (s.update i p' h)
  | exit {i : Nat} : Did R A s (.exit i) { s with procs := s.procs.eraseIdx i }

theorem Machine.step_did {s t : Machine} {e : Event} (hs : s.step R A e = .ok t) : Machine.Did R A s e t := by
  have hmem : ∀ {i c}, s.step R A (MemCall.event i c) = .ok t → Machine.Did R A s (MemCall.event i c) t := by
    intro i c hs
    obtain ⟨p, ret, p', h', hp, hcall, rfl⟩ := MemCall.step_ok hs
    exact .call hp hcall
  cases e with
  | spawn elf =>
    obtain ⟨image, helf, hs⟩ := bind_eq_ok.mp hs
    cases image with
    | none =>
      cases hs
      exact .refused helf
    | some x =>
      cases hs
      exact .spawn helf
  | exec i elf =>
    obtain ⟨old, hold, hs⟩ := bind_eq_ok.mp hs
    obtain ⟨⟨p, h'⟩, hexec, hs⟩ := bind_eq_ok.mp hs
    obtain ⟨image, helf, hexec⟩ := bind_eq_ok.mp hexec
    cases image with
    | none => cases hexec
    | some x =>
      cases hexec
      cases hs
      exact .exec hold helf
  | fork i =>
    obtain ⟨p, hp, hs⟩ := bind_eq_ok.mp hs
    obtain ⟨⟨child, h'⟩, hfork, hs⟩ := bind_eq_ok.mp hs
    cases hs
    exact .fork hp hfork
  | mmap i addr len prot => exact hmem (c := .mmap addr len prot) hs
  | munmap i addr len => exact hmem (c := .munmap addr len) hs
  | sbrk i size => exact hmem (c := .sbrk size) hs
  | threadCreate i =>
    obtain ⟨p, hp, hs⟩ := bind_eq_ok.mp hs
    obtain ⟨⟨p', h'⟩, hcall, hs⟩ := bind_eq_ok.mp hs
    cases hs
    exact .threadCreate hp hcall
  | exit i =>
    cases hs
    exact .exit

end

end TgRcore.Vm
