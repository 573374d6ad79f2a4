/-
  TgRcore.Vm.Permissions — what the pointers of system calls may reach, chapters 6 to 8.

  The kernel checks a pointer with the flags R or W and V, without U. Every page a process can
  name carries U except the portal page, whose entry all processes share.
  - `user_permissions`: a pointer is used for a page the process may not touch itself exactly
    when it points into the portal page and the portal's entry has the flags.
  - `portal_readable`: it has them from the boot on.
-/

import TgRcore.Vm.Machine

namespace TgRcore.Vm

open TgRcore.BlockProg AddressSpace

/-- `READABLE`, "RV" -/
def readable : VmFlags := {.r, .v}

/-- `WRITEABLE`, "W_V" -/
def writeable : VmFlags := {.w, .v}

/-- The pointer arguments of system calls; `pipe` writes two words. -/
inductive PtrArg where
  | writeBuf
  | readBuf
  | openPath
  | linkatOld
  | linkatNew
  | unlinkatPath
  | fstatSt
  | execPath
  | spawnPath
  | waitExitCode
  | clockGettimeTp
  | pipeRead
  | pipeWrite
  | sigactionNew
  | sigactionOld
  deriving DecidableEq, Repr

namespace PtrArg

/-- The flags asked for. -/
def mask : PtrArg → VmFlags
  | .writeBuf | .openPath | .linkatOld | .linkatNew | .unlinkatPath | .execPath | .spawnPath | .sigactionNew => readable
  | .readBuf | .fstatSt | .waitExitCode | .clockGettimeTp | .pipeRead | .pipeWrite | .sigactionOld => writeable

/-- The address that is translated. -/
def addr : PtrArg → Nat → Nat
  | .pipeWrite, a => a + 8
  | _, a => a

end PtrArg

/-- Where the kernel reads or writes for the argument, if it does. -/
def access (R : Rounding) (h : Heap) (p : Process) (arg : PtrArg) (a : Nat) : Option Nat :=
  AddressSpace.translate R h p.space (arg.addr a) arg.mask

/-- The process may do itself what the kernel does for it. -/
def Permitted (R : Rounding) (h : Heap) (p : Process) (arg : PtrArg) (a : Nat) : Prop :=
  (access R h p arg a).isSome = true →
    ∃ pte, visit h p.space (R.floor (arg.addr a)) = some pte ∧ Flag.u ∈ pte.flags ∧ arg.mask ⊆ pte.flags

/-- The portal page has the flags, and not U. -/
def PortalHas (s : Machine) (mask : VmFlags) : Prop :=
  ∃ pte, visit s.heap s.kernel vpnMax = some pte ∧ mask ⊆ pte.flags ∧ Flag.u ∉ pte.flags

section

variable {A : FrameAllocator} {R : Rounding} {s s' : Machine} {shared : List Nat} {label : Nat → Option Node}
  {p : Process} {vpn : Nat} {pte : Pte}

theorem access_some {arg : PtrArg} {a : Nat} (h : (access R s.heap p arg a).isSome = true) :
    ∃ pte, visit s.heap p.space (R.floor (arg.addr a)) = some pte ∧ arg.mask ⊆ pte.flags := by
  unfold access AddressSpace.translate at h
  split at h
  · rename_i pte hv
    split at h
    · rename_i hsub
      exact ⟨pte, hv, hsub⟩
    · cases h
  · cases h

theorem eq_vpnMax (hv : vpn ≤ vpnMax) (h2 : indexIn vpn 2 = portalIdx) (h1 : indexIn vpn 1 = 511)
    (h0 : indexIn vpn 0 = 511) : vpn = vpnMax := by
  unfold indexIn portalIdx vpnMax at *
  omega

/-- A page of a process has U, or it is the portal page. -/
theorem MInv.user_page (hi : MInv s shared label) (hp : p ∈ s.procs) (hv : visit s.heap p.space vpn = some pte) :
    Flag.u ∈ pte.flags ∨ vpn = vpnMax := by
  obtain ⟨hle, rfl, hvalid⟩ := visit_some hv
  obtain ⟨hsh, hne⟩ := hi.procs p hp
  have hgood := hi.tree.visit_good (hi.root hp) hvalid
  have hiff : home s.kernel.root shared p.space.root (indexIn vpn 2) = s.kernel.root ↔ indexIn vpn 2 = portalIdx := by
    unfold home
    by_cases h2 : indexIn vpn 2 = portalIdx
    · simp [h2, hsh]
    · simp [h2, hne]
  rcases hgood hiff with hu | ⟨h2, h1, h0⟩
  · exact .inl hu
  · exact .inr (eq_vpnMax hle h2 h1 h0)

/-- The portal page is the kernel's in every process. -/
theorem MInv.portal_page (hi : MInv s shared label) (hp : p ∈ s.procs) :
    visit s.heap p.space vpnMax = visit s.heap s.kernel vpnMax := by
  have ha : Aliases s.kernel.root shared p.space.root vpnMax s.kernel.root vpnMax := by
    refine ⟨?_, rfl, rfl, rfl⟩
    rw [home_kernel, home, if_pos ⟨by decide, (hi.procs p hp).1⟩]
  rw [visit_eq _ _ (Nat.le_refl _), visit_eq _ _ (Nat.le_refl _), hi.tree.entry_alias ha]

end

/-- In every state that the kernel reaches, for every process and every pointer argument: the
    kernel's access is one that the process may make itself, except in the portal page as long
    as its entry has the flags asked for. -/
theorem user_permissions {R : Rounding} {A : FrameAllocator} {h : Heap} {layout : KernelLayout} {portal : Nat}
    {s s' : Machine} {es : List Event} (hboot : Machine.boot A h layout portal = .ok s) (hrun : Runs R A s es s')
    {p : Process} (hp : p ∈ s'.procs) (arg : PtrArg) (a : Nat) :
    Permitted R s'.heap p arg a ↔ ¬ (R.floor (arg.addr a) = vpnMax ∧ PortalHas s' arg.mask) := by
  obtain ⟨shared, label, hi⟩ := mInv_run hboot hrun
  constructor
  · intro hperm ⟨hmax, pte, hpte, hsub, hu⟩
    have hv : visit s'.heap p.space (R.floor (arg.addr a)) = some pte := by
      rw [hmax, hi.portal_page hp, hpte]
    have hacc : (access R s'.heap p arg a).isSome = true := by
      unfold access AddressSpace.translate
      rw [hv]
      simp [hsub]
    obtain ⟨pte', hpte', hu', -⟩ := hperm hacc
    rw [hv, Option.some.injEq] at hpte'
    exact hu (hpte' ▸ hu')
  · intro hno hacc
    obtain ⟨pte, hpte, hsub⟩ := access_some hacc
    refine ⟨pte, hpte, ?_, hsub⟩
    by_contra hu
    have hmax := (hi.user_page hp hpte).resolve_left hu
    refine hno ⟨hmax, pte, ?_, hsub, hu⟩
    rw [← hi.portal_page hp, ← hmax]
    exact hpte

/-- The kernel reads and writes the portal page for a process from the boot on. -/
theorem portal_readable {A : FrameAllocator} {h : Heap} {layout : KernelLayout} {portal : Nat} {s : Machine}
    (hboot : Machine.boot A h layout portal = .ok s) (arg : PtrArg) : PortalHas s arg.mask := by
  obtain ⟨-, he⟩ := boot_inv hboot
  refine ⟨⟨portal, {.g, .x, .w, .r, .v}⟩, ?_, ?_, by simp⟩
  · rw [visit_eq _ _ (Nat.le_refl _), he, if_pos (by simp [Pte.isValid])]
  · show arg.mask ⊆ {.g, .x, .w, .r, .v}
    cases arg <;> decide

/-! ## A run -/

/-- What the kernel does with a buffer to write from, and whether the page has U. -/
def seen (s : Machine) (a : Nat) : List (Bool × Option Bool) :=
  s.procs.map fun p => ((access shift s.heap p .writeBuf a).isSome,
    (visit s.heap p.space (shift.floor a)).map fun pte => decide (Flag.u ∈ pte.flags))

/-- One process was made; its stack and the portal page are seen. -/
theorem bare_run : ∃ s s' p, Machine.boot bump bareHeap bareLayout 0x80020 = .ok s ∧
    Runs shift bump s [.spawn bareElf] s' ∧ s'.procs = [p] ∧
    seen s' 0x3ffffff000 = [(true, some true)] ∧ seen s' 0x7ffffff000 = [(true, some false)] := by
  have hrun : (Machine.boot bump bareHeap bareLayout 0x80020 >>= fun s => s.step shift bump (.spawn bareElf)).map
      (fun s => (s.procs.length, seen s 0x3ffffff000, seen s 0x7ffffff000)) =
      .ok (1, [(true, some true)], [(true, some false)]) := by
    rfl
  obtain ⟨s', hrun, hs'⟩ := map_eq_ok hrun
  obtain ⟨s, hboot, hstep⟩ := bind_eq_ok.mp hrun
  simp only [Prod.mk.injEq] at hs'
  obtain ⟨p, hp⟩ := List.length_eq_one_iff.mp hs'.1
  exact ⟨s, s', p, hboot, .single hstep, hp, hs'.2.1, hs'.2.2⟩

/-- The stack of a process is its own. -/
theorem user_permissions_stack : ∃ (s : Machine) (p : Process), s.procs = [p] ∧ (access shift s.heap p .writeBuf 0x3ffffff000).isSome = true ∧
    Permitted shift s.heap p .writeBuf 0x3ffffff000 := by
  obtain ⟨s, s', p, hboot, hrun, hp, hstack, -⟩ := bare_run
  refine ⟨s', p, hp, ?_, ?_⟩
  · rw [seen, hp, List.map_singleton, List.cons.injEq, Prod.mk.injEq] at hstack
    exact hstack.1.1
  · refine (user_permissions hboot hrun (by rw [hp]; exact List.mem_singleton_self p) .writeBuf 0x3ffffff000).mpr ?_
    rintro ⟨hmax, _⟩
    revert hmax
    decide

/-- `write(STDOUT, 0x7ffffff000, n)` prints the portal page. -/
theorem portal_written : ∃ s s' p, Machine.boot bump bareHeap bareLayout 0x80020 = .ok s ∧
    Runs shift bump s [.spawn bareElf] s' ∧ p ∈ s'.procs ∧
    (access shift s'.heap p .writeBuf 0x7ffffff000).isSome = true ∧
    ¬ Permitted shift s'.heap p .writeBuf 0x7ffffff000 := by
  obtain ⟨s, s', p, hboot, hrun, hp, -, hportal⟩ := bare_run
  rw [seen, hp, List.map_singleton, List.cons.injEq, Prod.mk.injEq] at hportal
  obtain ⟨⟨hacc, hu⟩, -⟩ := hportal
  refine ⟨s, s', p, hboot, hrun, by rw [hp]; exact List.mem_singleton_self p, hacc, ?_⟩
  intro hperm
  obtain ⟨pte, hpte, hyes, -⟩ := hperm hacc
  have hpte : visit s'.heap p.space (shift.floor 0x7ffffff000) = some pte := hpte
  rw [hpte, Option.map_some, Option.some.injEq, decide_eq_false_iff_not] at hu
  exact hu hyes

end TgRcore.Vm
