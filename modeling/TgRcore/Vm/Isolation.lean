/-
  TgRcore.Vm.Isolation — what the calls of one process change for the others, chapters 6 to 8.

  The mapper goes down every table that has OWNED, and the tables under the portal's root entry
  have it, too. So a process can map and unmap pages there, and those are everybody's.
  - `Roots`: every process has a root of its own.
  - `isolation`: a call changes no translation of another process or of the kernel exactly when
    it maps no page under the portal's root entry and unmaps none that is mapped there.
-/

import TgRcore.Vm.Machine

namespace TgRcore.Vm

open TgRcore.BlockProg AddressSpace

/-- Nobody but process `i` has another translation than before. -/
def Isolated (s s' : Machine) (i : Nat) : Prop :=
  (∀ v, visit s'.heap s'.kernel v = visit s.heap s.kernel v) ∧
  ∀ j, j ≠ i → ∀ q, s.procs[j]? = some q →
    s'.procs[j]? = some q ∧ ∀ v, visit s'.heap q.space v = visit s.heap q.space v

/-- No page under the portal's root entry is mapped, and none that is mapped there is unmapped. -/
def Effect.Confined (s : Machine) : Effect → Prop
  | .none => True
  | .map first last => ∀ v, first ≤ v → v < last → indexIn v maxLevel ≠ portalIdx
  | .unmap first last => ∀ v, first ≤ v → v < last → indexIn v maxLevel = portalIdx →
      (entry s.heap s.kernel.root v).isValid = false

/-! ## One root a process -/

def Roots (s : Machine) : Prop := (s.procs.map fun p => p.space.root).Nodup

section

variable {A : FrameAllocator} {R : Rounding} {s s' : Machine} {shared : List Nat} {label : Nat → Option Node}
  {p p' q : Process} {i j : Nat} {h' : Heap} {c : MemCall}

/-- A new root is not among those of the processes. -/
theorem MInv.root_new (hi : MInv s shared label) (hnone : label p'.space.root = none) :
    p'.space.root ∉ s.procs.map fun p => p.space.root := by
  intro hm
  obtain ⟨q, hq, he⟩ := List.mem_map.mp hm
  rw [← he, hi.root hq] at hnone
  cases hnone

theorem Roots.append (hi : MInv s shared label) (hr : Roots s) (hnone : label p'.space.root = none) :
    Roots ⟨h', s.kernel, s.procs ++ [p']⟩ := by
  unfold Roots
  rw [List.map_append, List.map_singleton, List.nodup_append_comm]
  exact List.nodup_cons.mpr ⟨hi.root_new hnone, hr⟩

theorem Roots.set (hi : MInv s shared label) (hr : Roots s) (hnone : label p'.space.root = none) :
    Roots (s.update i p' h') := by
  unfold Roots Machine.update
  rw [List.map_set]
  exact List.Nodup.set hr (hi.root_new hnone)

theorem Roots.same (hr : Roots s) (hp : s.caller i = .ok p) (hroot : p'.space.root = p.space.root) :
    Roots (s.update i p' h') := by
  have hself : (s.procs.set i p').map (fun p => p.space.root) = s.procs.map fun p => p.space.root := by
    obtain ⟨hlt, hget⟩ := List.getElem?_eq_some_iff.mp (caller_get hp)
    have hlen : i < (s.procs.map fun p => p.space.root).length := by rwa [List.length_map]
    have hat : (s.procs.map fun p => p.space.root)[i] = p.space.root := by
      rw [List.getElem_map, hget]
    rw [List.map_set, hroot, ← hat, List.set_getElem_self]
  unfold Roots Machine.update
  rw [hself]
  exact hr

theorem Roots.step {e : Event} (hi : MInv s shared label) (hr : Roots s) (hs : s.step R A e = .ok s') : Roots s' := by
  cases Machine.step_did hs with
  | refused => exact hr
  | spawn helf => exact hr.append hi (hi.tree.fromElf hi.kern helf).1
  | exec _ helf => exact hr.set hi (hi.tree.fromElf hi.kern helf).1
  | fork hp hfork =>
    obtain ⟨hsh, hpk⟩ := hi.procs _ (caller_ok hp)
    exact hr.append hi (hi.tree.fork hi.kern hsh hpk hfork).1
  | call hp hcall => exact hr.same hp (hi.tree.memCall (hi.root (caller_ok hp)) hcall).1
  | threadCreate hp hcall => exact hr.same hp (hi.tree.threadStack (hi.root (caller_ok hp)) hcall).1
  | exit => exact List.Nodup.sublist ((List.eraseIdx_sublist _ _).map _) hr

theorem roots_run {h : Heap} {layout : KernelLayout} {portal : Nat} {es : List Event}
    (hboot : Machine.boot A h layout portal = .ok s) (hrun : Runs R A s es s') :
    Roots s' ∧ ∃ shared label, MInv s' shared label := by
  have h0 : Roots s := by
    obtain ⟨⟨k, h1⟩, -, hboot⟩ := bind_eq_ok.mp hboot
    cases hboot
    exact List.nodup_nil
  refine hrun.inv (P := fun _ s => Roots s ∧ ∃ shared label, MInv s shared label) ⟨h0, (boot_inv hboot).1⟩ ?_
  intro es t e u hi hs
  obtain ⟨hr, shared, label, hi⟩ := hi
  exact ⟨hr.step hi hs, hi.step hs⟩

/-- Two processes have two roots. -/
theorem Roots.ne (hr : Roots s) (hp : s.procs[i]? = some p) (hq : s.procs[j]? = some q) (hij : j ≠ i) :
    q.space.root ≠ p.space.root := by
  intro he
  obtain ⟨hi, rfl⟩ := List.getElem?_eq_some_iff.mp hp
  obtain ⟨hj, rfl⟩ := List.getElem?_eq_some_iff.mp hq
  have hj' : j < (s.procs.map fun p => p.space.root).length := by rwa [List.length_map]
  have hi' : i < (s.procs.map fun p => p.space.root).length := by rwa [List.length_map]
  have hsame : (s.procs.map fun p => p.space.root)[j] = (s.procs.map fun p => p.space.root)[i] := by
    rw [List.getElem_map, List.getElem_map]
    exact he
  exact hij ((List.Nodup.getElem_inj_iff hr).mp hsame)

/-! ## The entries of the others -/

theorem indexIn_mod (v : Nat) {l : Nat} (hl : l ≤ maxLevel) : indexIn (v % (vpnMax + 1)) l = indexIn v l := by
  unfold indexIn maxLevel vpnMax at *
  interval_cases l <;> omega

theorem visit_congr {h h' : Heap} {a : AddressSpace} (he : ∀ v, v ≤ vpnMax → (entry h' a.root v).isValid = true ∨
    (entry h a.root v).isValid = true → entry h' a.root v = entry h a.root v) (v : Nat) : visit h' a v = visit h a v := by
  by_cases hv : v ≤ vpnMax
  · rw [visit_eq _ _ hv, visit_eq _ _ hv]
    by_cases hvalid : (entry h' a.root v).isValid = true ∨ (entry h a.root v).isValid = true
    · rw [he v hv hvalid]
    · rw [not_or] at hvalid
      rw [if_neg hvalid.1, if_neg hvalid.2]
  · unfold visit
    rw [if_pos (Nat.not_le.mp hv), if_pos (Nat.not_le.mp hv)]

/-- Under the portal's root entry a process has the kernel's pages. -/
theorem MInv.shares (hi : MInv s shared label) (hp : p ∈ s.procs) {v w : Nat} (h2 : indexIn v 2 = portalIdx)
    (hw : ∀ l, l ≤ maxLevel → indexIn w l = indexIn v l) :
    Aliases s.kernel.root shared s.kernel.root w p.space.root v := by
  refine ⟨?_, hw 2 (by decide), hw 1 (by decide), hw 0 (by decide)⟩
  rw [home_kernel, home, if_pos ⟨h2, (hi.procs p hp).1⟩]

/-- Where another space has a page of the process, it lies under the portal's root entry. -/
theorem aliases_other {kernel q r v w : Nat} (hne : q ≠ r) (ha : Aliases kernel shared q w r v) :
    indexIn v 2 = portalIdx := by
  have hh := ha.home
  rw [ha.top] at hh
  rcases home_cases hh with he | ⟨h2, -, -⟩
  · exact absurd he hne
  · exact h2

/-- The entries of a space that is not the caller's stay. -/
theorem MInv.entry_other (hi : MInv s shared label) (hp : p ∈ s.procs) {x : Effect} (hx : x.Confined s)
    (hdid : x.Did A s.heap p.space p'.space h') {a : AddressSpace} (ha : label a.root = some (.root a.root))
    (hne : a.root ≠ p.space.root) (v : Nat) : visit h' a v = visit s.heap a v := by
  cases x with
  | none => rw [hdid.2]
  | map first last =>
    obtain ⟨ppn, flags, hu, hv, hfresh⟩ := hdid
    obtain ⟨-, -, -, -, -, label', -, hm⟩ := hi.tree.mapFresh (hi.root hp) hv
      (fun v ppn _ _ _ => userPage_u (Finset.mem_insert_of_mem hu)) hfresh
    refine visit_congr (fun w _ _ => hm.outside ha ?_) v
    rintro ⟨k, hk, hal⟩
    exact hx (first + k) (by omega) (by omega) (aliases_other hne hal)
  | unmap first last =>
    obtain ⟨-, rfl⟩ := hdid
    have hc := (hi.tree.clearPages (v := first) (n := last - first) (hi.root hp)).2.2
    refine visit_congr (fun w _ hvalid => ?_) v
    by_cases hw : Within s.kernel.root shared a.root w p.space.root first (last - first)
    · -- A page of the caller under the portal's root entry: it had no entry.
      obtain ⟨k, hk, hal⟩ := hw
      have h2 := aliases_other hne hal
      have hold : (entry s.heap a.root w).isValid = false := by
        rw [hi.tree.entry_alias (hal.trans (hi.shares hp h2 fun _ _ => rfl).symm)]
        exact hx (first + k) (by omega) (by omega) h2
      have hnew : (entry (AddressSpace.unmap s.heap p.space first last).2 a.root w).isValid = false :=
        hc.inside ha ⟨k, hk, hal⟩
      rw [hnew, hold] at hvalid
      simp at hvalid
    · exact hc.outside ha hw

/-- The kernel sees what happens under the portal's root entry. -/
theorem MInv.confined (hi : MInv s shared label) (hp : p ∈ s.procs) {x : Effect}
    (hdid : x.Did A s.heap p.space p'.space h') (hsame : ∀ v, visit h' s.kernel v = visit s.heap s.kernel v) :
    x.Confined s := by
  cases x with
  | none => trivial
  | map first last =>
    intro v h1 h2 hidx
    obtain ⟨ppn, flags, hu, hv, hfresh⟩ := hdid
    obtain ⟨-, hlast, -, -, -, label', -, hm⟩ := hi.tree.mapFresh (hi.root hp) hv
      (fun v ppn _ _ _ => userPage_u (Finset.mem_insert_of_mem hu)) hfresh
    have hal := hi.shares hp (w := v) hidx fun _ _ => rfl
    rw [show v = first + (v - first) by omega] at hal
    obtain ⟨hnew, hold⟩ := hm.inside hi.tree.kern (by omega) hal
    rw [← show v = first + (v - first) by omega] at hnew hold
    have hsee := hsame v
    rw [visit_eq _ _ (by omega), visit_eq _ _ (by omega), hnew, if_pos (by simp [Pte.isValid, hv]), hold] at hsee
    cases hsee
  | unmap first last =>
    obtain ⟨-, rfl⟩ := hdid
    intro v h1 h2 hidx
    have hc := (hi.tree.clearPages (v := first) (n := last - first) (hi.root hp)).2.2
    have hmod : v % (vpnMax + 1) ≤ vpnMax := Nat.le_of_lt_succ (Nat.mod_lt _ (Nat.succ_pos _))
    have hal := hi.shares hp (w := v % (vpnMax + 1)) hidx fun l hl => indexIn_mod v hl
    have hnew : (entry (AddressSpace.unmap s.heap p.space first last).2 s.kernel.root (v % (vpnMax + 1))).isValid = false := by
      refine hc.inside hi.tree.kern ⟨v - first, by omega, ?_⟩
      rwa [show first + (v - first) = v by omega]
    have hsee := hsame (v % (vpnMax + 1))
    rw [visit_eq _ _ hmod, visit_eq _ _ hmod, hnew] at hsee
    rw [hi.tree.entry_alias (hi.shares hp (w := v) hidx fun _ _ => rfl), ← hi.tree.entry_alias hal]
    by_contra hvalid
    rw [if_pos (Bool.eq_true_of_not_eq_false hvalid)] at hsee
    cases hsee

end

/-- In every state that the kernel reaches, for every call of `mmap`, `munmap` or `sbrk` with
    any arguments that returns, with success or not: no translation of another process or of the
    kernel changes, except when pages under the portal's root entry are mapped or unmapped. -/
theorem isolation {R : Rounding} {A : FrameAllocator} {h : Heap} {layout : KernelLayout} {portal : Nat}
    {s t t' : Machine} {es : List Event} (hboot : Machine.boot A h layout portal = .ok s) (hrun : Runs R A s es t)
    {i : Nat} {p : Process} (hp : t.caller i = .ok p) {c : MemCall} (hcall : t.step R A (c.event i) = .ok t') :
    Isolated t t' i ↔ (c.effect R p).Confined t := by
  obtain ⟨hroots, shared, label, hi⟩ := roots_run hboot hrun
  obtain ⟨q, ret, p', h', hq, hcall, rfl⟩ := MemCall.step_ok hcall
  rw [hp] at hq
  cases hq
  have hdid := (MemCall.did hcall).1
  have hmem := caller_ok hp
  constructor
  · intro hiso
    exact hi.confined hmem hdid hiso.1
  · intro hx
    refine ⟨hi.entry_other hmem hx hdid hi.tree.kern (hi.procs p hmem).2.symm, ?_⟩
    intro j hj q hq
    refine ⟨?_, hi.entry_other hmem hx hdid (hi.root (List.mem_of_getElem? hq)) (hroots.ne (caller_get hp) hq hj)⟩
    show (t.procs.set i p')[j]? = some q
    rw [List.getElem?_set_ne (Ne.symm hj), hq]

/-- Two processes, and a call of the first. -/
def twoThen (c : MemCall) : Except Halt (Machine × Machine × Machine) := do
  let s ← Machine.boot bump bareHeap bareLayout 0x80020
  let s1 ← s.step shift bump (.spawn bareElf)
  let t ← s1.step shift bump (.spawn bareElf)
  let t' ← t.step shift bump (c.event 0)
  .ok (s, t, t')

theorem twoThen_ok {c : MemCall} {s t t' : Machine} (h : twoThen c = .ok (s, t, t')) :
    Machine.boot bump bareHeap bareLayout 0x80020 = .ok s ∧ Runs shift bump s [.spawn bareElf, .spawn bareElf] t ∧
      t.step shift bump (c.event 0) = .ok t' := by
  obtain ⟨s, hboot, h⟩ := bind_eq_ok.mp h
  obtain ⟨s1, h1, h⟩ := bind_eq_ok.mp h
  obtain ⟨t, h2, h⟩ := bind_eq_ok.mp h
  obtain ⟨t', h3, h⟩ := bind_eq_ok.mp h
  cases h
  exact ⟨hboot, .snoc (.single h1) h2, h3⟩

/-- A page at the first address that a process uses for `mmap` as a rule. -/
theorem isolation_low : ∃ s t t', twoThen (.mmap 0x10000000 4096 3) = .ok (s, t, t') ∧ Isolated t t' 0 := by
  have hrun : (twoThen (.mmap 0x10000000 4096 3)).map (fun x => (x.2.1.caller 0).map
      fun p => decide (MemCall.effect shift p (.mmap 0x10000000 4096 3) = .map 0x10000 0x10001)) = .ok (.ok true) := by
    rfl
  obtain ⟨⟨s, t, t'⟩, hrun, hp⟩ := map_eq_ok hrun
  obtain ⟨p, hp, he⟩ := map_eq_ok hp
  obtain ⟨hboot, hruns, hcall⟩ := twoThen_ok hrun
  refine ⟨s, t, t', hrun, (isolation hboot hruns hp hcall).mpr ?_⟩
  rw [of_decide_eq_true he]
  intro v h1 h2
  obtain rfl : v = 0x10000 := by omega
  decide

/-- `mmap(0x7fc0000000, 4096, 3)` of one process makes a page for the other and for the kernel. -/
theorem portal_shared : ∃ s t t', Machine.boot bump bareHeap bareLayout 0x80020 = .ok s ∧
    Runs shift bump s [.spawn bareElf, .spawn bareElf] t ∧
    t.step shift bump (.mmap 0 0x7fc0000000 4096 3) = .ok t' ∧ ¬ Isolated t t' 0 := by
  have hrun : (twoThen (.mmap 0x7fc0000000 4096 3)).map (fun x =>
      ((visit x.2.1.heap x.2.1.kernel 0x7fc0000).isSome, (visit x.2.2.heap x.2.2.kernel 0x7fc0000).isSome)) =
      .ok (false, true) := by
    rfl
  obtain ⟨⟨s, t, t'⟩, hrun, hsee⟩ := map_eq_ok hrun
  obtain ⟨hboot, hruns, hcall⟩ := twoThen_ok hrun
  refine ⟨s, t, t', hboot, hruns, hcall, fun hiso => ?_⟩
  rw [Prod.mk.injEq] at hsee
  rw [hiso.1, hsee.1] at hsee
  exact absurd hsee.2 (by decide)

end TgRcore.Vm
