/-
  TgRcore.Task.Starvation — how long a ready process of chapter 5 waits while another one is
  dispatched again and again.

  A new process starts with stride 0, so it is dispatched until it has caught up with those
  that ran before (`new_process_first`). A priority above `BIGSTRIDE` gives the pass 0, and
  such a process never catches up (`pass_zero`).
  - `row_bound`: the strides of the two processes over a row of dispatches.
  - `no_starvation`: the length of a row in every run, by the distance of the strides where the
    row begins and the highest priority taken.
-/

import TgRcore.Task.Stride

namespace TgRcore.Task

open TgRcore.BlockProg

variable {heap : BinaryHeap StridePair StridePair.le}

/-! ## A row of dispatches -/

section

variable {s s' : Sched heap} {e : SchedEvent} {es : List SchedEvent} {p q : ProcId} {tp tq : Process} {b : Nat}

/-- A ready process stays ready until it is fetched. -/
theorem SchedStep.ready (hs : SchedStep s e s') (hq : q ∈ s.manager.ready) (he : e ≠ .fetch q) :
    q ∈ s'.manager.ready := by
  cases hs with
  | fetch hc hf =>
    obtain ⟨x, queue, t, hp, rfl, -, v, -, rfl⟩ := ProcManager.fetch_some hf
    rcases List.mem_cons.mp (((heap.pop_perm hp).map StridePair.id).mem_iff.mp hq) with rfl | hq
    · exact absurd rfl he
    · exact hq
  | setPriority hc hprio hm =>
    obtain ⟨u, -, rfl⟩ := ProcManager.setPriority_some hm hprio
    exact hq
  | add hc hm =>
    obtain ⟨u, -, rfl⟩ := ProcManager.add_some hm
    exact (heap.push_perm.map StridePair.id).mem_iff.mpr (List.mem_cons_of_mem _ hq)
  | delete => exact hq
  | create hk hm =>
    obtain ⟨u, -, rfl⟩ := ProcManager.add_some hm
    exact (heap.push_perm.map StridePair.id).mem_iff.mpr (List.mem_cons_of_mem _ hq)
  | call => exact hq

/-- The entry of a ready process stays as it is until it is fetched. -/
theorem SchedStep.waits (hs : SchedStep s e s') (hi : Sound s) (hq : q ∈ s.manager.ready) (he : e ≠ .fetch q) :
    s'.manager.tasks q = s.manager.tasks q := by
  obtain ⟨x, -, -, hx⟩ := hi.mem_ready hq
  obtain ⟨y, -, -, hy⟩ := (hi.step hs).mem_ready (hs.ready hq he)
  rcases hs.tasks hi hy with ⟨-, hnone, -⟩ | ⟨u, hu, ⟨he', -⟩ | ⟨prio, -, hc, -⟩ | ⟨ht, -⟩⟩
  · rw [hx] at hnone
    cases hnone
  · exact absurd he' he
  · exact absurd hq (hi.apart hc)
  · rw [hy, hu, ht]

/-- While `p` alone is fetched its stride grows by a pass each time, and when it was last
    fetched it was not above that of the ready process `q`. -/
theorem row_bound (hi : Sound s) (hrun : Exec SchedStep s es s') (hpq : q ≠ p) (hp : s.manager.tasks p = some tp)
    (hq : q ∈ s.manager.ready) (htq : s.manager.tasks q = some tq) (honly : ∀ id, .fetch id ∈ es → id = p)
    (hnew : .create p ∉ es) (hlow : tp.stride.priority ≤ b) (hset : ∀ prio : Int, .setPriority p prio ∈ es → prio ≤ b) :
    (q ∈ s'.manager.ready ∧ s'.manager.tasks q = some tq) ∧
    (∀ u, s'.manager.tasks p = some u → u.stride.priority ≤ b ∧
      tp.stride.stride + es.count (.fetch p) * (bigStride / b) ≤ u.stride.stride) ∧
    (0 < es.count (.fetch p) → tp.stride.stride + (es.count (.fetch p) - 1) * (bigStride / b) ≤ tq.stride.stride) := by
  induction hrun with
  | nil =>
    refine ⟨⟨hq, htq⟩, fun u hu => ?_, fun h => absurd h (by simp)⟩
    cases hp.symm.trans hu
    exact ⟨hlow, by simp⟩
  | @snoc a c es e hab hs ih =>
    have hsub : ∀ {f}, f ∈ es → f ∈ es ++ [e] := fun hm => List.mem_append_left _ hm
    have hlast : e ∈ es ++ [e] := List.mem_append_right _ (List.mem_singleton_self _)
    obtain ⟨⟨hqa, hta⟩, hpa, hwait⟩ := ih (fun id hm => honly id (hsub hm)) (fun hm => hnew (hsub hm))
      fun prio hm => hset prio (hsub hm)
    have hia := sound_run hi hab
    have hne : e ≠ .fetch q := fun h => hpq (honly q (h ▸ hlast))
    refine ⟨⟨hs.ready hqa hne, by rw [hs.waits hia hqa hne, hta]⟩, ?_, ?_⟩
    · intro u hu
      rw [List.count_append, List.count_singleton]
      rcases hs.tasks hia hu with ⟨rfl, -⟩ | ⟨v, hv, h⟩
      · exact absurd hlast hnew
      obtain ⟨hvb, hvs⟩ := hpa v hv
      rcases h with ⟨rfl, h⟩ | ⟨prio, rfl, -, h⟩ | ⟨rfl, hne, -⟩
      · have hpass : bigStride / b ≤ bigStride / v.stride.priority :=
          Nat.div_le_div_left hvb (by have := hia.priority hv; omega)
        rw [h, if_pos (by simp), Nat.add_mul, Nat.one_mul]
        refine ⟨hvb, ?_⟩
        show _ ≤ v.stride.stride + bigStride / v.stride.priority
        omega
      · have hprio := hset prio hlast
        rw [h, if_neg (by simp), Nat.add_zero]
        refine ⟨?_, hvs⟩
        show prio.toNat ≤ b
        omega
      · rw [if_neg (by simpa using hne), Nat.add_zero]
        exact ⟨hvb, hvs⟩
    · rw [List.count_append, List.count_singleton]
      split
      · rename_i he
        have he : e = .fetch p := by simpa using he
        subst he
        obtain ⟨-, t, ht, hleast⟩ := hs.fetched hia
        intro _
        rw [Nat.add_sub_cancel]
        exact ((hpa t ht).2).trans (hleast hta)
      · rw [Nat.add_zero]
        exact hwait

/-- The priority of a process that only took priorities up to `b`. -/
theorem priority_le (hi : Sound s) (hrun : Exec SchedStep s es s') (h0 : ∀ t, s.manager.tasks p = some t → t.stride.priority ≤ b)
    (hb : 16 ≤ b) (hset : ∀ prio : Int, .setPriority p prio ∈ es → prio ≤ b) :
    ∀ t, s'.manager.tasks p = some t → t.stride.priority ≤ b := by
  induction hrun with
  | nil => exact h0
  | @snoc a c es e hab hs ih =>
    intro t ht
    have iha := ih fun prio hm => hset prio (List.mem_append_left _ hm)
    rcases hs.tasks (sound_run hi hab) ht with ⟨-, -, rfl⟩ | ⟨u, hu, ⟨-, h⟩ | ⟨prio, rfl, -, h⟩ | ⟨rfl, -⟩⟩
    · exact hb
    · rw [h]
      exact iha u hu
    · have hprio := hset prio (List.mem_append_right _ (List.mem_singleton_self _))
      rw [h]
      show prio.toNat ≤ b
      omega
    · exact iha t hu

end

/-! ## The kernel -/

/-- `set_priority` of the current process. -/
def PManager.setPriority (pm : PManager (ProcManager heap)) (prio : Int) :
    Except Halt (Int × PManager (ProcManager heap)) :=
  match pm.current with
  | none => .error .panic
  | some id => do
    let (ret, manager) ← pm.manager.setPriority id prio
    .ok (ret, { pm with manager := manager })

/-- The main loop and the calls between two dispatches. `fork` and `spawn` add a process with a
    new number and the first stride; the first process has no parent. -/
inductive KernelStep : World (ProcManager heap) → SchedEvent → World (ProcManager heap) → Prop
  | create {w : World (ProcManager heap)} {id parent : ProcId} {pm : PManager (ProcManager heap)} :
      w.used = [] ∧ parent = usizeMax ∨ w.pm.current = some parent → id ∉ w.used →
      w.pm.add id ⟨.new⟩ parent = .ok pm → KernelStep w (.create id) ⟨pm, id :: w.used⟩
  | dispatch {w : World (ProcManager heap)} {id : ProcId} {task : Process} {pm : PManager (ProcManager heap)} :
      w.pm.current = none → w.pm.findNext = .ok (some task, pm) → pm.current = some id →
      KernelStep w (.fetch id) ⟨pm, w.used⟩
  | setPriority {w : World (ProcManager heap)} {id : ProcId} {prio : Int} {pm : PManager (ProcManager heap)} :
      w.pm.current = some id → 2 ≤ prio → w.pm.setPriority prio = .ok (prio, pm) →
      KernelStep w (.setPriority id prio) ⟨pm, w.used⟩
  | refused {w : World (ProcManager heap)} {prio : Int} {pm : PManager (ProcManager heap)} : prio < 2 →
      w.pm.setPriority prio = .ok (-1, pm) → KernelStep w .call ⟨pm, w.used⟩
  | wait {w : World (ProcManager heap)} {c : ProcId} {ret : Option (ProcId × Int)} {pm : PManager (ProcManager heap)} :
      w.pm.wait c = .ok (ret, pm) → KernelStep w .call ⟨pm, w.used⟩
  | suspend {w : World (ProcManager heap)} {id : ProcId} {pm : PManager (ProcManager heap)} : w.pm.current = some id →
      w.pm.makeCurrentSuspend = .ok pm → KernelStep w (.add id) ⟨pm, w.used⟩
  | exit {w : World (ProcManager heap)} {id : ProcId} {code : Int} {pm : PManager (ProcManager heap)} :
      w.pm.current = some id → w.pm.makeCurrentExited code = .ok pm → KernelStep w (.delete id) ⟨pm, w.used⟩
  | call {w : World (ProcManager heap)} : KernelStep w .call w

def World.sched (w : World (ProcManager heap)) : Sched heap := ⟨w.pm.manager, w.pm.current⟩

def World.boot : World (ProcManager heap) := World.new .new

section

variable {w w' : World (ProcManager heap)} {e : SchedEvent} {es : List SchedEvent}

theorem setPriority_ok {pm pm' : PManager (ProcManager heap)} {prio ret : Int} (h : pm.setPriority prio = .ok (ret, pm')) :
    ∃ id m, pm.current = some id ∧ pm.manager.setPriority id prio = .ok (ret, m) ∧ pm' = { pm with manager := m } := by
  unfold PManager.setPriority at h
  split at h
  · cases h
  · rename_i id hc
    obtain ⟨⟨r, m⟩, hm, h⟩ := bind_eq_ok.mp h
    cases h
    exact ⟨id, m, hc, hm, rfl⟩

/-- A refused priority changes nothing. -/
theorem ProcManager.setPriority_refused {m m' : ProcManager heap} {id : ProcId} {prio ret : Int} (hprio : prio < 2)
    (h : m.setPriority id prio = .ok (ret, m')) : m' = m := by
  unfold setPriority at h
  split at h
  · cases h
  · rw [if_neg (by omega)] at h
    cases h
    rfl

structure Numbered (w : World (ProcManager heap)) : Prop where
  sound : Sound w.sched
  known : ∀ {id}, (w.pm.manager.tasks id).isSome = true → id ∈ w.used

/-- What the scheduler sees of a step of the kernel. -/
theorem KernelStep.sched (h : Numbered w) (hs : KernelStep w e w') : SchedStep w.sched e w'.sched := by
  cases hs with
  | @create id parent pm hparent hid hadd =>
    have hnone : w.pm.manager.tasks id = none := by
      rw [← Option.not_isSome_iff_eq_none]
      exact fun hsome => hid (h.known hsome)
    unfold PManager.add at hadd
    obtain ⟨manager, hm, hadd⟩ := bind_eq_ok.mp hadd
    obtain ⟨relMap, -, hadd⟩ := bind_eq_ok.mp hadd
    cases hadd
    exact .create hnone hm
  | @dispatch id task pm hc hf hid =>
    obtain ⟨next, manager, hfetch, ⟨hret, -⟩ | ⟨k, t, rfl, -, -, rfl⟩⟩ := findNext_ok hf
    · cases hret
    · cases hid
      exact .fetch hc hfetch
  | @setPriority id prio pm hc hprio hset =>
    obtain ⟨k, m, hk, hm, rfl⟩ := setPriority_ok hset
    cases hc.symm.trans hk
    exact .setPriority hc hprio hm
  | refused hprio hset =>
    obtain ⟨k, m, -, hm, rfl⟩ := setPriority_ok hset
    cases ProcManager.setPriority_refused hprio hm
    exact .call
  | @wait c ret pm hw =>
    unfold PManager.wait at hw
    split at hw
    · cases hw
    · split at hw
      · cases hw
      · cases hw
        exact .call
  | suspend hc hsus =>
    obtain ⟨k, manager, hk, hm, rfl⟩ := suspend_ok hsus
    cases hc.symm.trans hk
    exact .add hc hm
  | exit hc hexit =>
    obtain ⟨relMap, -, rfl⟩ := (exited_eq_ok hc).mp hexit
    exact .delete hc
  | call => exact .call

theorem KernelStep.used (hs : KernelStep w e w') : ∀ {id}, id ∈ w.used ∨ e = .create id → id ∈ w'.used := by
  intro id hid
  cases hs with
  | create =>
    rcases hid with hid | hid
    · exact List.mem_cons_of_mem _ hid
    · cases hid
      exact List.mem_cons_self
  | _ => exact hid.elim (fun h => h) (by simp)

theorem Numbered.step (h : Numbered w) (hs : KernelStep w e w') : Numbered w' := by
  have hsched := hs.sched h
  refine ⟨h.sound.step hsched, fun hid => ?_⟩
  obtain ⟨t, ht⟩ := Option.isSome_iff_exists.mp hid
  rcases hsched.tasks h.sound ht with ⟨he, -⟩ | ⟨u, hu, -⟩
  · exact hs.used (.inr he)
  · refine hs.used (.inl (h.known ?_))
    show (w.sched.manager.tasks _).isSome = true
    rw [hu]
    rfl

theorem numbered_boot : Numbered (World.boot : World (ProcManager heap)) :=
  ⟨sound_new, fun h => by cases h⟩

theorem Numbered.run (h : Numbered w) (hrun : Exec KernelStep w es w') :
    Numbered w' ∧ Exec SchedStep w.sched es w'.sched ∧ (∀ {id}, id ∈ w.used → id ∈ w'.used ∧ .create id ∉ es) := by
  induction hrun with
  | nil => exact ⟨h, .nil _, fun hid => ⟨hid, by simp⟩⟩
  | @snoc a c es e hab hs ih =>
    obtain ⟨ha, hrun, hused⟩ := ih
    refine ⟨ha.step hs, hrun.snoc (hs.sched ha), fun hid => ⟨hs.used (.inl (hused hid).1), fun hm => ?_⟩⟩
    rcases List.mem_append.mp hm with hm | hm
    · exact (hused hid).2 hm
    · cases List.mem_singleton.mp hm
      cases hs with
      | create hparent hnew hadd => exact hnew (hused hid).1

end

/-! ## Starvation -/

/-- A step of the kernel that adds no process when another one is far ahead. -/
def EarlyStep (w : World (ProcManager heap)) (e : SchedEvent) (w' : World (ProcManager heap)) : Prop :=
  KernelStep w e w' ∧ Early w.sched e

theorem spread_run {es : List SchedEvent} {w : World (ProcManager heap)} (h : Exec EarlyStep .boot es w) :
    Numbered w ∧ Spread w.sched := by
  refine h.inv (P := fun _ w => Numbered w ∧ Spread w.sched) ⟨numbered_boot, fun i j t u ht => by cases ht⟩ ?_
  rintro es w e w' ⟨hw, hspread⟩ ⟨hs, hearly⟩
  exact ⟨hw.step hs, hspread.step hw.sound (hs.sched hw) hearly⟩

/-- The claim about all runs: nobody is dispatched more than 101 times in a row past a process
    that is ready all the while. -/
def NoStarvation (heap : BinaryHeap StridePair StridePair.le) : Prop :=
  ∀ {es row : List SchedEvent} {w w' : World (ProcManager heap)} {p q : ProcId}, Exec KernelStep .boot es w →
    Exec KernelStep w row w' → (∀ id, .fetch id ∈ row → id = p) → q ≠ p → q ∈ w.pm.manager.ready →
    row.count (.fetch p) ≤ 101

/-- A row of dispatches of `p`, the first of them and `row`, past the ready process `q`: the
    passes after the first fit between the strides of the two at its start. With priorities up to
    `BIGSTRIDE` and processes added early, it has at most 101 dispatches. -/
theorem no_starvation {es row : List SchedEvent} {w w' : World (ProcManager heap)} {p q : ProcId} {b : Nat}
    (hrun : Exec KernelStep .boot es w) (hrow : Exec KernelStep w (.fetch p :: row) w')
    (honly : ∀ id, .fetch id ∈ row → id = p) (hpq : q ≠ p) (hq : q ∈ w.pm.manager.ready) (hb : 16 ≤ b)
    (hprio : ∀ prio : Int, .setPriority p prio ∈ es ++ row → prio ≤ b) :
    q ∈ w'.pm.manager.ready ∧
    (∃ tp tq, w.pm.manager.tasks p = some tp ∧ w.pm.manager.tasks q = some tq ∧
      tp.stride.stride + row.count (.fetch p) * (bigStride / b) ≤ tq.stride.stride) ∧
    (b ≤ bigStride → Exec EarlyStep .boot es w → row.count (.fetch p) + 1 ≤ 101) := by
  obtain ⟨hw, hsched, -⟩ := numbered_boot.run hrun
  obtain ⟨-, hrows, hused⟩ := hw.run hrow
  obtain ⟨w1, hfirst, -⟩ := hrow.uncons
  obtain ⟨-, tp, htp, -⟩ := (hfirst.sched hw).fetched hw.sound
  obtain ⟨x, -, -, htq⟩ := hw.sound.mem_ready hq
  have hsome : (w.sched.manager.tasks p).isSome = true := by
    rw [htp]
    rfl
  have hnew := (hused (hw.known hsome)).2
  have hlow : tp.stride.priority ≤ b := by
    refine priority_le sound_new hsched (fun t ht => by cases ht) hb (fun prio hm => ?_) tp htp
    exact hprio prio (List.mem_append_left _ hm)
  have hset : ∀ prio : Int, .setPriority p prio ∈ .fetch p :: row → prio ≤ b := by
    intro prio hm
    exact hprio prio (List.mem_append_right _ ((List.mem_cons.mp hm).resolve_left (by simp)))
  have honly : ∀ id, .fetch id ∈ .fetch p :: row → id = p := by
    intro id hm
    rcases List.mem_cons.mp hm with h | h
    · exact SchedEvent.fetch.inj h
    · exact honly id h
  obtain ⟨⟨hstay, -⟩, -, hwait⟩ := row_bound hw.sound hrows hpq htp hq htq honly hnew hlow hset
  have hle := hwait (by simp)
  rw [List.count_cons_self, Nat.add_sub_cancel] at hle
  refine ⟨hstay, ⟨tp, _, htp, htq, hle⟩, fun hbig hearly => ?_⟩
  have hspread := (spread_run hearly).2 htq htp
  have hpass : 1 ≤ bigStride / b := Nat.div_pos hbig (by omega)
  have hcount := Nat.mul_le_mul_left (row.count (.fetch p)) hpass
  have : bigStride / 2 = 100 := rfl
  omega

/-! ## Rows as long as one likes -/

/-- Process 1 is ready with stride `k`, process 0 with stride `s`. -/
structure Ahead (prio k s : Nat) (w : World (ProcManager strideHeap)) : Prop where
  idle : w.pm.current = none
  first : w.pm.manager.tasks 1 = some ⟨⟨prio, k⟩⟩
  queue : w.pm.manager.readyQueue = [⟨1, ⟨prio, k⟩⟩, ⟨0, ⟨2, s⟩⟩]

theorem Ahead.round {prio k s : Nat} {w : World (ProcManager strideHeap)} (h : Ahead prio k s w) (hprio : 2 ≤ prio)
    (hk : k + bigStride / prio ≤ s) (hs : s < 2 ^ 64) :
    ∃ w', Exec KernelStep w [.fetch 1, .add 1] w' ∧ Ahead prio (k + bigStride / prio) s w' := by
  have hpop : strideHeap.pop w.pm.manager.readyQueue = some (⟨1, ⟨prio, k⟩⟩, [⟨0, ⟨2, s⟩⟩]) := by
    rw [h.queue]
    rfl
  have hfetch := ProcManager.fetch_eq hpop h.first hprio
  rw [if_pos (show k + bigStride / prio < 2 ^ 64 by omega)] at hfetch
  have hnext : w.pm.findNext = .ok (some ⟨⟨prio, k + bigStride / prio⟩⟩, { w.pm with
      manager := ⟨w.pm.manager.tasks.insert 1 ⟨⟨prio, k + bigStride / prio⟩⟩, [⟨0, ⟨2, s⟩⟩]⟩, current := some 1 }) := by
    have : Schedule.fetch w.pm.manager = _ := hfetch
    simp only [PManager.findNext, this]
    rfl
  have hpush : strideHeap.push [⟨0, ⟨2, s⟩⟩] ⟨1, ⟨prio, k + bigStride / prio⟩⟩ =
      [⟨1, ⟨prio, k + bigStride / prio⟩⟩, ⟨0, ⟨2, s⟩⟩] := by
    show List.orderedInsert _ _ _ = _
    exact if_pos hk
  have h1 : Exec KernelStep w [.fetch 1] _ := .single (.dispatch h.idle hnext rfl)
  have h2 : Exec KernelStep w [.fetch 1, .add 1] _ := h1.snoc (.suspend rfl rfl)
  refine ⟨_, h2, rfl, ?_, hpush⟩
  rfl

/-- The dispatches of process 1 until it has caught up. -/
theorem Ahead.rounds {prio s : Nat} (hprio : 2 ≤ prio) (hs : s < 2 ^ 64) (n : Nat) {k : Nat} {w : World (ProcManager strideHeap)}
    (h : Ahead prio k s w) (hk : k + n * (bigStride / prio) ≤ s) :
    ∃ row w', Exec KernelStep w row w' ∧ row.count (.fetch 1) = n ∧ (∀ id, .fetch id ∈ row → id = 1) ∧
      ∀ id prio, .setPriority id prio ∉ row := by
  induction n generalizing k w with
  | zero => exact ⟨[], w, .nil w, rfl, by simp, by simp⟩
  | succ n ih =>
    rw [Nat.add_mul, Nat.one_mul] at hk
    obtain ⟨w1, hround, h1⟩ := h.round hprio (by omega) hs
    obtain ⟨row, w', hrow, hcount, honly, hset⟩ := ih h1 (by omega)
    refine ⟨_, w', hround.append hrow, ?_, ?_, fun id prio hm => ?_⟩
    · rw [List.count_append, hcount, Nat.add_comm]
      rfl
    · intro id hm
      rcases List.mem_append.mp hm with hm | hm
      · simpa using hm
      · exact honly id hm
    · rcases List.mem_append.mp hm with hm | hm
      · simp at hm
      · exact hset id prio hm

theorem setPriority_eq {pm : PManager (ProcManager heap)} {id : ProcId} {t : Process} {prio : Nat} (hc : pm.current = some id)
    (ht : pm.manager.tasks id = some t) (hprio : 2 ≤ prio) : pm.setPriority prio =
    .ok (prio, { pm with manager := pm.manager.insert id ⟨⟨prio, t.stride.stride⟩⟩ }) := by
  have hget : pm.manager.getMut id = some t := ht
  have hle : (2 : Int) ≤ prio := by omega
  simp only [PManager.setPriority, ProcManager.setPriority, hc, hget, if_pos hle, Int.toNat_natCast]
  rfl

/-- Process 0 runs with priority 2 and adds process 1, which takes the priority `prio`. -/
theorem ahead_reached {prio : Nat} (hprio : 2 ≤ prio) : ∃ es w, Exec KernelStep World.boot es w ∧
    Ahead prio 12 212 w ∧ ∀ r : Int, .setPriority 1 r ∈ es → r ≤ prio := by
  have h1 : Exec KernelStep (World.boot : World (ProcManager strideHeap)) [.create 0] _ :=
    .single (@KernelStep.create _ _ 0 usizeMax _ (.inl ⟨rfl, rfl⟩) (by decide) rfl)
  have h2 := h1.snoc (.dispatch rfl rfl rfl)
  have h3 := h2.snoc (@KernelStep.setPriority _ _ 0 2 _ rfl (by decide) rfl)
  have h4 := h3.snoc (.suspend rfl rfl)
  have h5 := h4.snoc (.dispatch rfl rfl rfl)
  have h6 := h5.snoc (.suspend rfl rfl)
  have h7 := h6.snoc (.dispatch rfl rfl rfl)
  have h8 := h7.snoc (@KernelStep.create _ _ 1 0 _ (.inr rfl) (by decide) rfl)
  have h9 := h8.snoc (.suspend rfl rfl)
  have h10 := h9.snoc (.dispatch rfl rfl rfl)
  have h11 := h10.snoc (.setPriority rfl (by omega) (setPriority_eq rfl rfl hprio))
  have h12 := h11.snoc (.suspend rfl rfl)
  exact ⟨_, _, h12, ⟨rfl, rfl, rfl⟩, by simp⟩

/-- Process 0 runs with priority 2 and adds process 1 before it has run far; process 1 takes the
    priority 200. -/
theorem early_reached : ∃ es w, Exec EarlyStep (World.boot : World (ProcManager strideHeap)) es w ∧
    Ahead 200 13 112 w ∧ ∀ r : Int, .setPriority 1 r ∈ es → r ≤ (200 : Nat) := by
  have hother : ∀ {s : Sched strideHeap} {e : SchedEvent}, (∀ id, e ≠ .create id) → Early s e :=
    fun h id he => absurd he (h id)
  have h1 : Exec EarlyStep (World.boot : World (ProcManager strideHeap)) [.create 0] _ :=
    .single ⟨@KernelStep.create _ _ 0 usizeMax _ (.inl ⟨rfl, rfl⟩) (by decide) rfl, fun _ _ _ _ hu => by cases hu⟩
  have h2 := h1.snoc ⟨.dispatch rfl rfl rfl, hother (by simp)⟩
  have h3 := h2.snoc ⟨@KernelStep.setPriority _ _ 0 2 _ rfl (by decide) rfl, hother (by simp)⟩
  have h4 := h3.snoc ⟨@KernelStep.create _ _ 1 0 _ (.inr rfl) (by decide) rfl, fun _ _ q u hu => by
    -- process 0 is the only one, with stride 12
    by_cases hq : q = 0
    · subst hq
      cases hu
      decide
    · have hnone : (World.boot : World (ProcManager strideHeap)).pm.manager.tasks q = some u := by
        simpa [World.sched, ProcManager.insert, Manage.insert, hq] using hu
      cases hnone⟩
  have h5 := h4.snoc ⟨.suspend rfl rfl, hother (by simp)⟩
  have h6 := h5.snoc ⟨.dispatch rfl rfl rfl, hother (by simp)⟩
  have h7 := h6.snoc ⟨.setPriority rfl (by omega) (setPriority_eq rfl rfl (show 2 ≤ 200 by decide)), hother (by simp)⟩
  have h8 := h7.snoc ⟨.suspend rfl rfl, hother (by simp)⟩
  have h9 := h8.snoc ⟨.dispatch rfl rfl rfl, hother (by simp)⟩
  have h10 := h9.snoc ⟨.suspend rfl rfl, hother (by simp)⟩
  have h11 := h10.snoc ⟨.dispatch rfl rfl rfl, hother (by simp)⟩
  have h12 := h11.snoc ⟨.suspend rfl rfl, hother (by simp)⟩
  exact ⟨_, _, h12, ⟨rfl, rfl, rfl⟩, by simp⟩

/-- There process 1 is dispatched 99 times in a row past process 0. -/
theorem no_starvation_row : ∃ es w row w', Exec EarlyStep (World.boot : World (ProcManager strideHeap)) es w ∧
    Exec KernelStep w (.fetch 1 :: row) w' ∧ row.count (.fetch 1) = 98 ∧ 0 ∈ w'.pm.manager.ready ∧
    ∃ tp tq, w.pm.manager.tasks 1 = some tp ∧ w.pm.manager.tasks 0 = some tq ∧
      tp.stride.stride + 98 * (bigStride / 200) ≤ tq.stride.stride := by
  obtain ⟨es, w, hearly, h, hset⟩ := early_reached
  have hrun : Exec KernelStep (World.boot : World (ProcManager strideHeap)) es w := hearly.mono fun hs => hs.1
  obtain ⟨w₁, hfirst, h₁⟩ := h.round (by decide) (by decide) (by decide)
  obtain ⟨row, w', hrest, hcount, honly, hnone⟩ := h₁.rounds (by decide) (by decide) 98 (by decide)
  have hrow : Exec KernelStep w (.fetch 1 :: .add 1 :: row) w' := hfirst.append hrest
  have hready : 0 ∈ w.pm.manager.ready := by
    rw [ProcManager.ready, h.queue]
    simp
  have honly' : ∀ id, .fetch id ∈ SchedEvent.add 1 :: row → id = 1 := fun id hm =>
    honly id ((List.mem_cons.mp hm).resolve_left (by simp))
  have hprio : ∀ r : Int, .setPriority 1 r ∈ es ++ SchedEvent.add 1 :: row → r ≤ (200 : Nat) := by
    intro r hm
    rcases List.mem_append.mp hm with hm | hm
    · exact hset r hm
    · exact absurd ((List.mem_cons.mp hm).resolve_left (by simp)) (hnone 1 r)
  have hcount' : (SchedEvent.add 1 :: row).count (.fetch 1) = 98 := by
    rw [List.count_cons_of_ne (by simp), hcount]
  obtain ⟨hstay, hstrides, -⟩ := no_starvation hrun hrow honly' (by decide) hready (by decide) hprio
  rw [hcount'] at hstrides
  exact ⟨es, w, _, w', hearly, hrow, hcount', hstay, hstrides⟩

/-- A new process with priority 200 runs 150 times before the process that created it, which is
    ready with stride 212. -/
theorem new_process_first : ¬ NoStarvation strideHeap := by
  intro hno
  obtain ⟨es, w, hrun, h, -⟩ := @ahead_reached 200 (by decide)
  obtain ⟨row, w', hrow, hcount, honly, -⟩ := h.rounds (by decide) (by decide) 150 (by decide)
  have hready : 0 ∈ w.pm.manager.ready := by
    rw [ProcManager.ready, h.queue]
    simp
  have := hno hrun hrow honly (by decide) hready
  omega

/-- With a priority above `BIGSTRIDE` there is no last dispatch. -/
theorem pass_zero (n : Nat) : ∃ es row w w', Exec KernelStep (World.boot : World (ProcManager strideHeap)) es w ∧
    Exec KernelStep w row w' ∧ 0 ∈ w.pm.manager.ready ∧ row.count (.fetch 1) = n ∧ ∀ id, .fetch id ∈ row → id = 1 := by
  obtain ⟨es, w, hrun, h, -⟩ := @ahead_reached 201 (by decide)
  obtain ⟨row, w', hrow, hcount, honly, -⟩ := h.rounds (by decide) (by decide) n (by
    show 12 + n * 0 ≤ 212
    omega)
  refine ⟨es, row, w, w', hrun, hrow, ?_, hcount, honly⟩
  rw [ProcManager.ready, h.queue]
  simp

end TgRcore.Task
