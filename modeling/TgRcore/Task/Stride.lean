/-
  TgRcore.Task.Stride — stride scheduling of chapter 5 over the runs of `ProcManager`.

  The heap keeps a copy of the stride. `fetch` updates the process table alone; the copy is
  made anew when the process is ready again.
  - `SchedStep`: what the kernel does with the manager between two fetches.
  - `Sound`: the copies agree with the table; kept by every step.
  - `stride_fair`: the smallest stride is fetched, the strides stay within half of
    `BIGSTRIDE` of each other, and so do the weighted dispatch counts.
-/

import TgRcore.Task.ProcTable

namespace TgRcore.Task

open TgRcore.BlockProg

variable {heap : BinaryHeap StridePair StridePair.le}

/-! ## The calls -/

namespace ProcManager

/-- `set_priority` of the process `current`; the value is what the call returns. -/
def setPriority (m : ProcManager heap) (current : ProcId) (prio : Int) : Except Halt (Int × ProcManager heap) :=
  match m.getMut current with
  | none => .error .panic
  | some task =>
    if 2 ≤ prio then .ok (prio, m.insert current { task with stride.priority := prio.toNat }) else .ok (-1, m)

variable {m m' : ProcManager heap} {id : ProcId} {x : StridePair} {queue : List StridePair} {t : Process}

theorem update_eq {s : Stride} (h : 2 ≤ s.priority) : s.update =
    if s.stride + bigStride / s.priority < 2 ^ 64 then .ok ⟨s.priority, s.stride + bigStride / s.priority⟩
    else .error .panic := by
  have h0 : s.priority ≠ 0 := by omega
  simp only [Stride.update, Stride.getPass, if_neg h0]
  rfl

theorem fetch_eq (hp : heap.pop m.readyQueue = some (x, queue)) (ht : m.tasks x.id = some t) (h : 2 ≤ t.stride.priority) :
    m.fetch = if t.stride.stride + bigStride / t.stride.priority < 2 ^ 64 then
        .ok (some x.id, ⟨m.tasks.insert x.id
          ⟨⟨t.stride.priority, t.stride.stride + bigStride / t.stride.priority⟩⟩, queue⟩)
      else .error .panic := by
  simp only [fetch, hp, ht, update_eq h]
  split
  · rfl
  · rfl

/-- What `fetch` did when it returned a process. -/
theorem fetch_some (h : m.fetch = .ok (some id, m')) : ∃ x queue t, heap.pop m.readyQueue = some (x, queue) ∧ id = x.id ∧
    m.tasks id = some t ∧ ∃ s, t.stride.update = .ok s ∧ m' = ⟨m.tasks.insert id ⟨s⟩, queue⟩ := by
  unfold fetch at h
  split at h
  · cases h
  · rename_i x queue hp
    split at h
    · cases h
    · rename_i t ht
      obtain ⟨s, hs, h⟩ := bind_eq_ok.mp h
      cases h
      exact ⟨x, queue, t, hp, rfl, ht, s, hs, rfl⟩

theorem add_some (h : m.add id = .ok m') :
    ∃ t, m.tasks id = some t ∧ m' = ⟨m.tasks, heap.push m.readyQueue ⟨id, t.stride⟩⟩ := by
  unfold add at h
  split at h
  · cases h
  · rename_i t ht
    cases h
    exact ⟨t, ht, rfl⟩

theorem setPriority_some {prio : Int} (h : m.setPriority id prio = .ok (prio, m')) (hp : 2 ≤ prio) :
    ∃ t, m.tasks id = some t ∧ m' = ⟨m.tasks.insert id ⟨⟨prio.toNat, t.stride.stride⟩⟩, m.readyQueue⟩ := by
  unfold setPriority at h
  split at h
  · cases h
  · rename_i t ht
    rw [if_pos hp] at h
    cases h
    exact ⟨t, ht, rfl⟩

end ProcManager

/-! ## Runs -/

/-- The manager and the process taken out of the ready queue. -/
structure Sched (heap : BinaryHeap StridePair StridePair.le) where
  manager : ProcManager heap
  current : Option ProcId

/-- `call` stands for everything that leaves the scheduler alone. -/
inductive SchedEvent where
  | fetch (id : ProcId)
  | setPriority (id : ProcId) (prio : Int)
  | add (id : ProcId)
  | delete (id : ProcId)
  | create (id : ProcId)
  | call
  deriving DecidableEq

inductive SchedStep : Sched heap → SchedEvent → Sched heap → Prop
  | fetch {s : Sched heap} {id : ProcId} {m : ProcManager heap} : s.current = none →
      s.manager.fetch = .ok (some id, m) → SchedStep s (.fetch id) ⟨m, some id⟩
  | setPriority {s : Sched heap} {id : ProcId} {prio : Int} {m : ProcManager heap} : s.current = some id → 2 ≤ prio →
      s.manager.setPriority id prio = .ok (prio, m) → SchedStep s (.setPriority id prio) ⟨m, s.current⟩
  | add {s : Sched heap} {id : ProcId} {m : ProcManager heap} : s.current = some id →
      s.manager.add id = .ok m → SchedStep s (.add id) ⟨m, none⟩
  | delete {s : Sched heap} {id : ProcId} : s.current = some id →
      SchedStep s (.delete id) ⟨s.manager.delete id, none⟩
  | create {s : Sched heap} {id : ProcId} {m : ProcManager heap} : s.manager.tasks id = none →
      (s.manager.insert id ⟨.new⟩).add id = .ok m → SchedStep s (.create id) ⟨m, s.current⟩
  | call {s : Sched heap} : SchedStep s .call s

/-- The processes of a list come in, one after the other. -/
def ProcManager.load : List (ProcId × Stride) → Except Halt (ProcManager heap) :=
  fun start => start.foldlM (fun m p => (m.insert p.1 ⟨p.2⟩).add p.1) .new

/-! ## The copies in the heap -/

structure Sound (s : Sched heap) : Prop where
  wf : heap.WF s.manager.readyQueue
  nodup : s.manager.ready.Nodup
  copy : ∀ {x}, x ∈ s.manager.readyQueue → s.manager.tasks x.id = some ⟨x.stride⟩
  here : ∀ {id}, s.current = some id → (s.manager.tasks id).isSome = true
  live : ∀ {id}, (s.manager.tasks id).isSome = true → s.current = some id ∨ id ∈ s.manager.ready
  apart : ∀ {id}, s.current = some id → id ∉ s.manager.ready
  priority : ∀ {id t}, s.manager.tasks id = some t → 2 ≤ t.stride.priority

theorem sound_new : Sound (⟨.new, none⟩ : Sched heap) := by
  refine ⟨heap.wf_nil, List.nodup_nil, ?_, ?_, ?_, ?_, ?_⟩
  · intro x hx
    cases hx
  · intro id h
    cases h
  · intro id h
    cases h
  · intro id h
    cases h
  · intro id t h
    cases h

section

variable {s s' : Sched heap} {e : SchedEvent} {id : ProcId} {x : StridePair} {queue : List StridePair} {t : Process}

theorem Sound.mem_ready (h : Sound s) (hid : id ∈ s.manager.ready) :
    ∃ x ∈ s.manager.readyQueue, x.id = id ∧ s.manager.tasks id = some ⟨x.stride⟩ := by
  obtain ⟨x, hx, rfl⟩ := List.mem_map.mp hid
  exact ⟨x, hx, rfl, h.copy hx⟩

/-- The item on top of the heap has a smallest stride of all processes. -/
theorem Sound.least (h : Sound s) (hc : s.current = none) (hp : heap.pop s.manager.readyQueue = some (x, queue))
    (ht : s.manager.tasks id = some t) : x.stride.stride ≤ t.stride.stride := by
  rcases h.live (by rw [ht]; rfl) with hid | hid
  · rw [hc] at hid
    cases hid
  · obtain ⟨y, hy, rfl, hyt⟩ := h.mem_ready hid
    cases ht.symm.trans hyt
    rcases List.mem_cons.mp ((heap.pop_perm hp).mem_iff.mp hy) with rfl | hy
    · exact le_rfl
    · exact heap.pop_greatest h.wf hp y hy

/-- A process outside the heap is put into it with its own stride. -/
theorem Sound.push {tasks : BTreeMap ProcId Process} (h : Sound s) (hid : id ∉ s.manager.ready) (ht : tasks id = some t)
    (hrest : ∀ q, q ≠ id → tasks q = s.manager.tasks q) (hprio : 2 ≤ t.stride.priority) :
    let m : ProcManager heap := ⟨tasks, heap.push s.manager.readyQueue ⟨id, t.stride⟩⟩
    heap.WF m.readyQueue ∧ m.ready.Nodup ∧ (∀ q, q ∈ m.ready ↔ q = id ∨ q ∈ s.manager.ready) ∧
      (∀ x ∈ m.readyQueue, tasks x.id = some ⟨x.stride⟩) ∧ ∀ q u, tasks q = some u → 2 ≤ u.stride.priority := by
  intro m
  have hperm : m.ready.Perm (id :: s.manager.ready) := heap.push_perm.map StridePair.id
  refine ⟨heap.wf_push h.wf, ?_, ?_, ?_, ?_⟩
  · exact hperm.nodup_iff.mpr (List.nodup_cons.mpr ⟨hid, h.nodup⟩)
  · intro q
    rw [hperm.mem_iff, List.mem_cons]
  · intro x hx
    rcases List.mem_cons.mp (heap.push_perm.mem_iff.mp hx) with rfl | hx
    · exact ht
    · have hne : x.id ≠ id := fun e => hid (e ▸ List.mem_map_of_mem hx)
      rw [hrest _ hne]
      exact h.copy hx
  · intro q u hu
    by_cases hq : q = id
    · rw [hq, ht, Option.some.injEq] at hu
      exact hu ▸ hprio
    · rw [hrest q hq] at hu
      exact h.priority hu

theorem Sound.create {m : ProcManager heap} (h : Sound s) (hid : s.manager.tasks id = none) (hprio : 2 ≤ t.stride.priority)
    (hm : (s.manager.insert id t).add id = .ok m) : Sound ⟨m, s.current⟩ := by
  obtain ⟨u, hu, rfl⟩ := ProcManager.add_some hm
  have hnew : t = u := by
    change s.manager.tasks.insert id t id = some u at hu
    rw [BTreeMap.insert_apply, if_pos rfl] at hu
    exact Option.some.inj hu
  subst hnew
  have hready : id ∉ s.manager.ready := by
    intro hmem
    obtain ⟨x, -, -, hx⟩ := h.mem_ready hmem
    rw [hid] at hx
    cases hx
  have hrest : ∀ q, q ≠ id → (s.manager.insert id t).tasks q = s.manager.tasks q := by
    intro q hq
    show s.manager.tasks.insert id t q = _
    rw [BTreeMap.insert_apply, if_neg hq]
  obtain ⟨hwf, hnd, hmem, hcopy, hprio⟩ := h.push hready hu hrest hprio
  refine ⟨hwf, hnd, fun hx => hcopy _ hx, ?_, ?_, ?_, fun hv => hprio _ _ hv⟩
  · intro q hq
    exact (BTreeMap.isSome_insert _ _ _ _).mpr (.inr (h.here hq))
  · intro q hq
    rcases (BTreeMap.isSome_insert _ _ _ _).mp hq with rfl | hq
    · exact .inr ((hmem _).mpr (.inl rfl))
    · exact (h.live hq).imp_right fun hq => (hmem q).mpr (.inr hq)
  · intro q hcq hq
    rcases (hmem q).mp hq with rfl | hq
    · have hsome := h.here hcq
      rw [hid] at hsome
      cases hsome
    · exact h.apart hcq hq

theorem Sound.step (h : Sound s) (hs : SchedStep s e s') : Sound s' := by
  cases hs with
  | @fetch id m hc hf =>
    obtain ⟨x, queue, t, hp, rfl, ht, u, hu, rfl⟩ := ProcManager.fetch_some hf
    have hprio := h.priority ht
    rw [ProcManager.update_eq hprio] at hu
    have hperm : s.manager.ready.Perm (x.id :: queue.map StridePair.id) := (heap.pop_perm hp).map StridePair.id
    have hnd := List.nodup_cons.mp (hperm.nodup_iff.mp h.nodup)
    refine ⟨heap.wf_pop h.wf hp, hnd.2, ?_, ?_, ?_, ?_, ?_⟩
    · intro y hy
      have hne : y.id ≠ x.id := fun e => hnd.1 (e ▸ List.mem_map_of_mem hy)
      show s.manager.tasks.insert x.id ⟨u⟩ y.id = _
      rw [BTreeMap.insert_apply, if_neg hne]
      exact h.copy ((heap.pop_perm hp).mem_iff.mpr (List.mem_cons_of_mem _ hy))
    · intro q hq
      cases hq
      exact (BTreeMap.isSome_insert _ _ _ _).mpr (.inl rfl)
    · intro q hq
      rcases (BTreeMap.isSome_insert _ _ _ _).mp hq with rfl | hq
      · exact .inl rfl
      · rcases h.live hq with hcq | hmem
        · rw [hc] at hcq
          cases hcq
        · rcases List.mem_cons.mp (hperm.mem_iff.mp hmem) with rfl | hmem
          · exact .inl rfl
          · exact .inr hmem
    · intro q hq
      cases hq
      exact hnd.1
    · intro q v hv
      change s.manager.tasks.insert x.id ⟨u⟩ q = some v at hv
      rw [BTreeMap.insert_apply] at hv
      split at hv
      · cases hv
        split at hu
        · cases hu
          exact hprio
        · cases hu
      · exact h.priority hv
  | @setPriority id prio m hc hprio hm =>
    obtain ⟨t, ht, rfl⟩ := ProcManager.setPriority_some hm hprio
    refine ⟨h.wf, h.nodup, ?_, ?_, ?_, h.apart, ?_⟩
    · intro x hx
      have hne : x.id ≠ id := fun e => h.apart hc (e ▸ List.mem_map_of_mem hx)
      show s.manager.tasks.insert id _ x.id = _
      rw [BTreeMap.insert_apply, if_neg hne]
      exact h.copy hx
    · intro q hq
      exact (BTreeMap.isSome_insert _ _ _ _).mpr (.inr (h.here hq))
    · intro q hq
      rcases (BTreeMap.isSome_insert _ _ _ _).mp hq with rfl | hq
      · exact .inl hc
      · exact h.live hq
    · intro q v hv
      change s.manager.tasks.insert id _ q = some v at hv
      rw [BTreeMap.insert_apply] at hv
      split at hv
      · cases hv
        show 2 ≤ prio.toNat
        omega
      · exact h.priority hv
  | @add id m hc hm =>
    obtain ⟨t, ht, rfl⟩ := ProcManager.add_some hm
    obtain ⟨hwf, hnd, hmem, hcopy, hprio⟩ := h.push (h.apart hc) ht (fun _ _ => rfl) (h.priority ht)
    refine ⟨hwf, hnd, fun hx => hcopy _ hx, by simp, ?_, by simp, fun hv => hprio _ _ hv⟩
    intro q hq
    refine .inr ((hmem q).mpr ?_)
    rcases h.live hq with hcq | hq
    · rw [hc, Option.some.injEq] at hcq
      exact .inl hcq.symm
    · exact .inr hq
  | @delete id hc =>
    refine ⟨h.wf, h.nodup, ?_, by simp, ?_, by simp, ?_⟩
    · intro x hx
      have hne : x.id ≠ id := fun e => h.apart hc (e ▸ List.mem_map_of_mem hx)
      show s.manager.tasks.remove id x.id = _
      rw [BTreeMap.remove_apply, if_neg hne]
      exact h.copy hx
    · intro q hq
      obtain ⟨hne, hq⟩ := (BTreeMap.isSome_remove _ _ _).mp hq
      rcases h.live hq with hcq | hq
      · rw [hc, Option.some.injEq] at hcq
        exact absurd hcq.symm hne
      · exact .inr hq
    · intro q v hv
      change s.manager.tasks.remove id q = some v at hv
      rw [BTreeMap.remove_apply] at hv
      split at hv
      · cases hv
      · exact h.priority hv
  | create hid hm => exact h.create hid (by decide) hm
  | call => exact h

theorem sound_run {es : List SchedEvent} (h : Sound s) (hrun : Exec SchedStep s es s') : Sound s' :=
  hrun.inv (P := fun _ s => Sound s) h fun h hs => h.step hs

/-! ## What a step does to the strides -/

/-- A process after a step: new, fetched, with another priority, or as it was. -/
theorem SchedStep.tasks (hs : SchedStep s e s') (hi : Sound s) (ht : s'.manager.tasks id = some t) :
    (e = .create id ∧ s.manager.tasks id = none ∧ t = ⟨.new⟩) ∨ ∃ u, s.manager.tasks id = some u ∧
      (e = .fetch id ∧ t.stride = ⟨u.stride.priority, u.stride.stride + bigStride / u.stride.priority⟩ ∨
        (∃ prio, e = .setPriority id prio ∧ s.current = some id ∧ t.stride = ⟨prio.toNat, u.stride.stride⟩) ∨
        t = u ∧ e ≠ .fetch id ∧ ∀ prio, e ≠ .setPriority id prio) := by
  cases hs with
  | @fetch k m hc hf =>
    obtain ⟨x, queue, u, hp, rfl, hu, v, hv, rfl⟩ := ProcManager.fetch_some hf
    rw [ProcManager.update_eq (hi.priority hu)] at hv
    split at hv
    · cases hv
      change s.manager.tasks.insert x.id _ id = some t at ht
      rw [BTreeMap.insert_apply] at ht
      split at ht
      · rename_i e
        cases ht
        exact .inr ⟨u, e ▸ hu, .inl ⟨by rw [e], rfl⟩⟩
      · rename_i e
        exact .inr ⟨t, ht, .inr (.inr ⟨rfl, fun h => e (SchedEvent.fetch.inj h).symm, by simp⟩)⟩
    · cases hv
  | @setPriority k prio m hc hprio hm =>
    obtain ⟨u, hu, rfl⟩ := ProcManager.setPriority_some hm hprio
    change s.manager.tasks.insert k _ id = some t at ht
    rw [BTreeMap.insert_apply] at ht
    split at ht
    · rename_i e
      cases ht
      exact .inr ⟨u, e ▸ hu, .inr (.inl ⟨prio, by rw [e], e ▸ hc, rfl⟩)⟩
    · rename_i e
      exact .inr ⟨t, ht, .inr (.inr ⟨rfl, by simp, fun _ h => e (SchedEvent.setPriority.inj h).1.symm⟩)⟩
  | @add k m hc hm =>
    obtain ⟨u, hu, rfl⟩ := ProcManager.add_some hm
    exact .inr ⟨t, ht, .inr (.inr ⟨rfl, by simp, by simp⟩)⟩
  | @delete k hc =>
    change s.manager.tasks.remove k id = some t at ht
    rw [BTreeMap.remove_apply] at ht
    split at ht
    · cases ht
    · exact .inr ⟨t, ht, .inr (.inr ⟨rfl, by simp, by simp⟩)⟩
  | @create k m hk hm =>
    obtain ⟨u, hu, rfl⟩ := ProcManager.add_some hm
    change s.manager.tasks.insert k _ id = some t at ht
    rw [BTreeMap.insert_apply] at ht
    split at ht
    · rename_i e
      cases ht
      exact .inl ⟨by rw [e], e ▸ hk, rfl⟩
    · exact .inr ⟨t, ht, .inr (.inr ⟨rfl, by simp, by simp⟩)⟩
  | call => exact .inr ⟨t, ht, .inr (.inr ⟨rfl, by simp, by simp⟩)⟩

/-- The process that is fetched was ready, with a smallest stride of all. -/
theorem SchedStep.fetched (hs : SchedStep s (.fetch id) s') (hi : Sound s) :
    id ∈ s.manager.ready ∧ ∃ t, s.manager.tasks id = some t ∧
      ∀ {q u}, s.manager.tasks q = some u → t.stride.stride ≤ u.stride.stride := by
  cases hs with
  | fetch hc hf =>
    obtain ⟨x, queue, t, hp, rfl, ht, -⟩ := ProcManager.fetch_some hf
    have hx : x ∈ s.manager.readyQueue := (heap.pop_perm hp).mem_iff.mpr List.mem_cons_self
    refine ⟨List.mem_map_of_mem hx, t, ht, fun hu => ?_⟩
    rw [hi.copy hx, Option.some.injEq] at ht
    rw [← ht]
    exact hi.least hc hp hu

theorem pass_le {n : Nat} (h : 2 ≤ n) : bigStride / n ≤ bigStride / 2 :=
  Nat.div_le_div_left h (by decide)

/-! ## The spread of the strides -/

/-- No two strides are more than half of `BIGSTRIDE` apart. -/
def Spread (s : Sched heap) : Prop :=
  ∀ ⦃i j t u⦄, s.manager.tasks i = some t → s.manager.tasks j = some u → t.stride.stride ≤ u.stride.stride + bigStride / 2

/-- A process comes in while nobody has run further than half of `BIGSTRIDE`. -/
def Early (s : Sched heap) (e : SchedEvent) : Prop :=
  ∀ ⦃id⦄, e = .create id → ∀ ⦃q u⦄, s.manager.tasks q = some u → u.stride.stride ≤ bigStride / 2

theorem Spread.step (h : Spread s) (hi : Sound s) (hs : SchedStep s e s') (hearly : Early s e) : Spread s' := by
  intro i j t u ht hu
  rcases hs.tasks hi ht with ⟨-, -, rfl⟩ | ⟨t0, ht0, ht⟩
  · exact Nat.zero_le _
  rcases hs.tasks hi hu with ⟨rfl, -, rfl⟩ | ⟨u0, hu0, hu⟩
  · rcases ht with ⟨he, -⟩ | ⟨prio, he, -⟩ | ⟨rfl, -⟩
    · cases he
    · cases he
    · exact (hearly rfl ht0).trans (Nat.le_add_left _ _)
  have hu_le : u0.stride.stride ≤ u.stride.stride := by
    rcases hu with ⟨-, hu⟩ | ⟨prio, -, -, hu⟩ | ⟨rfl, -⟩
    · rw [hu]
      exact Nat.le_add_right _ _
    · rw [hu]
    · exact le_rfl
  have h0 := h ht0 hu0
  rcases ht with ⟨rfl, ht⟩ | ⟨prio, -, -, ht⟩ | ⟨rfl, -⟩
  · -- `i` was fetched: its stride was a smallest one and grows by its pass
    obtain ⟨-, t1, ht1, hleast⟩ := hs.fetched hi
    cases ht0.symm.trans ht1
    have hpass := pass_le (hi.priority ht0)
    have hle := hleast hu0
    rw [ht]
    show t0.stride.stride + _ ≤ _
    omega
  · rw [ht]
    show t0.stride.stride ≤ _
    omega
  · omega

/-! ## Dispatch counts -/

/-- How often a process that keeps its priority was fetched can be read off its stride. -/
theorem fetch_count {es : List SchedEvent} (hi : Sound s) (hrun : Exec SchedStep s es s') {t0 : Process}
    (h0 : s.manager.tasks id = some t0) (hkeep : ∀ prio, .setPriority id prio ∈ es → prio.toNat = t0.stride.priority)
    (hnew : .create id ∉ es) (ht : s'.manager.tasks id = some t) : t.stride = ⟨t0.stride.priority,
      t0.stride.stride + es.count (.fetch id) * (bigStride / t0.stride.priority)⟩ := by
  induction hrun generalizing t with
  | nil =>
    cases h0.symm.trans ht
    simp
  | @snoc a b es e hab hs ih =>
    have hsound := sound_run hi hab
    have hkeep0 : ∀ prio, .setPriority id prio ∈ es → prio.toNat = t0.stride.priority :=
      fun prio hm => hkeep prio (List.mem_append_left _ hm)
    have hnew0 : .create id ∉ es := fun hm => hnew (List.mem_append_left _ hm)
    rw [List.count_append, List.count_singleton]
    rcases hs.tasks hsound ht with ⟨rfl, -⟩ | ⟨u, hu, h⟩
    · exact absurd (List.mem_append_right _ (List.mem_singleton_self _)) hnew
    have hu0 := ih hkeep0 hnew0 hu
    rcases h with ⟨rfl, h⟩ | ⟨prio, rfl, -, h⟩ | ⟨rfl, hne, -⟩
    · rw [h, hu0]
      simp [Nat.add_mul, Nat.add_assoc]
    · rw [h, hu0, hkeep prio (List.mem_append_right _ (List.mem_singleton_self _))]
      simp
    · rw [hu0, if_neg (by simpa using hne), Nat.add_zero]

end

/-! ## A set of processes with equal strides -/

/-- The dispatches of a process times its pass. -/
def served (es : List SchedEvent) (id : ProcId) (s : Stride) : Nat := es.count (.fetch id) * (bigStride / s.priority)

theorem load_from {start : List (ProcId × Stride)} {m0 m : ProcManager heap} (hi : Sound ⟨m0, none⟩)
    (hids : (start.map Prod.fst).Nodup) (hfree : ∀ p ∈ start, m0.tasks p.1 = none) (hprio : ∀ p ∈ start, 2 ≤ p.2.priority)
    (h : start.foldlM (fun m p => (m.insert p.1 ⟨p.2⟩).add p.1) m0 = .ok m) :
    Sound ⟨m, none⟩ ∧ ∀ q t, m.tasks q = some t ↔ m0.tasks q = some t ∨ (q, t.stride) ∈ start := by
  induction start generalizing m0 with
  | nil =>
    cases h
    exact ⟨hi, by simp⟩
  | cons p start ih =>
    rw [List.foldlM_cons] at h
    obtain ⟨m1, h1, h⟩ := bind_eq_ok.mp h
    rw [List.map_cons, List.nodup_cons] at hids
    have hp := hfree p List.mem_cons_self
    obtain ⟨u, hu, hm1⟩ := ProcManager.add_some h1
    have htasks : ∀ q, m1.tasks q = if q = p.1 then some ⟨p.2⟩ else m0.tasks q := by
      intro q
      rw [hm1]
      exact BTreeMap.insert_apply _ _ _ _
    have hfree1 : ∀ q ∈ start, m1.tasks q.1 = none := by
      intro q hq
      have hne : q.1 ≠ p.1 := fun e => hids.1 (e ▸ List.mem_map_of_mem hq)
      rw [htasks, if_neg hne]
      exact hfree q (List.mem_cons_of_mem _ hq)
    obtain ⟨hsound, hall⟩ := ih (hi.create (t := ⟨p.2⟩) hp (hprio p List.mem_cons_self) h1) hids.2 hfree1
      (fun q hq => hprio q (List.mem_cons_of_mem _ hq)) h
    refine ⟨hsound, fun q t => ?_⟩
    rw [hall, htasks, List.mem_cons]
    split
    · rename_i e
      rw [e, hp]
      refine ⟨?_, ?_⟩
      · rintro (h | h)
        · cases h
          exact .inr (.inl rfl)
        · exact .inr (.inr h)
      · rintro (h | h | h)
        · cases h
        · exact .inl (by rw [← h])
        · exact .inr h
    · rename_i e
      refine ⟨Or.imp_right .inr, ?_⟩
      rintro (h | h | h)
      · exact .inl h
      · exact absurd (congrArg Prod.fst h) e
      · exact .inr h

/-- Stride scheduling from any set of processes with one stride and no new process: the copies
    in the heap are true, `fetch` takes a smallest stride, the strides stay together, and so do
    the dispatch counts weighted with the passes. -/
theorem stride_fair {start : List (ProcId × Stride)} {c : Nat} {m0 : ProcManager heap} {es : List SchedEvent}
    {s : Sched heap} (hids : (start.map Prod.fst).Nodup) (hequal : ∀ p ∈ start, p.2.stride = c)
    (hprio : ∀ p ∈ start, 2 ≤ p.2.priority) (hload : ProcManager.load start = .ok m0)
    (hrun : Exec SchedStep ⟨m0, none⟩ es s) (hnew : ∀ id, .create id ∉ es) :
    (∀ x ∈ s.manager.readyQueue, s.manager.tasks x.id = some ⟨x.stride⟩) ∧
    (s.current = none →
      s.manager.ready = [] ∧ (∀ id, s.manager.tasks id = none) ∧ s.manager.fetch = .ok (none, s.manager) ∨
      ∃ id t, id ∈ s.manager.ready ∧ s.manager.tasks id = some t ∧
        (∀ q u, q ∈ s.manager.ready → s.manager.tasks q = some u → t.stride.stride ≤ u.stride.stride) ∧
        if t.stride.stride + bigStride / t.stride.priority < 2 ^ 64 then ∃ m, s.manager.fetch = .ok (some id, m)
        else s.manager.fetch = .error .panic) ∧
    (∀ i j t u, s.manager.tasks i = some t → s.manager.tasks j = some u →
      t.stride.stride - u.stride.stride ≤ bigStride / 2) ∧
    ∀ i j a b, (i, a) ∈ start → (j, b) ∈ start →
      (s.manager.tasks i).isSome = true → (s.manager.tasks j).isSome = true →
      (∀ prio, .setPriority i prio ∈ es → prio.toNat = a.priority) →
      (∀ prio, .setPriority j prio ∈ es → prio.toNat = b.priority) →
      ((served es i a : Int) - served es j b).natAbs ≤ bigStride / 2 := by
  obtain ⟨hi0, hall⟩ := load_from sound_new hids (fun _ _ => rfl) hprio hload
  have hstart : ∀ {q t}, m0.tasks q = some t ↔ (q, t.stride) ∈ start := by
    intro q t
    rw [hall]
    exact or_iff_right (by simp [ProcManager.new, BTreeMap.empty])
  have hi := sound_run hi0 hrun
  have hspread : Spread s := by
    have hall : (∀ id, .create id ∉ es) → Sound s ∧ Spread s := by
      refine hrun.inv (P := fun es s => (∀ id, .create id ∉ es) → Sound s ∧ Spread s) (fun _ => ⟨hi0, ?_⟩) ?_
      · intro i j t u ht hu
        rw [hequal _ (hstart.mp ht), hequal _ (hstart.mp hu)]
        exact Nat.le_add_right _ _
      · intro es t e u ih hs hno
        obtain ⟨h1, h2⟩ := ih fun id hm => hno id (List.mem_append_left _ hm)
        refine ⟨h1.step hs, h2.step h1 hs fun id he => absurd ?_ (hno id)⟩
        exact List.mem_append_right _ (List.mem_singleton.mpr he.symm)
    exact (hall hnew).2
  refine ⟨fun x hx => hi.copy hx, ?_, ?_, ?_⟩
  · intro hc
    cases hp : heap.pop s.manager.readyQueue with
    | none =>
      have hnil : s.manager.ready = [] := by
        rw [ProcManager.ready, heap.pop_none.mp hp]
        rfl
      refine .inl ⟨hnil, fun id => ?_, by simp only [ProcManager.fetch, hp]⟩
      rw [← Option.not_isSome_iff_eq_none]
      intro hid
      rcases hi.live hid with h | h
      · rw [hc] at h
        cases h
      · rw [hnil] at h
        cases h
    | some xq =>
      obtain ⟨x, queue⟩ := xq
      have hx : x ∈ s.manager.readyQueue := (heap.pop_perm hp).mem_iff.mpr List.mem_cons_self
      have ht := hi.copy hx
      refine .inr ⟨x.id, ⟨x.stride⟩, List.mem_map_of_mem hx, ht, fun q u _ hu => hi.least hc hp hu, ?_⟩
      rw [ProcManager.fetch_eq hp ht (hi.priority ht)]
      split
      · exact ⟨_, rfl⟩
      · rfl
  · intro i j t u ht hu
    have := hspread ht hu
    omega
  · intro i j a b ha hb hi' hj hia hjb
    obtain ⟨t, ht⟩ := Option.isSome_iff_exists.mp hi'
    obtain ⟨u, hu⟩ := Option.isSome_iff_exists.mp hj
    have h1 := fetch_count hi0 hrun ((hstart (t := ⟨a⟩)).mpr ha) hia (hnew i) ht
    have h2 := fetch_count hi0 hrun ((hstart (t := ⟨b⟩)).mpr hb) hjb (hnew j) hu
    have h3 := hspread ht hu
    have h4 := hspread hu ht
    rw [h1, h2, hequal _ ha, hequal _ hb] at h3
    rw [h1, h2, hequal _ ha, hequal _ hb] at h4
    change c + served es i a ≤ c + served es j b + bigStride / 2 at h3
    change c + served es j b ≤ c + served es i a + bigStride / 2 at h4
    omega

theorem stride_fair_two : ∃ m s, @ProcManager.load strideHeap [(0, ⟨16, 0⟩), (1, ⟨8, 0⟩)] = .ok m ∧
    Exec SchedStep ⟨m, none⟩ [.fetch 1, .add 1] s ∧
    ((served [.fetch 1, .add 1] 0 ⟨16, 0⟩ : Int) - served [.fetch 1, .add 1] 1 ⟨8, 0⟩).natAbs ≤ bigStride / 2 := by
  have h1 : Exec SchedStep (⟨⟨(BTreeMap.empty.insert 0 ⟨⟨16, 0⟩⟩).insert 1 ⟨⟨8, 0⟩⟩,
      [⟨1, ⟨8, 0⟩⟩, ⟨0, ⟨16, 0⟩⟩]⟩, none⟩ : Sched strideHeap) [.fetch 1] _ := .single (.fetch rfl rfl)
  have h2 : Exec SchedStep _ [.fetch 1, .add 1] _ := h1.snoc (.add rfl rfl)
  refine ⟨_, _, rfl, h2, ?_⟩
  have h := @stride_fair strideHeap [(0, ⟨16, 0⟩), (1, ⟨8, 0⟩)] 0 _ _ _ (by decide) (by decide) (by decide) rfl h2 (by simp)
  exact h.2.2.2 0 1 ⟨16, 0⟩ ⟨8, 0⟩ (by decide) (by decide) rfl rfl (by simp) (by simp)

end TgRcore.Task
