/-
  TgRcore.Kernel.RoundRobin — the multiprogramming loop of chapter 3.

  The inner loop runs one task until its slice ends; the outer one goes round the table and passes
  over the tasks that have finished. What a task does is its traps'.
  - `run_rotates`: the slices of a run are a rotation of the tasks that have not finished.
  - `round_robin_iff`: the loop keeps going as a rotation should iff the calls have a counter and
    a method the chapter has written.
  - `thread_create_panics`: a task that makes an unsupported call, which the loop would kill, panics
    the kernel.
-/

import TgRcore.Lib.Rotation
import TgRcore.Kernel.Syscall

namespace TgRcore.Ch3

open TgRcore.Syscall TgRcore.Rotation

def context : SyscallContext where
  traits := [.io, .process, .scheduling, .clock, .trace]
  methods := [.write, .exit, .schedYield, .clockGettime, .trace]

abbrev APP_CAPACITY : Nat := 32

/-- The context and the stack of a task are left to its traps. -/
structure TaskControlBlock where
  finish : Bool
  syscallCount : List Nat
  deriving Repr

def TaskControlBlock.ZERO : TaskControlBlock := ⟨false, List.replicate MAX_SYSCALL_NUM 0⟩

def TaskControlBlock.init (tcb : TaskControlBlock) : TaskControlBlock := { tcb with finish := false }

inductive SchedulingEvent
  | none
  | yield
  | exit (code : Nat)
  | unsupportedSyscall (id : SyscallId)
  deriving DecidableEq, Repr

def u32Max : Nat := 2 ^ 32 - 1

def SchedulingEvent.of (id : SyscallId) (args : Args) : SyscallResult → SchedulingEvent
  | .done _ =>
    if id = SyscallId.EXIT then .exit args.a0
    else if id = SyscallId.SCHED_YIELD then .yield
    else .none
  | .unsupported _ => .unsupportedSyscall id

/-- The handlers this model leaves open return `answer`. -/
def TaskControlBlock.handleSyscall (tcb : TaskControlBlock) (id : SyscallId) (args : Args) (answer : Int) :
    Except Panic (TaskControlBlock × SchedulingEvent) := do
  let syscallCount ← count u32Max tcb.syscallCount id
  let ret ← handle context (serve syscallCount args (some answer)) id
  .ok ({ tcb with syscallCount }, .of id args ret)

inductive Trap
  | supervisorTimer
  | userEnvCall (a7 : SyscallId) (args : Args) (answer : Int)
  | exception
  | interrupt

/-- Whether the slice ends the task; `none` is `continue`. -/
def SchedulingEvent.finish : SchedulingEvent → Option Bool
  | none => .none
  | exit _ => some true
  | yield => some false
  | unsupportedSyscall _ => some true

/-- The match on the cause of the trap. -/
def TaskControlBlock.trapped (tcb : TaskControlBlock) : Trap → Except Panic (TaskControlBlock × Option Bool)
  | .supervisorTimer => .ok (tcb, some false)
  | .userEnvCall id args answer => (tcb.handleSyscall id args answer).map fun r => (r.1, r.2.finish)
  | .exception | .interrupt => .ok (tcb, some true)

/-- The variables of `rust_main`, and the passes of the outer loop so far. -/
structure Loop where
  tcbs : List TaskControlBlock
  indexMod : Nat
  remain : Nat
  i : Nat
  turn : Nat
  deriving Repr

def Loop.boot (n : Nat) : Loop where
  tcbs := (List.replicate APP_CAPACITY TaskControlBlock.ZERO).mapIdx fun i tcb => if i < n then tcb.init else tcb
  indexMod := n
  remain := n
  i := 0
  turn := 0

/-- The end of the body of the outer loop. -/
def Loop.next (k : Loop) : Loop := { k with i := (k.i + 1) % k.indexMod, turn := k.turn + 1 }

def Loop.finished (k : Loop) (u : Nat) : Bool := (k.tcbs.getD u .ZERO).finish

/-- The outer loop as far as it passes over finished tasks. -/
def Loop.seek : Nat → Loop → Loop
  | 0, k => k
  | fuel + 1, k => if 0 < k.remain ∧ k.finished k.i then k.next.seek fuel else k

/-- The end of a slice, with the task as the trap left it. -/
def Loop.ended (k : Loop) (tcb : TaskControlBlock) (finish : Bool) : Loop := { k with
  tcbs := k.tcbs.set k.i { tcb with finish := finish || tcb.finish }
  remain := if finish then k.remain - 1 else k.remain }

/-- What a trap does to the loop, and the slice it ends. -/
def Loop.step (k : Loop) (trap : Trap) : Except Panic (Loop × Option Slice) :=
  match k.tcbs[k.i]? with
  | none => .error .taskIndex
  | some tcb => (tcb.trapped trap).map fun
    | (tcb, none) => ({ k with tcbs := k.tcbs.set k.i tcb }, none)
    | (tcb, some finish) =>
      ((k.ended tcb finish).next.seek k.indexMod, some ⟨k.i, k.turn, k.finished, (k.ended tcb finish).finished⟩)

structure Run where
  slices : List Slice
  last : Loop
  unused : List Trap
  panicked : Option Panic

/-- The loop over the traps of the tasks it runs, until it panics or ends. -/
def Loop.run (k : Loop) : List Trap → Run
  | [] => ⟨[], k, [], none⟩
  | trap :: traps =>
    if k.remain = 0 then ⟨[], k, trap :: traps, none⟩
    else match k.step trap with
      | .error p => ⟨[], k, traps, some p⟩
      | .ok (k', slice) => { k'.run traps with slices := slice.toList ++ (k'.run traps).slices }

/-! ## What a run should do -/

/-- The rotation of `n` tasks, as far as the run has come. -/
structure Run.RoundRobin (n : Nat) (r : Run) : Prop where
  goes : r.panicked = none
  remain : r.last.remain = (List.range n).countP fun u => !r.last.finished u
  running : r.last.remain ≠ 0 → r.last.finished r.last.i = false
  never : ∀ pre a post u, r.slices = pre ++ a :: post → a.after u = true →
    r.last.finished u = true ∧ ∀ b ∈ post, b.task ≠ u
  next : ∀ pre a b post, r.slices = pre ++ a :: b :: post → Rotation.next n a.after a.task = some b.task
  nextLast : ∀ pre a, r.slices = pre ++ [a] →
    Rotation.next n a.after a.task = if r.last.remain = 0 then none else some r.last.i
  oneEach : ∀ pre a mid b post u, r.slices = pre ++ a :: mid ++ b :: post → b.task = a.task →
    (∀ m ∈ mid, m.task ≠ a.task) → u < n → u ≠ a.task → b.before u = false → mid.countP (·.task = u) = 1
  exits : r.last.remain = 0 ↔ ∀ u < n, r.last.finished u = true
  goesOn : r.unused ≠ [] → r.last.remain = 0

/-! ## When -/

/-- The number is counted, its method is written, and a query finds its counter. -/
structure TaskControlBlock.InRange (tcb : TaskControlBlock) (id : SyscallId) (args : Args) : Prop where
  number : id < MAX_SYSCALL_NUM
  fits : tcb.syscallCount.getD id 0 < u32Max
  written : ∀ m, method id = some m → m.tr ∈ context.traits → m ∈ context.methods
  queried : id = SyscallId.TRACE → args.a0 = 2 → args.a1 < MAX_SYSCALL_NUM

/-- Every call of the run is in range when it is made. -/
def Loop.Ranges (k : Loop) : List Trap → Prop
  | [] => True
  | trap :: traps => k.remain ≠ 0 →
    (∀ tcb id args answer, k.tcbs[k.i]? = some tcb → trap = .userEnvCall id args answer → tcb.InRange id args) ∧
      ∀ k' slice, k.step trap = .ok (k', slice) → k'.Ranges traps

/-! ## The invariant -/

/-- The loop stands at a task that has not finished, unless all have. -/
structure Loop.Ok (k : Loop) (n : Nat) : Prop where
  size : k.tcbs.length = APP_CAPACITY
  counters : ∀ tcb ∈ k.tcbs, tcb.syscallCount.length = MAX_SYSCALL_NUM
  indexMod : k.indexMod = n
  place : 0 < n → k.i = k.turn % n
  remain : k.remain = (List.range n).countP fun u => !k.finished u

def Loop.Ready (k : Loop) : Prop := k.remain ≠ 0 → k.finished k.i = false

section

variable {n i u : Nat} {k k' : Loop} {tcb tcb' : TaskControlBlock} {id : SyscallId} {args : Args} {answer : Int}
  {trap : Trap} {traps : List Trap} {s : Slice} {slice : Option Slice} {p : Nat → Bool} {e : Option Bool} {event : SchedulingEvent}

/-! ## One trap -/

theorem handleSyscall_ok (h : tcb.handleSyscall id args answer = .ok (tcb', event)) :
    tcb'.finish = tcb.finish ∧ tcb'.syscallCount.length = tcb.syscallCount.length := by
  unfold TaskControlBlock.handleSyscall at h
  cases hc : count u32Max tcb.syscallCount id with
  | error e => rw [hc] at h; cases h
  | ok counts =>
    have hlen := count_length hc
    rw [hc] at h
    simp only [bind, Except.bind] at h
    split at h
    · cases h
    · cases h
      exact ⟨rfl, hlen⟩

theorem trapped_ok (h : tcb.trapped trap = .ok (tcb', e)) :
    tcb'.finish = tcb.finish ∧ tcb'.syscallCount.length = tcb.syscallCount.length := by
  cases trap with
  | supervisorTimer | exception | interrupt =>
    cases h
    exact ⟨rfl, rfl⟩
  | userEnvCall id args answer =>
    simp only [TaskControlBlock.trapped] at h
    cases hs : tcb.handleSyscall id args answer with
    | error e => rw [hs] at h; cases h
    | ok r =>
      rw [hs] at h
      cases h
      exact handleSyscall_ok hs

theorem handleSyscall_ok_iff (hlen : tcb.syscallCount.length = MAX_SYSCALL_NUM) :
    (∃ r, tcb.handleSyscall id args answer = .ok r) ↔ tcb.InRange id args := by
  have hcount : (∃ counts, count u32Max tcb.syscallCount id = .ok counts) ↔
      id < MAX_SYSCALL_NUM ∧ tcb.syscallCount.getD id 0 < u32Max := by
    rw [← hlen]
    simp only [count_ok_iff, List.getD_eq_getElem?_getD]
    constructor
    · rintro ⟨-, m, hm, hlt, -⟩
      exact ⟨(List.getElem?_eq_some_iff.mp hm).1, by rwa [hm]⟩
    · rintro ⟨hid, hlt⟩
      rw [List.getElem?_eq_getElem hid] at hlt ⊢
      exact ⟨_, _, rfl, hlt, rfl⟩
  unfold TaskControlBlock.handleSyscall
  cases hc : count u32Max tcb.syscallCount id with
  | error e =>
    simp only [hc, reduceCtorEq, exists_false, false_iff] at hcount
    simp only [bind, Except.bind, reduceCtorEq, exists_false, false_iff]
    exact fun hin => hcount ⟨hin.number, hin.fits⟩
  | ok counts =>
    obtain ⟨hnumber, hfits⟩ := hcount.mp ⟨counts, hc⟩
    have hhandle : (∃ r, handle context (serve counts args (some answer)) id = .ok r) ↔ _ := handle_ok_iff
    rw [count_length hc, hlen] at hhandle
    have hiff : (∃ r, handle context (serve counts args (some answer)) id = .ok r) ↔ tcb.InRange id args := by
      rw [hhandle]
      constructor
      · intro hall
        refine ⟨hnumber, hfits, fun m hm htr => (hall m hm htr).1, ?_⟩
        rintro rfl hreq
        exact (hall .trace rfl (by decide)).2 rfl hreq
      · intro hin m hm htr
        refine ⟨hin.written m hm htr, ?_⟩
        rintro rfl
        exact hin.queried (method_trace.mp hm)
    rw [← hiff]
    simp only [bind, Except.bind]
    cases handle context (serve counts args (some answer)) id with
    | error e => simp
    | ok ret => simp

/-! ## Counting who has not finished -/

theorem countP_range_drop (hi : i < n) (hp : p i = true) :
    (List.range n).countP p = (List.range n).countP (fun u => p u && u != i) + 1 := by
  induction n with
  | zero => omega
  | succ n ih =>
    rw [List.range_succ, List.countP_append, List.countP_append, List.countP_singleton, List.countP_singleton]
    by_cases he : i = n
    · subst he
      have hsame : (List.range i).countP (fun u => p u && u != i) = (List.range i).countP p := by
        apply List.countP_congr
        intro u hu
        have hne : u ≠ i := Nat.ne_of_lt (List.mem_range.mp hu)
        simp [hne]
      simp [hsame, hp]
    · have hne : n ≠ i := Ne.symm he
      rw [ih (by omega)]
      simp [hne]
      omega

theorem Loop.Ok.remain_zero (h : k.Ok n) : k.remain = 0 ↔ ∀ u < n, k.finished u = true := by
  rw [h.remain, List.countP_eq_zero]
  simp

/-! ## The next task -/

/-- Where the outer loop is after passing over finished tasks. -/
structure Sought (n : Nat) (k k' : Loop) : Prop where
  tcbs : k'.tcbs = k.tcbs
  indexMod : k'.indexMod = k.indexMod
  remain : k'.remain = k.remain
  place : k'.i = k'.turn % n
  later : k.turn ≤ k'.turn
  skip : ∀ x, k.turn ≤ x → x < k'.turn → k.finished (x % n) = true

theorem seek_sought (fuel : Nat) (hn : k.indexMod = n) (hi : k.i = k.turn % n) : Sought n k (k.seek fuel) ∧
    ((k.seek fuel).turn = k.turn + fuel ∨ ((k.seek fuel).remain ≠ 0 → k.finished (k.seek fuel).i = false)) := by
  induction fuel generalizing k with
  | zero => exact ⟨⟨rfl, rfl, rfl, hi, Nat.le_refl _, fun x h1 h2 => absurd h1 (Nat.not_le.mpr h2)⟩, .inl rfl⟩
  | succ fuel ih =>
    unfold Loop.seek
    by_cases h : 0 < k.remain ∧ k.finished k.i = true
    · rw [if_pos h]
      have hturn : k.next.turn = k.turn + 1 := rfl
      have hnext : k.next.i = k.next.turn % n := by
        simp only [Loop.next, hn, hi, Nat.mod_add_mod]
      obtain ⟨hs, hend⟩ := ih (k := k.next) hn hnext
      refine ⟨⟨hs.tcbs, hs.indexMod, hs.remain, hs.place, ?_, fun x hx hlt => ?_⟩, ?_⟩
      · have := hs.later
        omega
      · by_cases hx' : x = k.turn
        · rw [hx', ← hi]
          exact h.2
        · exact hs.skip x (by omega) hlt
      · refine hend.imp_left fun ht => ?_
        omega
    · rw [if_neg h]
      refine ⟨⟨rfl, rfl, rfl, hi, Nat.le_refl _, fun x h1 h2 => absurd h1 (Nat.not_le.mpr h2)⟩, .inr fun hr => ?_⟩
      simpa [Nat.pos_of_ne_zero hr] using h

/-- A round of the table finds a task that has not finished, if there is one. -/
theorem seek_ready (hn : 0 < n) (h : k.Ok n) : (k.seek n).Ready := by
  obtain ⟨hs, hend⟩ := seek_sought n h.indexMod (h.place hn)
  intro hr
  have hsame : (k.seek n).finished = k.finished := by
    funext u
    rw [Loop.finished, hs.tcbs, Loop.finished]
  rw [hsame]
  rcases hend with hend | hend
  · have hall : ∀ u < n, k.finished u = true := by
      intro u hu
      by_cases hself : u = k.turn % n
      · rw [hself]
        exact hs.skip k.turn (Nat.le_refl _) (by omega)
      · obtain ⟨x, hgt, hlt, rfl⟩ := exists_turn hu hself
        exact hs.skip x (Nat.le_of_lt hgt) (by omega)
    rw [hs.remain] at hr
    exact absurd (h.remain_zero.mpr hall) hr
  · exact hend hr

/-! ## One step -/

/-- What a step does from a task that runs. -/
structure Stepped (n : Nat) (k k' : Loop) (slice : Option Slice) : Prop where
  ok : k'.Ok n
  ready : k'.Ready
  same : slice = none → k'.turn = k.turn ∧ k'.finished = k.finished
  slice : ∀ s, slice = some s → s = ⟨k.turn % n, k.turn, k.finished, k'.finished⟩ ∧
    (∀ u, u ≠ k.turn % n → k'.finished u = k.finished u) ∧ k.turn < k'.turn ∧
    ∀ x, k.turn < x → x < k'.turn → k'.finished (x % n) = true

theorem finished_set (hi : k.tcbs[i]? = some tcb) (tcb' : TaskControlBlock) (u : Nat) :
    ((k.tcbs.set i tcb').getD u .ZERO).finish = if u = i then tcb'.finish else k.finished u := by
  have hlt := (List.getElem?_eq_some_iff.mp hi).1
  rw [List.getD_eq_getElem?_getD, List.getElem?_set]
  by_cases hu : u = i
  · subst hu
    simp [hlt]
  · have hne : i ≠ u := Ne.symm hu
    simp [hne, hu, Loop.finished, List.getD_eq_getElem?_getD]

theorem Loop.Ok.running (h : k.Ok n) (hn : n ≤ APP_CAPACITY) (hr : k.remain ≠ 0) :
    0 < n ∧ k.i < n ∧ ∃ tcb, k.tcbs[k.i]? = some tcb := by
  have hpos : 0 < n := by
    by_contra h0
    obtain rfl : n = 0 := by omega
    exact hr h.remain
  have hlt : k.i < n := by
    rw [h.place hpos]
    exact Nat.mod_lt _ hpos
  refine ⟨hpos, hlt, ⟨_, List.getElem?_eq_getElem ?_⟩⟩
  rw [h.size]
  omega

theorem Loop.Ok.set (h : k.Ok n) (hi : k.tcbs[k.i]? = some tcb)
    (hlen : tcb'.syscallCount.length = tcb.syscallCount.length) : (k.tcbs.set k.i tcb').length = APP_CAPACITY ∧
    ∀ x ∈ k.tcbs.set k.i tcb', x.syscallCount.length = MAX_SYSCALL_NUM := by
  refine ⟨by rw [List.length_set, h.size], fun x hx => ?_⟩
  rcases List.mem_or_eq_of_mem_set hx with hx | rfl
  · exact h.counters x hx
  · rw [hlen]
    exact h.counters tcb (List.mem_of_getElem? hi)

theorem ended_finished (hi : k.tcbs[k.i]? = some tcb) {finish : Bool} (hfin : tcb'.finish = false) (u : Nat) :
    (k.ended tcb' finish).finished u = if u = k.i then finish else k.finished u := by
  unfold Loop.finished Loop.ended
  rw [finished_set hi]
  simp [hfin, Loop.finished]

theorem Loop.Ok.ended (h : k.Ok n) (hlt : k.i < n) (hi : k.tcbs[k.i]? = some tcb) {finish : Bool}
    (hlive : k.finished k.i = false) (hfin : tcb'.finish = false)
    (hlen : tcb'.syscallCount.length = tcb.syscallCount.length) : (k.ended tcb' finish).Ok n := by
  have hset : { tcb' with finish := finish || tcb'.finish }.syscallCount.length = tcb.syscallCount.length := hlen
  obtain ⟨hsize, hcounters⟩ := h.set hi hset
  refine ⟨hsize, hcounters, h.indexMod, h.place, ?_⟩
  cases finish with
  | true =>
    have hdrop := countP_range_drop (p := fun u => !k.finished u) hlt (by rw [hlive]; rfl)
    rw [← h.remain] at hdrop
    have hsame : (List.range n).countP (fun u => !(k.ended tcb' true).finished u) =
        (List.range n).countP (fun u => !k.finished u && u != k.i) := by
      apply List.countP_congr
      intro u hu
      rw [ended_finished hi hfin]
      by_cases he : u = k.i <;> simp [he]
    rw [hsame]
    simp only [Loop.ended, if_true]
    omega
  | false =>
    have hsame : (k.ended tcb' false).finished = k.finished := by
      funext u
      rw [ended_finished hi hfin]
      split
      · simp_all
      · rfl
    rw [hsame]
    exact h.remain

theorem Loop.Ok.next (h : k.Ok n) : k.next.Ok n :=
  ⟨h.size, h.counters, h.indexMod, fun hn => by
    simp only [Loop.next, h.indexMod, h.place hn, Nat.mod_add_mod], h.remain⟩

theorem Sought.finished (h : Sought n k k') : k'.finished = k.finished := by
  funext u
  rw [Loop.finished, h.tcbs, Loop.finished]

theorem Sought.ok (h : Sought n k k') (hok : k.Ok n) : k'.Ok n := by
  refine ⟨?_, ?_, ?_, fun _ => h.place, ?_⟩
  · rw [h.tcbs]
    exact hok.size
  · rw [h.tcbs]
    exact hok.counters
  · rw [h.indexMod]
    exact hok.indexMod
  · rw [h.remain, h.finished]
    exact hok.remain

theorem stepped (h : k.Ok n) (hready : k.Ready) (hn : n ≤ APP_CAPACITY) (hr : k.remain ≠ 0)
    (hs : k.step trap = .ok (k', slice)) : Stepped n k k' slice := by
  obtain ⟨hpos, hlt, tcb, htcb⟩ := h.running hn hr
  have hlive := hready hr
  have hfin : tcb.finish = false := by
    rw [Loop.finished, List.getD_eq_getElem?_getD, htcb] at hlive
    exact hlive
  unfold Loop.step at hs
  rw [htcb] at hs
  simp only at hs
  cases ht : tcb.trapped trap with
  | error e => rw [ht] at hs; cases hs
  | ok r =>
    obtain ⟨tcb', e⟩ := r
    obtain ⟨hfinish, hlen⟩ := trapped_ok ht
    rw [ht] at hs
    cases e with
    | none =>
      cases hs
      obtain ⟨hsize, hcounters⟩ := h.set htcb hlen
      have hsame : Loop.finished { k with tcbs := k.tcbs.set k.i tcb' } = k.finished := by
        funext u
        rw [Loop.finished, finished_set htcb, hfinish, hfin]
        split
        · simp_all
        · rfl
      refine ⟨⟨hsize, hcounters, h.indexMod, h.place, ?_⟩, ?_, fun _ => ⟨rfl, hsame⟩, by simp⟩
      · rw [hsame]
        exact h.remain
      · intro hr
        rw [hsame]
        exact hlive
    | some finish =>
      cases hs
      have hfin' : tcb'.finish = false := by rw [hfinish, hfin]
      have hended : (k.ended tcb' finish).next.Ok n := (h.ended hlt htcb hlive hfin' hlen).next
      rw [h.indexMod]
      obtain ⟨hsought, -⟩ := seek_sought n hended.indexMod (hended.place hpos)
      have hsame : (k.ended tcb' finish).next.finished = (k.ended tcb' finish).finished := rfl
      have hturn : (k.ended tcb' finish).next.turn = k.turn + 1 := rfl
      have hlater := hsought.later
      refine ⟨hsought.ok hended, seek_ready hpos hended, by simp, fun s hsl => ?_⟩
      cases hsl
      rw [hsought.finished, hsame]
      refine ⟨by rw [h.place hpos], fun u hu => ?_, by omega, fun x hx hxlt => ?_⟩
      · rw [ended_finished htcb hfin', if_neg (by rw [h.place hpos]; exact hu)]
      · exact hsought.skip x (by omega) hxlt

/-! ## A run -/

theorem boot_tcbs : (Loop.boot n).tcbs = List.replicate APP_CAPACITY .ZERO := by
  apply List.ext_getElem
  · simp [Loop.boot]
  · intro u hu hu'
    simp [Loop.boot, TaskControlBlock.init, TaskControlBlock.ZERO]

theorem boot_finished : (Loop.boot n).finished u = false := by
  rw [Loop.finished, boot_tcbs, List.getD_eq_getElem?_getD, List.getElem?_replicate]
  split <;> rfl

theorem boot_ready : (Loop.boot n).Ready := fun _ => boot_finished

theorem boot_ok : (Loop.boot n).Ok n where
  size := by rw [boot_tcbs, List.length_replicate]
  counters tcb htcb := by
    rw [boot_tcbs] at htcb
    rw [List.eq_of_mem_replicate htcb]
    exact List.length_replicate
  indexMod := rfl
  place _ := (Nat.zero_mod n).symm
  remain := by
    simp only [boot_finished]
    simp [Loop.boot]

/-- The slices of a run are a rotation of the tasks. -/
theorem run_rotates (traps : List Trap) (h : k.Ok n) (hready : k.Ready) (hn : n ≤ APP_CAPACITY) :
    Rotates n k.turn k.finished (k.run traps).slices (k.run traps).last.turn (k.run traps).last.finished ∧
      (k.run traps).last.Ok n ∧ (k.run traps).last.Ready ∧
      ((k.run traps).unused ≠ [] → (k.run traps).panicked = none → (k.run traps).last.remain = 0) := by
  induction traps generalizing k with
  | nil => exact ⟨.nil, h, hready, fun hne => absurd rfl hne⟩
  | cons trap traps ih =>
    unfold Loop.run
    by_cases hr : k.remain = 0
    · rw [if_pos hr]
      exact ⟨.nil, h, hready, fun _ _ => hr⟩
    · rw [if_neg hr]
      cases hs : k.step trap with
      | error p => exact ⟨.nil, h, hready, fun _ hp => by cases hp⟩
      | ok r =>
        obtain ⟨k', slice⟩ := r
        obtain ⟨hok, hready', hsame, hslice⟩ := stepped h hready hn hr hs
        obtain ⟨hrot, hlast⟩ := ih hok hready'
        refine ⟨?_, hlast⟩
        cases slice with
        | none =>
          obtain ⟨ht, hf⟩ := hsame rfl
          rwa [ht, hf] at hrot
        | some s =>
          obtain ⟨rfl, hkeep, hlt, hskip⟩ := hslice s rfl
          obtain ⟨hpos, -, -⟩ := h.running hn hr
          refine .cons ?_ hkeep hlt hskip hrot
          rw [← h.place hpos]
          exact hready hr

theorem trapped_ok_iff (hlen : tcb.syscallCount.length = MAX_SYSCALL_NUM) : (∃ r, tcb.trapped trap = .ok r) ↔
    ∀ id args answer, trap = .userEnvCall id args answer → tcb.InRange id args := by
  cases trap with
  | supervisorTimer | exception | interrupt => simp [TaskControlBlock.trapped]
  | userEnvCall id args answer =>
    rw [TaskControlBlock.trapped, map_ok_iff, handleSyscall_ok_iff hlen]
    constructor
    · rintro hin id' args' answer' he
      cases he
      exact hin
    · intro hin
      exact hin id args answer rfl

/-- A run panics where a call is out of range. -/
theorem goes_iff (h : k.Ok n) (hready : k.Ready) (hn : n ≤ APP_CAPACITY) :
    (k.run traps).panicked = none ↔ k.Ranges traps := by
  induction traps generalizing k with
  | nil => simp [Loop.run, Loop.Ranges]
  | cons trap traps ih =>
    unfold Loop.run Loop.Ranges
    by_cases hr : k.remain = 0
    · simp [hr]
    · obtain ⟨-, -, tcb, htcb⟩ := h.running hn hr
      have hcounters := h.counters tcb (List.mem_of_getElem? htcb)
      have hstep : (∃ r, k.step trap = .ok r) ↔ ∃ r, tcb.trapped trap = .ok r := by
        unfold Loop.step
        rw [htcb]
        exact map_ok_iff
      have hrange : (∀ x id args answer, k.tcbs[k.i]? = some x → trap = .userEnvCall id args answer → x.InRange id args) ↔
          ∃ r, k.step trap = .ok r := by
        rw [hstep, trapped_ok_iff hcounters, htcb]
        constructor
        · intro hall id args answer he
          exact hall tcb id args answer rfl he
        · rintro hall x id args answer hx he
          cases hx
          exact hall id args answer he
      rw [if_neg hr, hrange]
      cases hs : k.step trap with
      | error p => simp [hr]
      | ok r =>
        obtain ⟨k', slice⟩ := r
        obtain ⟨hok, hready', -, -⟩ := stepped h hready hn hr hs
        simp [hr, ih hok hready']

theorem boot_none : ((Loop.boot 0).run traps).slices = [] := by
  cases traps with
  | nil => rfl
  | cons trap traps => rfl

/-- Every run that goes on rotates, whatever its traps: exactly the runs in which no call is out
    of range go on. -/
theorem round_robin_iff (n : Nat) (hn : n ≤ APP_CAPACITY) (traps : List Trap) :
    ((Loop.boot n).run traps).RoundRobin n ↔ (Loop.boot n).Ranges traps := by
  rw [← goes_iff boot_ok boot_ready hn]
  refine ⟨fun h => h.goes, fun hgoes => ?_⟩
  obtain ⟨hrot, hok, hready, hunused⟩ := run_rotates traps boot_ok boot_ready hn
  set r := (Loop.boot n).run traps
  have hpos : r.slices ≠ [] → 0 < n := by
    intro hslices
    by_contra h0
    obtain rfl : n = 0 := by omega
    exact hslices boot_none
  refine ⟨hgoes, hok.remain, hready, ?_, ?_, ?_, ?_, hok.remain_zero, fun hne => hunused hne hgoes⟩
  · rintro pre a post u hslices hu
    rw [hslices] at hrot
    exact hrot.never hu
  · rintro pre a b post hslices
    have hn := hpos (by simp [hslices])
    rw [hslices] at hrot
    exact hrot.next_eq hn
  · rintro pre a hslices
    have hn := hpos (by simp [hslices])
    rw [hslices] at hrot
    obtain ⟨hleft, hnext⟩ := hrot.next_last hn
    by_cases hr : r.last.remain = 0
    · rw [if_pos hr, ← hleft]
      exact next_none hn (hok.remain_zero.mp hr)
    · rw [if_neg hr, hok.place hn]
      apply hnext
      rw [← hok.place hn]
      exact hready hr
  · rintro pre a mid b post u hslices hab hno hu hne hlive
    have hn := hpos (by simp [hslices])
    rw [hslices] at hrot
    exact hrot.one_each hn hab hno hu hne hlive

/-! ## Few calls -/

/-- No number was counted more than `c` times. -/
def Loop.AtMost (k : Loop) (c : Nat) : Prop := ∀ tcb ∈ k.tcbs, ∀ i, tcb.syscallCount.getD i 0 ≤ c

/-- A call that the chapter serves. -/
def Trap.Served : Trap → Prop
  | .userEnvCall id args _ => id < MAX_SYSCALL_NUM ∧
      (∀ m, method id = some m → m.tr ∈ context.traits → m ∈ context.methods) ∧
      (id = SyscallId.TRACE → args.a0 = 2 → args.a1 < MAX_SYSCALL_NUM)
  | _ => True

theorem boot_atMost : (Loop.boot n).AtMost 0 := by
  intro tcb htcb i
  rw [boot_tcbs] at htcb
  rw [List.eq_of_mem_replicate htcb, List.getD_eq_getElem?_getD, TaskControlBlock.ZERO, List.getElem?_replicate]
  split <;> exact Nat.le_refl 0

/-- A trap counts one call at most. -/
theorem trapped_atMost {c : Nat} (h : tcb.trapped trap = .ok (tcb', e)) (hc : ∀ i, tcb.syscallCount.getD i 0 ≤ c) (i : Nat) :
    tcb'.syscallCount.getD i 0 ≤ c + 1 := by
  have hold := hc i
  cases trap with
  | supervisorTimer | exception | interrupt =>
    cases h
    omega
  | userEnvCall id args answer =>
    simp only [TaskControlBlock.trapped, TaskControlBlock.handleSyscall] at h
    cases hcount : count u32Max tcb.syscallCount id with
    | error p => rw [hcount] at h; cases h
    | ok counts =>
      have hget := count_get hcount i
      rw [hcount] at h
      simp only [bind, Except.bind] at h
      split at h
      · cases h
      · cases h
        rw [List.getD_eq_getElem?_getD] at hold ⊢
        rw [hget]
        cases hi : tcb.syscallCount[i]? with
        | none => exact Nat.zero_le _
        | some x =>
          rw [hi, Option.getD_some] at hold
          rw [Option.map_some, Option.getD_some]
          split <;> omega

theorem seek_tcbs (fuel : Nat) (k : Loop) : (k.seek fuel).tcbs = k.tcbs := by
  induction fuel generalizing k with
  | zero => rfl
  | succ fuel ih =>
    unfold Loop.seek
    split
    · exact ih k.next
    · rfl

theorem step_atMost {c : Nat} (h : k.AtMost c) (hs : k.step trap = .ok (k', slice)) : k'.AtMost (c + 1) := by
  unfold Loop.step at hs
  cases htcb : k.tcbs[k.i]? with
  | none => rw [htcb] at hs; cases hs
  | some tcb =>
    rw [htcb] at hs
    simp only at hs
    cases ht : tcb.trapped trap with
    | error p => rw [ht] at hs; cases hs
    | ok r =>
      obtain ⟨tcb', e⟩ := r
      rw [ht] at hs
      have hself := trapped_atMost ht (h tcb (List.mem_of_getElem? htcb))
      have hset : ∀ fin, ∀ x ∈ k.tcbs.set k.i { tcb' with finish := fin }, ∀ i, x.syscallCount.getD i 0 ≤ c + 1 := by
        intro fin x hx i
        rcases List.mem_or_eq_of_mem_set hx with hx | rfl
        · exact Nat.le_succ_of_le (h x hx i)
        · exact hself i
      cases e with
      | none =>
        cases hs
        exact hset tcb'.finish
      | some finish =>
        cases hs
        unfold Loop.AtMost
        rw [seek_tcbs]
        exact hset _

/-- A run that makes fewer than `2 ^ 32` calls, all of them served, is in range. -/
theorem ranges_of_served {c : Nat} (h : k.AtMost c) (hlen : c + traps.length ≤ u32Max) (hs : ∀ trap ∈ traps, trap.Served) :
    k.Ranges traps := by
  induction traps generalizing k c with
  | nil => trivial
  | cons trap traps ih =>
    rw [List.length_cons] at hlen
    refine fun _ => ⟨fun tcb id args answer htcb htrap => ?_, fun k' slice hstep => ?_⟩
    · obtain ⟨hid, hwritten, hqueried⟩ : (Trap.userEnvCall id args answer).Served := htrap ▸ hs trap (List.mem_cons_self ..)
      have hle := h tcb (List.mem_of_getElem? htcb) id
      exact ⟨hid, by omega, hwritten, hqueried⟩
    · exact ih (step_atMost h hstep) (by omega) fun t ht => hs t (List.mem_cons_of_mem _ ht)

/-- Three tasks: one is preempted, one asks for its counter and yields, and then all end. -/
theorem round_robin_three : ((Loop.boot 3).run [.supervisorTimer, .userEnvCall SyscallId.TRACE ⟨2, 410, 0, 0, 0, 0⟩ 0,
    .userEnvCall SyscallId.SCHED_YIELD Args.zero 0, .exception, .userEnvCall SyscallId.EXIT Args.zero 0,
    .interrupt]).RoundRobin 3 := by
  apply (round_robin_iff 3 (by decide) _).mpr
  refine ranges_of_served boot_atMost (by decide) fun trap htrap => ?_
  simp only [List.mem_cons, List.not_mem_nil, or_false] at htrap
  rcases htrap with rfl | rfl | rfl | rfl | rfl | rfl
  · trivial
  · exact ⟨by decide, by decide, by decide⟩
  · exact ⟨by decide, by decide, by decide⟩
  · trivial
  · exact ⟨by decide, by decide, by decide⟩
  · trivial

/-- `thread_create` is unsupported here, but its number has no counter. -/
theorem thread_create_panics : handle context (serve [] Args.zero none) 1000 = .ok (.unsupported 1000) ∧
    ¬((Loop.boot 1).run [.userEnvCall 1000 Args.zero 0]).RoundRobin 1 := by
  refine ⟨rfl, fun h => ?_⟩
  have hranges := (goes_iff boot_ok boot_ready (by decide)).mp h.goes
  have hin := (hranges (by decide)).1 .ZERO 1000 Args.zero 0 (by rw [boot_tcbs]; rfl) rfl
  exact absurd hin.number (by decide)

end

end TgRcore.Ch3
