/-
  TgRcore.Kernel.SyscallCount — the scheduling loop of chapter 4 and the system calls it counts.

  The loop runs the front of `PROCESSES`, counts its call before it dispatches it, and removes the
  front when it exits, asks for an unsupported call, or faults. What a program asks for is the
  trap's; what the other handlers answer is open.
  - `queries_iff`: every query is answered with the calls its process has made, and neither
    counting nor querying panics, iff the numbers counted and queried are below
    `MAX_SYSCALL_NUM` and the counters fit.
  - `thread_create_uncounted`: a process that calls `thread_create`, which the loop would kill, panics
    the kernel.
-/

import TgRcore.Kernel.Syscall
import TgRcore.Task.Family

namespace TgRcore.Ch4

open TgRcore.Syscall TgRcore.Sync TgRcore.Task

def context : SyscallContext where
  traits := [.io, .process, .scheduling, .clock, .trace, .memory]
  methods := [.write, .exit, .sbrk, .schedYield, .clockGettime, .trace, .mmap, .munmap]

structure Process where
  syscallCount : List Nat
  deriving Repr

def Process.new : Process := ⟨List.replicate MAX_SYSCALL_NUM 0⟩

/-- `PROCESSES`, and how many have left it: the front is the process of that place in load order. -/
structure Kernel where
  processes : List Process
  removed : Nat
  deriving Repr

def Kernel.boot (n : Nat) : Kernel := ⟨List.replicate n .new, 0⟩

/-- `PROCESSES.remove(0)` -/
def Kernel.remove (k : Kernel) : Kernel := ⟨k.processes.tail, k.removed + 1⟩

inductive Trap
  | userEnvCall (a7 : SyscallId) (args : Args) (answer : Option Int)
  | other

/-- A system call that was counted, and what it put into a0. -/
structure Call where
  app : Nat
  id : SyscallId
  args : Args
  ret : Option Int

/-- What the front gets for its call: the result, if it lives on. -/
def Process.syscall (p : Process) (id : SyscallId) (args : Args) (answer : Option Int) :
    Except Panic (Process × Option Int) := do
  let syscallCount ← count usizeMax p.syscallCount id
  match ← handle context (serve syscallCount args answer) id with
  | .done ret => .ok (⟨syscallCount⟩, if id = SyscallId.EXIT then none else some ret)
  | .unsupported _ => .ok (⟨syscallCount⟩, none)

/-- What the loop does with what the front gets: it goes on with it in a0, or is removed. -/
def Kernel.reply (k : Kernel) (ps : List Process) (id : SyscallId) (args : Args) :
    Process × Option Int → Kernel × Option Call
  | (p, some ret) => (⟨p :: ps, k.removed⟩, some ⟨k.removed, id, args, some ret⟩)
  | (_, none) => (k.remove, some ⟨k.removed, id, args, none⟩)

/-- One pass of the loop. -/
def Kernel.step (k : Kernel) (trap : Trap) : Except Panic (Kernel × Option Call) :=
  match k.processes, trap with
  | [], _ => .ok (k, none)
  | _ :: _, .other => .ok (k.remove, none)
  | p :: ps, .userEnvCall id args answer => (p.syscall id args answer).map (k.reply ps id args)

structure Run where
  calls : List Call
  panicked : Option Panic

/-- The loop over the traps of the processes it runs, until it panics. -/
def Kernel.run (k : Kernel) : List Trap → Run
  | [] => ⟨[], none⟩
  | trap :: traps =>
    match k.step trap with
    | .error p => ⟨[], some p⟩
    | .ok (k', call) => ⟨call.toList ++ (k'.run traps).calls, (k'.run traps).panicked⟩

/-! ## What a run should do -/

/-- The calls with number `id` that the process has made. -/
def made (calls : List Call) (app : Nat) (id : SyscallId) : Nat :=
  calls.countP fun c => c.app = app ∧ c.id = id

/-- A query, the last of the calls, is answered with what they say. -/
def Call.Right (calls : List Call) (c : Call) : Prop :=
  c.id = SyscallId.TRACE → c.args.a0 = 2 → c.ret = some (made calls c.app (c.args.a1) : Int)

/-- The queries among `new` are right about the calls so far, which began with `calls`. -/
def AllRight (calls new : List Call) : Prop :=
  ∀ pre c post, new = pre ++ c :: post → c.Right (calls ++ pre ++ [c])

/-- Neither counting nor querying stopped the kernel. -/
def Run.CountsOn (r : Run) : Prop :=
  r.panicked ≠ some .countIndex ∧ r.panicked ≠ some .countOverflow ∧ r.panicked ≠ some .queryIndex

def Run.Accounts (r : Run) : Prop := AllRight [] r.calls ∧ r.CountsOn

/-! ## When -/

/-- The number is counted, and a query finds its counter. -/
structure Process.InRange (p : Process) (id : SyscallId) (args : Args) : Prop where
  number : id < MAX_SYSCALL_NUM
  fits : p.syscallCount.getD id 0 < usizeMax
  queried : id = SyscallId.TRACE → args.a0 = 2 → args.a1 < MAX_SYSCALL_NUM
  isize : id = SyscallId.TRACE → args.a0 = 2 →
    p.syscallCount.getD args.a1 0 + (if args.a1 = id then 1 else 0) < 2 ^ 63

/-- Every call of the run is in range when it is made. -/
def Kernel.Ranges (k : Kernel) : List Trap → Prop
  | [] => True
  | trap :: traps =>
    (∀ p ps id args answer, k.processes = p :: ps → trap = .userEnvCall id args answer → p.InRange id args) ∧
      ∀ k' call, k.step trap = .ok (k', call) → k'.Ranges traps

/-! ## Counts -/

/-- The counters of the front are the calls it has made; the others have not run. -/
structure Kernel.Counts (k : Kernel) (calls : List Call) : Prop where
  front : ∀ p ps, k.processes = p :: ps → p.syscallCount.length = MAX_SYSCALL_NUM ∧
    (∀ id < MAX_SYSCALL_NUM, p.syscallCount[id]? = some (made calls k.removed id)) ∧ ∀ q ∈ ps, q = .new
  fresh : ∀ c ∈ calls, c.app ≤ k.removed

section

variable {k k' : Kernel} {p p' : Process} {ps : List Process} {id i app n : Nat} {args : Args} {answer ret : Option Int}
  {calls new : List Call} {call : Option Call} {c : Call} {trap : Trap} {traps : List Trap}

theorem made_append : made (calls ++ [c]) app id = made calls app id + if c.app = app ∧ c.id = id then 1 else 0 := by
  unfold made
  rw [List.countP_append, List.countP_singleton]
  simp

theorem made_fresh (h : ∀ c ∈ calls, c.app < app) : made calls app id = 0 := by
  unfold made
  rw [List.countP_eq_zero]
  intro c hc
  have hlt := h c hc
  simp
  omega

theorem Process.new_get (h : id < MAX_SYSCALL_NUM) : Process.new.syscallCount[id]? = some 0 := by
  simp [Process.new, h]

theorem Process.new_length : Process.new.syscallCount.length = MAX_SYSCALL_NUM :=
  List.length_replicate

theorem counts_boot : (Kernel.boot n).Counts [] where
  front p ps hp := by
    cases n with
    | zero => cases hp
    | succ n =>
      obtain ⟨rfl, rfl⟩ := List.cons.inj hp
      refine ⟨Process.new_length, fun id hid => Process.new_get hid, fun q hq => ?_⟩
      exact List.eq_of_mem_replicate hq
  fresh c hc := by cases hc

theorem allRight_nil : AllRight calls [] := by
  intro pre c post h
  simp at h

theorem allRight_cons : AllRight calls (c :: new) ↔ c.Right (calls ++ [c]) ∧ AllRight (calls ++ [c]) new := by
  constructor
  · intro h
    refine ⟨by simpa using h [] c new rfl, fun pre d post hnew => ?_⟩
    have := h (c :: pre) d post (by rw [hnew, List.cons_append])
    simpa using this
  · rintro ⟨hc, hnew⟩ pre d post h
    cases pre with
    | nil =>
      obtain ⟨rfl, rfl⟩ := List.cons.inj h
      simpa using hc
    | cons x pre =>
      obtain ⟨rfl, rfl⟩ := List.cons.inj h
      simpa using hnew pre d post rfl

theorem allRight_toList : AllRight calls (call.toList ++ new) ↔
    (∀ c, call = some c → c.Right (calls ++ [c])) ∧ AllRight (calls ++ call.toList) new := by
  cases call with
  | none => simp
  | some c => simp [allRight_cons]

/-- Counters in range are counted. -/
theorem Kernel.Counts.count_ok (h : k.Counts calls) (hk : k.processes = p :: ps) :
    (∃ counts, count usizeMax p.syscallCount id = .ok counts) ↔
      id < MAX_SYSCALL_NUM ∧ p.syscallCount.getD id 0 < usizeMax := by
  obtain ⟨hlen, hcount, -⟩ := h.front p ps hk
  rw [List.getD_eq_getElem?_getD]
  simp only [count_ok_iff]
  constructor
  · rintro ⟨-, m, hm, hlt, -⟩
    have hid := (List.getElem?_eq_some_iff.mp hm).1
    rw [hlen] at hid
    exact ⟨hid, by rwa [hm]⟩
  · rintro ⟨hid, hlt⟩
    rw [hcount id hid] at hlt
    exact ⟨_, _, hcount id hid, hlt, rfl⟩

theorem Kernel.Counts.counted (h : k.Counts calls) (hk : k.processes = p :: ps) {counts : List Nat}
    (hc : count usizeMax p.syscallCount id = .ok counts) (hi : i < MAX_SYSCALL_NUM) :
    counts[i]? = some (made calls k.removed i + if i = id then 1 else 0) := by
  rw [count_get hc, (h.front p ps hk).2.1 i hi, Option.map_some]

/-! ## One call -/

/-- The panics that are not of the counters. -/
def Aside (e : Panic) : Prop := e ≠ .countIndex ∧ e ≠ .countOverflow ∧ e ≠ .queryIndex

theorem syscall_ok (h : p.syscall id args answer = .ok (p', ret)) :
    count usizeMax p.syscallCount id = .ok p'.syscallCount := by
  unfold Process.syscall at h
  cases hc : count usizeMax p.syscallCount id with
  | error e => rw [hc] at h; cases h
  | ok counts =>
    rw [hc] at h
    simp only [bind, Except.bind] at h
    split at h
    · cases h
    · split at h <;> cases h <;> rfl

/-- A call that is not counted panics. -/
theorem syscall_uncounted {e : Panic} (hc : count usizeMax p.syscallCount id = .error e) :
    p.syscall id args answer = .error e := by
  unfold Process.syscall
  rw [hc]
  rfl

/-- A query gets its counter after the call itself was counted. -/
theorem syscall_query {counts : List Nat} (hc : count usizeMax p.syscallCount SyscallId.TRACE = .ok counts)
    (hreq : args.a0 = 2) : p.syscall SyscallId.TRACE args answer =
      (query counts args.a1).map fun ret => (⟨counts⟩, some ret) := by
  have hserve : handle context (serve counts args answer) SyscallId.TRACE = (query counts args.a1).map .done := by
    have hcounter : serve counts args answer .trace = _ := serve_trace hreq
    rw [← hcounter]
    rfl
  unfold Process.syscall
  rw [hc]
  simp only [bind, Except.bind, hserve]
  cases query counts args.a1 with
  | error e => rfl
  | ok ret => rfl

/-- Any other call that was counted panics for reasons of its own. -/
theorem syscall_aside {counts : List Nat} {e : Panic} (hc : count usizeMax p.syscallCount id = .ok counts)
    (hno : ¬(id = SyscallId.TRACE ∧ args.a0 = 2)) (h : p.syscall id args answer = .error e) : Aside e := by
  unfold Process.syscall at h
  rw [hc] at h
  simp only [bind, Except.bind] at h
  split at h
  · rename_i e' he
    cases h
    obtain rfl | rfl | ⟨-, hid, hreq, -⟩ := handle_panics he
    · simp [Aside]
    · simp [Aside]
    · exact absurd ⟨hid, hreq⟩ hno
  · split at h <;> cases h

/-! ## One pass -/

theorem step_empty (hk : k.processes = []) : k.step trap = .ok (k, none) := by
  unfold Kernel.step
  rw [hk]

theorem step_other (hk : k.processes = p :: ps) : k.step .other = .ok (k.remove, none) := by
  unfold Kernel.step
  rw [hk]

theorem step_call (hk : k.processes = p :: ps) :
    k.step (.userEnvCall id args answer) = (p.syscall id args answer).map (k.reply ps id args) := by
  unfold Kernel.step
  rw [hk]

theorem Kernel.Counts.remove (h : k.Counts calls) (hnew : ∀ c, call = some c → c.app = k.removed) :
    k.remove.Counts (calls ++ call.toList) where
  front p ps hp := by
    have hmem : ∀ q ∈ p :: ps, q = .new := by
      cases hk : k.processes with
      | nil => simp [Kernel.remove, hk] at hp
      | cons q qs =>
        rw [← hp]
        simpa [Kernel.remove, hk] using (h.front q qs hk).2.2
    obtain rfl := hmem p (List.mem_cons_self ..)
    have hzero : ∀ id, made (calls ++ call.toList) (k.removed + 1) id = 0 := by
      intro id
      apply made_fresh
      intro c hc
      rcases List.mem_append.mp hc with hc | hc
      · have := h.fresh c hc
        omega
      · have := hnew c (by simpa using hc)
        omega
    refine ⟨Process.new_length, fun id hid => ?_, fun q hq => hmem q (List.mem_cons_of_mem _ hq)⟩
    simp [Kernel.remove, hzero, Process.new_get hid]
  fresh c hc := by
    rcases List.mem_append.mp hc with hc | hc
    · exact Nat.le_succ_of_le (h.fresh c hc)
    · exact (hnew c (by simpa using hc)) ▸ Nat.le_succ _

theorem Kernel.Counts.step (h : k.Counts calls) (hs : k.step trap = .ok (k', call)) :
    k'.Counts (calls ++ call.toList) := by
  cases hk : k.processes with
  | nil =>
    rw [step_empty hk] at hs
    cases hs
    simpa using h
  | cons p ps =>
    cases trap with
    | other =>
      rw [step_other hk] at hs
      cases hs
      exact h.remove fun c hc => by cases hc
    | userEnvCall id args answer =>
      rw [step_call hk] at hs
      cases hr : p.syscall id args answer with
      | error e => rw [hr] at hs; cases hs
      | ok r =>
        obtain ⟨p', ret | ret⟩ := r
        · rw [hr] at hs
          cases hs
          exact h.remove (by simp)
        · rw [hr] at hs
          cases hs
          have hc := syscall_ok hr
          obtain ⟨hlen, -, hnew⟩ := h.front p ps hk
          constructor
          · intro q qs hq
            obtain ⟨rfl, rfl⟩ := List.cons.inj hq
            refine ⟨by rw [count_length hc, hlen], fun i hi => ?_, hnew⟩
            rw [h.counted hk hc hi]
            simp [made_append, eq_comm]
          · intro c hcall
            rcases List.mem_append.mp hcall with hcall | hcall
            · exact h.fresh c hcall
            · simp at hcall
              simp [hcall]

theorem asIsize_eq {a : Nat} : asIsize a = a ↔ a < 2 ^ 63 := by
  unfold asIsize
  split <;> omega

/-- What a pass does with a trap: it panics for reasons of its own or is right about a query. -/
def Kernel.Passes (k : Kernel) (calls : List Call) (trap : Trap) : Prop :=
  (∀ e, k.step trap = .error e → Aside e) ∧ ∀ k' c, k.step trap = .ok (k', some c) → c.Right (calls ++ [c])

theorem passes_query (h : k.Counts calls) (hk : k.processes = p :: ps) (hreq : args.a0 = 2) {counts : List Nat}
    (hc : count usizeMax p.syscallCount SyscallId.TRACE = .ok counts) :
    k.Passes calls (.userEnvCall SyscallId.TRACE args answer) ↔ args.a1 < MAX_SYSCALL_NUM ∧
      p.syscallCount.getD args.a1 0 + (if args.a1 = SyscallId.TRACE then 1 else 0) < 2 ^ 63 := by
  obtain ⟨hlen, hcount, -⟩ := h.front p ps hk
  unfold Kernel.Passes
  rw [step_call hk, syscall_query hc hreq]
  by_cases hq : args.a1 < MAX_SYSCALL_NUM
  · have hget := h.counted hk hc hq
    set m := made calls k.removed args.a1 + if args.a1 = SyscallId.TRACE then 1 else 0 with hm
    have hmade : ∀ ret, made (calls ++ [⟨k.removed, SyscallId.TRACE, args, ret⟩]) k.removed args.a1 = m := by
      intro ret
      rw [made_append, hm]
      simp [eq_comm]
    have hquery : query counts args.a1 = .ok (asIsize m) := by
      unfold query
      rw [hget]
    have hold : p.syscallCount.getD args.a1 0 + (if args.a1 = SyscallId.TRACE then 1 else 0) = m := by
      rw [List.getD_eq_getElem?_getD, hcount _ hq, hm, Option.getD_some]
    rw [hquery, hold]
    simp [hq, hreq, Except.map, Kernel.reply, Call.Right, hmade, asIsize_eq]
  · have hnone : counts[args.a1]? = none := by
      apply List.getElem?_eq_none
      rw [count_length hc, hlen]
      exact Nat.le_of_not_lt hq
    have hquery : query counts args.a1 = .error .queryIndex := by
      unfold query
      rw [hnone]
    simp [hq, hquery, Except.map, Aside]

theorem passes_call (h : k.Counts calls) (hk : k.processes = p :: ps) :
    k.Passes calls (.userEnvCall id args answer) ↔ p.InRange id args := by
  cases hc : count usizeMax p.syscallCount id with
  | error e =>
    have hcounted : ¬∃ counts, count usizeMax p.syscallCount id = .ok counts := by simp [hc]
    rw [h.count_ok hk] at hcounted
    constructor
    · intro hpass
      have haside := hpass.1 e (by rw [step_call hk, syscall_uncounted hc]; rfl)
      rcases count_panics hc with rfl | rfl
      · exact absurd rfl haside.1
      · exact absurd rfl haside.2.1
    · intro hin
      exact absurd ⟨hin.number, hin.fits⟩ hcounted
  | ok counts =>
    obtain ⟨hnumber, hfits⟩ := (h.count_ok hk).mp ⟨counts, hc⟩
    by_cases hq : id = SyscallId.TRACE ∧ args.a0 = 2
    · obtain ⟨rfl, hreq⟩ := hq
      rw [passes_query h hk hreq hc]
      constructor
      · rintro ⟨hlt, hisize⟩
        exact ⟨hnumber, hfits, fun _ _ => hlt, fun _ _ => hisize⟩
      · intro hin
        exact ⟨hin.queried rfl hreq, hin.isize rfl hreq⟩
    · have hpass : k.Passes calls (.userEnvCall id args answer) := by
        rw [Kernel.Passes, step_call hk]
        cases hr : p.syscall id args answer with
        | error e =>
          refine ⟨fun e' he => ?_, by simp [Except.map]⟩
          cases he
          exact syscall_aside hc hq hr
        | ok r =>
          obtain ⟨p', ret | ret⟩ := r
          all_goals
            simp only [Except.map, Kernel.reply, reduceCtorEq, false_implies, implies_true, true_and]
            rintro k' c hstep hid hreq
            cases hstep
            exact absurd ⟨hid, hreq⟩ hq
      refine ⟨fun _ => ⟨hnumber, hfits, fun hid hreq => absurd ⟨hid, hreq⟩ hq, fun hid hreq => absurd ⟨hid, hreq⟩ hq⟩,
        fun _ => hpass⟩

/-! ## A run -/

theorem passes_iff (h : k.Counts calls) : k.Passes calls trap ↔
    ∀ p ps id args answer, k.processes = p :: ps → trap = .userEnvCall id args answer → p.InRange id args := by
  cases hk : k.processes with
  | nil =>
    simp [Kernel.Passes, step_empty hk]
  | cons p ps =>
    cases trap with
    | other => simp [Kernel.Passes, step_other hk]
    | userEnvCall id args answer =>
      rw [passes_call h hk]
      constructor
      · rintro hin q qs id' args' answer' hq htrap
        cases hq
        cases htrap
        exact hin
      · intro hin
        exact hin p ps id args answer rfl rfl

theorem ranges_iff (h : k.Counts calls) :
    AllRight calls (k.run traps).calls ∧ (k.run traps).CountsOn ↔ k.Ranges traps := by
  induction traps generalizing k calls with
  | nil =>
    simp [Kernel.run, Kernel.Ranges, Run.CountsOn, allRight_nil]
  | cons trap traps ih =>
    unfold Kernel.run Kernel.Ranges
    rw [← passes_iff h]
    cases hs : k.step trap with
    | error e =>
      simp [Kernel.Passes, hs, allRight_nil, Run.CountsOn, Aside]
    | ok r =>
      obtain ⟨k', call⟩ := r
      have hnext := ih (h.step hs)
      simp only [allRight_toList, Run.CountsOn, Kernel.Passes, hs, reduceCtorEq, false_implies, implies_true, true_and,
        Except.ok.injEq, Prod.mk.injEq, and_imp] at hnext ⊢
      constructor
      · rintro ⟨⟨hright, hall⟩, hon⟩
        refine ⟨?_, ?_⟩
        · rintro _ c - rfl
          exact hright c rfl
        · rintro _ _ rfl rfl
          exact hnext.mp ⟨hall, hon⟩
      · rintro ⟨hright, hranges⟩
        obtain ⟨hall, hon⟩ := hnext.mpr (hranges k' call rfl rfl)
        exact ⟨⟨fun c hc => hright k' c rfl hc, hall⟩, hon⟩

/-- A query of a process is answered with the number of its own calls, and no count and no query
    stops the kernel, exactly in the runs whose calls are all in range. -/
theorem queries_iff (n : Nat) (traps : List Trap) :
    ((Kernel.boot n).run traps).Accounts ↔ (Kernel.boot n).Ranges traps :=
  ranges_iff counts_boot

-- Two processes query how often they have called `write`.
example : (((Kernel.boot 2).run [.userEnvCall 64 Args.zero (some 0), .userEnvCall SyscallId.TRACE ⟨2, 64, 0, 0, 0, 0⟩ none,
    .other, .userEnvCall SyscallId.TRACE ⟨2, 64, 0, 0, 0, 0⟩ none]).calls.map fun c => (c.app, c.ret)) =
      [(0, some 0), (0, some 1), (1, some 0)] := by decide +kernel

/-- `thread_create` is unsupported here, but its number has no counter. -/
theorem thread_create_uncounted : handle context (serve [] Args.zero none) 1000 = .ok (.unsupported 1000) ∧
    ¬((Kernel.boot 1).run [.userEnvCall 1000 Args.zero none]).Accounts := by
  refine ⟨rfl, fun h => h.2.1 ?_⟩
  have hcount : count usizeMax Process.new.syscallCount 1000 = .error .countIndex := by
    rw [count, List.getElem?_eq_none (by rw [Process.new_length]; decide)]
  have hstep : (Kernel.boot 1).step (.userEnvCall 1000 Args.zero none) = .error .countIndex := by
    rw [step_call rfl, syscall_uncounted hcount]
    rfl
  simp [Kernel.run, hstep]

end

end TgRcore.Ch4
