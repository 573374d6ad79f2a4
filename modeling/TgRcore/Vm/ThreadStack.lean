/-
  TgRcore.Vm.ThreadStack — the kernel of chapter 8 with its memory: `thread_create` and the stack
  that it gives to a thread.

  - `ThreadKernel.Step`: processes come from `initproc` and `fork`, change their image by `exec`,
    get threads by `thread_create`; the thread manager is used in any order in between.
  - `StackSlot`: the page that the search finds. It looks at root entries only, three pages down
    at a time, and goes below page 0 when all of them are in use.
  - `ThreadCreateMeets`: the call returns a new thread with two fresh pages for its stack, or -1
    and nothing changes.
  - `thread_stacks`: with frames enough it does so exactly when there is such a page and the page
    after it, which may lie under the next root entry, is free.
-/

import TgRcore.Kernel.Signal
import TgRcore.Task.ThreadManager
import TgRcore.Vm.Elf

namespace TgRcore.Vm

open TgRcore.BlockProg TgRcore.Kernel TgRcore.Task TgRcore.Sync AddressSpace

/-! ## The kernel -/

/-- `Thread` without its number, under which it is stored. -/
structure Thread where
  context : LocalContext
  satp : Nat

/-- `ProcessorInner`; a process of chapter 8 has no break. -/
abbrev Processor := PThreadManager Process Thread

namespace Processor

/-- `get_current_proc().unwrap()` -/
def getCurrentProc (tm : Processor) : Except Halt (ProcId × Process) :=
  match tm.current with
  | none => .error .panic
  | some id =>
    match tm.tid2pid id with
    | none => .error .panic
    | some pid =>
      match tm.procManager.getMut pid with
      | none => .error .panic
      | some p => .ok (pid, p)

/-- `get_task(get_thread(pid).unwrap()[0]).unwrap()` -/
def firstThread (tm : Processor) (pid : ProcId) : Except Halt (Task.ThreadId × Thread) :=
  match tm.relMap pid with
  | none => .error .panic
  | some r =>
    match r.threads with
    | [] => .error .panic
    | first :: _ =>
      match tm.manager.getMut first with
      | none => .error .panic
      | some thread => .ok (first, thread)

def setProc (tm : Processor) (pid : ProcId) (p : Process) : Processor :=
  { tm with procManager := tm.procManager.insert pid p }

def setThread (tm : Processor) (tid : Task.ThreadId) (thread : Thread) : Processor :=
  { tm with manager := { tm.manager with tasks := tm.manager.tasks.adjust tid fun _ => thread } }

end Processor

/-- The frames, the kernel's space, the processor and the numbers used so far. -/
structure ThreadKernel where
  memory : Heap
  space : AddressSpace
  world : Threads.World Process Thread

namespace ThreadKernel

/-- The kernel before it loads a process. -/
def start (s : Machine) : ThreadKernel := ⟨s.heap, s.kernel, .new⟩

/-- The processor and the memory after a call that makes no process. -/
def after (k : ThreadKernel) (tm : Processor) (memory : Heap) : ThreadKernel :=
  { k with memory := memory, world := { k.world with tm := tm } }

/-- The processes. -/
def procs (k : ThreadKernel) : BTreeMap ProcId Process := k.world.tm.procManager.procs

/-- The context of the thread of an image. -/
def mainContext (entry : Nat) : LocalContext := (LocalContext.user entry).setX 2 (2 ^ 38)

/-- The first process, at boot. -/
def initproc (R : Rounding) (A : FrameAllocator) (k : ThreadKernel) (pid : ProcId) (tid : Task.ThreadId) (entry : Nat)
    (elf : ElfFile) : Except Halt ThreadKernel := do
  let image ← Process.fromElf R A k.memory k.space elf
  match image with
  | none => .ok k
  | some (p, memory) => do
    let tm := k.world.tm.addProc pid p usizeMax
    let tm ← tm.add tid ⟨mainContext entry, satpOf p.space⟩ pid
    .ok { k with memory := memory, world := ⟨tm, pid :: k.world.usedPids, tid :: k.world.usedTids⟩ }

def fork (A : FrameAllocator) (k : ThreadKernel) (pid : ProcId) (tid : Task.ThreadId) : Except Halt (Int × ThreadKernel) := do
  let (parentPid, p) ← Processor.getCurrentProc k.world.tm
  let (child, memory) ← Process.fork A k.memory k.space p
  let (_, first) ← Processor.firstThread k.world.tm parentPid
  let tm := k.world.tm.addProc pid child parentPid
  let tm ← tm.add tid ⟨first.context.setA 0 0, satpOf child.space⟩ pid
  .ok (asIsize pid, { k with memory := memory, world := ⟨tm, pid :: k.world.usedPids, tid :: k.world.usedTids⟩ })

/-- The new image goes to the first thread of the process. -/
def exec (R : Rounding) (A : FrameAllocator) (k : ThreadKernel) (entry : Nat) (elf : ElfFile) :
    Except Halt (Int × ThreadKernel) := do
  let (pid, _) ← Processor.getCurrentProc k.world.tm
  let (p, memory) ← Process.exec R A k.memory k.space elf
  let (first, _) ← Processor.firstThread k.world.tm pid
  let tm := Processor.setThread (Processor.setProc k.world.tm pid p) first ⟨mainContext entry, satpOf p.space⟩
  .ok (0, k.after tm memory)

/-- `tid` is the number that `ThreadId::new` gives next. -/
def threadCreate (A : FrameAllocator) (k : ThreadKernel) (tid : Task.ThreadId) (entry arg : Nat) :
    Except Halt (Int × ThreadKernel) := do
  let (pid, p) ← Processor.getCurrentProc k.world.tm
  let vpn ← Process.searchStack k.memory p.space.root (2 ^ 26) (2 ^ 26 - 2)
  let (stack, memory) ← k.memory.pageAlloc A 2
  let (s, memory) ← mapExtern A memory p.space vpn (vpn + 2) stack heapFlags
  let context := ((LocalContext.user entry).setX 2 ((vpn + 2) * pageSize)).setA 0 arg
  let tm ← (Processor.setProc k.world.tm pid { p with space := s }).add tid ⟨context, satpOf s⟩ pid
  .ok (asIsize tid, { k with memory := memory, world := ⟨tm, k.world.usedPids, tid :: k.world.usedTids⟩ })

end ThreadKernel

/-! ## Runs -/

inductive ThreadEvent where
  | initproc (pid : ProcId) (tid : Task.ThreadId) (entry : Nat) (elf : ElfFile)
  | fork (pid : ProcId) (tid : Task.ThreadId)
  | exec (entry : Nat) (elf : ElfFile)
  | threadCreate (tid : Task.ThreadId) (entry arg : Nat)
  | ran (thread : Thread)
  | manage (e : Threads.Event)

/-- A use of the thread manager that makes neither a process nor a thread: a thread is chosen,
    put back, blocked, made ready or exits, or another one is waited for. -/
def Uses : Threads.Event → Prop
  | .newProc _ _ _ => False
  | .newThread _ _ => False
  | _ => True

inductive ThreadKernel.Step (R : Rounding) (A : FrameAllocator) : ThreadKernel → ThreadEvent → ThreadKernel → Prop
  | initproc {k k' : ThreadKernel} {pid : ProcId} {tid : Task.ThreadId} {entry : Nat} {elf : ElfFile} :
      pid ∉ k.world.usedPids → pid < 2 ^ 64 - 2 → tid ∉ k.world.usedTids → k.initproc R A pid tid entry elf = .ok k' →
      Step R A k (.initproc pid tid entry elf) k'
  | fork {k k' : ThreadKernel} {pid : ProcId} {tid : Task.ThreadId} {ret : Int} :
      pid ∉ k.world.usedPids → pid < 2 ^ 64 - 2 → tid ∉ k.world.usedTids → k.fork A pid tid = .ok (ret, k') →
      Step R A k (.fork pid tid) k'
  | exec {k k' : ThreadKernel} {entry : Nat} {elf : ElfFile} {ret : Int} : k.exec R A entry elf = .ok (ret, k') →
      Step R A k (.exec entry elf) k'
  | threadCreate {k k' : ThreadKernel} {tid : Task.ThreadId} {entry arg : Nat} {ret : Int} : tid ∉ k.world.usedTids →
      k.threadCreate A tid entry arg = .ok (ret, k') → Step R A k (.threadCreate tid entry arg) k'
  /-- The current thread ran and comes back with other registers. -/
  | ran {k : ThreadKernel} {tid : Task.ThreadId} {thread : Thread} : k.world.tm.current = some tid →
      Step R A k (.ran thread) (k.after (Processor.setThread k.world.tm tid thread) k.memory)
  | manage {k : ThreadKernel} {e : Threads.Event} {w : Threads.World Process Thread} : Uses e → Threads.Step k.world e w →
      Step R A k (.manage e) { k with world := w }

/-! ## What `thread_create` is to do -/

/-- The answer is the number of a new thread, whose two stack pages had no frames and have fresh
    ones; no other page of the process has changed. -/
structure ThreadMade (k k' : ThreadKernel) (pid : ProcId) (p p' : Process) (tid : Task.ThreadId) (entry arg v : Nat) (ret : Int) :
    Prop where
  answer : ret = asIsize tid
  fresh : k.world.tm.manager.tasks tid = none
  thread : k'.world.tm.manager.tasks tid =
    some ⟨((LocalContext.user entry).setX 2 ((v + 2) * pageSize)).setA 0 arg, satpOf p'.space⟩
  owner : k'.world.tm.tid2pid tid = some pid
  low : v + 2 ≤ 2 ^ 26
  stack : Maps k.memory k'.memory p.space p'.space v 2 heapFlags fun _ => 0
  procs : k'.procs = k.procs.insert pid p'

def ThreadCreateMeets (A : FrameAllocator) (k : ThreadKernel) (pid : ProcId) (p : Process) (tid : Task.ThreadId)
    (entry arg : Nat) : Prop :=
  ∃ ret k', k.threadCreate A tid entry arg = .ok (ret, k') ∧
    ((∃ p' v, ThreadMade k k' pid p p' tid entry arg v ret) ∨ ret = -1 ∧ k' = k)

/-- The highest page, counted down by three from the stack of the image, whose root entry is not
    in use. -/
structure StackSlot (h : Heap) (root w v : Nat) : Prop where
  step : v % 3 = 2
  low : v ≤ w
  free : (h.tables root (indexIn v maxLevel)).isValid = false
  above : ∀ u, v < u → u ≤ w → u % 3 = 2 → (h.tables root (indexIn u maxLevel)).isValid = true

/-- There is room for a stack where `thread_create` looks for it. -/
def StackFits (h : Heap) (p : Process) : Prop :=
  ∃ v, StackSlot h p.space.root (2 ^ 26 - 2) v ∧ visit h p.space (v + 1) = none

section

variable {A : FrameAllocator} {R : Rounding} {kernel : Nat} {shared : List Nat} {label : Nat → Option Node} {h h' : Heap}
  {s : AddressSpace} {p p' : Process} {root fuel w v : Nat}

/-! ## The search -/

/-- The search ends, and finds the highest page that there is. -/
theorem search_iff (hw : w % 3 = 2) (hf : w / 3 < fuel) :
    Process.searchStack h root fuel w = .ok v ↔ StackSlot h root w v := by
  induction fuel generalizing w with
  | zero => exact absurd hf (Nat.not_lt_zero _)
  | succ fuel ih =>
    unfold Process.searchStack
    cases hv : (h.tables root (indexIn w maxLevel)).isValid with
    | false =>
      rw [if_pos (show (!false) = true from rfl), Except.ok.injEq]
      constructor
      · intro e
        subst e
        exact ⟨hw, Nat.le_refl w, hv, fun u hlt hle => absurd hle (Nat.not_le.mpr hlt)⟩
      · intro hs
        by_contra hne
        have := hs.low
        have habove := hs.above w (by omega) (Nat.le_refl w) hw
        rw [hv] at habove
        cases habove
    | true =>
      rw [if_neg (by simp)]
      have hne : StackSlot h root w v → v ≠ w := by
        intro hs e
        have hfree := hs.free
        rw [e, hv] at hfree
        cases hfree
      split
      · rename_i hlt
        refine iff_of_false (by simp) fun hs => hne hs ?_
        have := hs.low
        have := hs.step
        omega
      · rename_i hge
        rw [ih (by omega) (by omega)]
        constructor
        · intro hs
          have := hs.low
          refine ⟨hs.step, by omega, hs.free, fun u hlt hle hu => ?_⟩
          by_cases he : u = w
          · rw [he]
            exact hv
          · exact hs.above u hlt (by omega) hu
        · intro hs
          have := hne hs
          have := hs.low
          have := hs.step
          exact ⟨hs.step, by omega, hs.free, fun u hlt hle hu => hs.above u hlt (by omega) hu⟩

theorem search_stack : Process.searchStack h root (2 ^ 26) (2 ^ 26 - 2) = .ok v ↔ StackSlot h root (2 ^ 26 - 2) v :=
  search_iff (by decide) (by decide)

/-- Below a root entry that is not in use there is nothing. -/
theorem visit_slot (hfree : (h.tables s.root (indexIn v maxLevel)).isValid = false) : visit h s v = none := by
  by_cases hv : v ≤ vpnMax
  · have hleaf : leafOf h s.root v = none := by
      unfold leafOf next
      rw [hfree]
      rfl
    rw [visit_none hv, entry_none hleaf]
    rfl
  · exact visit_beyond _ _ (Nat.not_le.mp hv)

/-! ## The call -/

theorem getCurrentProc_ok {tm : Processor} {pid : ProcId} : Processor.getCurrentProc tm = .ok (pid, p) ↔
    Threads.currentPid tm = some pid ∧ tm.procManager.procs pid = some p := by
  unfold Processor.getCurrentProc Threads.currentPid ProcStore.getMut
  cases tm.current with
  | none => simp
  | some id =>
    cases hpid : tm.tid2pid id with
    | none => simp [hpid]
    | some pid' =>
      cases hp : tm.procManager.procs pid' with
      | none =>
        simp only [Option.bind_some, hpid, hp]
        refine iff_of_false (by simp) fun ⟨e, hp'⟩ => ?_
        cases e
        rw [hp] at hp'
        cases hp'
      | some q =>
        simp only [Option.bind_some, hpid, hp]
        constructor
        · intro e
          cases e
          exact ⟨rfl, hp⟩
        · intro ⟨e, hp'⟩
          cases e
          rw [hp, Option.some.injEq] at hp'
          rw [hp']

section

variable {k k' : ThreadKernel} {pid : ProcId} {tid : Task.ThreadId} {entry arg : Nat} {ret : Int}

/-- The search for a place asks for no frame. -/
theorem search_served (h : Heap) (root fuel w : Nat) : Served (Process.searchStack h root fuel w) := by
  induction fuel generalizing w with
  | zero => exact served_panic
  | succ fuel ih =>
    unfold Process.searchStack
    split
    · exact served_ok
    · split
      · exact served_panic
      · exact ih _

theorem ThreadKernel.threadCreate_served (hA : ∀ h n, (A.alloc h n).isSome = true) (k : ThreadKernel) (tid : Task.ThreadId)
    (entry arg : Nat) : Served (k.threadCreate A tid entry arg) := by
  refine Served.bind ?_ fun x => (search_served _ _ _ _).bind fun v => ?_
  · unfold Processor.getCurrentProc
    split
    · exact served_panic
    · split
      · exact served_panic
      · split
        · exact served_panic
        · exact served_ok
  · refine (pageAlloc_served hA _ 2).bind fun _ => (mapExtern_served hA _ _ _ _).bind fun _ => ?_
    refine Served.bind ?_ fun _ => served_ok
    unfold PThreadManager.add
    refine Served.bind served_ok fun _ => ?_
    split
    · exact served_ok
    · exact served_ok

/-- What `thread_create` did when it returned. -/
theorem Known.threadCreate_made (hk : Known kernel shared label k.memory p) (hi : Threads.TInv k.world)
    (hproc : Processor.getCurrentProc k.world.tm = .ok (pid, p)) (htid : tid ∉ k.world.usedTids)
    (hok : k.threadCreate A tid entry arg = .ok (ret, k')) :
    ∃ p' v, StackSlot k.memory p.space.root (2 ^ 26 - 2) v ∧ ThreadMade k k' pid p p' tid entry arg v ret := by
  obtain ⟨⟨pid1, p1⟩, hproc1, hok⟩ := bind_eq_ok.mp hok
  rw [hproc] at hproc1
  cases hproc1
  obtain ⟨v, hsearch, hok⟩ := bind_eq_ok.mp hok
  obtain ⟨⟨stack, h1⟩, halloc, hok⟩ := bind_eq_ok.mp hok
  obtain ⟨⟨s', h2⟩, hmap, hok⟩ := bind_eq_ok.mp hok
  obtain ⟨tm, hadd, hok⟩ := bind_eq_ok.mp hok
  cases hok
  have hslot := search_stack.mp hsearch
  have hf : Filled A k.memory (v + 2 - v) stack h1 fun _ => 0 := by
    rw [Nat.add_sub_cancel_left]
    exact filled_alloc halloc
  obtain ⟨-, -, hm, -⟩ := hk.tree.maps hk.root (by decide) (by decide) hf hmap
  rw [Nat.add_sub_cancel_left] at hm
  obtain ⟨hcur, -⟩ := getCurrentProc_ok.mp hproc
  obtain ⟨r, hr⟩ := hi.currentPid_some hcur
  have hrel : (Processor.setProc k.world.tm pid { p with space := s' }).relMap pid = some r := hr
  rw [Threads.add_eq hrel, Except.ok.injEq] at hadd
  subst hadd
  refine ⟨{ p with space := s' }, v, hslot, rfl, ?_, ?_, ?_, ?_, hm, rfl⟩
  · have hno : ¬ (k.world.tm.manager.tasks tid).isSome = true := by
      rw [hi.tasks, hi.fresh htid]
      simp
    exact Option.not_isSome_iff_eq_none.mp hno
  · exact if_pos rfl
  · exact if_pos rfl
  · have := hslot.low
    omega

theorem Known.threadCreate_fits (hk : Known kernel shared label k.memory p) (hi : Threads.TInv k.world)
    (hproc : Processor.getCurrentProc k.world.tm = .ok (pid, p)) (htid : tid ∉ k.world.usedTids)
    (hok : k.threadCreate A tid entry arg = .ok (ret, k')) : StackFits k.memory p := by
  obtain ⟨p', v, hslot, hm⟩ := hk.threadCreate_made hi hproc htid hok
  exact ⟨v, hslot, hm.stack.before 1 (by decide)⟩

theorem Known.threadCreate_total (hk : Known kernel shared label k.memory p) (hi : Threads.TInv k.world)
    (hserved : Served (k.threadCreate A tid entry arg)) (hproc : Processor.getCurrentProc k.world.tm = .ok (pid, p))
    (hfits : StackFits k.memory p) : ∃ ret k', k.threadCreate A tid entry arg = .ok (ret, k') := by
  obtain ⟨v, hslot, hnext⟩ := hfits
  have hserved := (hserved.next hproc).next (search_stack.mpr hslot)
  obtain ⟨⟨stack, h1⟩, halloc⟩ := hserved.first.pageAlloc
  have hf : Filled A k.memory (v + 2 - v) stack h1 fun _ => 0 := by
    rw [Nat.add_sub_cancel_left]
    exact filled_alloc halloc
  have hfree : ∀ i, i < v + 2 - v → visit k.memory p.space (v + i) = none := by
    intro i hi
    obtain rfl | rfl : i = 0 ∨ i = 1 := by omega
    · exact visit_slot hslot.free
    · exact hnext
  have hlast : v + 2 ≤ vpnMax + 1 := by
    have := hslot.low
    unfold vpnMax
    omega
  have hu : Flag.u ∈ heapFlags := by decide
  obtain ⟨s', h2, hmap⟩ := hk.tree.mapExtern_total (hserved.next halloc).first hk.root hu (by omega) hlast hf hfree
  obtain ⟨hcur, -⟩ := getCurrentProc_ok.mp hproc
  obtain ⟨r, hr⟩ := hi.currentPid_some hcur
  have hrel : (Processor.setProc k.world.tm pid { p with space := s' }).relMap pid = some r := hr
  let thread : Thread := ⟨((LocalContext.user entry).setX 2 ((v + 2) * pageSize)).setA 0 arg, satpOf s'⟩
  obtain ⟨tm, hadd⟩ : ∃ tm, (Processor.setProc k.world.tm pid { p with space := s' }).add tid thread pid = .ok tm :=
    ⟨_, Threads.add_eq hrel⟩
  refine ⟨asIsize tid, { k with memory := h2, world := ⟨tm, k.world.usedPids, tid :: k.world.usedTids⟩ }, ?_⟩
  refine bind_eq_ok.mpr ⟨(pid, p), hproc, bind_eq_ok.mpr ⟨v, search_stack.mpr hslot, ?_⟩⟩
  exact bind_eq_ok.mpr ⟨(stack, h1), halloc, bind_eq_ok.mpr ⟨(s', h2), hmap, bind_eq_ok.mpr ⟨tm, hadd, rfl⟩⟩⟩

theorem Known.threadCreate_iff (hk : Known kernel shared label k.memory p) (hi : Threads.TInv k.world)
    (hserved : Served (k.threadCreate A tid entry arg)) (hproc : Processor.getCurrentProc k.world.tm = .ok (pid, p))
    (htid : tid ∉ k.world.usedTids) : ThreadCreateMeets A k pid p tid entry arg ↔ StackFits k.memory p := by
  constructor
  · intro ⟨ret, k', hok, _⟩
    exact hk.threadCreate_fits hi hproc htid hok
  · intro hfits
    obtain ⟨ret, k', hok⟩ := hk.threadCreate_total hi hserved hproc hfits
    obtain ⟨p', v, -, hm⟩ := hk.threadCreate_made hi hproc htid hok
    exact ⟨ret, k', hok, .inl ⟨p', v, hm⟩⟩

end

/-! ## The machine under the kernel -/

/-- Every process of the table has its place in the list. -/
def Placed (procs : List Process) (table : BTreeMap ProcId Process) : Prop :=
  ∃ place : ProcId → Nat, (∀ pid p, table pid = some p → procs[place pid]? = some p) ∧
    ∀ pid q p p', table pid = some p → table q = some p' → place pid = place q → pid = q

section

variable {procs : List Process} {table table' : BTreeMap ProcId Process} {pid : ProcId}

theorem Placed.sub (h : Placed procs table) (hsub : ∀ q x, table' q = some x → table q = some x) : Placed procs table' := by
  obtain ⟨place, hat, hinj⟩ := h
  exact ⟨place, fun q x hx => hat q x (hsub q x hx), fun q r x y hx hy => hinj q r x y (hsub q x hx) (hsub r y hy)⟩

theorem Placed.insert (h : Placed procs table) (pid : ProcId) (p : Process) : Placed (procs ++ [p]) (table.insert pid p) := by
  obtain ⟨place, hat, hinj⟩ := h
  have hlt : ∀ q x, table q = some x → place q < procs.length := fun q x hx => (List.getElem?_eq_some_iff.mp (hat q x hx)).1
  refine ⟨fun q => if q = pid then procs.length else place q, fun q x hx => ?_, fun q r x y hx hy heq => ?_⟩
  · dsimp only
    rw [BTreeMap.insert_apply] at hx
    split at hx
    · rename_i e
      cases hx
      rw [if_pos e]
      exact List.getElem?_concat_length
    · rename_i hne
      rw [if_neg hne, List.getElem?_append_left (hlt q x hx)]
      exact hat q x hx
  · dsimp only at heq
    rw [BTreeMap.insert_apply] at hx hy
    by_cases hq : q = pid
    · by_cases hr : r = pid
      · rw [hq, hr]
      · rw [if_neg hr] at hy
        rw [if_pos hq, if_neg hr] at heq
        have := hlt r y hy
        omega
    · rw [if_neg hq] at hx
      by_cases hr : r = pid
      · rw [if_neg hq, if_pos hr] at heq
        have := hlt q x hx
        omega
      · rw [if_neg hr] at hy
        rw [if_neg hq, if_neg hr] at heq
        exact hinj q r x y hx hy heq

/-- A process changes where it is. -/
theorem Placed.set (h : Placed procs table) (hp : table pid = some p) :
    ∃ i, procs[i]? = some p ∧ ∀ p', Placed (procs.set i p') (table.insert pid p') := by
  obtain ⟨place, hat, hinj⟩ := h
  refine ⟨place pid, hat pid p hp, fun p' => ⟨place, fun q x hx => ?_, fun q r x y hx hy => ?_⟩⟩
  · rw [BTreeMap.insert_apply] at hx
    split at hx
    · rename_i e
      cases hx
      rw [e]
      exact List.getElem?_set_self (List.getElem?_eq_some_iff.mp (hat pid p hp)).1
    · rename_i hne
      rw [List.getElem?_set_ne fun e => hne (hinj q pid x p hx hp e.symm)]
      exact hat q x hx
  · have hsome : ∀ q x, table.insert pid p' q = some x → ∃ y, table q = some y := by
      intro q x hx
      rw [BTreeMap.insert_apply] at hx
      split at hx
      · rename_i e
        exact ⟨p, by rw [e, hp]⟩
      · exact ⟨x, hx⟩
    obtain ⟨x', hx'⟩ := hsome q x hx
    obtain ⟨y', hy'⟩ := hsome r y hy
    exact hinj q r x' y' hx' hy'

end

/-- The machine has the memory and the processes of the kernel. -/
structure Refines (m : Machine) (k : ThreadKernel) : Prop where
  memory : m.heap = k.memory
  space : m.kernel = k.space
  procs : Placed m.procs k.procs

/-- The kernel after some run of the machine that `s` starts. -/
structure KernelInv (R : Rounding) (A : FrameAllocator) (s : Machine) (k : ThreadKernel) : Prop where
  threads : Threads.TInv k.world
  machine : ∃ m es, Runs R A s es m ∧ Refines m k

section

variable {k k' : ThreadKernel} {m s : Machine} {pid : ProcId} {tid : Task.ThreadId} {entry arg : Nat} {ret : Int}
  {elf : ElfFile} {e : ThreadEvent}

theorem Refines.caller (hr : Refines m k) (hp : k.procs pid = some p) : ∃ i, m.caller i = .ok p ∧
    ∀ p' h' k', h' = k'.memory → k'.space = k.space → k'.procs = k.procs.insert pid p' →
      Refines (m.update i p' h') k' := by
  obtain ⟨i, hi, hset⟩ := hr.procs.set hp
  refine ⟨i, ?_, fun p' h' k' hmem hspace hprocs => ⟨hmem, ?_, ?_⟩⟩
  · unfold Machine.caller
    rw [hi]
  · rw [hspace]
    exact hr.space
  · rw [hprocs]
    exact hset p'

/-- A machine that makes a process and a kernel that stores it. -/
theorem Refines.born (hr : Refines m k) {h' : Heap} (hmem : h' = k'.memory) (hspace : k'.space = k.space)
    (hprocs : k'.procs = k.procs.insert pid p) : Refines { m with heap := h', procs := m.procs ++ [p] } k' := by
  refine ⟨hmem, ?_, ?_⟩
  · rw [hspace]
    exact hr.space
  · rw [hprocs]
    exact hr.procs.insert pid p

theorem add_procs {tm tm' : Processor} {thread : Thread} (h : tm.add tid thread pid = .ok tm') :
    tm'.procManager = tm.procManager := by
  unfold PThreadManager.add at h
  obtain ⟨manager, -, h⟩ := bind_eq_ok.mp h
  split at h
  · cases h
    rfl
  · cases h
    rfl

theorem uses_procs {e : Threads.Event} {w w' : Threads.World Process Thread} (he : Uses e) (h : Threads.Step w e w')
    {q : ProcId} {x : Process} (hx : w'.tm.procManager.procs q = some x) : w.tm.procManager.procs q = some x := by
  cases h with
  | newProc => exact absurd he id
  | newThread => exact absurd he id
  | findNext hf =>
    obtain ⟨queue, ⟨rfl, -⟩ | ⟨id, task, -, -, -, rfl⟩⟩ := Threads.findNext_ok hf
    · exact hx
    · exact hx
  | suspend hs =>
    rw [Threads.suspend_procs hs] at hx
    exact hx
  | block => exact hx
  | reEnque hre =>
    cases hre
    exact hx
  | exit hexit => exact Threads.exited_procs hexit hx
  | wait hw =>
    obtain ⟨⟨pid, r⟩, -, hw⟩ := bind_eq_ok.mp hw
    cases hw
    exact hx
  | waittid hw =>
    obtain ⟨⟨pid, r⟩, -, hw⟩ := bind_eq_ok.mp hw
    cases hw
    exact hx

theorem setThread_tasks (tm : Processor) (tid : Task.ThreadId) (thread : Thread) (t : Task.ThreadId) :
    ((Processor.setThread tm tid thread).manager.tasks t).isSome = (tm.manager.tasks t).isSome := by
  show (tm.manager.tasks.adjust tid (fun _ => thread) t).isSome = _
  rw [BTreeMap.adjust_apply]
  split
  · exact Option.isSome_map
  · rfl

theorem setProc_procs {tm : Processor} (hp : tm.procManager.procs pid = some p) (p' : Process) (q : ProcId) :
    ((Processor.setProc tm pid p').procManager.procs q).isSome = (tm.procManager.procs q).isSome := by
  show (tm.procManager.procs.insert pid p' q).isSome = _
  rw [BTreeMap.insert_apply]
  split
  · rename_i e
    rw [e, hp]
    rfl
  · rfl

/-! ## Every step -/

/-- The machine takes a step with the kernel. -/
theorem KernelInv.event (hi : Threads.TInv k'.world) {es : List Event} {m' : Machine} {x : Event} (hrun : Runs R A s es m)
    (hstep : m.step R A x = .ok m') (hr : Refines m' k') : KernelInv R A s k' := ⟨hi, m', es ++ [x], .snoc hrun hstep, hr⟩

/-- The new process of a kernel, whose thread is its first. -/
theorem KernelInv.make (hi : KernelInv R A s k) {parent : ProcId} {thread : Thread} {tm : Processor} {h' : Heap}
    (hpid : pid ∉ k.world.usedPids) (hlt : pid < 2 ^ 64 - 2) (htid : tid ∉ k.world.usedTids)
    (hparent : parent = usizeMax ∨ Threads.currentPid k.world.tm = some parent)
    (hadd : (k.world.tm.addProc pid p parent).add tid thread pid = .ok tm)
    (hstep : ∀ m, Refines m k → ∃ x, m.step R A x = .ok { m with heap := h', procs := m.procs ++ [p] }) :
    KernelInv R A s { k with memory := h', world := ⟨tm, pid :: k.world.usedPids, tid :: k.world.usedTids⟩ } := by
  obtain ⟨m, es, hrun, hr⟩ := hi.machine
  obtain ⟨x, hstep⟩ := hstep m hr
  have hprocs : tm.procManager.procs = k.procs.insert pid p := by
    rw [add_procs hadd]
    rfl
  exact .event (hi.threads.step (.newProc hpid hlt htid hparent hadd)) hrun hstep (hr.born rfl rfl hprocs)

theorem KernelInv.step (hi : KernelInv R A s k) (h : ThreadKernel.Step R A k e k') : KernelInv R A s k' := by
  obtain ⟨m, es, hrun, hr⟩ := hi.machine
  cases h with
  | @initproc _ pid tid entry elf hpid hlt htid hok =>
    obtain ⟨image, himage, hok⟩ := bind_eq_ok.mp hok
    cases image with
    | none =>
      cases hok
      exact hi
    | some image =>
      obtain ⟨p, h'⟩ := image
      obtain ⟨tm, hadd, hok⟩ := bind_eq_ok.mp hok
      cases hok
      refine hi.make hpid hlt htid (.inl rfl) hadd fun m hr => ⟨.spawn elf, ?_⟩
      refine bind_eq_ok.mpr ⟨some (p, h'), ?_, rfl⟩
      rw [hr.memory, hr.space]
      exact himage
  | @fork _ pid tid ret hpid hlt htid hok =>
    obtain ⟨⟨parentPid, p⟩, hproc, hok⟩ := bind_eq_ok.mp hok
    obtain ⟨⟨child, h'⟩, hfork, hok⟩ := bind_eq_ok.mp hok
    obtain ⟨⟨first, thread⟩, -, hok⟩ := bind_eq_ok.mp hok
    obtain ⟨tm, hadd, hok⟩ := bind_eq_ok.mp hok
    cases hok
    obtain ⟨hcur, hp⟩ := getCurrentProc_ok.mp hproc
    refine hi.make hpid hlt htid (.inr hcur) hadd fun m hr => ?_
    obtain ⟨i, hcaller, -⟩ := hr.caller hp
    refine ⟨.fork i, bind_eq_ok.mpr ⟨p, hcaller, bind_eq_ok.mpr ⟨(child, h'), ?_, rfl⟩⟩⟩
    rw [hr.memory, hr.space]
    exact hfork
  | @exec _ entry elf ret hok =>
    obtain ⟨⟨pid, p⟩, hproc, hok⟩ := bind_eq_ok.mp hok
    obtain ⟨⟨p', h'⟩, hexec, hok⟩ := bind_eq_ok.mp hok
    obtain ⟨⟨first, thread⟩, -, hok⟩ := bind_eq_ok.mp hok
    cases hok
    obtain ⟨-, hp⟩ := getCurrentProc_ok.mp hproc
    obtain ⟨i, hcaller, hupdate⟩ := hr.caller hp
    have hstep : m.step R A (.exec i elf) = .ok (m.update i p' h') := by
      refine bind_eq_ok.mpr ⟨p, hcaller, bind_eq_ok.mpr ⟨(p', h'), ?_, rfl⟩⟩
      rw [hr.memory, hr.space]
      exact hexec
    refine .event ?_ hrun hstep (hupdate p' h' _ rfl rfl rfl)
    exact hi.threads.stores (setThread_tasks _ _ _) (setProc_procs hp p')
  | @threadCreate _ tid entry arg ret htid hok =>
    obtain ⟨⟨pid, p⟩, hproc, hok⟩ := bind_eq_ok.mp hok
    obtain ⟨v, hsearch, hok⟩ := bind_eq_ok.mp hok
    obtain ⟨⟨stack, h1⟩, halloc, hok⟩ := bind_eq_ok.mp hok
    obtain ⟨⟨s', h2⟩, hmap, hok⟩ := bind_eq_ok.mp hok
    obtain ⟨tm, hadd, hok⟩ := bind_eq_ok.mp hok
    cases hok
    obtain ⟨hcur, hp⟩ := getCurrentProc_ok.mp hproc
    obtain ⟨i, hcaller, hupdate⟩ := hr.caller hp
    have hstack : Process.threadStack A m.heap p = .ok ({ p with space := s' }, h2) := by
      rw [hr.memory]
      exact bind_eq_ok.mpr ⟨v, hsearch, bind_eq_ok.mpr ⟨(stack, h1), halloc, bind_eq_ok.mpr ⟨(s', h2), hmap, rfl⟩⟩⟩
    have hstep : m.step R A (.threadCreate i) = .ok (m.update i { p with space := s' } h2) :=
      bind_eq_ok.mpr ⟨p, hcaller, bind_eq_ok.mpr ⟨_, hstack, rfl⟩⟩
    refine .event ?_ hrun hstep (hupdate { p with space := s' } h2 _ rfl rfl ?_)
    · have htasks : ∀ t, (k.world.tm.manager.tasks t).isSome = (k.world.tm.manager.tasks t).isSome := fun _ => rfl
      exact (hi.threads.stores htasks (setProc_procs hp { p with space := s' })).step (.newThread htid hcur hadd)
    · show tm.procManager.procs = _
      rw [add_procs hadd]
      rfl
  | @ran tid thread hc =>
    exact ⟨hi.threads.stores (setThread_tasks _ _ _) fun _ => rfl, m, es, hrun, hr.memory, hr.space, hr.procs⟩
  | @manage e w he hw =>
    exact ⟨hi.threads.step hw, m, es, hrun, hr.memory, hr.space, hr.procs.sub fun q x hx => uses_procs he hw hx⟩

theorem kernelInv_run {es : List ThreadEvent} (h : Exec (ThreadKernel.Step R A) (.start s) es k) :
    KernelInv R A s k := by
  refine h.inv (P := fun _ k => KernelInv R A s k) ?_ fun hi h => hi.step h
  refine ⟨Threads.tInv_new, s, [], .nil s, rfl, rfl, fun _ => 0, fun pid p hp => ?_, fun pid q p p' hp => ?_⟩
  · cases hp
  · cases hp

/-- What is known of the process of the current thread. -/
theorem KernelInv.current (hi : KernelInv R A s k) (hR : R.Lawful) {h : Heap} {layout : KernelLayout} {portal : Nat}
    (hboot : Machine.boot A h layout portal = .ok s) {c : Task.ThreadId} (hc : k.world.tm.current = some c) :
    ∃ pid p, Processor.getCurrentProc k.world.tm = .ok (pid, p) ∧
      ∃ kernel shared label, Known kernel shared label k.memory p := by
  obtain ⟨m, es, hrun, hr⟩ := hi.machine
  obtain ⟨pid, hpid⟩ := Option.isSome_iff_exists.mp (hi.threads.current hc)
  have hcur : Threads.currentPid k.world.tm = some pid := by
    unfold Threads.currentPid
    rw [hc]
    exact hpid
  obtain ⟨r, hrel⟩ := hi.threads.currentPid_some hcur
  have hsome : (k.procs pid).isSome = true := by
    refine (hi.threads.procs pid).mpr ?_
    rw [hrel]
    rfl
  obtain ⟨p, hp⟩ := Option.isSome_iff_exists.mp hsome
  obtain ⟨i, hcaller, -⟩ := hr.caller hp
  obtain ⟨shared, label, hk⟩ := known_run hR hboot hrun (caller_ok hcaller)
  rw [hr.memory] at hk
  exact ⟨pid, p, getCurrentProc_ok.mpr ⟨hcur, hp⟩, m.kernel.root, shared, label, hk⟩

end

end

/-- For the current thread of every state that the kernel reaches, with the frames of the call there:
    `thread_create` does what it is described to do exactly when there is room for a stack where it
    looks for it. -/
theorem thread_stacks {R : Rounding} {A : FrameAllocator} {h : Heap} {layout : KernelLayout} {portal : Nat} {s : Machine}
    {es : List ThreadEvent} {k : ThreadKernel} (hR : R.Lawful) (hboot : Machine.boot A h layout portal = .ok s)
    (hrun : Exec (ThreadKernel.Step R A) (.start s) es k) {c tid : Task.ThreadId} (hc : k.world.tm.current = some c)
    (htid : tid ∉ k.world.usedTids) {entry arg : Nat} (hserved : Served (k.threadCreate A tid entry arg)) :
    ∃ pid p, Processor.getCurrentProc k.world.tm = .ok (pid, p) ∧
      (ThreadCreateMeets A k pid p tid entry arg ↔ StackFits k.memory p) := by
  have hi := kernelInv_run hrun
  obtain ⟨pid, p, hproc, kernel, shared, label, hk⟩ := hi.current hR hboot hc
  exact ⟨pid, p, hproc, hk.threadCreate_iff hi.threads hserved hproc htid⟩

/-! ## The first thread of a process -/

/-- The last page under root entry 254 is the one that the search finds when nothing but 255, the
    entry of the stack, is in use. -/
theorem fits_below_stack {h : Heap} {p : Process} (hfree : (h.tables p.space.root 254).isValid = false)
    (hused : (h.tables p.space.root 255).isValid = true) : StackFits h p ↔ visit h p.space (255 * 2 ^ 18) = none := by
  have hidx : indexIn (255 * 2 ^ 18 - 1) maxLevel = 254 := rfl
  have habove : ∀ u, 255 * 2 ^ 18 - 1 < u → u ≤ 2 ^ 26 - 2 → indexIn u maxLevel = 255 := by
    intro u hlt hle
    unfold indexIn maxLevel
    omega
  constructor
  · intro ⟨v, hslot, hnext⟩
    have hle : v ≤ 255 * 2 ^ 18 - 1 := by
      by_contra hgt
      have hv := hslot.free
      rw [habove v (by omega) hslot.low, hused] at hv
      cases hv
    have hge : 255 * 2 ^ 18 - 1 ≤ v := by
      by_contra hlt
      have hv := hslot.above (255 * 2 ^ 18 - 1) (by omega) (by decide) (by decide)
      rw [hidx, hfree] at hv
      cases hv
    obtain rfl : v = 255 * 2 ^ 18 - 1 := by omega
    exact hnext
  · intro hnext
    refine ⟨255 * 2 ^ 18 - 1, ⟨by decide, by decide, ?_, fun u hlt hle _ => ?_⟩, hnext⟩
    · rw [hidx]
      exact hfree
    · rw [habove u hlt hle]
      exact hused

/-- The first image of a kernel. -/
def imageOf (elf : ElfFile) : Except Halt (Machine × Option (Process × Heap)) := do
  let s ← Machine.boot bump bareHeap bareLayout 0x80020
  let image ← Process.fromElf shift bump s.heap s.kernel elf
  .ok (s, image)

/-- The root entries around the stack of an image, and whether the first page under the last of
    them is mapped. -/
def aroundStack (image : Process × Heap) : Bool × Bool × Bool :=
  let top := image.2.tables image.1.space.root
  ((top 254).isValid, (top 255).isValid, (visit image.2 image.1.space (255 * 2 ^ 18)).isSome)

/-- The first process, with its thread running. -/
theorem first_thread (elf : ElfFile) (taken : Bool)
    (hrun : (imageOf elf).map (fun x => x.2.map aroundStack) = .ok (some (false, true, taken))) :
    ∃ s k p, Machine.boot bump bareHeap bareLayout 0x80020 = .ok s ∧
      Exec (ThreadKernel.Step shift bump) (.start s) [.initproc 0 0 0x10000 elf, .manage .findNext] k ∧
      k.world.tm.current = some 0 ∧ 1 ∉ k.world.usedTids ∧ Processor.getCurrentProc k.world.tm = .ok (0, p) ∧
      (StackFits k.memory p ↔ taken = false) := by
  obtain ⟨⟨s, image⟩, hrun, haround⟩ := map_eq_ok hrun
  obtain ⟨s, hboot, hrun⟩ := bind_eq_ok.mp hrun
  obtain ⟨image, hfrom, hrun⟩ := bind_eq_ok.mp hrun
  cases hrun
  obtain ⟨⟨p, h'⟩, rfl, hval⟩ := Option.map_eq_some_iff.mp haround
  have hfree : (h'.tables p.space.root 254).isValid = false := congrArg Prod.fst hval
  have hused : (h'.tables p.space.root 255).isValid = true := congrArg (fun x => x.2.1) hval
  have htaken : (visit h' p.space (255 * 2 ^ 18)).isSome = taken := congrArg (fun x => x.2.2) hval
  have hinit : (ThreadKernel.start s).initproc shift bump 0 0 0x10000 elf = .ok _ := bind_eq_ok.mpr ⟨some (p, h'), hfrom, rfl⟩
  have h1 := Exec.single (ThreadKernel.Step.initproc List.not_mem_nil (by decide) List.not_mem_nil hinit)
  have hnew : 1 ∉ [0] := by decide
  refine ⟨s, _, p, hboot, h1.snoc (.manage trivial (.findNext rfl)), rfl, hnew, rfl, ?_⟩
  show StackFits h' p ↔ _
  rw [fits_below_stack hfree hused, ← htaken, Option.isSome_eq_false_iff, Option.isNone_iff_eq_none]

/-- A thread beside that of a process without segments. -/
theorem thread_stacks_second : ∃ (k : ThreadKernel) (p : Process), Processor.getCurrentProc k.world.tm = .ok (0, p) ∧
    ThreadCreateMeets bump k 0 p 1 0x10000 7 := by
  obtain ⟨s, k, p, hboot, hrun, hc, htid, hproc, hfits⟩ := first_thread bareElf false rfl
  obtain ⟨pid, q, hproc', hmeets⟩ := thread_stacks shift_lawful hboot hrun hc htid (ThreadKernel.threadCreate_served bump_total k 1 0x10000 7)
  rw [hproc, Except.ok.injEq, Prod.mk.injEq] at hproc'
  obtain ⟨rfl, rfl⟩ := hproc'
  exact ⟨k, p, hproc, hmeets.mpr (hfits.mpr rfl)⟩

/-- A page of data at the start of the last root entry of the user half. -/
def highElf : ElfFile := ⟨true, [⟨0, 255 * 2 ^ 30, 4096, [], false, true, true⟩]⟩

/-- The first `thread_create` of a process with that page: the kernel stops. -/
theorem thread_create_stops : ∃ s k p, Machine.boot bump bareHeap bareLayout 0x80020 = .ok s ∧
    Exec (ThreadKernel.Step shift bump) (.start s) [.initproc 0 0 0x10000 highElf, .manage .findNext] k ∧
    k.world.tm.current = some 0 ∧ Processor.getCurrentProc k.world.tm = .ok (0, p) ∧
    (∀ x, k.threadCreate bump 1 0x10000 7 ≠ .ok x) ∧ ¬ ThreadCreateMeets bump k 0 p 1 0x10000 7 := by
  obtain ⟨s, k, p, hboot, hrun, hc, htid, hproc, hfits⟩ := first_thread highElf true rfl
  have hi := kernelInv_run hrun
  obtain ⟨pid, q, hproc', kernel, shared, label, hk⟩ := hi.current shift_lawful hboot hc
  rw [hproc, Except.ok.injEq, Prod.mk.injEq] at hproc'
  obtain ⟨rfl, rfl⟩ := hproc'
  have hno : ∀ x, k.threadCreate bump 1 0x10000 7 ≠ .ok x := by
    intro ⟨ret, k'⟩ hok
    have hfit := hfits.mp (hk.threadCreate_fits hi.threads hproc htid hok)
    cases hfit
  exact ⟨s, k, p, hboot, hrun, hc, hproc, hno, fun ⟨ret, k', hok, _⟩ => hno _ hok⟩

end TgRcore.Vm
