/-
  TgRcore.Sync.Semaphore — counting semaphores (`semaphore.rs`).

  The signed `count` has two roles: units left, or (negative) threads waiting. It starts as
  an unsigned value cast to `isize`.
  - `semaphore_accounting`: in a run every call returns and the accounting is right exactly
    when the initial value, and after it each count, fits `isize`.
-/

import TgRcore.Sync.Mutex

namespace TgRcore.Sync

open TgRcore.BlockProg

/-- `as isize` of a usize. -/
def asIsize (a : Nat) : Int := if a < 2 ^ 63 then a else (a : Int) - 2 ^ 64

/-- isize arithmetic, with overflow checks. -/
def checkedIsize (a : Int) : Except Halt Int := if -2 ^ 63 ≤ a ∧ a < 2 ^ 63 then .ok a else .error .panic

theorem checkedIsize_eq {a : Int} (h : -2 ^ 63 ≤ a ∧ a < 2 ^ 63) : checkedIsize a = .ok a := if_pos h

theorem checkedIsize_ok {a b : Int} (h : checkedIsize a = .ok b) : b = a ∧ -2 ^ 63 ≤ a ∧ a < 2 ^ 63 := by
  unfold checkedIsize at h
  split at h
  case isTrue hfits =>
    cases h
    exact ⟨rfl, hfits⟩
  case isFalse => cases h

structure Semaphore where
  count : Int
  waitQueue : List ThreadId
  deriving DecidableEq, Repr

namespace Semaphore

def new (resCount : Nat) : Semaphore := ⟨asIsize resCount, []⟩

def up (s : Semaphore) : Except Halt (Option ThreadId × Semaphore) := do
  let count ← checkedIsize (s.count + 1)
  .ok (s.waitQueue.head?, ⟨count, s.waitQueue.tail⟩)

/-- `false`: the thread is queued and has to be blocked. -/
def down (s : Semaphore) (tid : ThreadId) : Except Halt (Bool × Semaphore) := do
  let count ← checkedIsize (s.count - 1)
  if count < 0 then .ok (false, ⟨count, s.waitQueue ++ [tid]⟩) else .ok (true, ⟨count, s.waitQueue⟩)

/-! ## Runs -/

/-- A call and what came of it: its result, or a panic. -/
inductive Event where
  | up (woken : Option ThreadId)
  | down (tid : ThreadId) (ret : Bool)
  | upPanics
  | downPanics (tid : ThreadId)

/-- The semaphore, the threads whose `down` returned `false` and that have not been woken,
    and whether a panic has stopped the kernel. -/
structure World where
  sem : Semaphore
  blocked : List ThreadId
  halted : Bool

def start (resCount : Nat) : World := ⟨new resCount, [], false⟩

/-- Anyone may call `up`; a thread that waits does not call `down`. -/
inductive Step : World → Event → World → Prop
  | up {w : World} {woken : Option ThreadId} {s : Semaphore} : w.halted = false → w.sem.up = .ok (woken, s) →
      Step w (.up woken) ⟨s, w.blocked.filter fun t => some t != woken, false⟩
  | down {w : World} {tid : ThreadId} {ret : Bool} {s : Semaphore} : w.halted = false → tid ∉ w.blocked →
      w.sem.down tid = .ok (ret, s) → Step w (.down tid ret) ⟨s, if ret then w.blocked else tid :: w.blocked, false⟩
  | upPanics {w : World} {x : Halt} : w.halted = false → w.sem.up = .error x →
      Step w .upPanics { w with halted := true }
  | downPanics {w : World} {tid : ThreadId} {x : Halt} : w.halted = false → tid ∉ w.blocked →
      w.sem.down tid = .error x → Step w (.downPanics tid) { w with halted := true }

def Event.returned : Event → Bool
  | .up _ | .down _ _ => true
  | _ => false

def ups (es : List Event) : Nat :=
  es.countP fun
    | .up _ | .upPanics => true
    | _ => false

def downs (es : List Event) : Nat :=
  es.countP fun
    | .down _ _ | .downPanics _ => true
    | _ => false

/-- The threads that had to wait, in the order of their calls. -/
def waits (es : List Event) : List ThreadId :=
  es.filterMap fun
    | .down tid false => some tid
    | _ => none

/-- The threads that were woken, in order. -/
def wakes (es : List Event) : List ThreadId :=
  es.filterMap fun
    | .up woken => woken
    | _ => none

/-- The downs that were passed at once or by a wake-up. -/
def passed (es : List Event) : Nat :=
  es.countP (fun
    | .down _ true => true
    | _ => false) + (wakes es).length

/-- What `count` should be: the units given less those taken. -/
def units (resCount : Nat) (es : List Event) : Int := resCount + ups es - downs es

/-- The accounting of a semaphore that started with `resCount` units. -/
structure Accounts (resCount : Nat) (es : List Event) (s : Semaphore) : Prop where
  returns : ∀ e ∈ es, e.returned = true
  waiting : (s.waitQueue.length : Int) = max 0 (-s.count)
  count : s.count = units resCount es
  fifo : waits es = wakes es ++ s.waitQueue
  onePerUp : ∀ woken s', s.up = .ok (woken, s') → woken = s.waitQueue.head?
  bound : passed es ≤ resCount + ups es

/-- The initial value fits `isize`, and so does the number of units after each call. -/
def Fits (resCount : Nat) (es : List Event) : Prop :=
  resCount < 2 ^ 63 ∧ ∀ fs, fs <+: es → -2 ^ 63 ≤ units resCount fs ∧ units resCount fs < 2 ^ 63

section

variable {resCount : Nat} {es : List Event} {w w' : World} {e : Event}

/-- What `up` does, with the new count a value of `isize`. -/
theorem up_ok {s s' : Semaphore} {woken : Option ThreadId} (h : s.up = .ok (woken, s')) :
    woken = s.waitQueue.head? ∧ s'.count = s.count + 1 ∧ (-2 ^ 63 ≤ s'.count ∧ s'.count < 2 ^ 63) ∧
      s'.waitQueue = s.waitQueue.tail := by
  obtain ⟨c, hc, hk⟩ := bind_eq_ok.mp h
  obtain ⟨rfl, hfits⟩ := checkedIsize_ok hc
  cases hk
  exact ⟨rfl, rfl, hfits, rfl⟩

theorem up_error {s : Semaphore} {x : Halt} (h : s.up = .error x) : ¬ (-2 ^ 63 ≤ s.count + 1 ∧ s.count + 1 < 2 ^ 63) := by
  intro hfits
  unfold up at h
  rw [checkedIsize_eq hfits] at h
  cases h

/-- What `down` does, with the new count a value of `isize`. -/
theorem down_ok {s s' : Semaphore} {tid : ThreadId} {ret : Bool} (h : s.down tid = .ok (ret, s')) :
    s'.count = s.count - 1 ∧ (-2 ^ 63 ≤ s'.count ∧ s'.count < 2 ^ 63) ∧
      ((s'.count < 0 ∧ ret = false ∧ s'.waitQueue = s.waitQueue ++ [tid]) ∨
      (0 ≤ s'.count ∧ ret = true ∧ s'.waitQueue = s.waitQueue)) := by
  obtain ⟨c, hc, hk⟩ := bind_eq_ok.mp h
  obtain ⟨rfl, hfits⟩ := checkedIsize_ok hc
  split at hk
  case isTrue hlt =>
    cases hk
    exact ⟨rfl, hfits, .inl ⟨hlt, rfl, rfl⟩⟩
  case isFalse hge =>
    cases hk
    exact ⟨rfl, hfits, .inr ⟨Int.not_lt.mp hge, rfl, rfl⟩⟩

theorem down_error {s : Semaphore} {tid : ThreadId} {x : Halt} (h : s.down tid = .error x) :
    ¬ (-2 ^ 63 ≤ s.count - 1 ∧ s.count - 1 < 2 ^ 63) := by
  intro hfits
  unfold down at h
  rw [checkedIsize_eq hfits] at h
  by_cases hlt : s.count - 1 < 0
  · simp only [bind, Except.bind, if_pos hlt] at h
    cases h
  · simp only [bind, Except.bind, if_neg hlt] at h
    cases h

@[simp] theorem units_up {woken : Option ThreadId} : units resCount (es ++ [.up woken]) = units resCount es + 1 := by
  simp [units, ups, downs]
  omega

@[simp] theorem units_down {tid : ThreadId} {ret : Bool} :
    units resCount (es ++ [.down tid ret]) = units resCount es - 1 := by
  simp [units, ups, downs]
  omega

@[simp] theorem units_upPanics : units resCount (es ++ [.upPanics]) = units resCount es + 1 := by
  simp [units, ups, downs]
  omega

@[simp] theorem units_downPanics {tid : ThreadId} : units resCount (es ++ [.downPanics tid]) = units resCount es - 1 := by
  simp [units, ups, downs]
  omega

theorem units_nil : units resCount [] = resCount := by simp [units, ups, downs]

theorem Fits.init (h : Fits resCount (es ++ [e])) : Fits resCount es :=
  ⟨h.1, fun fs hfs => h.2 fs (hfs.trans (List.prefix_append es [e]))⟩

theorem Fits.last (h : Fits resCount es) : -2 ^ 63 ≤ units resCount es ∧ units resCount es < 2 ^ 63 :=
  h.2 es List.prefix_rfl

/-! The count is the cast of the initial value, moved by one at each call that returned: -/

/-- As long as every call has returned. -/
structure Counted (resCount : Nat) (es : List Event) (w : World) : Prop where
  count : w.sem.count = asIsize resCount + (units resCount es - resCount)
  fits : -2 ^ 63 ≤ w.sem.count ∧ w.sem.count < 2 ^ 63

theorem counted_start (h : resCount < 2 ^ 64) : Counted resCount [] (start resCount) := by
  refine ⟨?_, ?_⟩
  · rw [units_nil]
    simp [start, new]
  · simp only [start, new, asIsize]
    split <;> omega

theorem Counted.step (h : Counted resCount es w) (hs : Step w e w') (hret : e.returned = true) :
    Counted resCount (es ++ [e]) w' := by
  have hcount := h.count
  cases hs with
  | @up woken s hlive hu =>
    obtain ⟨-, hc, hfits, -⟩ := up_ok hu
    refine ⟨?_, hfits⟩
    rw [hc, hcount, units_up]
    omega
  | @down tid ret s hlive hb hd =>
    obtain ⟨hc, hfits, -⟩ := down_ok hd
    refine ⟨?_, hfits⟩
    rw [hc, hcount, units_down]
    omega
  | upPanics => cases hret
  | downPanics => cases hret

theorem counted (hres : resCount < 2 ^ 64) (hrun : Exec Step (start resCount) es w)
    (hret : ∀ e ∈ es, e.returned = true) : Counted resCount es w := by
  induction hrun with
  | nil => exact counted_start hres
  | snoc hrun hs ih =>
    have hpre := ih fun e he => hret e (List.mem_append_left _ he)
    exact hpre.step hs (hret _ (List.mem_append_right _ (List.mem_singleton_self _)))

/-- What the number of passed downs is. -/
structure SemInv (resCount : Nat) (es : List Event) (w : World) : Prop where
  returns : ∀ e ∈ es, e.returned = true
  waiting : (w.sem.waitQueue.length : Int) = max 0 (-w.sem.count)
  count : w.sem.count = units resCount es
  fifo : waits es = wakes es ++ w.sem.waitQueue
  passed : passed es + w.sem.waitQueue.length = downs es

theorem semInv_start (h : resCount < 2 ^ 63) : SemInv resCount [] (start resCount) := by
  have hc : (start resCount).sem.count = resCount := if_pos h
  refine ⟨by simp, ?_, ?_, rfl, rfl⟩
  · rw [hc]
    simp [start, new]
  · rw [hc, units_nil]

theorem returns_snoc (h : ∀ e ∈ es, e.returned = true) (he : e.returned = true) :
    ∀ x ∈ es ++ [e], x.returned = true := by
  intro x hx
  rcases List.mem_append.mp hx with hx | hx
  · exact h x hx
  · rw [List.mem_singleton.mp hx]
    exact he

theorem SemInv.step (h : SemInv resCount es w) (hs : Step w e w') (hfit : Fits resCount (es ++ [e])) :
    SemInv resCount (es ++ [e]) w' := by
  have h1 := h.waiting
  have h2 := h.count
  have h3 := h.fifo
  have h4 := h.passed
  have hlast := hfit.last
  cases hs with
  | @up woken s hlive hu =>
    obtain ⟨rfl, hc, -, hq⟩ := up_ok hu
    rcases hwq : w.sem.waitQueue with _ | ⟨t, q⟩
    · rw [hwq] at h1 h3 h4 hq
      refine ⟨returns_snoc h.returns rfl, ?_, ?_, ?_, ?_⟩
      · rw [hc, hq, List.tail_nil, List.length_nil]
        rw [List.length_nil] at h1
        omega
      · rw [hc, h2, units_up]
      · rw [hq]
        simpa [waits, wakes] using h3
      · rw [hq]
        simpa [Semaphore.passed, downs, wakes] using h4
    · rw [hwq] at h1 h3 h4 hq
      rw [List.length_cons] at h1 h4
      refine ⟨returns_snoc h.returns rfl, ?_, ?_, ?_, ?_⟩
      · rw [hc, hq, List.tail_cons]
        omega
      · rw [hc, h2, units_up]
      · rw [hq]
        simp only [waits, wakes] at h3
        simp [waits, wakes, h3]
      · rw [hq]
        simp only [Semaphore.passed, downs, wakes] at h4
        simp [Semaphore.passed, downs, wakes]
        omega
  | @down tid ret s hlive hb hd =>
    obtain ⟨hc, -, ⟨hneg, rfl, hq⟩ | ⟨hpos, rfl, hq⟩⟩ := down_ok hd
    · refine ⟨returns_snoc h.returns rfl, ?_, ?_, ?_, ?_⟩
      · show (s.waitQueue.length : Int) = max 0 (-s.count)
        rw [hq, List.length_append, List.length_singleton]
        omega
      · rw [hc, h2, units_down]
      · rw [hq]
        simp only [waits, wakes] at h3
        simp [waits, wakes, h3]
      · rw [hq]
        simp only [Semaphore.passed, downs, wakes] at h4
        simp [Semaphore.passed, downs, wakes]
        omega
    · have hnil : w.sem.waitQueue.length = 0 := by omega
      refine ⟨returns_snoc h.returns rfl, ?_, ?_, ?_, ?_⟩
      · show (s.waitQueue.length : Int) = max 0 (-s.count)
        rw [hq]
        omega
      · rw [hc, h2, units_down]
      · rw [hq]
        simpa [waits, wakes] using h3
      · rw [hq]
        simp only [Semaphore.passed, downs, wakes] at h4
        simp [Semaphore.passed, downs, wakes]
        omega
  | upPanics hlive hu =>
    refine absurd ?_ (up_error hu)
    rw [h2]
    simpa using hlast
  | downPanics hlive hb hd =>
    refine absurd ?_ (down_error hd)
    rw [h2]
    simpa using hlast

theorem semInv (hrun : Exec Step (start resCount) es w) (hfit : Fits resCount es) : SemInv resCount es w := by
  induction hrun with
  | nil => exact semInv_start hfit.1
  | snoc hrun hs ih => exact (ih hfit.init).step hs hfit

theorem Accounts.fits (hres : resCount < 2 ^ 64) (hrun : Exec Step (start resCount) es w)
    (h : Accounts resCount es w.sem) : Fits resCount es := by
  have hfinal := counted hres hrun h.returns
  have hcast : asIsize resCount = resCount := by
    have hcount := h.count
    rw [hfinal.count] at hcount
    omega
  have hlt : resCount < 2 ^ 63 := by
    unfold asIsize at hcast
    split at hcast <;> omega
  refine ⟨hlt, fun fs hfs => ?_⟩
  obtain ⟨gs, rfl⟩ := hfs
  obtain ⟨u, hpre, -⟩ := hrun.split
  have hc := counted hres hpre fun e he => h.returns e (List.mem_append_left _ he)
  have hfit := hc.fits
  rw [hc.count, hcast] at hfit
  omega

end

/-- In a run every call returns and the accounting is right iff the initial value and the
    number of units after each call fit `isize`. -/
theorem semaphore_accounting {resCount : Nat} {es : List Event} {w : World} (hres : resCount < 2 ^ 64)
    (hrun : Exec Step (start resCount) es w) : Accounts resCount es w.sem ↔ Fits resCount es := by
  constructor
  · exact fun h => h.fits hres hrun
  · intro hfit
    have hi := semInv hrun hfit
    refine ⟨hi.returns, hi.waiting, hi.count, hi.fifo, fun _ _ h => (up_ok h).1, ?_⟩
    have h1 := hi.waiting
    have h2 := hi.count
    have h3 := hi.passed
    unfold units at h2
    omega

/-- Thread 3 takes the only unit, thread 5 waits, and an `up` wakes it. -/
theorem semaphore_accounting_one :
    ∃ w, Exec Step (start 1) [.down 3 true, .down 5 false, .up (some 5)] w ∧
      Accounts 1 [.down 3 true, .down 5 false, .up (some 5)] w.sem := by
  have hrun : Exec Step (start 1) [.down 3 true, .down 5 false, .up (some 5)] ⟨⟨0, []⟩, [], false⟩ :=
    (((Exec.nil _).snoc (.down rfl (by decide) rfl)).snoc (.down rfl (by decide) rfl)).snoc (.up rfl rfl)
  refine ⟨_, hrun, (semaphore_accounting (by norm_num) hrun).mpr ⟨by norm_num, fun fs hfs => ?_⟩⟩
  have hmem := List.mem_inits fs _ |>.mpr hfs
  simp only [List.inits, List.map_cons, List.map_nil, List.mem_cons, List.not_mem_nil, or_false] at hmem
  rcases hmem with rfl | rfl | rfl | rfl <;> decide

/-- A run of calls from `isize::MAX` units: the first `up` panics. -/
theorem semaphore_accounting_overflow :
    ∃ w, Exec Step (start (2 ^ 63 - 1)) [.upPanics] w ∧ ¬ Accounts (2 ^ 63 - 1) [.upPanics] w.sem := by
  refine ⟨_, (Exec.nil _).snoc (.upPanics rfl rfl), fun h => ?_⟩
  have := h.returns .upPanics (List.mem_singleton_self _)
  cases this

/-- A semaphore made with `usize::MAX` units has count -1 and nobody waits. -/
theorem semaphore_accounting_fails : ¬ Accounts (2 ^ 64 - 1) [] (new (2 ^ 64 - 1)) := by
  intro h
  have h0 := h.waiting
  have hc : (new (2 ^ 64 - 1)).count = -1 := by decide
  rw [hc] at h0
  simp [new] at h0

end Semaphore

end TgRcore.Sync
