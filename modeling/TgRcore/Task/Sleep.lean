/-
  TgRcore.Task.Sleep — seconds and nanoseconds (`time.rs`) and `sleep` over them.

  The order is lexicographic. On normalized times it is the order of the total nanoseconds
  (`lt_iff_total`). `add` carries only above 10^9: two nanosecond fields that add up to
  exactly 10^9 leave a sum that is not normalized, one second too early in the order.
  - `add_total`: the total nanoseconds always add up.
  - `add_le_add_iff`: a common summand never changes the order of two sums.
  - `add_iff`: the sum is normalized and compares with every clock reading as the total
    does, and `sleep` waits the whole period, exactly when the fields do not meet at 10^9.
-/

import TgRcore.Lib.BlockProg

namespace TgRcore.Time

open TgRcore.BlockProg

structure TimeSpec where
  tvSec : Nat
  tvNsec : Nat
  deriving DecidableEq, Repr

/-- `usize` addition. -/
def checkedAdd (a b : Nat) : Except Halt Nat := if a + b < 2 ^ 64 then .ok (a + b) else .error .panic

namespace TimeSpec

instance : LT TimeSpec := ⟨fun a b => a.tvSec < b.tvSec ∨ a.tvSec = b.tvSec ∧ a.tvNsec < b.tvNsec⟩
instance : LE TimeSpec := ⟨fun a b => a.tvSec < b.tvSec ∨ a.tvSec = b.tvSec ∧ a.tvNsec ≤ b.tvNsec⟩

theorem lt_def (a b : TimeSpec) : a < b ↔ a.tvSec < b.tvSec ∨ a.tvSec = b.tvSec ∧ a.tvNsec < b.tvNsec := Iff.rfl
theorem le_def (a b : TimeSpec) : a ≤ b ↔ a.tvSec < b.tvSec ∨ a.tvSec = b.tvSec ∧ a.tvNsec ≤ b.tvNsec := Iff.rfl

instance (a b : TimeSpec) : Decidable (a < b) := decidable_of_iff _ (lt_def a b).symm
instance (a b : TimeSpec) : Decidable (a ≤ b) := decidable_of_iff _ (le_def a b).symm

def fromMillsecond (millsecond : Nat) : TimeSpec := ⟨millsecond / 1_000, millsecond % 1_000 * 1_000_000⟩

def add (self rhs : TimeSpec) : Except Halt TimeSpec := do
  let tvSec ← checkedAdd self.tvSec rhs.tvSec
  let tvNsec ← checkedAdd self.tvNsec rhs.tvNsec
  if tvNsec > 1_000_000_000 then
    let tvSec ← checkedAdd tvSec 1
    return ⟨tvSec, tvNsec - 1_000_000_000⟩
  return ⟨tvSec, tvNsec⟩

/-- What the kernel's `clock_gettime` stores for a clock that stands at `time` nanoseconds. -/
def clock (time : Nat) : TimeSpec := ⟨time / 1_000_000_000, time % 1_000_000_000⟩

def total (a : TimeSpec) : Nat := a.tvSec * 1_000_000_000 + a.tvNsec

def Normalized (a : TimeSpec) : Prop := a.tvNsec < 1_000_000_000

instance (a : TimeSpec) : Decidable a.Normalized := inferInstanceAs (Decidable (_ < _))

/-- The seconds of the sum, with the carry, are a `usize`. -/
def Fits (a b : TimeSpec) : Prop := a.tvSec + b.tvSec + (a.tvNsec + b.tvNsec) / 1_000_000_000 < 2 ^ 64

instance (a b : TimeSpec) : Decidable (Fits a b) := inferInstanceAs (Decidable (_ < _))

end TimeSpec

open TimeSpec

/-- How many times the loop of `sleep` yields before it ends, `polls` being what the clock
says each time; `none`: it has not ended yet. -/
def sleepLoop (time : TimeSpec) : List TimeSpec → Option Nat
  | [] => none
  | now :: polls => if now > time then some 0 else (sleepLoop time polls).map (· + 1)

def sleep (start : TimeSpec) (periodMs : Nat) (polls : List TimeSpec) : Except Halt (Option Nat) := do
  let time ← start.add (fromMillsecond periodMs)
  return sleepLoop time polls

/-! ## The order -/

section

variable {a b c x y : TimeSpec}

theorem lt_iff_total (ha : a.Normalized) (hb : b.Normalized) : a < b ↔ a.total < b.total := by
  rw [lt_def]
  unfold Normalized at ha hb
  unfold total
  omega

theorem le_iff_total (ha : a.Normalized) (hb : b.Normalized) : a ≤ b ↔ a.total ≤ b.total := by
  rw [le_def]
  unfold Normalized at ha hb
  unfold total
  omega

theorem clock_normalized (time : Nat) : (clock time).Normalized := Nat.mod_lt time (by decide)

theorem clock_total (time : Nat) : (clock time).total = time := Nat.div_add_mod' time 1_000_000_000

theorem fromMillsecond_normalized (ms : Nat) : (fromMillsecond ms).Normalized := by
  unfold Normalized fromMillsecond
  have := Nat.mod_lt ms (show 1000 > 0 by decide)
  simp only
  omega

theorem fromMillsecond_total (ms : Nat) : (fromMillsecond ms).total = ms * 1_000_000 := by
  unfold total fromMillsecond
  have := Nat.div_add_mod ms 1000
  simp only
  omega

/-! ## Addition -/

/-- The carry leaves a field of exactly 10^9 as it is. -/
theorem add_ok (ha : a.Normalized) (hb : b.Normalized) (hfit : Fits a b) :
    a.add b = .ok (if a.tvNsec + b.tvNsec > 1_000_000_000 then
      ⟨a.tvSec + b.tvSec + 1, a.tvNsec + b.tvNsec - 1_000_000_000⟩ else ⟨a.tvSec + b.tvSec, a.tvNsec + b.tvNsec⟩) := by
  unfold Normalized at ha hb
  unfold Fits at hfit
  have hsec : checkedAdd a.tvSec b.tvSec = .ok (a.tvSec + b.tvSec) := if_pos (by omega)
  have hnsec : checkedAdd a.tvNsec b.tvNsec = .ok (a.tvNsec + b.tvNsec) := if_pos (by omega)
  unfold add
  rw [hsec, hnsec]
  by_cases hc : a.tvNsec + b.tvNsec > 1_000_000_000
  · have hcarry : checkedAdd (a.tvSec + b.tvSec) 1 = .ok (a.tvSec + b.tvSec + 1) := if_pos (by omega)
    simp [bind, Except.bind, pure, Except.pure, hcarry, hc]
  · simp [bind, Except.bind, pure, Except.pure, hc]

theorem add_total (ha : a.Normalized) (hb : b.Normalized) (hfit : Fits a b) (h : a.add b = .ok x) :
    x.total = a.total + b.total := by
  rw [add_ok ha hb hfit] at h
  cases h
  unfold total
  split <;> simp only <;> omega

theorem add_normalized (ha : a.Normalized) (hb : b.Normalized) (hfit : Fits a b) (h : a.add b = .ok x) :
    x.Normalized ↔ a.tvNsec + b.tvNsec ≠ 1_000_000_000 := by
  rw [add_ok ha hb hfit] at h
  cases h
  unfold Normalized at *
  split <;> simp only <;> omega

/-- Both sums are short of their carry only where they are equal. -/
theorem add_le_add_iff (ha : a.Normalized) (hb : b.Normalized) (hc : c.Normalized) (hac : Fits a c) (hbc : Fits b c)
    (hx : a.add c = .ok x) (hy : b.add c = .ok y) : x ≤ y ↔ a ≤ b := by
  rw [add_ok ha hc hac] at hx
  rw [add_ok hb hc hbc] at hy
  cases hx
  cases hy
  rw [le_def, le_def]
  unfold Normalized at ha hb hc
  split <;> split <;> simp only <;> omega

/-- The reading at the whole second compares as later than a sum that is short of its carry. -/
theorem sum_lt_iff (ha : a.Normalized) (hb : b.Normalized) (hfit : Fits a b) (h : a.add b = .ok x) :
    (∀ now : TimeSpec, now.Normalized → (now > x ↔ now.total > a.total + b.total)) ↔
      a.tvNsec + b.tvNsec ≠ 1_000_000_000 := by
  constructor
  · intro hnow heq
    rw [add_ok ha hb hfit] at h
    cases h
    have := hnow ⟨a.tvSec + b.tvSec + 1, 0⟩ (show 0 < 1_000_000_000 by decide)
    rw [if_neg (by omega), gt_iff_lt, lt_def] at this
    unfold total at this
    simp only at this
    omega
  · intro hne now hn
    have hx := (add_normalized ha hb hfit h).2 hne
    rw [gt_iff_lt, lt_iff_total hx hn, add_total ha hb hfit h]

end

/-! ## Sleeping -/

/-- The loop ends at the first reading past `limit` when the comparison says so. -/
theorem sleepLoop_eq (time : TimeSpec) (limit : Nat) (polls : List TimeSpec)
    (h : ∀ now ∈ polls, (now > time ↔ now.total > limit)) :
    sleepLoop time polls = polls.findIdx? (fun now => now.total > limit) := by
  induction polls with
  | nil => rfl
  | cons now polls ih =>
    have hnow := h now (List.mem_cons_self ..)
    rw [sleepLoop, List.findIdx?_cons, ih fun n hn => h n (List.mem_cons_of_mem _ hn)]
    by_cases hl : now.total > limit
    · rw [if_pos (hnow.2 hl), if_pos (decide_eq_true hl)]
    · rw [if_neg (mt hnow.1 hl), if_neg (by simpa using hl)]

/-- What an addition is for: the sum is a normalized time, the totals add up, a common summand
keeps the order, and the sum compares with a normalized reading as the totals do. -/
structure AddLaw (a b : TimeSpec) : Prop where
  sum : ∃ sum, a.add b = .ok sum ∧ sum.Normalized ∧ sum.total = a.total + b.total ∧
    ∀ now : TimeSpec, now.Normalized → (now > sum ↔ now.total > a.total + b.total)
  order : ∀ c : TimeSpec, c.Normalized → Fits a c → Fits b c →
    ∃ x y, a.add c = .ok x ∧ b.add c = .ok y ∧ (x ≤ y ↔ a ≤ b)

/-- `sleep` ends at the first reading more than the period after the start. -/
def SleepLaw (start : TimeSpec) (periodMs : Nat) : Prop :=
  ∀ polls : List TimeSpec, (∀ now ∈ polls, now.Normalized) →
    sleep start periodMs polls = .ok (polls.findIdx? (fun now => now.total > start.total + periodMs * 1_000_000))

section

variable {a b : TimeSpec}

theorem addLaw_iff (ha : a.Normalized) (hb : b.Normalized) (hfit : Fits a b) :
    AddLaw a b ↔ a.tvNsec + b.tvNsec ≠ 1_000_000_000 := by
  have hsum := add_ok ha hb hfit
  constructor
  · intro h
    obtain ⟨sum, hadd, hn, -⟩ := h.sum
    exact (add_normalized ha hb hfit hadd).1 hn
  · intro hne
    constructor
    · exact ⟨_, hsum, (add_normalized ha hb hfit hsum).2 hne, add_total ha hb hfit hsum,
        (sum_lt_iff ha hb hfit hsum).2 hne⟩
    · intro c hc hac hbc
      have hx := add_ok ha hc hac
      have hy := add_ok hb hc hbc
      exact ⟨_, _, hx, hy, add_le_add_iff ha hb hc hac hbc hx hy⟩

theorem sleepLaw_iff (start : TimeSpec) (periodMs : Nat) (hs : start.Normalized)
    (hfit : Fits start (fromMillsecond periodMs)) :
    SleepLaw start periodMs ↔ start.tvNsec + (fromMillsecond periodMs).tvNsec ≠ 1_000_000_000 := by
  have hp := fromMillsecond_normalized periodMs
  have hadd := add_ok hs hp hfit
  have htotal := fromMillsecond_total periodMs
  have hlaw := sum_lt_iff hs hp hfit hadd
  rw [htotal] at hlaw
  unfold SleepLaw sleep
  rw [hadd, ← hlaw]
  generalize (if start.tvNsec + (fromMillsecond periodMs).tvNsec > 1_000_000_000 then _ else _ : TimeSpec) = time
  constructor
  · intro h now hn
    have := h [now] (by simpa using hn)
    simp only [bind, Except.bind, pure, Except.pure, sleepLoop, List.findIdx?_cons, List.findIdx?_nil,
      Except.ok.injEq] at this
    by_cases hgt : now.total > start.total + periodMs * 1_000_000
    · rw [if_pos (decide_eq_true hgt)] at this
      by_contra hne
      rw [if_neg fun hl => hne (iff_of_true hl hgt)] at this
      cases this
    · refine iff_of_false (fun hl => ?_) hgt
      rw [if_neg fun hd => hgt (of_decide_eq_true hd)] at this
      rw [if_pos hl] at this
      cases this
  · intro h polls hpolls
    exact congrArg Except.ok (sleepLoop_eq _ _ polls fun now hn => h now (hpolls now hn))

end

/-- Half a second and half a second. -/
theorem add_law_fails : ¬ ∀ a b : TimeSpec, a.Normalized → b.Normalized → Fits a b → AddLaw a b :=
  fun h => (addLaw_iff (by decide) (by decide) (by decide)).1
    (h ⟨0, 500_000_000⟩ ⟨0, 500_000_000⟩ (by decide) (by decide) (by decide)) rfl

theorem add_iff (a : TimeSpec) (ha : a.Normalized) :
    (∀ b : TimeSpec, b.Normalized → Fits a b → (AddLaw a b ↔ a.tvNsec + b.tvNsec ≠ 1_000_000_000)) ∧
    ∀ periodMs : Nat, Fits a (fromMillsecond periodMs) →
      (SleepLaw a periodMs ↔ a.tvNsec + (fromMillsecond periodMs).tvNsec ≠ 1_000_000_000) :=
  ⟨fun _ hb hfit => addLaw_iff ha hb hfit, fun periodMs => sleepLaw_iff a periodMs ha⟩

theorem add_iff_second : AddLaw (clock 1_700_000_000) (fromMillsecond 600) ∧ ¬ SleepLaw (clock 1_700_000_000) 300 :=
  ⟨((add_iff _ (clock_normalized _)).1 _ (fromMillsecond_normalized _) (by decide)).2 (by decide),
    fun h => ((add_iff _ (clock_normalized _)).2 _ (by decide)).1 h (by decide)⟩

/-- What a program sees: a `sleep` that starts at `time` ends at the first poll more than the
period later. -/
theorem sleep_clock (time periodMs : Nat) (times : List Nat) (hfit : Fits (clock time) (fromMillsecond periodMs))
    (hne : (clock time).tvNsec + (fromMillsecond periodMs).tvNsec ≠ 1_000_000_000) :
    sleep (clock time) periodMs (times.map clock) = .ok (times.findIdx? (fun now => now > time + periodMs * 1_000_000)) := by
  have h := (sleepLaw_iff (clock time) periodMs (clock_normalized time) hfit).2 hne (times.map clock)
    (List.forall_mem_map.2 fun now _ => clock_normalized now)
  rw [h, List.findIdx?_map, clock_total]
  simp only [Function.comp_def, clock_total]

end TgRcore.Time
