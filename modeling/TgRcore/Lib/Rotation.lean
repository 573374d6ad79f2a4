/-
  TgRcore.Lib.Rotation — slices of seats that take turns and leave.

  Turn `t` is the turn of seat `t % n`. A seat that has left loses its turns; one that has not gets
  a slice in each, and can leave in it. Proved of every list of slices:
  - `Rotates.next_eq`: the next slice is for the first seat, in cyclic order, that has not left.
  - `Rotates.never`: a seat that has left gets no slice.
  - `Rotates.one_each`: between a slice and the next one of that seat, a seat that stays gets
    exactly one.
-/

import Mathlib.Data.List.Range

namespace TgRcore.Rotation

/-- One slice: its seat and turn, and who had left before and after it. -/
structure Slice where
  task : Nat
  turn : Nat
  before : Nat → Bool
  after : Nat → Bool

/-- From the turn and who has left, the slices to a later turn. -/
inductive Rotates (n : Nat) : Nat → (Nat → Bool) → List Slice → Nat → (Nat → Bool) → Prop
  | nil {t : Nat} {done : Nat → Bool} : Rotates n t done [] t done
  | cons {t next last : Nat} {done after left : Nat → Bool} {rest : List Slice} :
      done (t % n) = false → (∀ u, u ≠ t % n → after u = done u) →
      t < next → (∀ x, t < x → x < next → after (x % n) = true) →
      Rotates n next after rest last left → Rotates n t done (⟨t % n, t, done, after⟩ :: rest) last left

/-- The first seat after `t`, in cyclic order, that has not left; the last one asked is `t` itself. -/
def next (n : Nat) (done : Nat → Bool) (t : Nat) : Option Nat :=
  ((List.range n).find? fun d => !done ((t + 1 + d) % n)).map fun d => (t + 1 + d) % n

section

variable {n t t' last x u : Nat} {done left : Nat → Bool} {l pre mid post : List Slice} {a b s : Slice}

/-! ## Turns of one seat -/

theorem eq_of_mod_eq (h : t % n = t' % n) (hlt : t < t' + n) (hlt' : t' < t + n) : t = t' := by
  rcases Nat.le_total t t' with hle | hle
  · have hdvd := Nat.dvd_of_mod_eq_zero (Nat.sub_mod_eq_zero_of_mod_eq h.symm)
    have hzero := Nat.eq_zero_of_dvd_of_lt hdvd (by omega)
    omega
  · have hdvd := Nat.dvd_of_mod_eq_zero (Nat.sub_mod_eq_zero_of_mod_eq h)
    have hzero := Nat.eq_zero_of_dvd_of_lt hdvd (by omega)
    omega

/-- Every other seat has a turn before the seat's next one. -/
theorem exists_turn (hu : u < n) (hne : u ≠ t % n) : ∃ x, t < x ∧ x < t + n ∧ x % n = u := by
  have hdiv := Nat.div_add_mod t n
  have hmod := Nat.mod_lt t (by omega : 0 < n)
  by_cases h : t % n < u
  · refine ⟨n * (t / n) + u, by omega, by omega, ?_⟩
    rw [Nat.mul_add_mod, Nat.mod_eq_of_lt hu]
  · refine ⟨n * (t / n + 1) + u, ?_, ?_, ?_⟩
    · rw [Nat.mul_add_one]
      omega
    · rw [Nat.mul_add_one]
      omega
    · rw [Nat.mul_add_mod, Nat.mod_eq_of_lt hu]

/-! ## Runs of slices -/

theorem Rotates.left_of_done (h : Rotates n t done l last left) (hu : done u = true) : left u = true := by
  induction h with
  | nil => exact hu
  | cons hlive hafter _ _ _ ih =>
    apply ih
    rw [hafter]
    · exact hu
    · rintro rfl
      rw [hlive] at hu
      cases hu

theorem Rotates.turns (h : Rotates n t done l last left) :
    t ≤ last ∧ ∀ s ∈ l, t ≤ s.turn ∧ s.turn < last ∧ s.task = s.turn % n := by
  induction h with
  | nil => simp
  | cons _ _ hlt _ _ ih =>
    obtain ⟨hle, hall⟩ := ih
    refine ⟨by omega, fun s hs => ?_⟩
    rcases List.mem_cons.mp hs with rfl | hs
    · exact ⟨Nat.le_refl _, by simp; omega, rfl⟩
    · obtain ⟨h1, h2, h3⟩ := hall s hs
      exact ⟨by omega, h2, h3⟩

theorem Rotates.head_lt (h : Rotates n t done (a :: mid) last left) : ∀ s ∈ mid, a.turn < s.turn := by
  cases h with
  | cons _ _ hlt _ h =>
    intro s hs
    exact Nat.lt_of_lt_of_le hlt (h.turns.2 s hs).1

/-- Who has a slice has not left. -/
theorem Rotates.live (h : Rotates n t done l last left) : ∀ s ∈ l, done s.task = false := by
  induction h with
  | nil => simp
  | @cons t _ _ _ _ _ _ hlive hafter _ _ _ ih =>
    intro s hs
    rcases List.mem_cons.mp hs with rfl | hs
    · exact hlive
    · have := ih s hs
      by_cases he : s.task = t % n
      · rw [he]
        exact hlive
      · rwa [hafter _ he] at this

theorem Rotates.split (h : Rotates n t done (pre ++ post) last left) :
    ∃ x mid, Rotates n t done pre x mid ∧ Rotates n x mid post last left := by
  induction pre generalizing t done with
  | nil => exact ⟨t, done, .nil, h⟩
  | cons a pre ih =>
    cases h with
    | cons hlive hafter hlt hskip hrest =>
      obtain ⟨x, mid, hpre, hpost⟩ := ih hrest
      exact ⟨x, mid, .cons hlive hafter hlt hskip hpre, hpost⟩

/-- One slice in each turn of a seat that has not left in the end. -/
theorem Rotates.one_in_turn (h : Rotates n t done l last left) (hle : t ≤ x) (hlt : x < last) (hx : left (x % n) = false) :
    l.countP (·.turn = x) = 1 := by
  induction h with
  | nil => omega
  | @cons t next last done after left rest hlive hafter hnext hskip hrest ih =>
    rw [List.countP_cons]
    by_cases he : t = x
    · have hnone : rest.countP (·.turn = x) = 0 := by
        rw [List.countP_eq_zero]
        intro s hs
        have := (hrest.turns.2 s hs).1
        simp
        omega
      simp [he, hnone]
    · have hge : next ≤ x := by
        by_contra hgt
        have hgone := hrest.left_of_done (hskip x (by omega) (by omega))
        rw [hx] at hgone
        cases hgone
      simp [he, ih hge hlt hx]

/-! ## The next one -/

theorem next_some (hn : 0 < n) (ht : t < t') (hlive : done (t' % n) = false)
    (hskip : ∀ x, t < x → x < t' → done (x % n) = true) : next n done (t % n) = some (t' % n) := by
  have hle : t' ≤ t + n := by
    by_contra hgt
    obtain ⟨x, rfl⟩ : ∃ x, t' = x + n := ⟨t' - n, by omega⟩
    have hx := hskip x (by omega) (by omega)
    rw [Nat.add_mod_right, hx] at hlive
    cases hlive
  have hmod : ∀ d, (t % n + 1 + d) % n = (t + 1 + d) % n := by
    intro d
    rw [Nat.add_assoc, Nat.mod_add_mod, Nat.add_assoc]
  have hfind : (List.range n).find? (fun d => !done ((t % n + 1 + d) % n)) = some (t' - t - 1) := by
    rw [List.find?_range_eq_some]
    simp only [hmod]
    refine ⟨?_, List.mem_range.mpr (by omega), fun d hd => ?_⟩
    · rw [show t + 1 + (t' - t - 1) = t' by omega, hlive]
      rfl
    · rw [hskip (t + 1 + d) (by omega) (by omega)]
      rfl
  rw [next, hfind, Option.map_some, hmod, show t + 1 + (t' - t - 1) = t' by omega]

theorem next_none (hn : 0 < n) (hleft : ∀ u < n, done u = true) : next n done t = none := by
  have hfind : (List.range n).find? (fun d => !done ((t + 1 + d) % n)) = none := by
    rw [List.find?_range_eq_none]
    intro d hd
    rw [hleft _ (Nat.mod_lt _ hn)]
    rfl
  rw [next, hfind, Option.map_none]

theorem Rotates.next_eq (hn : 0 < n) (h : Rotates n t done (pre ++ a :: b :: post) last left) :
    next n a.after a.task = some b.task := by
  obtain ⟨x, mid, -, h⟩ := h.split
  cases h with
  | cons hlive hafter hlt hskip h =>
    cases h with
    | cons hlive => exact next_some hn hlt hlive hskip

/-- Who is next after the last slice. -/
theorem Rotates.next_last (hn : 0 < n) (h : Rotates n t done (pre ++ [a]) last left) : left = a.after ∧
    (left (last % n) = false → next n a.after a.task = some (last % n)) := by
  obtain ⟨x, mid, -, h⟩ := h.split
  cases h with
  | cons hlive hafter hlt hskip h =>
    cases h with
    | nil => exact ⟨rfl, fun hend => next_some hn hlt hend hskip⟩

theorem Rotates.never (h : Rotates n t done (pre ++ a :: post) last left) (hu : a.after u = true) :
    left u = true ∧ ∀ b ∈ post, b.task ≠ u := by
  obtain ⟨x, mid, -, h⟩ := h.split
  cases h with
  | cons _ _ _ _ h =>
    refine ⟨h.left_of_done hu, ?_⟩
    rintro b hb rfl
    have := h.live b hb
    simp_all

/-! ## Between two slices of one seat -/

theorem Rotates.around (hn : 0 < n) (h : Rotates n t done (a :: mid) last left) (hend : last % n = a.task)
    (hlive : left a.task = false) (hno : ∀ m ∈ mid, m.task ≠ a.task) : last = a.turn + n := by
  have hturns := h.turns.2
  obtain ⟨-, hlt, htask⟩ := hturns a (List.mem_cons_self ..)
  rw [htask] at hend
  have hge : a.turn + n ≤ last := by
    by_contra hgt
    have := eq_of_mod_eq hend.symm (by omega) (by omega)
    omega
  by_contra hne
  have hone := h.one_in_turn (x := a.turn + n) (by have := (hturns a (List.mem_cons_self ..)).1; omega) (by omega)
    (by rw [Nat.add_mod_right, ← htask]; exact hlive)
  obtain ⟨m, hm, hx⟩ := List.countP_pos_iff.mp (by omega : 0 < (a :: mid).countP (·.turn = a.turn + n))
  have hx : m.turn = a.turn + n := by simpa using hx
  rcases List.mem_cons.mp hm with rfl | hmid
  · omega
  · apply hno m hmid
    rw [(hturns m hm).2.2, hx, Nat.add_mod_right, htask]

theorem Rotates.one_each (hn : 0 < n) (h : Rotates n t done (pre ++ a :: mid ++ b :: post) last left)
    (hab : b.task = a.task) (hno : ∀ m ∈ mid, m.task ≠ a.task) (hu : u < n) (hne : u ≠ a.task) (hlive : b.before u = false) :
    mid.countP (·.task = u) = 1 := by
  rw [List.append_assoc] at h
  obtain ⟨start, done', -, hrest⟩ := h.split
  obtain ⟨x, left', hround, hb⟩ := hrest.split
  cases hb with
  | @cons _ _ _ _ _ _ _ hend =>
    have hlast := hround.around hn hab (by rw [← hab]; exact hend) hno
    have hturns := hround.turns.2
    obtain ⟨hstart, -, htask⟩ := hturns a (List.mem_cons_self ..)
    rw [htask] at hne
    obtain ⟨y, hgt, hlt, hy⟩ := exists_turn hu hne
    have hone := hround.one_in_turn (x := y) (by omega) (by omega) (by rw [hy]; exact hlive)
    have hhead : a.turn ≠ y := by omega
    have hsame : mid.countP (·.task = u) = mid.countP (·.turn = y) := by
      apply List.countP_congr
      intro m hm
      obtain ⟨-, hbefore, hseat⟩ := hturns m (List.mem_cons_of_mem _ hm)
      have hafter := hround.head_lt m hm
      simp only [decide_eq_true_eq, hseat, ← hy]
      exact ⟨fun h => eq_of_mod_eq h (by omega) (by omega), fun h => by rw [h]⟩
    rw [hsame]
    simpa [hhead] using hone

end

end TgRcore.Rotation
