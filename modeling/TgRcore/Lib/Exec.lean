/-
  TgRcore.Lib.Exec — runs of a labelled transition system.

  `Exec step s es t`: from `s`, the steps labelled `es` (oldest first) lead to `t`.
  - `Exec.inv`: what holds at the start and is kept by every step holds along every run.
  - `Since`, `Always`: the last of two kinds of labels; a law for each label and those before it.
  - `Exec.always_iff`: two laws that agree as long as the second has held agree over the run.
-/

import Mathlib.Data.List.Induction

namespace TgRcore

variable {σ ε : Type}

inductive Exec (step : σ → ε → σ → Prop) : σ → List ε → σ → Prop
  | nil (s : σ) : Exec step s [] s
  | snoc {s t u : σ} {es : List ε} {e : ε} : Exec step s es t → step t e u → Exec step s (es ++ [e]) u

/-- Some label is one of `P`, and none after it is one of `Q`. -/
def Since (P Q : ε → Prop) (es : List ε) : Prop := ∃ es1 x es2, es = es1 ++ x :: es2 ∧ P x ∧ ∀ y ∈ es2, ¬ Q y

/-- Every label, with those before it. -/
def Always (P : List ε → ε → Prop) (es : List ε) : Prop := ∀ es1 x es2, es = es1 ++ x :: es2 → P es1 x

section

variable {P Q : ε → Prop} {L : List ε → ε → Prop} {es : List ε} {e : ε}

theorem not_since_nil : ¬ Since P Q [] := by
  rintro ⟨es1, y, es2, e, -⟩
  simp at e

theorem since_snoc : Since P Q (es ++ [e]) ↔ P e ∨ Since P Q es ∧ ¬ Q e := by
  constructor
  · rintro ⟨es1, y, es2, he, hy, hno⟩
    cases es2 using List.reverseRecOn with
    | nil =>
      obtain ⟨-, hxy⟩ := List.append_inj' he rfl
      cases hxy
      exact .inl hy
    | append_singleton es2 z =>
      rw [← List.cons_append, ← List.append_assoc] at he
      obtain ⟨rfl, hxz⟩ := List.append_inj' he rfl
      cases hxz
      exact .inr ⟨⟨es1, y, es2, rfl, hy, fun w hw => hno w (List.mem_append_left _ hw)⟩,
        hno _ (List.mem_append_right _ (List.mem_singleton_self _))⟩
  · rintro (he | ⟨⟨es1, y, es2, rfl, hy, hno⟩, hlast⟩)
    · exact ⟨es, e, [], rfl, he, by simp⟩
    · refine ⟨es1, y, es2 ++ [e], by simp, hy, fun w hw => ?_⟩
      rcases List.mem_append.mp hw with hw | hw
      · exact hno w hw
      · rw [List.mem_singleton.mp hw]
        exact hlast

theorem always_nil : Always L [] := by
  intro es1 x es2 he
  simp at he

theorem always_snoc : Always L (es ++ [e]) ↔ Always L es ∧ L es e := by
  constructor
  · intro h
    exact ⟨fun es1 x es2 he => h es1 x (es2 ++ [e]) (by rw [he]; simp), h es e [] rfl⟩
  · rintro ⟨h, hlast⟩ es1 x es2 he
    cases es2 using List.reverseRecOn with
    | nil =>
      obtain ⟨rfl, hx⟩ := List.append_inj' he rfl
      cases hx
      exact hlast
    | append_singleton es2 z =>
      rw [← List.cons_append, ← List.append_assoc] at he
      obtain ⟨rfl, -⟩ := List.append_inj' he rfl
      exact h es1 x es2 rfl

end

namespace Exec

variable {step : σ → ε → σ → Prop} {s t u : σ} {es fs : List ε} {e : ε}

/-- An invariant of the labels so far and the state. -/
theorem inv {P : List ε → σ → Prop} (h0 : P [] s) (hstep : ∀ {es t e u}, P es t → step t e u → P (es ++ [e]) u)
    (h : Exec step s es t) : P es t := by
  induction h with
  | nil => exact h0
  | snoc _ hs ih => exact hstep ih hs

/-- A run of steps that are also those of another system. -/
theorem mono {step' : σ → ε → σ → Prop} (h : Exec step s es t) (hsub : ∀ {a e b}, step a e b → step' a e b) :
    Exec step' s es t := by
  induction h with
  | nil => exact .nil _
  | snoc _ hs ih => exact ih.snoc (hsub hs)

theorem single (h : step s e t) : Exec step s [e] t := .snoc (.nil s) h

/-- The run of one step that goes on after another run. -/
theorem next (_ : Exec step s es t) (h : step t e u) : Exec step t [e] u := .single h

theorem append (h : Exec step s es t) (h' : Exec step t fs u) : Exec step s (es ++ fs) u := by
  induction h' with
  | nil => rwa [List.append_nil]
  | snoc _ hs ih =>
    rw [← List.append_assoc]
    exact .snoc ih hs

/-- A run in two parts. -/
theorem split (h : Exec step s (es ++ fs) u) : ∃ t, Exec step s es t ∧ Exec step t fs u := by
  induction fs using List.reverseRecOn generalizing u with
  | nil =>
    rw [List.append_nil] at h
    exact ⟨u, h, .nil u⟩
  | append_singleton fs e ih =>
    rw [← List.append_assoc] at h
    generalize hx : es ++ fs ++ [e] = gs at h
    cases h with
    | nil => exact absurd hx (by simp)
    | snoc h hs =>
      obtain ⟨rfl, he⟩ := List.append_inj' hx rfl
      cases he
      obtain ⟨t, h1, h2⟩ := ih h
      exact ⟨t, h1, .snoc h2 hs⟩

theorem eq_of_nil (h : Exec step s [] t) : s = t := by
  generalize hx : ([] : List ε) = gs at h
  cases h with
  | nil => rfl
  | snoc => exact absurd hx (by simp)

/-- A run by its first step. -/
theorem uncons (h : Exec step s (e :: es) u) : ∃ t, step s e t ∧ Exec step t es u := by
  obtain ⟨t, h1, h2⟩ := @split _ _ step s u [e] es h
  generalize hx : [e] = gs at h1
  cases h1 with
  | nil => cases hx
  | snoc h hs =>
    rw [← List.nil_append [e]] at hx
    obtain ⟨he, hlast⟩ := List.append_inj' hx rfl
    cases hlast
    rw [← he] at h
    cases eq_of_nil h
    exact ⟨t, hs, h2⟩

/-- Two laws that mean the same for a step after which the invariant still holds if the second does. -/
theorem always_iff {I : List ε → σ → Prop} {P Q : List ε → ε → Prop} (h0 : I [] s)
    (hstep : ∀ {es t e u}, I es t → step t e u → Q es e → I (es ++ [e]) u)
    (hiff : ∀ {es t e u}, I es t → step t e u → (P es e ↔ Q es e)) (h : Exec step s es t) : Always P es ↔ Always Q es := by
  have hall : (Always Q es → I es t) ∧ (Always P es ↔ Always Q es) := by
    induction h with
    | nil => exact ⟨fun _ => h0, iff_of_true always_nil always_nil⟩
    | snoc _ hs ih =>
      obtain ⟨hinv, ih⟩ := ih
      simp only [always_snoc, ih]
      refine ⟨fun hq => hstep (hinv hq.1) hs hq.2, and_congr_right fun hq => hiff (hinv hq) hs⟩
  exact hall.2

end Exec

end TgRcore
