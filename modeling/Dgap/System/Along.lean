import Mathlib

/-!
# What holds along a list of events

`Along step P s l` says that every event of `l` satisfies `P` in the state in which it happens, when the
events are run from `s`.
-/

namespace System

variable {σ ε : Type*} {step : σ → ε → σ} {P : σ → ε → Prop} {s : σ} {e : ε} {l l' : List ε}

/-- Every event of `l` satisfies `P` in the state in which it happens. -/
def Along (step : σ → ε → σ) (P : σ → ε → Prop) (s : σ) (l : List ε) : Prop :=
  ∀ pre e post, l = pre ++ e :: post → P (pre.foldl step s) e

/-- Nothing happens along no event. -/
lemma along_nil : Along step P s [] := by
  intro pre e post h
  simp at h

/-- The first event happens in the first state, the others behind it. -/
lemma along_cons : Along step P s (e :: l) ↔ P s e ∧ Along step P (step s e) l := by
  constructor
  · exact fun h => ⟨h [] e l rfl, fun pre e' post hl => h (e :: pre) e' post (by rw [hl]; rfl)⟩
  · rintro ⟨h1, h2⟩ pre e' post hl
    cases pre with
    | nil =>
      obtain ⟨rfl, rfl⟩ := List.cons.inj hl
      exact h1
    | cons e'' pre =>
      rw [List.cons_append, List.cons.injEq] at hl
      obtain ⟨rfl, hl⟩ := hl
      exact h2 pre e' post hl

/-- Along one list and along the next one. -/
lemma along_append :
    Along step P s (l ++ l') ↔ Along step P s l ∧ Along step P (l.foldl step s) l' := by
  induction l generalizing s with
  | nil => simp [along_nil]
  | cons e l ih => rw [List.cons_append, along_cons, along_cons, ih, List.foldl_cons, and_assoc]

end System
