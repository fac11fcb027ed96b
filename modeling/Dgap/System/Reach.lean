import Mathlib

/-!
# Labelled transition systems and their runs

A `System` has initial states and steps that carry a label (the operation, or the thread that moves).
`Reach` are the states of its runs; an inductive invariant holds in all of them (`Reach.inv`). For a
property that needs every step of the run to satisfy a side condition on the label and on the state
before it, `restrict` keeps only these steps, and `Reach.of_restrict` forgets the condition again.
-/

/-- A transition system with states `σ` and labels `ι`. -/
structure System (σ ι : Type*) where
  init : σ → Prop
  step : σ → ι → σ → Prop

namespace System

variable {σ ι : Type*} (S : System σ ι)

/-- The states that a run reaches. -/
inductive Reach : σ → Prop where
  | init {s} : S.init s → Reach s
  | step {s a s'} : Reach s → S.step s a s' → Reach s'

/-- The system that only takes the steps allowed by `ok` in the state before. -/
def restrict (ok : σ → ι → Prop) : System σ ι where
  init := S.init
  step s a s' := ok s a ∧ S.step s a s'

variable {S}

/-- What holds initially and is kept by every step holds in every reached state. -/
lemma Reach.inv {I : σ → Prop} (h0 : ∀ s, S.init s → I s)
    (hs : ∀ s a s', I s → S.step s a s' → I s') {s} (h : S.Reach s) : I s := by
  induction h with
  | init hi => exact h0 _ hi
  | step _ st ih => exact hs _ _ _ ih st

section Measure

variable {α : Type*} [Preorder α] [WellFoundedLT α] {m : σ → α}

/-- If a step that lowers a measure is possible wherever the goal is not reached, every run can be
continued to the goal. -/
lemma Reach.exists_goal {P Q : σ → Prop}
    (hm : ∀ s, S.Reach s → P s → ¬ Q s → ∃ a s', S.step s a s' ∧ P s' ∧ m s' < m s) {s} (h : S.Reach s)
    (hP : P s) : ∃ s', S.Reach s' ∧ P s' ∧ Q s' := by
  induction hn : m s using WellFoundedLT.induction generalizing s with
  | ind k ih =>
    by_cases hQ : Q s
    · exact ⟨s, h, hP, hQ⟩
    · obtain ⟨a, s', hstep, hP', hlt⟩ := hm s h hP hQ
      exact ih _ (hn ▸ hlt) (.step h hstep) hP' rfl

/-- If every step lowers a measure, every run ends. -/
lemma Reach.acc (hm : ∀ s a s', S.Reach s → S.step s a s' → m s' < m s) {s} (h : S.Reach s) :
    Acc (fun s' s => ∃ a, S.step s a s') s := by
  induction hn : m s using WellFoundedLT.induction generalizing s with
  | ind k ih =>
    refine .intro s ?_
    rintro s' ⟨a, hstep⟩
    exact ih _ (hn ▸ hm s a s' h hstep) (.step h hstep) rfl

end Measure

/-- A run with a side condition on its steps is a run. -/
lemma Reach.of_restrict {ok : σ → ι → Prop} {s} (h : (S.restrict ok).Reach s) : S.Reach s := by
  induction h with
  | init hi => exact .init hi
  | step _ st ih => exact .step ih st.2

end System
