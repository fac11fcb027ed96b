import Mathlib

/-!
# Back-linked chains in an array

A chain starts at a head and follows `next` until it meets the null link `-1`. `Chain next b o l` says
that the chain from `o` visits exactly the indices `l`, that they are non-negative and below `b`, and
that every link points strictly downwards. So a chain is determined by its head (`Chain.unique`), and is no
longer than the bound (`Chain.length_le`). `Links` forgets the direction of the links: that the links from
`o` end after the indices `l` is enough for a chain to be determined and without repetition.
-/

namespace Memory

/-- The chain from `o` visits exactly the indices `l`, each below the one before and all below `b`. -/
inductive Chain (next : ℤ → ℤ) : ℤ → ℤ → List ℤ → Prop where
  | nil {b} : Chain next b (-1) []
  | cons {b o l} : 0 ≤ o → o < b → Chain next o (next o) l → Chain next b o (o :: l)

namespace Chain

variable {next next' : ℤ → ℤ} {b b' o : ℤ} {l : List ℤ}

/-- A chain below a bound is a chain below every larger bound. -/
lemma mono (h : Chain next b o l) (le : b ≤ b') : Chain next b' o l := by
  cases h with
  | nil => exact .nil
  | cons h0 h1 hc => exact .cons h0 (by omega) hc

/-- Every index of a chain is non-negative and below its bound. -/
lemma mem (h : Chain next b o l) {i : ℤ} (hi : i ∈ l) : 0 ≤ i ∧ i < b := by
  induction h with
  | nil => cases hi
  | cons h0 h1 _ ih =>
    rcases List.mem_cons.1 hi with rfl | hi
    · exact ⟨h0, h1⟩
    · have := ih hi
      omega

/-- A chain depends only on the links of the indices it visits. -/
lemma congr (h : Chain next b o l) (e : ∀ i ∈ l, next' i = next i) : Chain next' b o l := by
  induction h with
  | nil => exact .nil
  | @cons b o l h0 h1 _ ih =>
    refine .cons h0 h1 ?_
    rw [e o List.mem_cons_self]
    exact ih fun i hi => e i (List.mem_cons_of_mem _ hi)

/-- The chain is empty exactly when its head is the null link. -/
lemma nil_iff (h : Chain next b o l) : l = [] ↔ o = -1 := by
  cases h with
  | nil => simp
  | cons h0 _ _ => simp; omega

/-- A head determines its chain. -/
lemma unique {l' : List ℤ} (h : Chain next b o l) (h' : Chain next b' o l') : l = l' := by
  induction h generalizing b' l' with
  | nil =>
    cases h' with
    | nil => rfl
    | cons h0 _ _ => omega
  | cons h0 _ _ ih =>
    cases h' with
    | nil => omega
    | cons _ _ hc => rw [ih hc]

/-- A chain is no longer than its bound. -/
lemma length_le (h : Chain next b o l) : (l.length : ℤ) ≤ max b 0 := by
  induction h with
  | nil => simp
  | cons h0 h1 _ ih =>
    simp only [List.length_cons]
    push_cast
    omega

end Chain

/-- The links from `o` lead through exactly the indices `l` to the null link. -/
inductive Links (next : ℤ → ℤ) : ℤ → List ℤ → Prop where
  | nil : Links next (-1) []
  | cons {o l} : o ≠ -1 → Links next (next o) l → Links next o (o :: l)

/-- A chain that points downwards is one. -/
lemma Chain.links {next : ℤ → ℤ} {b o : ℤ} {l : List ℤ} (h : Chain next b o l) :
    Links next o l := by
  induction h with
  | nil => exact .nil
  | cons h0 _ _ ih => exact .cons (by omega) ih

namespace Links

variable {next : ℤ → ℤ} {o x b : ℤ} {l l' : List ℤ}

/-- A head determines its links. -/
lemma unique (h : Links next o l) (h' : Links next o l') : l = l' := by
  induction h generalizing l' with
  | nil =>
    cases h' with
    | nil => rfl
    | cons ho _ => exact absurd rfl ho
  | cons ho _ ih =>
    cases h' with
    | nil => exact absurd rfl ho
    | cons _ hl => rw [ih hl]

/-- Every visited index is the head of a part of the links. -/
lemma of_mem (h : Links next o l) (hx : x ∈ l) : ∃ l', Links next x l' ∧ l'.length ≤ l.length := by
  induction h with
  | nil => cases hx
  | @cons o l ho hl ih =>
    rcases List.mem_cons.1 hx with rfl | hx
    · exact ⟨_, .cons ho hl, le_refl _⟩
    · obtain ⟨l', h1, h2⟩ := ih hx
      exact ⟨l', h1, by rw [List.length_cons]; omega⟩

/-- Links that end visit no index twice. -/
lemma nodup (h : Links next o l) : l.Nodup := by
  induction h with
  | nil => exact List.nodup_nil
  | @cons o l ho hl ih =>
    refine List.nodup_cons.2 ⟨fun hm => ?_, ih⟩
    obtain ⟨l', h1, h2⟩ := hl.of_mem hm
    rw [h1.unique (.cons ho hl), List.length_cons] at h2
    omega

/-- Links that end are no longer than the array they stay in. -/
lemma length_le (h : Links next o l) (hb : ∀ i ∈ l, 0 ≤ i ∧ i < b) : l.length ≤ b.toNat := by
  have hsub : l.toFinset ⊆ Finset.Ico 0 b := fun i hi => by
    rw [List.mem_toFinset] at hi
    exact Finset.mem_Ico.2 (hb i hi)
  have hcard := Finset.card_le_card hsub
  rwa [List.toFinset_card_of_nodup h.nodup, Int.card_Ico, sub_zero] at hcard

end Links

end Memory
