import Mathlib

/-!
# Mutexes and counters of a set of threads

Threads hold mutexes and owe decrements to counters. `Owns owner held` says that the owner of a mutex is
the one thread that holds it, `Counts count owed` that a counter is the number of threads that owe to it.
Both are kept by the four operations. Threads that only wait for mutexes above all that they hold never
wait for each other in a circle (`Owns.exists_unblocked`).
-/

namespace Locks

variable {ι R : Type*} {i : ι} {s : R}

section Owns

variable {owner : R → Option ι} {held : ι → Finset R}

/-- The owner of a mutex is the thread that holds it. -/
def Owns (owner : R → Option ι) (held : ι → Finset R) : Prop :=
  ∀ s i, owner s = some i ↔ s ∈ held i

/-- A free mutex is held by nobody. -/
lemma Owns.not_mem (h : Owns owner held) (hs : owner s = none) : s ∉ held i := fun hm => by
  rw [(h s i).2 hm] at hs
  cases hs

/-- Two threads never hold the same mutex. -/
lemma Owns.exclusive (h : Owns owner held) {j : ι} (hi : s ∈ held i) (hj : s ∈ held j) : i = j :=
  Option.some.inj (((h s i).2 hi).symm.trans ((h s j).2 hj))

/-- If every thread waits only for mutexes above those it holds, then some thread that holds a mutex
waits for a free one or for none. -/
theorem Owns.exists_unblocked {R : Type*} [LinearOrder R] [Fintype ι] {owner : R → Option ι}
    {held : ι → Finset R} (h : Owns owner held) (wants : ι → Option R)
    (asc : ∀ i w, wants i = some w → ∀ s ∈ held i, s < w) (hs : ∃ i, (held i).Nonempty) :
    ∃ i, (held i).Nonempty ∧ ∀ w, wants i = some w → owner w = none := by
  obtain ⟨i0, s0, h0⟩ := hs
  have hne : (Finset.univ.biUnion held).Nonempty :=
    ⟨s0, Finset.mem_biUnion.2 ⟨i0, Finset.mem_univ _, h0⟩⟩
  -- the holder of the greatest mutex in use
  obtain ⟨i, -, hi⟩ := Finset.mem_biUnion.1 (Finset.max'_mem _ hne)
  refine ⟨i, ⟨_, hi⟩, fun w hw => ?_⟩
  cases ho : owner w with
  | none => rfl
  | some j =>
    have hm : w ∈ Finset.univ.biUnion held :=
      Finset.mem_biUnion.2 ⟨j, Finset.mem_univ _, (h w j).1 ho⟩
    exact absurd (asc i w hw _ hi) (not_lt.2 (Finset.le_max' _ w hm))

variable [DecidableEq ι] [DecidableEq R]

/-- Taking a free mutex. -/
lemma Owns.lock (h : Owns owner held) (hs : owner s = none) :
    Owns (Function.update owner s (some i)) (Function.update held i (insert s (held i))) := by
  intro t j
  by_cases hj : j = i
  · subst hj
    rw [Function.update_self, Finset.mem_insert]
    by_cases ht : t = s
    · subst ht
      simp
    · rw [Function.update_of_ne ht, h t j]
      simp [ht]
  · rw [Function.update_of_ne hj]
    by_cases ht : t = s
    · subst ht
      have := h.not_mem (i := j) hs
      simp [Ne.symm hj, this]
    · rw [Function.update_of_ne ht]
      exact h t j

/-- Releasing a mutex that one holds. -/
lemma Owns.unlock (h : Owns owner held) (hs : s ∈ held i) :
    Owns (Function.update owner s none) (Function.update held i ((held i).erase s)) := by
  intro t j
  by_cases ht : t = s
  · subst ht
    rw [Function.update_self]
    refine iff_of_false (by simp) fun hm => ?_
    by_cases hj : j = i
    · subst hj
      simp at hm
    · rw [Function.update_of_ne hj] at hm
      exact hj (h.exclusive hm hs)
  · rw [Function.update_of_ne ht, h t j]
    by_cases hj : j = i
    · subst hj
      simp [ht]
    · rw [Function.update_of_ne hj]

end Owns

section Counts

variable [Fintype ι] [DecidableEq R] {count : R → ℤ} {owed : ι → Finset R}

/-- A counter is the number of threads that owe to it. -/
def Counts (count : R → ℤ) (owed : ι → Finset R) : Prop :=
  ∀ s, count s = ∑ i, if s ∈ owed i then 1 else 0

/-- A counter is zero when nobody owes to it. -/
lemma Counts.eq_zero_iff (h : Counts count owed) : count s = 0 ↔ ∀ i, s ∉ owed i := by
  rw [h s, Finset.sum_eq_zero_iff_of_nonneg fun i _ => by split <;> omega]
  simp

variable [DecidableEq ι]

/-- What another thread's debt adds to a counter. -/
lemma sum_update (owed : ι → Finset R) (i : ι) (l : Finset R) (s : R) :
    (∑ j, if s ∈ Function.update owed i l j then (1 : ℤ) else 0) =
      (∑ j, if s ∈ owed j then (1 : ℤ) else 0) - (if s ∈ owed i then 1 else 0) +
        if s ∈ l then 1 else 0 := by
  have hf : (fun j => if s ∈ Function.update owed i l j then (1 : ℤ) else 0) =
      Function.update (fun j => if s ∈ owed j then (1 : ℤ) else 0) i (if s ∈ l then 1 else 0) := by
    funext j
    by_cases hj : j = i
    · subst hj
      simp
    · simp [Function.update_of_ne hj]
  rw [hf, Finset.sum_update_of_mem (Finset.mem_univ i),
    ← Finset.sum_sdiff (Finset.subset_univ {i}), Finset.sum_singleton]
  ring

/-- An increment by a thread that owes nothing to the counter. -/
lemma Counts.raise (h : Counts count owed) (hs : s ∉ owed i) :
    Counts (Function.update count s (count s + 1))
      (Function.update owed i (insert s (owed i))) := by
  intro t
  rw [sum_update, ← h t]
  by_cases ht : t = s
  · subst ht
    simp [hs]
  · rw [Function.update_of_ne ht]
    simp [ht]

/-- A decrement by a thread that owes to the counter. -/
lemma Counts.lower (h : Counts count owed) (hs : s ∈ owed i) :
    Counts (Function.update count s (count s - 1))
      (Function.update owed i ((owed i).erase s)) := by
  intro t
  rw [sum_update, ← h t]
  by_cases ht : t = s
  · subst ht
    simp [hs]
  · rw [Function.update_of_ne ht]
    simp [ht]

end Counts

end Locks
