import Mathlib

/-!
# Heap numbering of a complete binary tree

The nodes of a complete binary tree of height `H` are numbered level by level from the root, which is 1:
the children of `k` are `2 * k` and `2 * k + 1`, and the leaves are the numbers from `2 ^ H` to
`2 ^ (H + 1)`. `Under root k` says that `k` lies in the subtree of `root`. The ancestor of a leaf at a
height is the leaf shifted right by the height, and the leaves under it are the numbers with the same
shift (`under_shift_iff`), an interval of `2 ^ h` numbers (`shift_eq_iff`).
-/

namespace Heap

/-- Node `k` lies in the subtree of `root`. -/
inductive Under (root : ℕ) : ℕ → Prop where
  | root : Under root root
  | left {k} : Under root k → Under root (2 * k)
  | right {k} : Under root k → Under root (2 * k + 1)

variable {root i k h H : ℕ}

/-- A node lies in the subtrees of its ancestors, which are its shifts. -/
lemma under_iff : Under root k ↔ ∃ h, k >>> h = root := by
  constructor
  · intro hk
    induction hk with
    | root => exact ⟨0, rfl⟩
    | @left k _ ih =>
      obtain ⟨h, rfl⟩ := ih
      refine ⟨h + 1, ?_⟩
      rw [Nat.add_comm h 1, Nat.shiftRight_add, Nat.shiftRight_one, Nat.mul_div_cancel_left _ two_pos]
    | @right k _ ih =>
      obtain ⟨h, rfl⟩ := ih
      refine ⟨h + 1, ?_⟩
      rw [Nat.add_comm h 1, Nat.shiftRight_add, Nat.shiftRight_one, show (2 * k + 1) / 2 = k by omega]
  · rintro ⟨h, rfl⟩
    induction h generalizing k with
    | zero => exact .root
    | succ h ih =>
      -- `k` is a child of its half, which lies in the subtree
      rw [Nat.add_comm h 1, Nat.shiftRight_add, Nat.shiftRight_one]
      rcases Nat.mod_two_eq_zero_or_one k with hk | hk
      · have := (ih (k := k / 2)).left
        rwa [show 2 * (k / 2) = k by omega] at this
      · have := (ih (k := k / 2)).right
        rwa [show 2 * (k / 2) + 1 = k by omega] at this

/-- Whether a node lies in a subtree is decided by its shifts, of which only the first `k` are not 0. -/
instance : DecidablePred (Under root) := fun k =>
  decidable_of_iff (∃ h < k + 1, k >>> h = root) <| by
    rw [under_iff]
    constructor
    · rintro ⟨h, -, e⟩
      exact ⟨h, e⟩
    · rintro ⟨h, e⟩
      by_cases hh : h < k + 1
      · exact ⟨h, hh, e⟩
      · have hz : ∀ m, k ≤ m → k >>> m = 0 := fun m hm => by
          rw [Nat.shiftRight_eq_div_pow]
          exact Nat.div_eq_of_lt (hm.trans_lt Nat.lt_two_pow_self)
        exact ⟨k, by omega, by rw [← e, hz k (le_refl k), hz h (by omega)]⟩

/-- The nodes with a given shift are an interval. -/
lemma shift_eq_iff {n : ℕ} : k >>> h = n ↔ n * 2 ^ h ≤ k ∧ k < (n + 1) * 2 ^ h := by
  have hpos : 0 < 2 ^ h := by positivity
  rw [Nat.shiftRight_eq_div_pow, Nat.div_eq_iff hpos, Nat.succ_mul]
  omega

/-- A shift of a leaf is on the level above the leaves by as much. -/
lemma shift_mem_level (hk : 2 ^ H ≤ k ∧ k < 2 ^ (H + 1)) (hh : h ≤ H) :
    2 ^ (H - h) ≤ k >>> h ∧ k >>> h < 2 ^ (H - h + 1) := by
  rw [Nat.shiftRight_eq_div_pow, Nat.le_div_iff_mul_le (by positivity),
    Nat.div_lt_iff_lt_mul (by positivity), ← pow_add, ← pow_add, Nat.sub_add_cancel hh,
    show H - h + 1 + h = H + 1 by omega]
  exact hk

/-- The leaves under the ancestor of a leaf at height `h` are those with the same ancestor there. -/
lemma under_shift_iff (hi : 2 ^ H ≤ i ∧ i < 2 ^ (H + 1)) (hk : 2 ^ H ≤ k ∧ k < 2 ^ (H + 1))
    (hh : h ≤ H) : Under (i >>> h) k ↔ k >>> h = i >>> h := by
  rw [under_iff]
  refine ⟨fun ⟨m, hm⟩ => ?_, fun e => ⟨h, e⟩⟩
  have hlevel := shift_mem_level hi hh
  -- the two ancestors are the same number, so they are on the same level
  have hle : m ≤ H := by
    by_contra hlt
    have hzero : k >>> m = 0 := by
      rw [Nat.shiftRight_eq_div_pow]
      exact Nat.div_eq_of_lt (hk.2.trans_le (Nat.pow_le_pow_right two_pos (by omega)))
    have : 0 < 2 ^ (H - h) := by positivity
    omega
  have hlevel' := shift_mem_level hk hle
  rw [hm] at hlevel'
  have h1 := (Nat.pow_lt_pow_iff_right (by norm_num : 1 < 2)).1 (hlevel.1.trans_lt hlevel'.2)
  have h2 := (Nat.pow_lt_pow_iff_right (by norm_num : 1 < 2)).1 (hlevel'.1.trans_lt hlevel.2)
  obtain rfl : m = h := by omega
  exact hm

end Heap
