import Mathlib

/-!
# Prefix sums, in one pass and by blocks

`sequential f n` stores the sums of the first `0 .. n` values of `f`. `blocked` does the same in three
passes: the sum of each block, the prefix sums of these, and then each block from its own start; the blocks
of the first and of the third pass come in the orders of a `Schedule`. The two leave the same array
(`blocked_eq`).
-/

namespace PrefixSum

variable {M : Type*} [AddCommMonoid M] (f : ℕ → M)

/-- `total += f[i]` for `k` values from `i` on. -/
def sumLoop : ℕ → ℕ → M → M
  | 0, _, total => total
  | k + 1, i, total => sumLoop k (i + 1) (total + f i)

/-- `s[i] = total; total += f[i]` for `k` values from `i` on. -/
def scanLoop : ℕ → ℕ → M → (ℕ → M) → (ℕ → M) × M
  | 0, _, total, s => (s, total)
  | k + 1, i, total, s => scanLoop k (i + 1) (total + f i) (Function.update s i total)

/-- The prefix sums of `n` values, stored in `s`. -/
def sequential (n : ℕ) (s : ℕ → M) : ℕ → M :=
  let (s, total) := scanLoop f n 0 0 s
  Function.update s n total

/-- How many blocks of size `b` cover `n` values. -/
def numBlocks (b n : ℕ) : ℕ := (n + b - 1) / b

/-- How many of the `n` values lie in a block. -/
def blockLength (b n block : ℕ) : ℕ := min ((block + 1) * b) n - block * b

/-- The first pass. -/
def localSums (b n : ℕ) (order : List ℕ) (s : ℕ → M) : ℕ → M :=
  order.foldl (fun s block =>
    Function.update s block (sumLoop f (blockLength b n block) (block * b) 0)) s

/-- The third pass. -/
def fillBlocks (b n : ℕ) (bulk : ℕ → M) (order : List ℕ) (s : ℕ → M) : ℕ → M :=
  order.foldl (fun s block => (scanLoop f (blockLength b n block) (block * b) (bulk block) s).1) s

/-- The orders in which the first and the third pass run the blocks, and what the arrays hold before. -/
structure Schedule (M : Type*) where
  order : List ℕ
  order' : List ℕ
  localSums : ℕ → M
  bulkPrefix : ℕ → M
  sums : ℕ → M

/-- Each block is run once in each of the two passes. -/
def Schedule.Covers (s : Schedule M) (b n : ℕ) : Prop :=
  s.order.Perm (List.range (numBlocks b n)) ∧ s.order'.Perm (List.range (numBlocks b n))

/-- The prefix sums of `n` values by blocks of size `b`. -/
def blocked (b n : ℕ) (s : Schedule M) : ℕ → M :=
  let bulk := sequential (localSums f b n s.order s.localSums) (numBlocks b n) s.bulkPrefix
  Function.update (fillBlocks f b n bulk s.order' s.sums) n (bulk (numBlocks b n))

variable {f}

/-- The sum of a run of values. -/
lemma sumLoop_eq (k i : ℕ) (total : M) :
    sumLoop f k i total = total + ∑ j ∈ Finset.range k, f (i + j) := by
  induction k generalizing i total with
  | zero => rw [sumLoop, Finset.sum_range_zero, add_zero]
  | succ k ih =>
    rw [sumLoop, ih, Finset.sum_range_succ', add_zero, add_assoc, add_comm (f i)]
    simp only [add_assoc, add_comm 1]

/-- The total behind a run of values. -/
lemma scanLoop_total (k i : ℕ) (total : M) (s : ℕ → M) :
    (scanLoop f k i total s).2 = total + ∑ j ∈ Finset.range k, f (i + j) := by
  rw [← sumLoop_eq]
  induction k generalizing i total s with
  | zero => rfl
  | succ k ih => exact ih (i + 1) (total + f i) _

/-- Outside a run of values nothing is stored. -/
lemma scanLoop_outside {k i m : ℕ} (h : m < i ∨ i + k ≤ m) (total : M) (s : ℕ → M) :
    (scanLoop f k i total s).1 m = s m := by
  induction k generalizing i total s with
  | zero => rfl
  | succ k ih =>
    rw [scanLoop, ih (by omega), Function.update_of_ne (by omega)]

/-- What is stored for the values of a run. -/
lemma scanLoop_inside {k j : ℕ} (h : j < k) (i : ℕ) (total : M) (s : ℕ → M) :
    (scanLoop f k i total s).1 (i + j) = total + ∑ l ∈ Finset.range j, f (i + l) := by
  induction k generalizing i j total s with
  | zero => omega
  | succ k ih =>
    rw [scanLoop]
    cases j with
    | zero =>
      rw [scanLoop_outside (by omega), Nat.add_zero, Function.update_self, Finset.sum_range_zero, add_zero]
    | succ j =>
      rw [show i + (j + 1) = i + 1 + j by omega, ih (by omega), Finset.sum_range_succ', add_zero,
        add_assoc, add_comm (f i)]
      simp only [add_assoc, add_comm 1]

/-- The prefix sums. -/
lemma sequential_eq {n i : ℕ} (h : i ≤ n) (s : ℕ → M) :
    sequential f n s i = ∑ j ∈ Finset.range i, f j := by
  unfold sequential
  dsimp only
  rcases h.lt_or_eq with hlt | rfl
  · have := scanLoop_inside hlt 0 0 s (f := f)
    simp only [zero_add] at this
    rw [Function.update_of_ne hlt.ne, this]
  · rw [Function.update_self, scanLoop_total, zero_add]
    simp only [Nat.zero_add]

/-- Behind the prefix sums nothing is stored. -/
lemma sequential_outside {n i : ℕ} (h : n < i) (s : ℕ → M) : sequential f n s i = s i := by
  unfold sequential
  dsimp only
  rw [Function.update_of_ne h.ne', scanLoop_outside (by omega)]

variable {b n : ℕ}

/-- The sums of the blocks. -/
lemma localSums_eq (order : List ℕ) (block : ℕ) (s : ℕ → M) :
    localSums f b n order s block =
      if block ∈ order then ∑ j ∈ Finset.range (blockLength b n block), f (block * b + j) else s block := by
  induction order generalizing s with
  | nil => rfl
  | cons c l ih =>
    rw [localSums, List.foldl_cons, ← localSums, ih]
    by_cases hl : block ∈ l
    · rw [if_pos hl, if_pos (List.mem_cons_of_mem c hl)]
    · rw [if_neg hl]
      by_cases hc : block = c
      · rw [hc, Function.update_self, if_pos List.mem_cons_self, sumLoop_eq, zero_add]
      · rw [Function.update_of_ne hc, if_neg fun h => (List.mem_cons.1 h).elim hc hl]

/-- The blocks before one together. -/
lemma sum_blocks (b n k : ℕ) :
    ∑ block ∈ Finset.range k, ∑ j ∈ Finset.range (blockLength b n block), f (block * b + j) =
      ∑ j ∈ Finset.range (min (k * b) n), f j := by
  induction k with
  | zero => rw [Nat.zero_mul, Nat.zero_min, Finset.sum_range_zero, Finset.sum_range_zero]
  | succ k ih =>
    rw [Finset.sum_range_succ, ih]
    rcases le_total n (k * b) with hle | hle
    · have hmin : min ((k + 1) * b) n = n := min_eq_right (by rw [Nat.succ_mul]; omega)
      rw [blockLength, hmin, min_eq_right hle, Nat.sub_eq_zero_of_le hle, Finset.sum_range_zero, add_zero]
    · have hadd : min ((k + 1) * b) n = k * b + blockLength b n k := by
        rw [blockLength, Nat.succ_mul]
        omega
      rw [hadd, Finset.sum_range_add, min_eq_left hle]

/-- The blocks cover all values. -/
lemma le_numBlocks_mul (hb : 0 < b) : n ≤ numBlocks b n * b := by
  have h := Nat.div_add_mod (n + b - 1) b
  have hlt := Nat.mod_lt (n + b - 1) hb
  rw [numBlocks, Nat.mul_comm]
  omega

/-- A value lies in one of the blocks. -/
lemma div_lt_numBlocks (hb : 0 < b) {i : ℕ} (hi : i < n) : i / b < numBlocks b n :=
  Nat.div_lt_of_lt_mul (by rw [Nat.mul_comm]; exact hi.trans_le (le_numBlocks_mul hb))

/-- The third pass fills exactly the blocks it runs over. -/
lemma fillBlocks_eq (hb : 0 < b) {bulk : ℕ → M} {order : List ℕ} (hnodup : order.Nodup) {i : ℕ}
    (hi : i < n) (s : ℕ → M) :
    fillBlocks f b n bulk order s i =
      if i / b ∈ order then bulk (i / b) + ∑ l ∈ Finset.range (i % b), f (i / b * b + l) else s i := by
  have hdiv := Nat.div_add_mod' i b
  have hmod := Nat.mod_lt i hb
  induction order generalizing s with
  | nil => rfl
  | cons c l ih =>
    obtain ⟨hc, hl⟩ := List.nodup_cons.1 hnodup
    rw [fillBlocks, List.foldl_cons, ← fillBlocks, ih hl]
    by_cases hic : i / b = c
    · have hlt : i % b < blockLength b n c := by
        rw [blockLength, ← hic, Nat.succ_mul]
        omega
      rw [if_neg (hic ▸ hc), if_pos (hic ▸ List.mem_cons_self), hic, ← scanLoop_inside hlt _ _ s, ← hic, hdiv]
    · have hout : i < c * b ∨ c * b + blockLength b n c ≤ i := by
        rcases Nat.lt_or_gt_of_ne hic with hlt | hgt
        · exact .inl ((Nat.div_lt_iff_lt_mul hb).1 hlt)
        · refine .inr (le_trans ?_ ((Nat.le_div_iff_mul_le hb).1 hgt))
          rw [blockLength, Nat.succ_mul]
          omega
      rw [scanLoop_outside hout]
      simp only [List.mem_cons, hic, false_or]

/-- The third pass stores nothing behind the values. -/
lemma fillBlocks_outside {bulk : ℕ → M} {order : List ℕ} {i : ℕ} (hi : n ≤ i) (s : ℕ → M) :
    fillBlocks f b n bulk order s i = s i := by
  induction order generalizing s with
  | nil => rfl
  | cons c l ih =>
    have hout : i < c * b ∨ c * b + blockLength b n c ≤ i := by
      rw [blockLength]
      omega
    rw [fillBlocks, List.foldl_cons, ← fillBlocks, ih, scanLoop_outside hout]

/-- By blocks or in one pass: the same prefix sums. -/
theorem blocked_eq (hb : 0 < b) {s : Schedule M} (hs : s.Covers b n) :
    blocked f b n s = sequential f n s.sums := by
  obtain ⟨horder, horder'⟩ := hs
  -- the second pass gives the sum of all values before each block
  have hbulk : ∀ k ≤ numBlocks b n,
      sequential (localSums f b n s.order s.localSums) (numBlocks b n) s.bulkPrefix k =
        ∑ j ∈ Finset.range (min (k * b) n), f j := by
    intro k hk
    rw [sequential_eq hk, ← sum_blocks]
    refine Finset.sum_congr rfl fun block hblock => ?_
    rw [Finset.mem_range] at hblock
    rw [localSums_eq, if_pos (horder.mem_iff.2 (List.mem_range.2 (by omega)))]
  funext i
  unfold blocked
  rcases lt_trichotomy i n with hi | rfl | hi
  · have hdiv := Nat.div_add_mod' i b
    have hblock := div_lt_numBlocks hb hi
    rw [Function.update_of_ne hi.ne, fillBlocks_eq hb (horder'.nodup_iff.2 List.nodup_range) hi,
      if_pos (horder'.mem_iff.2 (List.mem_range.2 hblock)), hbulk _ hblock.le, sequential_eq hi.le,
      min_eq_left (by omega), ← Finset.sum_range_add, hdiv]
  · rw [Function.update_self, hbulk _ (le_refl _), min_eq_right (le_numBlocks_mul hb), sequential_eq (le_refl _)]
  · rw [Function.update_of_ne hi.ne', fillBlocks_outside hi.le, sequential_outside hi]

end PrefixSum
