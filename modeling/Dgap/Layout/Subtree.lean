import Dgap.Layout.Insert
import Dgap.Machine.Width
import Dgap.Tree.Heap

/-!
# The window of a rebalance is a subtree of the PMA tree

`insert` walks up the conceptual PMA tree twice: `window /= 2` halves the heap number of the leaf, and
`left_index` and `right_index` align the vertex number with the shifted window size. Both name the same
subtree (`window_subtree`): the leaves that are locked and whose densities are added up are the leaves
under `window`, and they are the leaves whose vertices are moved. `windowVars` are the variables of an
iteration with their conversions to `int32_t`; `windowInts` are the exact values of its expressions.
-/

namespace Dgap

/-- The conversion to `int32_t`. -/
abbrev int32 (x : ℤ) : ℤ := Machine.signed 32 x

namespace Graph

variable {g : Graph} {src height : ℕ}

/-- The variables that an iteration of the `while` loop of `insert` assigns, the conversions to `int32_t`
included. -/
structure WindowVars where
  windowSize : ℤ
  leftIndex : ℤ
  rightIndex : ℤ
  leftSegment : ℤ
  rightSegment : ℤ

/-- An iteration of the `while` loop of `insert`. -/
def windowVars (g : Graph) (src height : ℕ) : WindowVars :=
  let getSegmentId (v : ℤ) : ℤ := int32 (v.tdiv g.segmentSize + g.segmentCount)
  let windowSize := int32 (g.segmentSize * int32 (2 ^ height))
  let leftIndex := int32 ((src : ℤ).tdiv windowSize * windowSize)
  let rightIndex := min (int32 (leftIndex + windowSize)) g.numVertices
  { windowSize, leftIndex, rightIndex
    leftSegment := int32 (getSegmentId leftIndex - g.segmentCount)
    rightSegment := int32 (getSegmentId rightIndex - g.segmentCount) }

/-- The exact values of the `int32_t` expressions of an iteration. The loops of `lock_in_batch` and
`unlock_in_batch` count between `left_segment - 1` and `right_segment`. -/
def windowInts (g : Graph) (src height : ℕ) : List ℤ :=
  let windowSize := g.segmentSize * 2 ^ height
  [g.getSegmentId src, (g.getSegmentId src >>> height : ℕ), height, 2 ^ height, windowSize,
    src / windowSize, g.leftIndex src height, g.leftIndex src height + windowSize,
    g.rightIndex src height, g.leftIndex src height / g.segmentSize,
    g.getSegmentId (g.leftIndex src height), g.leftSegment src height,
    g.rightIndex src height / g.segmentSize, g.getSegmentId (g.rightIndex src height),
    g.rightSegment src height, g.leftSegment src height - 1]

/-- The window of `src` at a height is the subtree of the node that the leaf of `src` has there. -/
structure SubtreeWindow (g : Graph) (src height : ℕ) : Prop where
  /-- The loop halves `window` once for each height. -/
  window : (· / 2)^[height] (g.getSegmentId src) = g.getSegmentId src >>> height
  node_pos : 1 ≤ g.getSegmentId src >>> height
  leaves : ∀ s < g.segmentCount, (g.leftSegment src height ≤ s ∧ s < g.rightSegment src height) ↔
    Heap.Under (g.getSegmentId src >>> height) (s + g.segmentCount)
  own_leaf : g.leftSegment src height ≤ g.leafOf src ∧ g.leafOf src < g.rightSegment src height
  nested : g.leftSegment src height ≤ g.leftSegment src (height - 1) ∧
    g.rightSegment src (height - 1) ≤ g.rightSegment src height
  doubled : g.rightSegment src height - g.leftSegment src height =
    2 * (g.rightSegment src (height - 1) - g.leftSegment src (height - 1))
  size : g.rightSegment src height - g.leftSegment src height = 2 ^ height
  left_first : g.leftIndex src height = g.leftSegment src height * g.segmentSize
  right_first : g.rightIndex src height = g.rightSegment src height * g.segmentSize
  sums : g.segMeta src height =
    (∑ s ∈ Finset.range g.segmentCount with
        Heap.Under (g.getSegmentId src >>> height) (s + g.segmentCount),
        g.segmentEdgesActual (s + g.segmentCount),
      ∑ s ∈ Finset.range g.segmentCount with
        Heap.Under (g.getSegmentId src >>> height) (s + g.segmentCount),
        g.segmentEdgesTotal (s + g.segmentCount))
  vars : g.windowVars src height =
    { windowSize := g.segmentSize * 2 ^ height
      leftIndex := g.leftIndex src height
      rightIndex := g.rightIndex src height
      leftSegment := g.leftSegment src height
      rightSegment := g.rightSegment src height }
  ints : ∀ x ∈ g.windowInts src height, Machine.Fits 32 x ∨
    (x = g.getSegmentId (g.rightIndex src height) ∧ g.segmentCount = 2 ^ 30 ∧
      g.rightIndex src height = g.numVertices)

/-- The sums that `lock_in_batch` returns. -/
lemma lockInBatch_sum (g : Graph) (k s : ℕ) : g.lockInBatch k s =
    (∑ t ∈ Finset.Ico s (s + k), g.segmentEdgesActual (t + g.segmentCount),
      ∑ t ∈ Finset.Ico s (s + k), g.segmentEdgesTotal (t + g.segmentCount)) := by
  induction k generalizing s with
  | zero => simp [lockInBatch]
  | succ k ih =>
    have hlt : s < s + 1 + k := by omega
    rw [lockInBatch, ih, show s + (k + 1) = s + 1 + k by omega,
      Finset.sum_eq_sum_Ico_succ_bot hlt fun t => g.segmentEdgesActual (t + g.segmentCount),
      Finset.sum_eq_sum_Ico_succ_bot hlt fun t => g.segmentEdgesTotal (t + g.segmentCount)]

namespace Geometry

variable (hg : g.Geometry)

include hg

/-- The heap numbers of the leaves. -/
lemma leaf_level {s : ℕ} (hs : s < g.segmentCount) :
    2 ^ g.treeHeight ≤ s + g.segmentCount ∧ s + g.segmentCount < 2 ^ (g.treeHeight + 1) := by
  have := hg.count
  rw [pow_succ]
  omega

/-- The heap number of a leaf' ancestor. -/
lemma shift_getSegmentId (src : ℕ) (hh : height ≤ g.treeHeight) :
    g.getSegmentId src >>> height = g.leafOf src / 2 ^ height + 2 ^ (g.treeHeight - height) := by
  rw [getSegmentId_eq, hg.count, Nat.shiftRight_eq_div_pow, ← Nat.pow_sub_mul_pow 2 hh,
    Nat.add_mul_div_right _ _ (by positivity)]

/-- Inside the tree a window is not cut off: its leaves are the aligned interval of its node. -/
lemma segments_of_le (hs : src < g.numVertices) (hh : height ≤ g.treeHeight) :
    g.leftSegment src height + g.segmentCount = (g.getSegmentId src >>> height) * 2 ^ height ∧
    g.rightSegment src height = g.leftSegment src height + 2 ^ height := by
  obtain ⟨-, -, hl, hr⟩ := hg.segments_eq src height
  have hsplit : 2 ^ (g.treeHeight - height) * 2 ^ height = g.segmentCount := by
    rw [Nat.pow_sub_mul_pow 2 hh, hg.count]
  have hlt : g.leafOf src / 2 ^ height < 2 ^ (g.treeHeight - height) := by
    rw [Nat.div_lt_iff_lt_mul (by positivity), hsplit]
    exact hg.leafOf_lt hs
  have hle : (g.leafOf src / 2 ^ height + 1) * 2 ^ height ≤ g.segmentCount := by
    rw [← hsplit]
    exact Nat.mul_le_mul_right _ hlt
  rw [Nat.succ_mul] at hle
  rw [hl, hr, hg.shift_getSegmentId src hh, Nat.add_mul, hsplit, Nat.min_eq_left hle]
  exact ⟨rfl, rfl⟩

/-- The leaves of the window are the leaves under its node. -/
lemma mem_window_iff (hs : src < g.numVertices) (hh : height ≤ g.treeHeight) {s : ℕ}
    (hsc : s < g.segmentCount) :
    (g.leftSegment src height ≤ s ∧ s < g.rightSegment src height) ↔
      Heap.Under (g.getSegmentId src >>> height) (s + g.segmentCount) := by
  obtain ⟨hl, hr⟩ := hg.segments_of_le hs hh
  have hsrc := hg.leaf_level (hg.leafOf_lt hs)
  rw [← getSegmentId_eq] at hsrc
  rw [Heap.under_shift_iff hsrc (hg.leaf_level hsc) hh, Heap.shift_eq_iff, Nat.succ_mul]
  omega

/-- Below `2 ^ 31` vertices the sizes of an iteration are in the range of `int32_t`. -/
lemma int32_bounds (hn : g.numVertices < 2 ^ 31) (hs : src < g.numVertices)
    (hh : height ≤ g.treeHeight) : g.segmentCount ≤ 2 ^ 30 ∧ 2 ^ height ≤ g.segmentCount ∧
      g.segmentSize * 2 ^ height ≤ g.numVertices ∧ height ≤ 30 ∧
      g.leftIndex src height + g.segmentSize * 2 ^ height ≤ g.numVertices := by
  have hsize := hg.size
  have hpow : 2 ^ height ≤ g.segmentCount := by
    rw [hg.count]
    exact Nat.pow_le_pow_right two_pos hh
  have hcount : g.segmentCount ≤ g.numVertices := by
    rw [hg.vertices]
    exact Nat.le_mul_of_pos_left _ hsize
  have hheight : g.treeHeight < 31 := by
    rw [hg.count] at hcount
    exact (Nat.pow_lt_pow_iff_right (by norm_num)).1 (hcount.trans_lt hn)
  obtain ⟨-, hr⟩ := hg.segments_of_le hs hh
  obtain ⟨hli, -, -, -, hrc⟩ := hg.window hs height
  refine ⟨?_, hpow, ?_, by omega, ?_⟩
  · rw [hg.count]
    exact Nat.pow_le_pow_right two_pos (by omega)
  · rw [hg.vertices]
    exact Nat.mul_le_mul_left _ hpow
  · rw [hli, Nat.mul_comm g.segmentSize, ← Nat.add_mul, ← hr]
    exact hg.mul_le hrc

/-- The conversions to `int32_t` keep all variables of an iteration. The heap number of `right_index`
may wrap around, but the subtraction of `segment_count` wraps it back. -/
lemma windowVars_eq (hn : g.numVertices < 2 ^ 31) (hs : src < g.numVertices)
    (hh : height ≤ g.treeHeight) : g.windowVars src height =
      { windowSize := g.segmentSize * 2 ^ height
        leftIndex := g.leftIndex src height
        rightIndex := g.rightIndex src height
        leftSegment := g.leftSegment src height
        rightSegment := g.rightSegment src height } := by
  obtain ⟨hcount, hpow, hws, -, hend⟩ := hg.int32_bounds hn hs hh
  obtain ⟨hli, hri, hll, hlr, hrc⟩ := hg.window hs height
  have hsize := hg.size
  have keep : ∀ n : ℕ, n < 2 ^ 31 → int32 (n : ℤ) = n := fun n h =>
    Machine.signed_of_mem (by norm_num) ⟨by omega, by exact_mod_cast h⟩
  have hshift : int32 (2 ^ height) = ((2 ^ height : ℕ) : ℤ) := by
    rw [← keep (2 ^ height) ((hpow.trans hcount).trans_lt (by norm_num))]
    push_cast
    rfl
  have hw : int32 (g.segmentSize * ((2 ^ height : ℕ) : ℤ)) = ((g.segmentSize * 2 ^ height : ℕ) : ℤ) := by
    rw [← Nat.cast_mul]
    exact keep _ (hws.trans_lt hn)
  have hleft : int32 ((src : ℤ).tdiv ((g.segmentSize * 2 ^ height : ℕ) : ℤ) *
      ((g.segmentSize * 2 ^ height : ℕ) : ℤ)) = g.leftIndex src height := by
    rw [Int.tdiv_eq_ediv_of_nonneg (Int.natCast_nonneg src), ← Int.natCast_ediv, ← Nat.cast_mul]
    exact keep (g.leftIndex src height) ((Nat.le_add_right _ _).trans_lt (hend.trans_lt hn))
  have hright : min (int32 ((g.leftIndex src height : ℤ) + ((g.segmentSize * 2 ^ height : ℕ) : ℤ)))
      (g.numVertices : ℤ) = g.rightIndex src height := by
    rw [← Nat.cast_add, keep _ (hend.trans_lt hn), rightIndex, Nat.cast_min]
  -- converting before the subtraction or not is the same
  have hseg : ∀ s : ℕ, s ≤ g.segmentCount → int32 (int32 (((s * g.segmentSize : ℕ) : ℤ).tdiv
      g.segmentSize + g.segmentCount) - g.segmentCount) = s := by
    intro s hsc
    rw [Int.tdiv_eq_ediv_of_nonneg (Int.natCast_nonneg _), ← Int.natCast_ediv,
      Nat.mul_div_cancel _ (by omega), sub_eq_add_neg, int32, int32, Machine.signed_add,
      add_neg_cancel_right]
    exact keep s (by omega)
  unfold windowVars
  simp only
  rw [hshift, hw, hleft, hright, hli, hri, hseg _ (hll.trans (hlr.le.trans hrc)), hseg _ hrc]
  push_cast
  rfl

/-- The exact values are in the range of `int32_t`, but for the heap number of the end of the array when
there are `2 ^ 30` leaves. -/
lemma windowInts_fits (hn : g.numVertices < 2 ^ 31) (hs : src < g.numVertices)
    (hh : height ≤ g.treeHeight) {x : ℤ} (hx : x ∈ g.windowInts src height) :
    Machine.Fits 32 x ∨ (x = g.getSegmentId (g.rightIndex src height) ∧ g.segmentCount = 2 ^ 30 ∧
      g.rightIndex src height = g.numVertices) := by
  obtain ⟨hcount, hpow, hws, hheight, hend⟩ := hg.int32_bounds hn hs hh
  obtain ⟨hli, hri, hll, hlr, hrc⟩ := hg.window hs height
  have hsize := hg.size
  have fits : ∀ n : ℕ, n < 2 ^ 31 → Machine.Fits 32 (n : ℤ) := fun n h =>
    ⟨by omega, by exact_mod_cast h⟩
  have hleaf := hg.leafOf_lt hs
  have hcn : g.segmentCount ≤ g.numVertices := by
    rw [hg.vertices]
    exact Nat.le_mul_of_pos_left _ hsize
  have hsrc : g.getSegmentId src < 2 ^ 31 := by
    rw [getSegmentId_eq]
    omega
  have hdivl : g.leftIndex src height / g.segmentSize = g.leftSegment src height := by
    rw [hli, Nat.mul_div_cancel _ (by omega)]
  have hdivr : g.rightIndex src height / g.segmentSize = g.rightSegment src height := by
    rw [hri, Nat.mul_div_cancel _ (by omega)]
  have hright : g.rightIndex src height ≤ g.numVertices := Nat.min_le_right _ _
  simp only [windowInts, List.mem_cons, List.not_mem_nil, or_false] at hx
  rcases hx with rfl | rfl | rfl | rfl | rfl | rfl | rfl | rfl | rfl | rfl | rfl | rfl | rfl | rfl |
    rfl | rfl
  · exact .inl (fits _ hsrc)
  · refine .inl (fits _ ?_)
    rw [Nat.shiftRight_eq_div_pow]
    exact (Nat.div_le_self _ _).trans_lt hsrc
  · exact .inl (fits _ (by omega))
  · exact .inl (by exact_mod_cast fits (2 ^ height) ((hpow.trans hcount).trans_lt (by norm_num)))
  · exact .inl (by exact_mod_cast fits (g.segmentSize * 2 ^ height) (hws.trans_lt hn))
  · refine .inl ?_
    have := fits (src / (g.segmentSize * 2 ^ height)) ((Nat.div_le_self _ _).trans_lt (hs.trans hn))
    push_cast at this
    exact this
  · exact .inl (fits _ (by omega))
  · refine .inl ?_
    have := fits (g.leftIndex src height + g.segmentSize * 2 ^ height) (hend.trans_lt hn)
    push_cast at this
    exact this
  · exact .inl (fits _ (by omega))
  · refine .inl ?_
    rw [← Int.natCast_ediv, hdivl]
    exact fits _ (by omega)
  · refine .inl (fits _ ?_)
    rw [getSegmentId, hdivl]
    omega
  · exact .inl (fits _ (by omega))
  · refine .inl ?_
    rw [← Int.natCast_ediv, hdivr]
    exact fits _ (by omega)
  · -- the end of the array with `2 ^ 30` leaves
    have hid : g.getSegmentId (g.rightIndex src height) =
        g.rightSegment src height + g.segmentCount := by rw [getSegmentId, hdivr]
    by_cases hlt : g.rightSegment src height + g.segmentCount < 2 ^ 31
    · exact .inl (fits _ (by rw [hid]; exact hlt))
    · have hc : g.segmentCount = 2 ^ 30 := by omega
      refine .inr ⟨rfl, hc, ?_⟩
      rw [hri, show g.rightSegment src height = g.segmentCount by omega, hg.vertices, Nat.mul_comm]
  · exact .inl (fits _ (by omega))
  · exact .inl ⟨by omega, by omega⟩

omit hg in
/-- Halving is shifting. -/
lemma iterate_half (n height : ℕ) : (· / 2)^[height] n = n >>> height := by
  induction height generalizing n with
  | zero => rfl
  | succ height ih =>
    rw [Function.iterate_succ_apply, ih, Nat.add_comm height 1, Nat.shiftRight_add, Nat.shiftRight_one]

/-- In every iteration of the `while` loop of `insert` up to the root, the window that is computed from
the vertex numbers is the subtree of the node that `window` names, and nothing overflows; the window of
the root is the whole graph, and the halving after it leaves no node. -/
theorem window_subtree (hn : g.numVertices < 2 ^ 31) (hs : src < g.numVertices) :
    (∀ height, 1 ≤ height → height ≤ g.treeHeight → SubtreeWindow g src height) ∧
    (g.leftIndex src g.treeHeight = 0 ∧ g.rightIndex src g.treeHeight = g.numVertices) ∧
    (· / 2)^[g.treeHeight + 1] (g.getSegmentId src) = 0 := by
  have hsrc := hg.leaf_level (hg.leafOf_lt hs)
  rw [← getSegmentId_eq] at hsrc
  refine ⟨fun height h1 hh => ?_, ?_, ?_⟩
  · obtain ⟨hli, hri, hll, hlr, hrc⟩ := hg.window hs height
    obtain ⟨hl, hr⟩ := hg.segments_of_le hs hh
    obtain ⟨hl', hr'⟩ := hg.segments_of_le hs (show height - 1 ≤ g.treeHeight by omega)
    have hpow : 2 ^ height = 2 * 2 ^ (height - 1) := by
      rw [← pow_succ', Nat.sub_add_cancel h1]
    -- the node of the height below is one of the two children
    have hchild : g.getSegmentId src >>> (height - 1) / 2 = g.getSegmentId src >>> height := by
      rw [← Nat.shiftRight_one, ← Nat.shiftRight_add, Nat.sub_add_cancel h1]
    have hnode := (Heap.shift_mem_level hsrc hh).1
    have hnested : (g.getSegmentId src >>> height) * 2 ^ height ≤
        g.getSegmentId src >>> (height - 1) * 2 ^ (height - 1) ∧
        g.getSegmentId src >>> (height - 1) * 2 ^ (height - 1) + 2 ^ (height - 1) ≤
          (g.getSegmentId src >>> height) * 2 ^ height + 2 ^ height := by
      rw [← hchild, hpow, ← mul_assoc, ← Nat.succ_mul, ← Nat.add_mul]
      exact ⟨Nat.mul_le_mul_right _ (by omega), Nat.mul_le_mul_right _ (by omega)⟩
    have hmem := fun s (hsc : s < g.segmentCount) => hg.mem_window_iff hs hh hsc
    have hset : Finset.Ico (g.leftSegment src height) (g.leftSegment src height +
        (g.rightSegment src height - g.leftSegment src height)) =
        (Finset.range g.segmentCount).filter fun s =>
          Heap.Under (g.getSegmentId src >>> height) (s + g.segmentCount) := by
      ext s
      rw [Finset.mem_Ico, Finset.mem_filter, Finset.mem_range]
      constructor
      · exact fun h => ⟨by omega, (hmem s (by omega)).1 (by omega)⟩
      · rintro ⟨h1, h2⟩
        have := (hmem s h1).2 h2
        omega
    refine ⟨iterate_half _ _, ?_, hmem, ⟨hll, hlr⟩, ?_, by omega, by omega, hli, hri, ?_,
      hg.windowVars_eq hn hs hh, fun x hx => hg.windowInts_fits hn hs hh hx⟩
    · have : 0 < 2 ^ (g.treeHeight - height) := by positivity
      omega
    · omega
    · rw [segMeta, lockInBatch_sum, hset]
  · obtain ⟨hli, hri, -, -, -⟩ := hg.window hs g.treeHeight
    obtain ⟨hl, hr⟩ := hg.segments_of_le hs (le_refl g.treeHeight)
    have hroot : g.getSegmentId src >>> g.treeHeight = 1 := by
      have := Heap.shift_mem_level hsrc (le_refl g.treeHeight)
      rw [Nat.sub_self] at this
      omega
    rw [hroot, ← hg.count] at hl
    rw [hli, hri, hr, show g.leftSegment src g.treeHeight = 0 by omega, ← hg.count, hg.vertices]
    exact ⟨Nat.zero_mul _, by ring⟩
  · rw [iterate_half, Nat.shiftRight_eq_div_pow]
    exact Nat.div_eq_of_lt hsrc.2

end Geometry

/-- Four vertices in two leaves: the window of the last vertex at height 1 is the subtree of the root. -/
theorem Geometry.window_subtree_four :
    SubtreeWindow (allocate ⟨fun _ => 7, fun _ => .zero⟩ true 4 4) 3 1 :=
  (Geometry.window_subtree (g := allocate ⟨fun _ => 7, fun _ => .zero⟩ true 4 4)
    ⟨by decide, by decide, by decide, by decide⟩ (by decide) (by decide)).1 1 (by decide) (by decide)

/-- With `2 ^ 30` leaves of one vertex, the heap number of the end of the array is `2 ^ 31`, which
`get_segment_id` returns as `-2 ^ 31`. -/
theorem windowInts_overflow : ∃ g : Graph, g.Geometry ∧ g.numVertices < 2 ^ 31 ∧
    0 < g.numVertices ∧ 30 ≤ g.treeHeight ∧ (2 ^ 31 : ℤ) ∈ g.windowInts 0 30 ∧
    ¬Machine.Fits 32 (2 ^ 31) ∧ int32 (g.getSegmentId (g.rightIndex 0 30)) = -2 ^ 31 := by
  refine ⟨{ allocate ⟨fun _ => 7, fun _ => .zero⟩ true 0 2 with
    numVertices := 2 ^ 30, segmentSize := 1, segmentCount := 2 ^ 30, treeHeight := 30 },
    ⟨rfl, by decide, by decide, rfl⟩, by decide, by decide, by decide, ?_, by decide, ?_⟩
  · simp [windowInts, getSegmentId, rightIndex, leftIndex]
  · simp only [getSegmentId, rightIndex, leftIndex]
    decide

end Graph

end Dgap
