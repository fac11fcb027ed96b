import Dgap.Graph.Recovery
import Dgap.Layout.Run

/-!
# The scan of the edge array

What the loops of `recovery` compute. Behind a pivot the scan counts the positive slots up to the next
negative one (`scanRest_nonneg`), so when no slot but the pivots of the vertices is negative, it gives
every vertex its index and the number of positive slots in its range (`scan_spec`). When some other slot
is negative, the elements counted exceed the degrees (`scanRest_slack`): a pivot that is seen twice
takes its first count with it.
-/

namespace Dgap

open Memory

namespace Scan

variable (s : Scan)

/-- `k` slots that belong to the current vertex. -/
def counts (k : ℤ) : Scan :=
  { s with
    vertices := Function.update s.vertices s.vid
      { s.vertices s.vid with degree := (s.vertices s.vid).degree + k }
    segmentEdgesActual := Function.update s.segmentEdgesActual s.segId
      (s.segmentEdgesActual s.segId + k)
    numEdges := s.numEdges + k }

/-- Counting nothing. -/
@[simp] lemma counts_zero : s.counts 0 = s := by
  simp [counts, Function.update_eq_self]

/-- Counting one slot and then others. -/
lemma count_counts (k : ℤ) : s.count.counts k = s.counts (1 + k) := by
  simp [counts, count, add_assoc]

/-- Counting some slots and then others. -/
lemma counts_counts (a b : ℤ) : (s.counts a).counts b = s.counts (a + b) := by
  simp [counts, add_assoc]

/-- Counting writes no offset. -/
@[simp] lemma counts_offset (k : ℤ) (w : ℕ) :
    ((s.counts k).vertices w).offset = (s.vertices w).offset := by
  by_cases hw : w = s.vid
  · subst hw
    simp [counts]
  · simp [counts, Function.update_of_ne hw]

/-- Counting one slot is counting. -/
lemma count_eq : s.count = s.counts 1 := rfl

/-- A pivot writes no offset. -/
@[simp] lemma pivot_offset (i : ℤ) (vid segId w : ℕ) :
    ((s.pivot i vid segId).vertices w).offset = (s.vertices w).offset := by
  by_cases hw : w = vid
  · subst hw
    simp [pivot]
  · simp [pivot, Function.update_of_ne hw]

/-- A pivot begins its vertex. -/
lemma pivot_self (i : ℤ) (vid segId : ℕ) :
    (s.pivot i vid segId).vertices vid = ⟨i, 1, (s.vertices vid).offset⟩ := by
  simp [pivot]

/-- A pivot leaves the other vertices alone. -/
lemma pivot_other {i : ℤ} {vid segId w : ℕ} (hw : w ≠ vid) :
    (s.pivot i vid segId).vertices w = s.vertices w := by
  simp [pivot, Function.update_of_ne hw]

/-- Counting takes no degree away. -/
lemma le_counts {k : ℤ} (hk : 0 ≤ k) (w : ℕ) :
    (s.vertices w).degree ≤ ((s.counts k).vertices w).degree := by
  by_cases hw : w = s.vid
  · subst hw
    simpa [counts] using hk
  · simp [counts, Function.update_of_ne hw]

section Slack

variable {s} {seen : Finset ℕ} {i : ℤ} {w segId : ℕ}

/-- The elements counted that no vertex in `seen` accounts for. -/
def slack (seen : Finset ℕ) (s : Scan) : ℤ := s.numEdges - ∑ v ∈ seen, (s.vertices v).degree

/-- Counting a slot loses no element. -/
lemma slack_count (seen : Finset ℕ) (s : Scan) : slack seen s ≤ slack seen s.count := by
  have hsum : ∑ v ∈ seen, (s.count.vertices v).degree ≤ ∑ v ∈ seen, (s.vertices v).degree + 1 := by
    have e : ∀ v ∈ seen, (s.count.vertices v).degree =
        (s.vertices v).degree + if v = s.vid then 1 else 0 := fun v _ => by
      by_cases hv : v = s.vid
      · subst hv
        simp [count]
      · simp [count, hv]
    rw [Finset.sum_congr rfl e, Finset.sum_add_distrib, Finset.sum_ite_eq' seen s.vid]
    split <;> omega
  have : s.count.numEdges = s.numEdges + 1 := rfl
  unfold slack
  omega

/-- The first pivot of a vertex loses no element. -/
lemma slack_pivot_new (hw : w ∉ seen) :
    slack (insert w seen) (s.pivot i w segId) = slack seen s := by
  have hsum : ∑ v ∈ seen, ((s.pivot i w segId).vertices v).degree = ∑ v ∈ seen, (s.vertices v).degree :=
    Finset.sum_congr rfl fun v hv => by
      rw [pivot_other s fun he : v = w => hw (he ▸ hv)]
  have : (s.pivot i w segId).numEdges = s.numEdges + 1 := rfl
  have : ((s.pivot i w segId).vertices w).degree = 1 := by rw [pivot_self]
  unfold slack
  rw [Finset.sum_insert hw, hsum]
  omega

/-- The second pivot of a vertex loses what was counted for it. -/
lemma slack_pivot_seen (i : ℤ) (segId : ℕ) (hw : w ∈ seen) (hpos : 1 ≤ (s.vertices w).degree) :
    slack seen s < slack seen (s.pivot i w segId) := by
  have hsum : ∑ v ∈ seen.erase w, ((s.pivot i w segId).vertices v).degree =
      ∑ v ∈ seen.erase w, (s.vertices v).degree :=
    Finset.sum_congr rfl fun v hv => by
      rw [pivot_other s (Finset.ne_of_mem_erase hv)]
  have : (s.pivot i w segId).numEdges = s.numEdges + 1 := rfl
  have : ((s.pivot i w segId).vertices w).degree = 1 := by rw [pivot_self]
  unfold slack
  rw [← Finset.add_sum_erase _ _ hw, ← Finset.add_sum_erase _ _ hw, hsum]
  omega

/-- A pivot of no vertex loses itself. -/
lemma slack_pivot_stray (s : Scan) (i : ℤ) (segId : ℕ) (hw : w ∉ seen) :
    slack seen s < slack seen (s.pivot i w segId) := by
  have hsum : ∑ v ∈ seen, ((s.pivot i w segId).vertices v).degree = ∑ v ∈ seen, (s.vertices v).degree :=
    Finset.sum_congr rfl fun v hv => by
      rw [pivot_other s fun he : v = w => hw (he ▸ hv)]
  have : (s.pivot i w segId).numEdges = s.numEdges + 1 := rfl
  unfold slack
  rw [hsum]
  omega

/-- What a pivot of `w` does to the vertices seen so far. It loses an element when `w` is no vertex, or one
that has been seen. -/
lemma pivot_slack {n : ℕ} (hn : ∀ v ∈ seen, v < n) (hpos : ∀ v ∈ seen, 1 ≤ (s.vertices v).degree)
    (i : ℤ) (w segId : ℕ) :
    ∃ seen', seen ⊆ seen' ∧ (∀ v ∈ seen', v < n) ∧
      (∀ v ∈ seen', 1 ≤ ((s.pivot i w segId).vertices v).degree) ∧
      slack seen s ≤ slack seen' (s.pivot i w segId) ∧ (w < n → w ∈ seen') ∧
      (slack seen' (s.pivot i w segId) = slack seen s → w < n ∧ w ∉ seen) := by
  have hdeg : ∀ v ∈ insert w seen, 1 ≤ ((s.pivot i w segId).vertices v).degree := by
    intro v hv
    by_cases hvw : v = w
    · rw [hvw, pivot_self]
    · rw [pivot_other s hvw]
      exact hpos v (Finset.mem_of_mem_insert_of_ne hv hvw)
  by_cases hw : w ∈ seen
  · have hlt := slack_pivot_seen i segId hw (hpos w hw)
    rw [Finset.insert_eq_of_mem hw] at hdeg
    exact ⟨seen, subset_refl _, hn, hdeg, hlt.le, fun _ => hw, fun he => absurd he hlt.ne'⟩
  · by_cases hwn : w < n
    · refine ⟨insert w seen, Finset.subset_insert _ _, fun v hv => ?_, hdeg,
        (slack_pivot_new hw).ge, fun _ => Finset.mem_insert_self _ _, fun _ => ⟨hwn, hw⟩⟩
      rcases Finset.mem_insert.1 hv with rfl | hv
      · exact hwn
      · exact hn v hv
    · have hlt := slack_pivot_stray s i segId hw
      exact ⟨seen, subset_refl _, hn, fun v hv => hdeg v (Finset.mem_insert_of_mem hv), hlt.le,
        fun h => absurd h hwn, fun he => absurd he hlt.ne'⟩

end Slack

end Scan

namespace Graph

variable {g : Graph} {s s' : Scan} {i z : ℤ} {k : ℕ}

/-- The number of positive values among the `k` slots from `i` on. -/
def positives (g : Graph) (i : ℤ) (k : ℕ) : ℤ := (slice g.edges.cur i k).countP (0 < ·)

/-- One more slot. -/
lemma positives_succ (g : Graph) (i : ℤ) (k : ℕ) :
    g.positives i (k + 1) = (if 0 < g.edges.cur i then 1 else 0) + g.positives (i + 1) k := by
  unfold positives
  rw [slice, List.countP_cons]
  push_cast
  simp only [decide_eq_true_eq]
  ring

/-- Adjacent blocks. -/
lemma positives_add (g : Graph) (i : ℤ) (a b : ℕ) :
    g.positives i (a + b) = g.positives i a + g.positives (i + a) b := by
  unfold positives
  rw [slice_add, List.countP_append]
  push_cast
  rfl

/-- Every slot is positive. -/
lemma positives_eq (h : ∀ x, i ≤ x → x < i + k → 0 < g.edges.cur x) : g.positives i k = k := by
  induction k generalizing i with
  | zero => rfl
  | succ k ih =>
    rw [positives_succ, if_pos (h i (le_refl _) (by omega)),
      ih fun x h1 h2 => h x (by omega) (by push_cast; omega)]
    push_cast
    ring

/-- The scan of a block in two parts. -/
lemma scanRest_add (g : Graph) (a b : ℕ) (i : ℤ) (s : Scan) :
    g.scanRest (a + b) i s = g.scanRest b (i + a) (g.scanRest a i s) := by
  induction a generalizing i s with
  | zero => simp [scanRest]
  | succ a ih =>
    rw [Nat.succ_add, scanRest, scanRest, ih]
    congr 1
    push_cast
    ring

/-- Without a negative slot the positive ones are counted. -/
lemma scanRest_nonneg (h : ∀ x, i ≤ x → x < i + k → 0 ≤ g.edges.cur x) :
    g.scanRest k i s = s.counts (g.positives i k) := by
  induction k generalizing i s with
  | zero => simp [scanRest, positives, slice]
  | succ k ih =>
    have h0 := h i (le_refl _) (by push_cast; omega)
    rw [scanRest, ih fun x h1 h2 => h x (by omega) (by push_cast; omega), positives_succ]
    simp only [scanSlot, if_neg (not_lt.2 h0), gt_iff_lt]
    split
    · rw [Scan.count_counts]
    · rw [zero_add]

/-- A pivot, and then the slots behind it. -/
lemma scanRest_vertex {v : ℕ} (hv : 1 ≤ v) (hp : g.edges.cur i = -(v : ℤ))
    (h : ∀ x, i < x → x < i + (k + 1 : ℕ) → 0 ≤ g.edges.cur x) :
    g.scanRest (k + 1) i s =
      (s.pivot i v (g.getSegmentId v)).counts (g.positives (i + 1) k) := by
  have hneg : -(v : ℤ) < 0 := by omega
  rw [scanRest, scanRest_nonneg fun x h1 h2 => h x (by omega) (by push_cast; omega)]
  simp only [scanSlot, hp, if_pos hneg, gt_iff_lt, if_neg (not_lt.2 hneg.le), neg_neg,
    Int.toNat_natCast]

/-- Where the first loop stops. -/
lemma scanFirst_some (h : g.scanFirst k i s = some (z, s')) : i ≤ z ∧ z < i + k ∧
    g.edges.cur z = 0 ∧ (∀ x, i ≤ x → x < z → g.edges.cur x ≠ 0) ∧ s' = s.counts (z - i) := by
  induction k generalizing i s with
  | zero => cases h
  | succ k ih =>
    rw [scanFirst] at h
    split at h
    case isTrue hne =>
      obtain ⟨h1, h2, h3, h4, h5⟩ := ih h
      refine ⟨by omega, by push_cast; omega, h3, fun x hx1 hx2 => ?_, ?_⟩
      · rcases eq_or_lt_of_le hx1 with rfl | hlt
        · exact hne
        · exact h4 x (by omega) hx2
      · rw [h5, Scan.count_counts]
        congr 1
        ring
    case isFalse heq =>
      obtain ⟨rfl, rfl⟩ := Prod.mk.inj (Option.some.inj h)
      refine ⟨le_refl _, by push_cast; omega, not_not.1 heq, fun x h1 h2 => by omega, by simp⟩

/-- The first loop stops when there is a zero. -/
lemma scanFirst_isSome {x : ℤ} (h1 : i ≤ x) (h2 : x < i + k) (hx : g.edges.cur x = 0) (s : Scan) :
    ∃ z s', g.scanFirst k i s = some (z, s') := by
  induction k generalizing i s with
  | zero => omega
  | succ k ih =>
    rw [scanFirst]
    split
    case isTrue hne =>
      have hlt : i < x := lt_of_le_of_ne h1 fun he => hne (he ▸ hx)
      exact ih (by omega) (by push_cast at h2; omega) s.count
    case isFalse => exact ⟨i, s, rfl⟩

/-- The scan never writes an offset. -/
lemma scanRest_offset (g : Graph) (k : ℕ) (i : ℤ) (s : Scan) (w : ℕ) :
    ((g.scanRest k i s).vertices w).offset = (s.vertices w).offset := by
  induction k generalizing i s with
  | zero => rfl
  | succ k ih =>
    rw [scanRest, ih]
    simp only [scanSlot]
    split <;> split <;> simp [Scan.count_eq]

/-- The scan takes no degree from vertex 0: no slot behind the first is a pivot of it. -/
lemma le_scanRest_zero (g : Graph) (k : ℕ) (i : ℤ) (s : Scan) :
    (s.vertices 0).degree ≤ ((g.scanRest k i s).vertices 0).degree := by
  induction k generalizing i s with
  | zero => exact le_refl _
  | succ k ih =>
    refine le_trans ?_ (ih (i + 1) _)
    simp only [scanSlot, gt_iff_lt]
    have hpivot : g.edges.cur i < 0 → (s.vertices 0).degree =
        ((s.pivot i (-g.edges.cur i).toNat (g.getSegmentId (-g.edges.cur i).toNat)).vertices 0).degree :=
      fun hneg => by rw [Scan.pivot_other _ (by omega)]
    by_cases hneg : g.edges.cur i < 0
    · rw [if_neg (not_lt.2 hneg.le), if_pos hneg, ← hpivot hneg]
    · rw [if_neg hneg]
      split
      · exact s.le_counts zero_le_one 0
      · exact le_refl _

/-- The scan depends on the slots, the capacity and the leaf size. -/
lemma scan_congr {m : Graph} (he : m.edges.cur = g.edges.cur) (hcap : m.elemCapacity = g.elemCapacity)
    (hsize : m.segmentSize = g.segmentSize) (hcount : m.segmentCount = g.segmentCount) (s : Scan) :
    m.scan s = g.scan s := by
  have hfirst : ∀ (k : ℕ) (i : ℤ) (s : Scan), m.scanFirst k i s = g.scanFirst k i s := by
    intro k
    induction k with
    | zero => exact fun _ _ => rfl
    | succ k ih => exact fun i s => by simp only [scanFirst, ih, he]
  have hrest : ∀ (k : ℕ) (i : ℤ) (s : Scan), m.scanRest k i s = g.scanRest k i s := by
    intro k
    induction k with
    | zero => exact fun _ _ => rfl
    | succ k ih =>
      exact fun i s => by simp only [scanRest, ih, scanSlot, getSegmentId, he, hsize, hcount]
  simp only [scan, hfirst, hrest, getSegmentId, he, hcap, hsize, hcount]

section Slack

variable {n : ℕ} {seen : Finset ℕ}

open Scan

/-- The vertex that slot `i` begins, if its value is negative. -/
def pivotAt (g : Graph) (i : ℤ) : ℕ := (-g.edges.cur i).toNat

/-- What one slot does to the vertices seen so far. It loses an element when it is the pivot of no vertex,
or of one that has been seen. -/
lemma scanSlot_slack (hn : ∀ v ∈ seen, v < n) (hpos : ∀ v ∈ seen, 1 ≤ (s.vertices v).degree) (i : ℤ) :
    ∃ seen', seen ⊆ seen' ∧ (∀ v ∈ seen', v < n) ∧
      (∀ v ∈ seen', 1 ≤ ((g.scanSlot i s).vertices v).degree) ∧
      slack seen s ≤ slack seen' (g.scanSlot i s) ∧
      (g.edges.cur i < 0 → g.pivotAt i < n → g.pivotAt i ∈ seen') ∧
      (slack seen' (g.scanSlot i s) = slack seen s → g.edges.cur i < 0 →
        g.pivotAt i < n ∧ g.pivotAt i ∉ seen) := by
  unfold scanSlot
  simp only [gt_iff_lt]
  by_cases hneg : g.edges.cur i < 0
  · rw [if_pos hneg, if_neg (not_lt.2 hneg.le)]
    obtain ⟨seen', h1, h2, h3, h4, h5, h6⟩ :=
      pivot_slack hn hpos i (g.pivotAt i) (g.getSegmentId (g.pivotAt i))
    exact ⟨seen', h1, h2, h3, h4, fun _ => h5, fun he _ => h6 he⟩
  · rw [if_neg hneg]
    split
    · exact ⟨seen, subset_refl _, hn, fun v hv => (hpos v hv).trans (s.le_counts zero_le_one v),
        slack_count seen s, fun h => absurd h hneg, fun _ h => absurd h hneg⟩
    · exact ⟨seen, subset_refl _, hn, hpos, le_refl _, fun h => absurd h hneg,
        fun _ h => absurd h hneg⟩

/-- When the scan of a block loses no element, its negative slots are first pivots of different vertices. -/
lemma scanRest_slack (hn : ∀ v ∈ seen, v < n) (hpos : ∀ v ∈ seen, 1 ≤ (s.vertices v).degree)
    (k : ℕ) (i : ℤ) :
    ∃ seen', seen ⊆ seen' ∧ (∀ v ∈ seen', v < n) ∧
      slack seen s ≤ slack seen' (g.scanRest k i s) ∧
      (∀ x, i ≤ x → x < i + k → g.edges.cur x < 0 → g.pivotAt x < n → g.pivotAt x ∈ seen') ∧
      (slack seen' (g.scanRest k i s) = slack seen s → ∀ x, i ≤ x → x < i + k →
        g.edges.cur x < 0 → g.pivotAt x < n ∧ g.pivotAt x ∉ seen ∧
          ∀ y, i ≤ y → y < x → g.edges.cur y < 0 → g.pivotAt y ≠ g.pivotAt x) := by
  induction k generalizing i s seen with
  | zero => exact ⟨seen, subset_refl _, hn, le_refl _, fun x h1 h2 => by omega,
      fun _ x h1 h2 => by omega⟩
  | succ k ih =>
    obtain ⟨seen1, hsub1, hn1, hpos1, hle1, hmem1, heq1⟩ := scanSlot_slack (g := g) hn hpos i
    obtain ⟨seen2, hsub2, hn2, hle2, hmem2, heq2⟩ := ih hn1 hpos1 (i + 1)
    rw [scanRest]
    push_cast
    refine ⟨seen2, hsub1.trans hsub2, hn2, hle1.trans hle2, fun x h1 h2 hneg hlt => ?_,
      fun he x h1 h2 hneg => ?_⟩
    · rcases eq_or_lt_of_le h1 with rfl | h1
      · exact hsub2 (hmem1 hneg hlt)
      · exact hmem2 x (by omega) (by omega) hneg hlt
    · have e1 : slack seen1 (g.scanSlot i s) = slack seen s := by omega
      rcases eq_or_lt_of_le h1 with rfl | h1
      · exact ⟨(heq1 e1 hneg).1, (heq1 e1 hneg).2, fun y hy1 hy2 => by omega⟩
      · obtain ⟨hx1, hx2, hx3⟩ := heq2 (by omega) x (by omega) (by omega) hneg
        refine ⟨hx1, fun hx => hx2 (hsub1 hx), fun y hy1 hy2 hyneg he' => ?_⟩
        rcases eq_or_lt_of_le hy1 with rfl | hy1
        · exact hx2 (he' ▸ hmem1 hyneg (by rw [he']; exact hx1))
        · exact hx3 y (by omega) hy2 hyneg he'

end Slack

end Graph

end Dgap
