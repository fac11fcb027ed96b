import Dgap.Layout.Insert

/-!
# No assertion of an insert fails

A full log has an entry, so its leaf has a gap (`Fits.lt`): the leaf rebalance of `do_insertion` finds
room, and afterwards the log is empty. A window that `insert` rebalances is below its threshold, so it
has a gap too, and the array that `resize_V1` doubles was full by one element at most. The one condition
left is that the step of `calculate_positions` does not vanish at its precision.
-/

namespace Dgap

namespace Graph

variable {g g' : Graph} {adj : ℕ → List ℕ} {tid src dst : ℕ}

/-- The head of a log chain is inside the log. -/
lemma Layout.offset_lt (hL : g.Layout adj) (hs : src < g.numVertices) :
    (g.vertices src).offset < maxLogEntries := by
  obtain ⟨slots, hc, -, -⟩ := (hL.holds src hs).logged
  have hidx := hL.logIdx_leafOf hs
  have hmax : (0 : ℤ) < maxLogEntries := by decide
  generalize (g.vertices src).offset = o at hc
  cases hc with
  | nil => omega
  | cons h0 hlt _ => omega

/-- A vertex whose log is empty has no log chain. -/
lemma Layout.offset_of_empty (hL : g.Layout adj) {v : ℕ} (hv : v < g.numVertices)
    (h : g.logSegmentIdx (g.leafOf v) = 0) : (g.vertices v).offset = -1 := by
  obtain ⟨slots, hc, -, -⟩ := (hL.holds v hv).logged
  rw [h] at hc
  generalize (g.vertices v).offset = o at hc
  cases hc with
  | nil => rfl
  | cons h0 hlt _ => omega

/-- A vertex is one of its segment. -/
lemma Geometry.src_mem (hg : g.Geometry) (src : ℕ) :
    g.leafOf src * g.segmentSize ≤ src ∧
      src < g.leafOf src * g.segmentSize + g.segmentSize := by
  have := (hg.leafOf_iff src (g.leafOf src)).1 rfl
  rw [Nat.succ_mul] at this
  exact this

/-- With room in the log, the edge is placed. -/
lemma Layout.placeEdge_isSome (hL : g.Layout adj) (hs : src < g.numVertices) (dst : ℕ)
    (hidx : g.logSegmentIdx (g.leafOf src) < maxLogEntries) :
    ∃ g1, g.placeEdge src dst (g.getSegmentId src) = some g1 := by
  unfold placeEdge
  split
  · exact ⟨_, rfl⟩
  · have hmem := hL.geometry.src_mem src
    unfold insertIntoLog
    rw [show g.getSegmentId src - g.segmentCount = g.leafOf src from rfl]
    simp only
    rw [if_pos ⟨hidx, hL.offset_lt hs, hmem.1, hmem.2⟩]
    exact ⟨_, rfl⟩

/-- When the log of a leaf is full, the leaf has a gap, its rebalance succeeds and empties the log. -/
lemma Layout.makeLogRoom_isSome (hL : g.Layout adj) (hF : g.Fits) (hs : src < g.numVertices)
    (tid : ℕ) (hbound : g.numEdges + g.numVertices ≤ 100000000) :
    ∃ g1, g.makeLogRoom tid src (g.getSegmentId src) = some g1 ∧ SameShape g g1 ∧ g1.Layout adj ∧
      g1.logSegmentIdx (g.leafOf src) < maxLogEntries := by
  have hlt := hL.geometry.leafOf_lt hs
  unfold makeLogRoom
  rw [show g.getSegmentId src - g.segmentCount = g.leafOf src from rfl]
  split
  case isFalse hidx => exact ⟨g, rfl, .refl g, hL, by omega⟩
  case isTrue hfull =>
    have hmax : (0 : ℤ) < maxLogEntries := by decide
    obtain ⟨hl, hr⟩ := hL.geometry.leaf_window hs
    simp only
    rw [hl] at hr ⊢
    rw [hr, getSegmentId_eq]
    obtain ⟨g1, h1⟩ := hL.rebalanceWeighted_isSome (Nat.lt_succ_self _) hlt tid
      (hL.actual _ hlt) (hL.total _ hlt) (hF.lt _ hlt (by omega)) hbound
    have hreb := hL.rebalanceWeighted_spec (Nat.lt_succ_self _) hlt h1
    refine ⟨g1, h1, hreb.toSameShape, hreb.layout hL (Nat.lt_succ_self _) hlt, ?_⟩
    rw [hreb.logIdx _ (le_refl _) (Nat.lt_succ_self _)]
    exact hmax

/-- No assertion of `do_insertion` fails. -/
lemma Layout.doInsertion_isSome (hL : g.Layout adj) (hF : g.Fits) (hs : src < g.numVertices)
    (tid dst : ℕ) (hbound : g.numEdges + g.numVertices ≤ 100000000) :
    ∃ g', g.doInsertion tid src dst (g.getSegmentId src) = some g' := by
  unfold doInsertion
  split
  · exact ⟨_, rfl⟩
  · obtain ⟨g1, h1, hsh, hL1, hidx⟩ := hL.makeLogRoom_isSome hF hs tid hbound
    have hseg : g.getSegmentId src = g1.getSegmentId src := by
      rw [getSegmentId_eq, getSegmentId_eq, hsh.leafOf, hsh.segmentCount]
    obtain ⟨g2, h2⟩ := hL1.placeEdge_isSome (by rw [hsh.numVertices]; exact hs) dst
      (by rw [hsh.leafOf]; exact hidx)
    rw [← hseg] at h2
    rw [h1, Option.bind_eq_bind, Option.bind_some, h2]
    exact ⟨_, rfl⟩

/-- A range of leaves that all fit is not overfull. -/
lemma Fits.lockInBatch_le (hF : g.Fits) (k s : ℕ) (hk : s + k ≤ g.segmentCount) :
    (g.lockInBatch k s).1 ≤ (g.lockInBatch k s).2 := by
  induction k generalizing s with
  | zero => exact le_refl _
  | succ k ih =>
    have h1 := ih (s + 1) (by omega)
    have h2 := hF.le s (by omega)
    simp only [lockInBatch]
    omega

/-- The array has a slot for every element. -/
lemma Layout.numEdges_le (hL : g.Layout adj) (hF : g.Fits) : g.numEdges ≤ g.elemCapacity := by
  have h := hF.lockInBatch_le g.segmentCount 0 (by omega)
  rw [hL.lockInBatch_eq (by omega)] at h
  rw [hL.numEdges]
  simp only [Nat.zero_mul, Nat.zero_add] at h
  rw [hL.first, Nat.mul_comm, ← hL.geometry.vertices, bound_of_ge (le_refl _)] at h
  omega

/-- The sums over a window. -/
lemma Layout.segMeta_eq (hL : g.Layout adj) (hs : src < g.numVertices) (height : ℕ) :
    g.segMeta src height =
      (g.degreeSum (g.leftSegment src height * g.segmentSize)
        (g.rightSegment src height * g.segmentSize),
      g.bound (g.rightSegment src height * g.segmentSize) -
        g.bound (g.leftSegment src height * g.segmentSize)) := by
  obtain ⟨-, -, h1, h2, h3⟩ := hL.geometry.window hs height
  rw [segMeta, hL.lockInBatch_eq (by omega), show g.leftSegment src height +
    (g.rightSegment src height - g.leftSegment src height) = g.rightSegment src height by omega]

/-- The rebalance of a window below its threshold succeeds. -/
lemma Layout.rebalanceWindow_isSome (hL : g.Layout adj) (hs : src < g.numVertices) {height : ℕ}
    (hb : g.belowThreshold src height = true) (hbound : g.numEdges + g.numVertices ≤ 100000000) :
    ∃ g', g.rebalanceWeighted tid (g.leftIndex src height) (g.rightIndex src height)
      (g.segMeta src height).1 (g.segMeta src height).2 = some g' := by
  obtain ⟨hl, hr, h1, h2, h3⟩ := hL.geometry.window hs height
  have hgap := hL.gap_of_belowThreshold hs hb
  rw [hL.segMeta_eq hs] at hgap ⊢
  rw [hl, hr]
  exact hL.rebalanceWeighted_isSome (by omega) h3 tid rfl rfl hgap hbound

/-- No assertion of `insert` fails. -/
lemma Layout.insert_isSome (hL : g.Layout adj) (hF : g.Fits) (hs : src < g.numVertices)
    (tid dst : ℕ) (hbound : g.numEdges + 1 + g.numVertices ≤ 100000000) :
    ∃ g', g.insert tid src dst = some g' := by
  obtain ⟨g1, h1⟩ := hL.doInsertion_isSome hF hs tid dst (by omega)
  have hins := hL.doInsertion_spec hs h1
  have hsh := hins.sameShape
  have hL1 := hins.layout hL hs
  have hs1 : src < g1.numVertices := by rw [hsh.numVertices]; exact hs
  have hbound1 : g1.numEdges + g1.numVertices ≤ 100000000 := by
    rw [hins.numEdges, hsh.numVertices]
    exact hbound
  have hcount := hL.geometry.getSegmentId_pos src
  obtain ⟨hw1, -, hw3, -⟩ :=
    findWindow_spec g1 src (g.getSegmentId src) (g.getSegmentId src) 0 (le_refl _) hcount
  unfold insert
  simp only [h1]
  generalize g1.findWindow src (g.getSegmentId src) (g.getSegmentId src) 0 = w at *
  obtain ⟨window, height⟩ := w
  simp only at hw1 hw3
  split
  case isFalse => exact ⟨g1, rfl⟩
  case isTrue hd =>
    rw [if_neg (by omega)]
    split
    case isTrue hne =>
      exact hL1.rebalanceWindow_isSome hs1 (hw3 hne) hbound1
    case isFalse =>
      have hle := hL.numEdges_le hF
      have h2 := hL.geometry.two_le_vertices
      have h3 := hL.degreeSum_ge (a := 0) (le_refl g.numVertices)
      have h4 := hL.numEdges
      rw [if_neg (not_lt.2 hd)]
      refine hL1.resizeV1_isSome ?_ hbound1
      rw [hins.numEdges, hins.elemCapacity]
      omega

/-- No density is computed with a zero denominator: neither that of a leaf, nor that of a window at any
height, nor the slope of the thresholds. -/
lemma Layout.denominators (hL : g.Layout adj) (hs : src < g.numVertices) :
    g.segmentEdgesTotal (g.getSegmentId src) ≠ 0 ∧ (∀ height, (g.segMeta src height).2 ≠ 0) ∧
      g.treeHeight ≠ 0 := by
  refine ⟨?_, fun height => (hL.segMeta_pos hs height).ne', ?_⟩
  · rw [getSegmentId_eq]
    exact (hL.total_pos (hL.geometry.leafOf_lt hs)).ne'
  · have := hL.geometry.height
    omega

end Graph

end Dgap
