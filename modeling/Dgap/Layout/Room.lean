import Dgap.Layout.Density

/-!
# Which leaves have room after an insert

A leaf is below its threshold if a slot of it is free, that is if there is a gap behind one of its vertices
(`Layout.density_lt_iff`). `calculate_positions` hands out the free slots of a window vertex by vertex, each
the product of the step and its degree plus one, rounded down; what is lost by rounding is left to the last
vertex, which therefore always has a gap (`calculatePositions_room`). So a window rebalance leaves a leaf
full exactly when it is not the last one of the window and every product of its vertices is rounded down
to 0. A resize leaves no leaf full, because its step is at least one half (`insert_leaf_room`).
-/

namespace Dgap

namespace Graph

variable {g g' g1 : Graph} {adj : ℕ → List ℕ} {tid src dst l r t : ℕ}

/-- The free slots behind the elements of a vertex without log chain. -/
def gapBehind (g : Graph) (v : ℕ) : ℤ := g.bound (v + 1) - g.bound v - (g.vertices v).degree

/-- The elements of a vertex without log chain end before the next vertex. -/
lemma Layout.gapBehind_nonneg (hL : g.Layout adj) {v : ℕ} (hv : v < g.numVertices)
    (ho : (g.vertices v).offset = -1) : 0 ≤ g.gapBehind v := by
  have := hL.ordered (v := v) (w := v + 1) (by omega) hv
  rw [onseg_of_none ho] at this
  unfold gapBehind
  omega

/-- The free slots of a leaf are those behind its vertices. -/
lemma Layout.sum_gapBehind (hL : g.Layout adj) (ht : t < g.segmentCount) :
    ∑ v ∈ Finset.Ico (t * g.segmentSize) ((t + 1) * g.segmentSize), g.gapBehind v =
      g.segmentEdgesTotal (t + g.segmentCount) - g.segmentEdgesActual (t + g.segmentCount) := by
  have hle : t * g.segmentSize ≤ (t + 1) * g.segmentSize := Nat.mul_le_mul_right _ (Nat.le_succ t)
  have hsum : ∑ v ∈ Finset.Ico (t * g.segmentSize) ((t + 1) * g.segmentSize), (g.bound (v + 1) - g.bound v) =
      g.bound ((t + 1) * g.segmentSize) - g.bound (t * g.segmentSize) := by
    rw [Finset.sum_Ico_eq_sum_range]
    refine (Finset.sum_range_sub (fun k => g.bound (t * g.segmentSize + k)) _).trans ?_
    rw [Nat.add_sub_cancel' hle]
    rfl
  unfold gapBehind
  rw [hL.total t ht, hL.actual t ht, degreeSum, Finset.sum_sub_distrib, hsum]

/-- A leaf without log chains is at most full. It is below its threshold if one of its vertices has a gap
behind it. -/
lemma Layout.density_lt_iff (hL : g.Layout adj) (ht : t < g.segmentCount)
    (ho : ∀ v, g.leafOf v = t → (g.vertices v).offset = -1) :
    g.density (t + g.segmentCount) ≤ up0 ∧
    (g.density (t + g.segmentCount) < up0 ↔ ∃ v, g.leafOf v = t ∧ 0 < g.gapBehind v) := by
  have hpos : (0 : ℚ) < g.segmentEdgesTotal (t + g.segmentCount) := by exact_mod_cast hL.total_pos ht
  have hle := hL.actual_le ht ho
  have hnonneg : ∀ v ∈ Finset.Ico (t * g.segmentSize) ((t + 1) * g.segmentSize), 0 ≤ g.gapBehind v := by
    intro v hv
    have hleaf := (hL.geometry.leafOf_iff v t).2 (Finset.mem_Ico.1 hv)
    have hlt := hL.geometry.mul_le (s := t + 1) ht
    exact hL.gapBehind_nonneg (by have := Finset.mem_Ico.1 hv; omega) (ho v hleaf)
  constructor
  · rw [density, up0, div_le_one hpos]
    exact_mod_cast hle
  · rw [density, up0, div_lt_one hpos, Int.cast_lt, ← sub_pos, ← hL.sum_gapBehind ht,
      Finset.sum_pos_iff_of_nonneg hnonneg]
    refine exists_congr fun v => and_congr_left fun _ => ?_
    rw [Finset.mem_Ico, hL.geometry.leafOf_iff]

section Positions

variable {startVertex endVertex : ℕ} {gaps totalDegree : ℤ} {l : List ℤ}

/-- The positions that `calculate_positions` returns: behind every vertex but the last its gap, and behind
the last vertex at least one slot. -/
lemma calculatePositions_room (h1 : startVertex < endVertex)
    (hd : ∀ v, startVertex ≤ v → v < endVertex → 0 ≤ (g.vertices v).degree)
    (hindex : 0 ≤ (g.vertices startVertex).index) (hgaps : 0 ≤ gaps)
    (htotal : totalDegree = g.degreeSum startVertex endVertex)
    (hboundary : (g.vertices startVertex).index + totalDegree + gaps = g.bound endVertex)
    (h : g.calculatePositions startVertex endVertex gaps totalDegree = some l) :
    (∀ v, startVertex ≤ v → v + 1 < endVertex → newAt l startVertex (v + 1) = newAt l startVertex v +
      (g.vertices v).degree + g.gapOf (truncatedStep gaps totalDegree (endVertex - startVertex)) v) ∧
    newAt l startVertex (endVertex - 1) + (g.vertices (endVertex - 1)).degree < g.bound endVertex := by
  simp only [calculatePositions] at h
  split at h
  case isFalse => cases h
  case isTrue hstep =>
    set step := truncatedStep gaps totalDegree (endVertex - startVertex) with hdef
    have hpos : 0 < step := truncatedStep_pos hstep
    have hdk : ∀ v, startVertex ≤ v → v < startVertex + (endVertex - startVertex) →
        0 ≤ (g.vertices v).degree := fun v hv1 hv2 => hd v hv1 (by omega)
    have hfirst : newAt l startVertex startVertex = (g.vertices startVertex).index := by
      rw [newAt, Nat.sub_self, (positionsLoop_spec hpos.le hdk h).2.1 (by omega), toInt64_intCast]
    have hnext : ∀ v, startVertex ≤ v → v + 1 < endVertex → newAt l startVertex (v + 1) =
        newAt l startVertex v + (g.vertices v).degree + g.gapOf step v := by
      intro v hv1 hv2
      have := positionsLoop_gap hpos.le (by exact_mod_cast hindex) hdk h (j := v - startVertex) (by omega)
      rw [show startVertex + (v - startVertex) = v by omega] at this
      rw [newAt, newAt, show v + 1 - startVertex = v - startVertex + 1 by omega]
      exact this
    refine ⟨hnext, ?_⟩
    -- the gaps so far are at most what the step gives to the degrees so far
    have hsofar : ∀ w, startVertex ≤ w → w < endVertex → ((newAt l startVertex w : ℤ) : ℚ) ≤
        (g.vertices startVertex).index + g.degreeSum startVertex w +
          step * (g.degreeSum startVertex w + (w - startVertex : ℕ)) := by
      intro w hw
      induction w, hw using Nat.le_induction with
      | base => simp [hfirst, degreeSum]
      | succ w hw ih =>
        intro hlt
        have hfloor : ((g.gapOf step w : ℤ) : ℚ) ≤ step * ((g.vertices w).degree + 1) := Int.floor_le _
        have hsum : g.degreeSum startVertex (w + 1) = g.degreeSum startVertex w + (g.vertices w).degree :=
          Finset.sum_Ico_succ_top hw _
        have := ih (by omega)
        rw [hnext w hw hlt, hsum, Nat.succ_sub hw]
        push_cast
        linarith
    have hlast : g.degreeSum startVertex endVertex =
        g.degreeSum startVertex (endVertex - 1) + (g.vertices (endVertex - 1)).degree := by
      conv_lhs => rw [show endVertex = endVertex - 1 + 1 by omega]
      exact Finset.sum_Ico_succ_top (by omega) _
    have hT0 : 0 ≤ totalDegree := htotal ▸ degreeSum_nonneg hd
    have htotal0 : 0 < totalDegree + ((endVertex - startVertex : ℕ) : ℤ) := by omega
    have hmul := truncatedStep_mul_le hgaps htotal0
    have hbefore := hsofar (endVertex - 1) (by omega) (by omega)
    have hdl : (0 : ℚ) ≤ (g.vertices (endVertex - 1)).degree := by
      exact_mod_cast hd (endVertex - 1) (by omega) (by omega)
    rw [← hdef, htotal, hlast, show endVertex - startVertex = endVertex - 1 - startVertex + 1 by omega] at hmul
    rw [htotal, hlast] at hboundary
    have hcast : ((newAt l startVertex (endVertex - 1) + (g.vertices (endVertex - 1)).degree : ℤ) : ℚ) <
        g.bound endVertex := by
      rw [← hboundary]
      push_cast at hmul ⊢
      nlinarith
    exact_mod_cast hcast

end Positions

/-- The gaps behind the vertices of a window that has been rebalanced. -/
lemma Layout.rebalanceWeighted_gap (hL : g.Layout adj) (hlr : l < r) (hr : r ≤ g.segmentCount)
    {usedSpace totalSpace : ℤ} (hused : usedSpace = g.degreeSum (l * g.segmentSize) (r * g.segmentSize))
    (hgap : usedSpace ≤ totalSpace)
    (hw : g.rebalanceWeighted tid (l * g.segmentSize) (r * g.segmentSize) usedSpace totalSpace = some g') :
    (∀ v, l * g.segmentSize ≤ v → v + 1 < r * g.segmentSize → g'.gapBehind v =
      g.gapOf (truncatedStep (totalSpace - usedSpace) usedSpace
        (r * g.segmentSize - l * g.segmentSize)) v) ∧
    0 < g'.gapBehind (r * g.segmentSize - 1) := by
  have hreb := hL.rebalanceWeighted_spec hlr hr hw
  have hn := hL.geometry.mul_le hr
  have hlt : l * g.segmentSize < r * g.segmentSize :=
    Nat.mul_lt_mul_of_pos_right hlr hL.geometry.size
  have hd : ∀ v, l * g.segmentSize ≤ v → v < r * g.segmentSize → 0 ≤ (g.vertices v).degree :=
    hL.degree_nonneg hn
  have hindex : 0 ≤ (g.vertices (l * g.segmentSize)).index := by
    rw [← bound_of_lt (by omega)]
    exact hL.bound_nonneg (by omega)
  simp only [rebalanceWeighted] at hw
  split at hw
  case isFalse => cases hw
  split at hw
  case isFalse => cases hw
  case isTrue htotal =>
    split at hw
    case h_1 => cases hw
    case h_2 newIndex hpos =>
      split at hw
      case isFalse => cases hw
      obtain rfl := Option.some.inj hw
      obtain ⟨ht, -⟩ := calculatePositions_targets hlt hn hd hpos
      have hp := Progress.moved tid ht (hL.window hn)
      obtain ⟨hnext, hlast⟩ := calculatePositions_room hlt hd hindex (by omega) hused (by omega) hpos
      set g' := (g.rebalanceDataV1 tid (l * g.segmentSize) (r * g.segmentSize) newIndex).recountSegmentTotal
        (l * g.segmentSize) (r * g.segmentSize) with hg'
      have hv : ∀ v, l * g.segmentSize ≤ v → v < r * g.segmentSize → g'.vertices v =
          ⟨newAt newIndex (l * g.segmentSize) v, (g.vertices v).degree, -1⟩ := by
        intro v h1 h2
        rw [hg', rebalanceDataV1_eq]
        exact (hp.low v h1 h2).1
      have hb : ∀ v, l * g.segmentSize ≤ v → v < r * g.segmentSize →
          g'.bound v = newAt newIndex (l * g.segmentSize) v := by
        intro v h1 h2
        rw [bound_of_lt (by rw [hreb.numVertices]; omega), hv v h1 h2]
      constructor
      · intro v h1 h2
        rw [gapBehind, hb (v + 1) (by omega) h2, hb v h1 (by omega), hv v h1 (by omega), hnext v h1 h2]
        ring
      · rw [gapBehind, Nat.sub_add_cancel (by omega), hreb.bound_eq (.inr (le_refl _)),
          hb _ (by omega) (by omega), hv _ (by omega) (by omega)]
        dsimp only
        omega

/-- A leaf of a window that has been rebalanced is at most full. It is below its threshold if it is the last
one, or if one of its vertices has been given a gap. -/
lemma Layout.rebalanceWeighted_room (hL : g.Layout adj) (hr : r ≤ g.segmentCount)
    {usedSpace totalSpace : ℤ} (hused : usedSpace = g.degreeSum (l * g.segmentSize) (r * g.segmentSize))
    (hgap : usedSpace ≤ totalSpace)
    (hw : g.rebalanceWeighted tid (l * g.segmentSize) (r * g.segmentSize) usedSpace totalSpace = some g')
    (hlt : l ≤ t) (htr : t < r) :
    g'.density (t + g'.segmentCount) ≤ up0 ∧ (g'.density (t + g'.segmentCount) < up0 ↔
      (t + 1 < r → ∃ v, g.leafOf v = t ∧ g.gapOf (truncatedStep (totalSpace - usedSpace) usedSpace
        (r * g.segmentSize - l * g.segmentSize)) v ≠ 0)) := by
  have hg := hL.geometry
  have hlr : l < r := by omega
  have hreb := hL.rebalanceWeighted_spec hlr hr hw
  have hL' := hreb.layout hL hlr hr
  obtain ⟨hinner, hlast⟩ := hL.rebalanceWeighted_gap hlr hr hused hgap hw
  -- the vertices of the leaf are vertices of the window
  have hle : l * g.segmentSize ≤ t * g.segmentSize := Nat.mul_le_mul_right _ hlt
  have hge : (t + 1) * g.segmentSize ≤ r * g.segmentSize := Nat.mul_le_mul_right _ htr
  have hn := hg.mul_le hr
  have hoffset : ∀ v, g'.leafOf v = t → (g'.vertices v).offset = -1 := by
    intro v hv
    rw [hreb.leafOf, hg.leafOf_iff] at hv
    exact hreb.offset v (by omega) (by omega)
  -- and behind a leaf that is not the last one there is another vertex of the window
  have hbefore : t + 1 < r → ∀ v, g.leafOf v = t → g'.gapBehind v = g.gapOf (truncatedStep
      (totalSpace - usedSpace) usedSpace (r * g.segmentSize - l * g.segmentSize)) v := by
    intro hinside v hv
    have hlt' : (t + 1) * g.segmentSize < r * g.segmentSize := Nat.mul_lt_mul_of_pos_right hinside hg.size
    rw [hg.leafOf_iff] at hv
    exact hinner v (by omega) (by omega)
  obtain ⟨hfull, hiff⟩ := hL'.density_lt_iff (by rw [hreb.segmentCount]; omega) hoffset
  refine ⟨hfull, hiff.trans ⟨fun ⟨v, hv, hpos⟩ hinside => ?_, fun hgaps => ?_⟩⟩
  · rw [hreb.leafOf] at hv
    exact ⟨v, hv, by rw [← hbefore hinside v hv]; exact hpos.ne'⟩
  · rcases Nat.lt_or_ge (t + 1) r with hinside | hend
    · obtain ⟨v, hv, hne⟩ := hgaps hinside
      have hv' := (hg.leafOf_iff v t).1 hv
      have hleaf : g'.leafOf v = t := by rw [hreb.leafOf, hv]
      have hnonneg := hL'.gapBehind_nonneg (by rw [hreb.numVertices]; omega) (hoffset v hleaf)
      rw [← hbefore hinside v hv] at hne
      exact ⟨v, hleaf, lt_of_le_of_ne hnonneg hne.symm⟩
    · -- the last vertex of the window has what the roundings leave
      obtain rfl : r = t + 1 := by omega
      refine ⟨(t + 1) * g.segmentSize - 1, ?_, hlast⟩
      have hsize := hg.size
      rw [hreb.leafOf, hg.leafOf_iff]
      rw [Nat.succ_mul]
      omega

/-- A step that is at least one half stays so when it is truncated. -/
lemma half_le_truncatedStep {gaps totalDegree : ℤ} {size : ℕ} (h0 : 0 < totalDegree + size)
    (h : totalDegree + size ≤ 2 * gaps) : 1 / 2 ≤ truncatedStep gaps totalDegree size := by
  have h0' : (0 : ℚ) < ((totalDegree + size : ℤ) : ℚ) := by exact_mod_cast h0
  have h' : ((totalDegree + size : ℤ) : ℚ) ≤ 2 * gaps := by exact_mod_cast h
  have hint : 50000000 ≤ toInt64 ((gaps : ℚ) / ((totalDegree + size : ℤ) : ℚ) * precisionPos) := by
    refine le_toInt64 ?_
    rw [precisionPos, div_mul_eq_mul_div, le_div_iff₀ h0']
    push_cast at h' ⊢
    linarith
  have hint' : (50000000 : ℚ) ≤ toInt64 ((gaps : ℚ) / ((totalDegree + size : ℤ) : ℚ) * precisionPos) := by
    exact_mod_cast hint
  rw [truncatedStep, le_div_iff₀ (by norm_num [precisionPos])]
  norm_num [precisionPos] at hint' ⊢
  linarith

/-- With such a step every vertex gets a gap. -/
lemma gapOf_pos {step : ℚ} (hs : 1 / 2 ≤ step) {v : ℕ} (hv : 1 ≤ (g.vertices v).degree) :
    0 < g.gapOf step v := by
  have hv' : (1 : ℚ) ≤ (g.vertices v).degree := by exact_mod_cast hv
  refine Int.lt_of_lt_of_le zero_lt_one (Int.le_floor.2 ?_)
  push_cast
  nlinarith

/-- There is a gap behind every vertex of an array that has been resized, if it was not overfull. -/
lemma Layout.resizeV1_gap (hL : g.Layout adj) (hfull : 3 * g.numEdges + g.numVertices ≤ 4 * g.elemCapacity)
    (h : g.resizeV1 = some g') {v : ℕ} (hv : v < g.numVertices) : 0 < g'.gapBehind v := by
  have hR := hL.resizeV1_spec h
  have htwo := hL.geometry.two_le_vertices
  have hcap := hL.capacity_pos
  have hsum := hL.numEdges
  have hge := hL.degreeSum_ge (a := 0) (le_refl g.numVertices)
  have hd : ∀ v, 0 ≤ v → v < g.numVertices → 0 ≤ (g.vertices v).degree := hL.degree_nonneg (le_refl _)
  have hfirst : (g.vertices 0).index = 0 := by rw [← bound_of_lt (by omega), hL.first]
  simp only [resizeV1] at h
  split at h
  case h_1 => cases h
  case h_2 newIndices hpos =>
    set doubled : Graph := { g with elemCapacity := g.elemCapacity * 2 } with hdoubled
    have hend : doubled.bound g.numVertices = g.elemCapacity * 2 := bound_of_ge (le_refl _)
    have hzero : (doubled.vertices 0).index = 0 := hfirst
    have hn : 0 < g.numVertices := by omega
    obtain ⟨ht, -⟩ := calculatePositions_targets (g := doubled) hn (le_refl _) hd hpos
    obtain ⟨hnext, hlast⟩ := calculatePositions_room (g := doubled) hn hd hzero.ge
      (by show 0 ≤ g.elemCapacity * 2 - g.numEdges; omega) hsum
      (by show _ + g.numEdges + (g.elemCapacity * 2 - g.numEdges) = _; omega) hpos
    have hstep : 1 / 2 ≤ truncatedStep (g.elemCapacity * 2 - g.numEdges) g.numEdges (g.numVertices - 0) :=
      half_le_truncatedStep (by omega) (by omega)
    obtain ⟨hin, -⟩ := hL.resizeLoop_spec (g.elemCapacity * 2) (by omega)
      (show ∀ v, newIndices.getD v 0 = newAt newIndices 0 v from fun v => by rw [newAt, Nat.sub_zero])
      (fun v w hvw hw => ht.ordered hd (Nat.zero_le v) hvw hw) g.numVertices 0 (by omega)
      (g.vertices, zallocEdges g.foreign (g.elemCapacity * 2)) (fun v hv => by omega) fun v _ => rfl
    have hv' : ∀ v < g.numVertices, g'.vertices v =
        ⟨newAt newIndices 0 v, (g.vertices v).degree, -1⟩ := by
      intro v hv
      obtain rfl := Option.some.inj h
      rw [releaseLogs_eq]
      exact (hin v hv).1
    have hb : ∀ v < g.numVertices, g'.bound v = newAt newIndices 0 v := by
      intro v hv
      rw [bound_of_lt (by rw [hR.numVertices]; exact hv), hv' v hv]
    rcases Nat.lt_or_ge (v + 1) g.numVertices with hlt | hge
    · have hgap : 0 < doubled.gapOf (truncatedStep (g.elemCapacity * 2 - g.numEdges) g.numEdges
          (g.numVertices - 0)) v := gapOf_pos hstep (hL.degree_pos hv)
      have hnext' := hnext v (Nat.zero_le v) hlt
      rw [gapBehind, hb (v + 1) hlt, hb v hv, hv' v hv]
      dsimp only at hnext' ⊢
      have : (doubled.vertices v).degree = (g.vertices v).degree := rfl
      omega
    · obtain rfl : v = g.numVertices - 1 := by omega
      have : (doubled.vertices (g.numVertices - 1)).degree = (g.vertices (g.numVertices - 1)).degree := rfl
      rw [gapBehind, bound_of_ge (by rw [hR.numVertices]; exact hge), hb _ hv, hv' _ hv, hR.elemCapacity]
      dsimp only
      omega

/-- A resize of an array that was not overfull leaves no leaf full. -/
lemma Layout.resizeV1_room (hL : g.Layout adj) (hfull : 3 * g.numEdges + g.numVertices ≤ 4 * g.elemCapacity)
    (h : g.resizeV1 = some g') (ht : t < g.segmentCount) : g'.density (t + g'.segmentCount) < up0 := by
  have hg := hL.geometry
  have hR := hL.resizeV1_spec h
  have hle := hg.mul_le (s := t + 1) ht
  have hsize := hg.size
  rw [Nat.succ_mul] at hle
  obtain ⟨-, hiff⟩ := (hR.layout hL).density_lt_iff (by rw [hR.segmentCount]; exact ht) fun v hv => by
    rw [hR.leafOf, hg.leafOf_iff, Nat.succ_mul] at hv
    exact hR.offset v (by omega)
  refine hiff.2 ⟨t * g.segmentSize, ?_, hL.resizeV1_gap hfull h (by omega)⟩
  rw [hR.leafOf, hg.leafOf_mul]

/-- `insert` rebalances the window of `src` at a height, in the graph `g1`. -/
structure ReachesWindow (g : Graph) (tid src dst : ℕ) (g1 : Graph) (height : ℕ) : Prop where
  inserted : g.doInsertion tid src dst (g.getSegmentId src) = some g1
  full : g1.density (g.getSegmentId src) ≥ up0
  found : (g1.findWindow src (g.getSegmentId src) (g.getSegmentId src) 0).1 ≠ 0
  height_eq : (g1.findWindow src (g.getSegmentId src) (g.getSegmentId src) 0).2 = height

/-- The step of the positions in the window of `src` at a height. -/
def windowStep (g : Graph) (src height : ℕ) : ℚ :=
  truncatedStep ((g.segMeta src height).2 - (g.segMeta src height).1) (g.segMeta src height).1
    (g.rightIndex src height - g.leftIndex src height)

/-- The leaves that an insert affects: that of its source, and those of the window that it rebalances, or all
of them if it resizes the array. -/
inductive Affected (g : Graph) (tid src dst t : ℕ) : Prop where
  | leaf : t = g.leafOf src → Affected g tid src dst t
  | window {g1 : Graph} {height : ℕ} : ReachesWindow g tid src dst g1 height → g1.leftSegment src height ≤ t →
      t < g1.rightSegment src height → Affected g tid src dst t
  | resize {g1 : Graph} : ReachesResize g tid src dst g1 → t < g.segmentCount → Affected g tid src dst t

/-- A leaf of the window that an insert rebalances, but not the last one, with no gap for any of its
vertices: every product of the step and a degree plus one is rounded down to 0. -/
def Gapless (g : Graph) (tid src dst t : ℕ) : Prop :=
  ∃ g1 height, ReachesWindow g tid src dst g1 height ∧ g1.leftSegment src height ≤ t ∧
    t + 1 < g1.rightSegment src height ∧ ∀ v, g1.leafOf v = t → g1.gapOf (g1.windowStep src height) v = 0

/-- What `insert` does behind the insertion: nothing, a rebalance of the window it finds, or a resize. -/
lemma insert_cases (h : g.insert tid src dst = some g') :
    ∃ g1, g.doInsertion tid src dst (g.getSegmentId src) = some g1 ∧
      (g1.density (g.getSegmentId src) < up0 ∧ g' = g1 ∨
      (∃ height, ReachesWindow g tid src dst g1 height ∧
        g1.rebalanceWeighted tid (g1.leftIndex src height) (g1.rightIndex src height)
          (g1.segMeta src height).1 (g1.segMeta src height).2 = some g') ∨
      ReachesResize g tid src dst g1 ∧ g1.resizeV1 = some g') := by
  unfold insert at h
  simp only at h
  split at h
  case h_1 => cases h
  case h_2 g1 h1 =>
    refine ⟨g1, h1, ?_⟩
    split at h
    case isFalse hd => exact .inl ⟨lt_of_not_ge hd, (Option.some.inj h).symm⟩
    case isTrue hd =>
      right
      by_cases hleft : (g1.findWindow src (g.getSegmentId src) (g.getSegmentId src) 0).1 = 0
      · have hreach : ReachesResize g tid src dst g1 := ⟨h1, hd, hleft⟩
        right
        refine ⟨hreach, ?_⟩
        split at h
        · cases h
        · rwa [if_neg (not_not.2 hleft), if_neg (not_lt.2 hd)] at h
      · left
        refine ⟨_, ⟨h1, hd, hleft, rfl⟩, ?_⟩
        split at h
        · cases h
        · exact h

namespace ReachesWindow

variable {height : ℕ}

/-- Only one window is rebalanced. -/
lemma unique {g2 : Graph} {height2 : ℕ} (h : ReachesWindow g tid src dst g1 height)
    (h2 : ReachesWindow g tid src dst g2 height2) : g1 = g2 ∧ height = height2 := by
  obtain rfl := Option.some.inj (h.inserted.symm.trans h2.inserted)
  exact ⟨rfl, h.height_eq.symm.trans h2.height_eq⟩

/-- An insert that rebalances a window does not resize. -/
lemma not_resize {g2 : Graph} (h : ReachesWindow g tid src dst g1 height) :
    ¬ReachesResize g tid src dst g2 := by
  intro h2
  obtain rfl := Option.some.inj (h.inserted.symm.trans h2.inserted)
  exact h.found h2.left

/-- The leaves of the window that an insert rebalances. -/
lemma room (h : ReachesWindow g tid src dst g1 height) (hL : g.Layout adj) (hs : src < g.numVertices)
    (hw : g1.rebalanceWeighted tid (g1.leftIndex src height) (g1.rightIndex src height)
      (g1.segMeta src height).1 (g1.segMeta src height).2 = some g')
    (hl : g1.leftSegment src height ≤ t) (hr : t < g1.rightSegment src height) :
    g'.density (t + g'.segmentCount) ≤ up0 ∧ (g'.density (t + g'.segmentCount) < up0 ↔
      (t + 1 < g1.rightSegment src height →
        ∃ v, g1.leafOf v = t ∧ g1.gapOf (g1.windowStep src height) v ≠ 0)) := by
  have hins := hL.doInsertion_spec hs h.inserted
  have hL1 := hins.layout hL hs
  have hs1 : src < g1.numVertices := by rw [hins.sameShape.numVertices]; exact hs
  have hcount := hL.geometry.getSegmentId_pos src
  obtain ⟨-, -, hbelow, -⟩ :=
    findWindow_spec g1 src (g.getSegmentId src) (g.getSegmentId src) 0 (le_refl _) hcount
  have hgap := hL1.gap_of_belowThreshold hs1 (hbelow h.found)
  rw [h.height_eq] at hgap
  obtain ⟨hleft, hright, hll, hlr, hrc⟩ := hL1.geometry.window hs1 height
  have hused : (g1.segMeta src height).1 = g1.degreeSum (g1.leftSegment src height * g1.segmentSize)
      (g1.rightSegment src height * g1.segmentSize) := by
    rw [segMeta, hL1.lockInBatch_eq (by omega), Nat.add_sub_cancel' (by omega)]
  rw [windowStep, hright, hleft]
  rw [hright, hleft] at hw
  exact hL1.rebalanceWeighted_room hrc hused hgap.le hw hl hr

end ReachesWindow

namespace Affected

/-- An insert that does not fill the leaf of its source affects no other leaf, and leaves no leaf gapless. -/
lemma plain (ha : Affected g tid src dst t) (h1 : g.doInsertion tid src dst (g.getSegmentId src) = some g1)
    (hd : g1.density (g.getSegmentId src) < up0) : t = g.leafOf src ∧ ¬Gapless g tid src dst t := by
  have hfull : ∀ g2, g.doInsertion tid src dst (g.getSegmentId src) = some g2 →
      ¬g2.density (g.getSegmentId src) ≥ up0 := by
    intro g2 h2
    obtain rfl := Option.some.inj (h1.symm.trans h2)
    exact not_le.2 hd
  constructor
  · cases ha with
    | leaf h => exact h
    | window h _ _ => exact absurd h.full (hfull _ h.inserted)
    | resize h _ => exact absurd h.full (hfull _ h.inserted)
  · rintro ⟨g2, height, h2, -⟩
    exact hfull _ h2.inserted h2.full

/-- An insert that rebalances a window affects its leaves. -/
lemma mem_window {height : ℕ} (ha : Affected g tid src dst t) (h : ReachesWindow g tid src dst g1 height)
    (hl : g1.leftSegment src height ≤ g.leafOf src) (hr : g.leafOf src < g1.rightSegment src height) :
    g1.leftSegment src height ≤ t ∧ t < g1.rightSegment src height := by
  cases ha with
  | leaf ht =>
    rw [ht]
    exact ⟨hl, hr⟩
  | window h2 hl2 hr2 =>
    obtain ⟨rfl, rfl⟩ := h.unique h2
    exact ⟨hl2, hr2⟩
  | resize h2 _ => exact absurd h2 h.not_resize

/-- An insert that resizes the array affects the leaves of the graph, and leaves none gapless. -/
lemma resized (ha : Affected g tid src dst t) (h : ReachesResize g tid src dst g1)
    (hsrc : g.leafOf src < g.segmentCount) : t < g.segmentCount ∧ ¬Gapless g tid src dst t := by
  constructor
  · cases ha with
    | leaf ht =>
      rw [ht]
      exact hsrc
    | window h2 _ _ => exact absurd h h2.not_resize
    | resize _ ht => exact ht
  · rintro ⟨g2, height, h2, -⟩
    exact h2.not_resize h

end Affected

/-- An insert never shrinks the array. -/
lemma InsertStep.elemCapacity_le (h : InsertStep g g' src dst) (hL : g.Layout adj)
    (hs : src < g.numVertices) : g.elemCapacity ≤ g'.elemCapacity := by
  cases h with
  | plain h _ => rw [h.elemCapacity]
  | window h _ _ _ _ hr => rw [hr.elemCapacity, h.elemCapacity]
  | resize h _ _ hr =>
    have := (h.layout hL hs).capacity_pos
    rw [hr.elemCapacity, ← h.elemCapacity]
    omega

section Sequential

variable {foreign : Foreign} {directed : Bool} {tid' nVertices : ℕ} {base ops : List (ℕ × ℕ)}

/-- There are at least four slots for every vertex. -/
lemma Run.vertices_le (h : Run foreign directed tid nVertices base ops g) :
    4 * g.numVertices ≤ g.elemCapacity :=
  h.induct (P := fun g _ => 4 * (g.numVertices : ℤ) ≤ g.elemCapacity)
    (fun hc => by
      rw [hc.elemCapacity, hc.numEdges]
      omega)
    fun hL _ hs _ hstep hle => by
      rw [hstep.sameShape.numVertices]
      exact hle.trans (hstep.elemCapacity_le hL hs)

/-- After an insert every leaf it affects is at most full. It is below its threshold unless it is a leaf of
a rebalanced window, other than the last one, for none of whose vertices there is a gap. -/
theorem insert_leaf_room (h : Run foreign directed tid nVertices base ops g) (hs : src < g.numVertices)
    (hi : g.insert tid' src dst = some g') (ha : Affected g tid' src dst t) :
    g'.density (t + g'.segmentCount) ≤ up0 ∧
      (g'.density (t + g'.segmentCount) < up0 ↔ ¬Gapless g tid' src dst t) := by
  have hL := h.layout
  obtain ⟨g1, h1, hcase⟩ := insert_cases hi
  have hins := hL.doInsertion_spec hs h1
  have hsh := hins.sameShape
  have hL1 := hins.layout hL hs
  rcases hcase with ⟨hd, rfl⟩ | ⟨height, hreach, hw⟩ | ⟨hreach, hr⟩
  · -- no rebalance: the leaf of the source is not full
    obtain ⟨rfl, hgaps⟩ := ha.plain h1 hd
    rw [getSegmentId_eq, ← hsh.segmentCount] at hd
    exact ⟨hd.le, iff_of_true hd hgaps⟩
  · -- a window: a leaf is gapless exactly when none of its vertices has a gap and it is not the last
    obtain ⟨-, -, hleft, hright, -⟩ :=
      hL1.geometry.window (show src < g1.numVertices by rw [hsh.numVertices]; exact hs) height
    rw [hsh.leafOf] at hleft hright
    obtain ⟨hl, hr⟩ := ha.mem_window hreach hleft hright
    obtain ⟨hle, hiff⟩ := hreach.room hL hs hw hl hr
    refine ⟨hle, hiff.trans ⟨fun hgaps => ?_, fun hgaps hinside => ?_⟩⟩
    · rintro ⟨g2, height2, h2, -, hinside, hnone⟩
      obtain ⟨rfl, rfl⟩ := hreach.unique h2
      obtain ⟨v, hv, hne⟩ := hgaps hinside
      exact hne (hnone v hv)
    · by_contra hnone
      refine hgaps ⟨g1, height, hreach, hl, hinside, fun v hv => ?_⟩
      by_contra hne
      exact hnone ⟨v, hv, hne⟩
  · -- a resize: every vertex gets a gap
    obtain ⟨ht, hgaps⟩ := ha.resized hreach (hL.geometry.leafOf_lt hs)
    have hfit := hL.numEdges_le h.fits
    have hfour := h.vertices_le
    have htwo := hL.geometry.two_le_vertices
    have hd := hL1.resizeV1_room
      (by rw [hins.numEdges, hins.elemCapacity, hsh.numVertices]; omega) hr (hsh.segmentCount ▸ ht)
    exact ⟨hd.le, iff_of_true hd hgaps⟩

/-- A check of a run whose next insert rebalances a window, with the graph it ends in. -/
lemma Run.exists_window_of_check (foreign : Foreign) (directed : Bool) (tid nVertices : ℕ)
    (base ops : List (ℕ × ℕ)) (src dst : ℕ) (h2 : 2 ≤ nVertices)
    (hsorted : base.Pairwise fun e e' => e.1 ≤ e'.1)
    (hbase : ∀ e ∈ base, e.1 < nVertices ∧ e.2 < nVertices)
    (hops : ∀ e ∈ ops, e.1 < (computeCapacity nVertices).2.2 ∧ e.2 < (computeCapacity nVertices).2.2)
    (p : Graph → ℕ → Graph → Bool)
    (h : ((create foreign directed nVertices base).bind (insertAll tid ops)).any (fun g =>
      (g.doInsertion tid src dst (g.getSegmentId src)).any fun g1 =>
        (g.insert tid src dst).any fun g' =>
          decide (g1.density (g.getSegmentId src) ≥ up0) &&
          (g1.findWindow src (g.getSegmentId src) (g.getSegmentId src) 0).1 != 0 &&
          p g1 (g1.findWindow src (g.getSegmentId src) (g.getSegmentId src) 0).2 g') = true) :
    ∃ g g1 height g', Run foreign directed tid nVertices base ops g ∧
      ReachesWindow g tid src dst g1 height ∧ g.insert tid src dst = some g' ∧ p g1 height g' = true := by
  obtain ⟨g, hg, hp⟩ := Run.exists_of_check foreign directed tid nVertices base ops h2 hsorted hbase
    hops _ h
  obtain ⟨g1, h1, hp1⟩ := (Option.any_eq_true _ _).1 hp
  obtain ⟨g', hi, hp2⟩ := (Option.any_eq_true _ _).1 hp1
  simp only [Bool.and_eq_true, decide_eq_true_eq, bne_iff_ne] at hp2
  exact ⟨g, g1, _, g', hg, ⟨h1, hp2.1.1, hp2.1.2, rfl⟩, hi, hp2.2⟩

/-- Two vertices: the third edge from the second vertex fills its leaf. The window is the whole array, and
its last leaf is below the threshold after the rebalance. -/
theorem insert_leaf_room_two : ∃ g g',
    Run ⟨fun _ => 7, fun _ => .zero⟩ true 0 2 [] [(1, 0), (1, 0)] g ∧ g.insert 0 1 0 = some g' ∧
    Affected g 0 1 0 1 ∧ g'.density (1 + g'.segmentCount) < up0 := by
  obtain ⟨g, g1, height, g', hg, hreach, hi, hp⟩ := Run.exists_window_of_check
    ⟨fun _ => 7, fun _ => .zero⟩ true 0 2 [] [(1, 0), (1, 0)] 1 0 (by decide) (by decide) (by decide)
    (by decide) (fun g1 height _ => decide (g1.leftSegment 1 height ≤ 1) &&
      decide (g1.rightSegment 1 height = 2)) (by decide +kernel)
  simp only [Bool.and_eq_true, decide_eq_true_eq] at hp
  have ha : Affected g 0 1 0 1 := .window hreach hp.1 (by omega)
  refine ⟨g, g', hg, hi, ha, (insert_leaf_room hg (by rw [hg.numVertices]; decide) hi ha).2.2 ?_⟩
  rintro ⟨g2, height2, h2, -, hinside, -⟩
  obtain ⟨rfl, rfl⟩ := hreach.unique h2
  omega

/-- In the same run the rebalance leaves the first leaf full: the gap of its vertex is rounded down to 0. -/
theorem insert_leaf_full : ∃ g g',
    Run ⟨fun _ => 7, fun _ => .zero⟩ true 0 2 [] [(1, 0), (1, 0)] g ∧ g.insert 0 1 0 = some g' ∧
    Affected g 0 1 0 0 ∧ ¬g'.density (0 + g'.segmentCount) < up0 := by
  obtain ⟨g, g1, height, g', hg, hreach, hi, hp⟩ := Run.exists_window_of_check
    ⟨fun _ => 7, fun _ => .zero⟩ true 0 2 [] [(1, 0), (1, 0)] 1 0 (by decide) (by decide) (by decide)
    (by decide) (fun g1 height g' => decide (g1.leftSegment 1 height ≤ 0) &&
      decide (0 < g1.rightSegment 1 height) && decide (g'.density (0 + g'.segmentCount) = up0))
    (by decide +kernel)
  simp only [Bool.and_eq_true, decide_eq_true_eq] at hp
  exact ⟨g, g', hg, hi, .window hreach hp.1.1 hp.1.2, by rw [hp.2]; exact lt_irrefl _⟩

end Sequential

end Graph

end Dgap
