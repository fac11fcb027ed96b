import Dgap.Layout.Compact
import Dgap.Layout.Window

/-!
# The layout after the base load

`compute_capacity` sets up the geometry of every graph with at least two vertices. The base load packs
the elements (`Compact`), and `spread_weighted` moves the vertices apart, last vertex first: a vertex only
moves right, because the new positions leave at least as much room as the packed ones. The result is a
layout of the base edges without log entries (`create_spec`), and no assertion fails on the way
(`create_isSome`).
-/

namespace Dgap

open Memory

/-- `floor_log2` is the binary logarithm. -/
lemma floorLog2_eq (x : ℕ) : floorLog2 x = Nat.log2 x := by simp [floorLog2, lastBitSet]

/-- `ceil_div` rounds up. -/
lemma le_ceilDiv_mul (x : ℕ) {y : ℕ} (hy : 0 < y) : x ≤ ceilDiv x y * y := by
  unfold ceilDiv
  split
  · omega
  · have h := Nat.div_add_mod (x - 1) y
    have hlt := Nat.mod_lt (x - 1) hy
    rw [Nat.add_mul, Nat.one_mul, Nat.mul_comm]
    omega

namespace Graph

variable {foreign : Foreign} {directed : Bool} {nEdges nVertices : ℕ}

/-- The ideal number of segments is at least 2. -/
lemma two_le_ceilDiv (h : 2 ≤ nVertices) : 2 ≤ ceilDiv nVertices (ceilLog2 nVertices) := by
  have hlog : Nat.log2 (nVertices - 1) < nVertices - 1 := by
    rw [Nat.log2_lt (by omega)]
    exact Nat.lt_two_pow_self
  have hle : ceilLog2 nVertices ≤ nVertices - 1 := by
    unfold ceilLog2 lastBitSet
    omega
  have hpos : 0 < ceilLog2 nVertices := by
    unfold ceilLog2 lastBitSet
    omega
  have := Nat.div_pos hle hpos
  unfold ceilDiv
  rw [if_neg (by omega)]
  omega

/-- The geometry of a new graph, and that it has room for the vertices asked for. -/
lemma allocate_geometry (foreign : Foreign) (directed : Bool) (nEdges : ℕ) (h : 2 ≤ nVertices) :
    (allocate foreign directed nEdges nVertices).Geometry ∧
      nVertices ≤ (allocate foreign directed nEdges nVertices).numVertices := by
  have h2 := two_le_ceilDiv h
  set ideal := ceilDiv nVertices (ceilLog2 nVertices) with hideal
  have hlog : 1 ≤ Nat.log2 ideal := by
    rw [Nat.le_log2 (by omega)]
    exact h2
  have hcount : hyperfloor ideal = 2 ^ Nat.log2 ideal := by
    rw [hyperfloor, floorLog2_eq, Nat.shiftLeft_eq, Nat.one_mul]
  have hpos : 0 < hyperfloor ideal := by
    rw [hcount]
    positivity
  have hle := le_ceilDiv_mul nVertices hpos
  have hheight : floorLog2 (hyperfloor ideal) = Nat.log2 ideal := by
    rw [floorLog2_eq, hcount, Nat.log2_two_pow]
  refine ⟨⟨?_, ?_, ?_, ?_⟩, ?_⟩
  · show hyperfloor ideal = 2 ^ floorLog2 (hyperfloor ideal)
    rw [hheight, hcount]
  · show 1 ≤ floorLog2 (hyperfloor ideal)
    rw [hheight]
    exact hlog
  · show 1 ≤ ceilDiv nVertices (hyperfloor ideal)
    by_contra hzero
    rw [show ceilDiv nVertices (hyperfloor ideal) = 0 by omega] at hle
    omega
  · show hyperfloor ideal * ceilDiv nVertices (hyperfloor ideal) = _
    rw [Nat.mul_comm]
    rfl
  · show nVertices ≤ hyperfloor ideal * ceilDiv nVertices (hyperfloor ideal)
    rw [Nat.mul_comm]
    exact hle

/-- The inner loop of `spread_weighted` is a downward copy. -/
@[simp] lemma spreadCopy_cur (k : ℕ) (r w : ℤ) (a : Image ℤ) :
    (spreadCopy k r w a).cur = copyDown k r w a.cur := by
  induction k generalizing r w a with
  | zero => rfl
  | succ k ih => simp [spreadCopy, copyDown, ih]

/-- Every vertex has its elements on-segment, packed from slot 0 on. -/
structure Packed (g : Graph) (adj : ℕ → List ℕ) : Prop where
  geometry : g.Geometry
  degree : ∀ v < g.numVertices, (g.vertices v).degree = (elements v (adj v)).length
  offset : ∀ v < g.numVertices, (g.vertices v).offset = -1
  index : ∀ v < g.numVertices, (g.vertices v).index = g.degreeSum 0 v
  slots : ∀ v < g.numVertices, slice g.edges.cur (g.vertices v).index (elements v (adj v)).length =
    elements v (adj v)
  actual : ∀ t < g.segmentCount, g.segmentEdgesActual (t + g.segmentCount) =
    g.degreeSum (t * g.segmentSize) ((t + 1) * g.segmentSize)
  numEdges : g.numEdges = g.degreeSum 0 g.numVertices

namespace Packed

variable {g : Graph} {adj : ℕ → List ℕ}

/-- Packed vertices do not overlap. -/
lemma ordered (h : Packed g adj) {v w : ℕ} (hvw : v < w) (hw : w < g.numVertices) :
    (g.vertices v).index + (g.vertices v).degree ≤ (g.vertices w).index := by
  have hsplit := degreeSum_add (g := g) (Nat.zero_le (v + 1)) hvw
  have hlast : g.degreeSum 0 (v + 1) = g.degreeSum 0 v + (g.vertices v).degree :=
    Finset.sum_Ico_succ_top (Nat.zero_le v) _
  have hrest : 0 ≤ g.degreeSum (v + 1) w := degreeSum_nonneg fun x _ hx => by
    rw [h.degree x (by omega)]
    omega
  rw [h.index v (by omega), h.index w hw]
  omega

/-- Degrees are not negative. -/
lemma degree_nonneg (h : Packed g adj) (v : ℕ) (_ : 0 ≤ v) (hv : v < g.numVertices) :
    0 ≤ (g.vertices v).degree := by
  rw [h.degree v hv]
  omega

/-- The first vertex begins at slot 0. -/
lemma first (h : Packed g adj) : g.bound 0 = 0 := by
  have := h.geometry.two_le_vertices
  rw [bound_of_lt (by omega), h.index 0 (by omega)]
  rfl

/-- Positions that leave room for every vertex are not left of the packed ones. -/
lemma index_le (h : Packed g adj) {new : List ℤ} (h0 : new.getD 0 0 = 0)
    (hnew : ∀ v w, v < w → w < g.numVertices →
      new.getD v 0 + (g.vertices v).degree ≤ new.getD w 0) (v : ℕ) (hv : v < g.numVertices) :
    (g.vertices v).index ≤ new.getD v 0 := by
  induction v with
  | zero =>
    rw [h0, h.index 0 hv]
    exact le_refl _
  | succ v ih =>
    have h1 := ih (by omega)
    have h2 := hnew v (v + 1) (Nat.lt_succ_self v) hv
    have hlast : g.degreeSum 0 (v + 1) = g.degreeSum 0 v + (g.vertices v).degree :=
      Finset.sum_Ico_succ_top (Nat.zero_le v) _
    have h3 := h.index v (by omega)
    have h4 := h.index (v + 1) hv
    omega

end Packed

/-- The state of `spread_weighted` when the vertices above `k` have been moved. -/
structure Spread (g0 g : Graph) (adj : ℕ → List ℕ) (new : List ℤ) (k : ℕ) : Prop
    extends Untouched g0 g where
  actual : g.segmentEdgesActual = g0.segmentEdgesActual
  todo : ∀ v ≤ k, g.vertices v = g0.vertices v
  done : ∀ v, k < v → v < g0.numVertices →
    g.vertices v = { g0.vertices v with index := new.getD v 0 }
  slots : ∀ v < g0.numVertices, slice g.edges.cur (g.vertices v).index (elements v (adj v)).length =
    elements v (adj v)

section Spread

variable {g0 g : Graph} {adj : ℕ → List ℕ} {new : List ℤ} {k : ℕ}

/-- The loop of `spread_weighted` fails no assertion and moves all vertices but the first. -/
lemma Packed.spreadLoop (hp : Packed g0 adj) (hk : k < g0.numVertices)
    (hnew : ∀ v w, v < w → w < g0.numVertices →
      new.getD v 0 + (g0.vertices v).degree ≤ new.getD w 0)
    (hge : ∀ v < g0.numVertices, (g0.vertices v).index ≤ new.getD v 0)
    (h : Spread g0 g adj new k) : ∃ g', spreadLoop new k g = some g' ∧ Spread g0 g' adj new 0 := by
  induction k generalizing g with
  | zero => exact ⟨g, rfl, h⟩
  | succ k ih =>
    have hv := h.todo (k + 1) (le_refl _)
    have hge' := hge (k + 1) hk
    have hdeg' := hp.degree (k + 1) hk
    have hcopy : (spreadCopy (g.vertices (k + 1)).degree.toNat
        ((g.vertices (k + 1)).index + (g.vertices (k + 1)).degree - 1)
        (new.getD (k + 1) 0 + (g.vertices (k + 1)).degree - 1) g.edges).cur =
        blit g.edges.cur (g0.vertices (k + 1)).index (new.getD (k + 1) 0)
          (elements (k + 1) (adj (k + 1))).length := by
      rw [spreadCopy_cur, hv, hdeg', Int.toNat_natCast, copyDown_eq hge']
    simp only [Graph.spreadLoop]
    rw [if_pos (by rw [hv]; omega)]
    refine ih (by omega) ⟨⟨⟨h.directed, h.numVertices, h.segmentSize, h.segmentCount, h.treeHeight,
      h.foreign⟩, h.numEdges, h.elemCapacity, h.logPtr, h.logSegmentIdx, h.bp, fun v hn => ?_⟩,
      h.actual, fun v hle => ?_, fun v hlt hn => ?_, fun v hn => ?_⟩
    · dsimp only
      rw [Function.update_of_ne (by omega)]
      exact h.behind v hn
    · dsimp only
      rw [Function.update_of_ne (by omega)]
      exact h.todo v (by omega)
    · dsimp only
      by_cases hvk : v = k + 1
      · subst hvk
        rw [Function.update_self, hv]
      · rw [Function.update_of_ne hvk]
        exact h.done v (by omega) hn
    · dsimp only
      rw [hcopy]
      by_cases hvk : v = k + 1
      · subst hvk
        rw [Function.update_self]
        dsimp only
        refine (slice_congr fun j hj => ?_).trans (h.slots (k + 1) hn)
        rw [blit_inside (by omega) (by omega), hv]
        congr 1
        ring
      · rw [Function.update_of_ne hvk]
        refine (slice_congr fun j hj => ?_).trans (h.slots v hn)
        have hdv := hp.degree v hn
        rcases Nat.lt_or_gt_of_ne hvk with hlt | hgt
        · -- a packed vertex ends left of where vertex `k + 1` was
          have := hp.ordered hlt hk
          rw [h.todo v (by omega)]
          exact blit_outside (by omega)
        · have := hnew (k + 1) v hgt hn
          rw [h.done v (by omega) hn]
          exact blit_outside (by dsimp only; omega)

/-- Where the vertices are after `spread_weighted`. -/
lemma Spread.vertices_eq (h : Spread g0 g adj new 0) (h0 : (g0.vertices 0).index = new.getD 0 0)
    {v : ℕ} (hv : v < g0.numVertices) :
    g.vertices v = { g0.vertices v with index := new.getD v 0 } := by
  rcases Nat.eq_zero_or_pos v with rfl | hpos
  · rw [h.todo 0 (le_refl _), ← h0]
  · exact h.done v hpos hv

/-- A packed graph without log entries that has been spread and recounted is a layout. -/
lemma Packed.layout (hp : Packed g0 adj) (hidx : ∀ s, g0.logSegmentIdx s = 0)
    (hlog : ∀ s k, (g0.logPtr s).cur k = .zero) (h0 : new.getD 0 0 = 0)
    (hnew : ∀ v w, v < w → w < g0.numVertices →
      new.getD v 0 + (g0.vertices v).degree ≤ new.getD w 0)
    (hlast : new.getD (g0.numVertices - 1) 0 + (g0.vertices (g0.numVertices - 1)).degree ≤
      g0.elemCapacity) (h : Spread g0 g adj new 0) : g.recountSegmentTotalAll.Layout adj := by
  have htwo := hp.geometry.two_le_vertices
  have hn := h.numVertices
  have hv := fun {v} (hv : v < g0.numVertices) => h.vertices_eq
    (by rw [h0, ← hp.first, bound_of_lt (by omega)]) hv
  have hsum : ∀ a b, b ≤ g0.numVertices → g.degreeSum a b = g0.degreeSum a b := fun a b hb =>
    degreeSum_congr fun v _ hlt => by rw [hv (by omega)]
  have hbnd : ∀ v < g0.numVertices, g.bound v = new.getD v 0 := fun v hlt => by
    rw [bound_of_lt (by omega), hv hlt]
  have hgeo : g.Geometry := h.geometry hp.geometry
  refine ⟨⟨hgeo.1, hgeo.2, hgeo.3, hgeo.4⟩, ?_, fun v hlt => ?_, fun t _ => ?_, fun t _ k _ => ?_,
    fun t ht => ?_, fun t ht => ?_, ?_⟩
  · show g.bound 0 = 0
    rw [hbnd 0 (by omega), h0]
  · have hlt : v < g0.numVertices := by rw [← hn]; exact hlt
    have hroom : (g.vertices v).index + (elements v (adj v)).length ≤ g.bound (v + 1) := by
      rw [← hp.degree v hlt, hv hlt]
      by_cases hv1 : v + 1 < g0.numVertices
      · rw [hbnd (v + 1) hv1]
        exact hnew v (v + 1) (Nat.lt_succ_self v) hv1
      · rw [bound_of_ge (by omega), h.elemCapacity]
        obtain rfl : v = g0.numVertices - 1 := by omega
        exact hlast
    refine Holds.of_placed ?_ ?_ (by simp [elements]) hroom (h.slots v hlt)
    · show (g.vertices v).degree = _
      rw [hv hlt]
      exact hp.degree v hlt
    · show (g.vertices v).offset = _
      rw [hv hlt]
      exact hp.offset v hlt
  · show 0 ≤ g.logSegmentIdx t ∧ g.logSegmentIdx t ≤ maxLogEntries
    rw [h.logSegmentIdx, hidx]
    exact ⟨le_refl _, by decide⟩
  · show (g.logPtr t).cur k = .zero
    rw [h.logPtr, hlog]
  · show g.segmentEdgesActual (t + g.segmentCount) =
      g.degreeSum (t * g.segmentSize) ((t + 1) * g.segmentSize)
    have ht0 : t < g0.segmentCount := by rw [← h.segmentCount]; exact ht
    rw [h.actual, h.segmentCount, h.segmentSize, hsum _ _ (hp.geometry.mul_le ht0)]
    exact hp.actual t ht0
  · show (if g.segmentCount ≤ t + g.segmentCount ∧ t + g.segmentCount < 2 * g.segmentCount
      then g.segmentTotal (t + g.segmentCount - g.segmentCount) else _) = _
    have ht1 : t < g.segmentCount := ht
    rw [if_pos (by omega), Nat.add_sub_cancel]
    exact hgeo.segmentTotal_eq ht1
  · show g.numEdges = g.degreeSum 0 g.numVertices
    rw [h.numEdges, hn, hsum 0 _ (le_refl _)]
    exact hp.numEdges

end Spread

/-- What the create branch of the constructor leaves. -/
structure Created (g : Graph) (foreign : Foreign) (directed : Bool) (nVertices : ℕ)
    (edgeList : List (ℕ × ℕ)) : Prop where
  shape : SameShape (allocate foreign directed edgeList.length nVertices) g
  bp : g.bp = (allocate foreign directed edgeList.length nVertices).bp
  layout : g.Layout (Multigraph.ofEdges edgeList)
  numVertices : nVertices ≤ g.numVertices
  numEdges : g.numEdges = edgeList.length + g.numVertices
  elemCapacity : g.elemCapacity = g.numEdges * 4
  offset : ∀ v < g.numVertices, (g.vertices v).offset = -1
  logPtr : ∀ s, g.logPtr s = .durable fun _ => .zero
  logSegmentIdx : ∀ s, g.logSegmentIdx s = 0
  durable : ∀ x, 0 ≤ x → x < g.elemCapacity → g.edges.DurableAt x

variable {g : Graph} {edgeList : List (ℕ × ℕ)}

/-- A new graph fits. -/
lemma Created.fits (h : Created g foreign directed nVertices edgeList) : g.Fits := by
  have hg := h.layout.geometry
  refine ⟨fun s hs => h.layout.actual_le hs fun v hv => h.offset v ?_, fun s _ hpos => ?_⟩
  · rw [hg.vertices, Nat.mul_comm]
    exact lt_of_lt_of_le ((hg.leafOf_iff v s).1 hv).2 (Nat.mul_le_mul_right _ hs)
  · rw [h.logSegmentIdx s] at hpos
    exact absurd hpos (lt_irrefl _)

/-- What a base load has written when `spread_weighted` begins. -/
structure Loaded (g : Graph) (foreign : Foreign) (directed : Bool) (nVertices : ℕ)
    (edgeList : List (ℕ × ℕ)) : Prop extends Packed g (Multigraph.ofEdges edgeList) where
  shape : SameShape (allocate foreign directed edgeList.length nVertices) g
  bp : g.bp = (allocate foreign directed edgeList.length nVertices).bp
  numVertices : nVertices ≤ g.numVertices
  count : g.numEdges = edgeList.length + g.numVertices
  elemCapacity : g.elemCapacity = g.numEdges * 4
  logPtr : ∀ s, g.logPtr s = .durable fun _ => .zero
  logSegmentIdx : ∀ s, g.logSegmentIdx s = 0

/-- The sum of the degrees of a packed graph. -/
lemma degreeSum_compact {s : Loader} (h : Compact s s.g.numVertices (Multigraph.ofEdges edgeList))
    (hids : ∀ e ∈ edgeList, e.1 < s.g.numVertices) :
    s.g.degreeSum 0 s.g.numVertices = edgeList.length + s.g.numVertices := by
  have hdeg : ∀ v ∈ Finset.Ico 0 s.g.numVertices,
      (s.g.vertices v).degree = (Multigraph.ofEdges edgeList v).length + 1 := fun v hv =>
    h.degree v (Finset.mem_Ico.1 hv).2
  rw [degreeSum, Finset.sum_congr rfl hdeg, Finset.sum_add_distrib,
    ← Multigraph.sum_length_ofEdges _ hids]
  simp

/-- The create branch up to `spread_weighted`: the elements are packed, and no assertion has failed. -/
lemma create_loaded (foreign : Foreign) (directed : Bool) (h2 : 2 ≤ nVertices)
    (hsorted : edgeList.Pairwise fun e e' => e.1 ≤ e'.1) (hids : ∀ e ∈ edgeList, e.1 < nVertices) :
    ∃ g1, (allocate foreign directed edgeList.length nVertices).loadBase edgeList = some g1 ∧
      Loaded g1 foreign directed nVertices edgeList ∧
      create foreign directed nVertices edgeList =
        (g1.spreadWeighted g1.numVertices).map fun g =>
          { g with edges := g.edges.flush 0 g.elemCapacity } := by
  obtain ⟨hg, hn⟩ := allocate_geometry foreign directed edgeList.length h2
  set g0 := allocate foreign directed edgeList.length nVertices with hg0
  have hzero : ∀ v < g0.numVertices, g0.vertices v = .zero := fun v hv => if_pos hv
  have hsum : ∀ a b, b ≤ g0.numVertices → g0.degreeSum a b = 0 := fun a b hb =>
    Finset.sum_eq_zero fun v hv => by
      rw [Finset.mem_Ico] at hv
      rw [hzero v (by omega)]
      rfl
  have hc0 : Compact { g := g0, ii := 0, lastVid := -1 } 0 fun _ => [] :=
    ⟨hg, Nat.zero_le _, fun v hv => absurd hv (Nat.not_lt_zero v),
      fun v hv => absurd hv (Nat.not_lt_zero v), fun v hv => absurd hv (Nat.not_lt_zero v),
      fun v _ hv => by rw [hzero v hv]; rfl, fun _ _ => rfl, rfl,
      fun t ht => (hsum _ _ (hg.mul_le ht)).symm⟩
  obtain ⟨m, hc1, hu1, hl1⟩ := hc0.loadEdges (l := edgeList) rfl hsorted
    (fun e _ => by omega) fun e he => lt_of_lt_of_le (hids e he) hn
  have hn1 : (edgeList.foldl Loader.loadEdge { g := g0, ii := 0, lastVid := -1 }).g.numVertices =
      g0.numVertices := hu1.numVertices
  obtain ⟨s, hs, hc2, hu2, ho⟩ := hc1.closeVertices (i := 0) (k := g0.numVertices)
    (Nat.zero_le _) (by rw [hl1]; omega) (by omega) fun v hv => absurd hv (Nat.not_lt_zero v)
  have hadj : edgeList.foldl Multigraph.insert (fun _ => []) = Multigraph.ofEdges edgeList := by
    funext u
    rw [Multigraph.foldl_insert, List.nil_append]
  rw [hadj, ← hu2.numVertices] at hc2
  rw [← hu2.numVertices] at ho
  have hu : Untouched g0 s.g := hu1.trans hu2
  have hle : nVertices ≤ s.g.numVertices := by rw [hu.numVertices]; exact hn
  have hcount : s.g.numEdges + s.g.numVertices = edgeList.length + s.g.numVertices := by
    rw [hu.numEdges]
    rfl
  have hg2 := hc2.geometry
  refine ⟨{ s.g with numEdges := s.g.numEdges + s.g.numVertices }, ?_,
    ⟨⟨⟨hg2.1, hg2.2, hg2.3, hg2.4⟩, fun v hv => ?_, ho, hc2.index, hc2.slots, hc2.actual, ?_⟩,
      hu.toSameShape.trans ⟨rfl, rfl, rfl, rfl, rfl, rfl⟩, hu.bp, hle, hcount, ?_, fun t => ?_,
      fun t => ?_⟩, ?_⟩
  · exact Option.map_eq_some_iff.2 ⟨s, hs, rfl⟩
  · rw [elements_length]
    push_cast
    exact hc2.degree v hv
  · exact hcount.trans (degreeSum_compact hc2 fun e he => lt_of_lt_of_le (hids e he) hle).symm
  · show s.g.elemCapacity = (s.g.numEdges + s.g.numVertices) * 4
    rw [hcount, hu.elemCapacity, hu.numVertices]
    show (((edgeList.length + _ : ℕ) : ℤ) * maxSparseness) = _
    push_cast
    rfl
  · show s.g.logPtr t = _
    rw [hu.logPtr]
    rfl
  · show s.g.logSegmentIdx t = 0
    rw [hu.logSegmentIdx]
    rfl
  · simp only [create, insertBase, ← hg0]
    rw [hs]
    dsimp only
    cases ({ s.g with numEdges := s.g.numEdges + s.g.numVertices } : Graph).spreadWeighted
      s.g.numVertices <;> rfl

/-- `spread_weighted` on a packed graph: given the positions, no assertion fails, the vertices are where the
positions say, not left of where they were, and the flushed result is a layout. -/
lemma Loaded.created {g1 : Graph} (h : Loaded g1 foreign directed nVertices edgeList) {new : List ℤ}
    (hpos : g1.calculatePositions 0 g1.numVertices (g1.elemCapacity - g1.numEdges) g1.numEdges =
      some new) :
    ∃ g', g1.spreadWeighted g1.numVertices = some g' ∧
      (∀ v < g1.numVertices, (g1.vertices v).index ≤ new.getD v 0 ∧ (g'.vertices v).index = new.getD v 0) ∧
      Created { g' with edges := g'.edges.flush 0 g'.elemCapacity } foreign directed nVertices
        edgeList := by
  have hp := h.toPacked
  have htwo := hp.geometry.two_le_vertices
  obtain ⟨ht, hfirst⟩ := calculatePositions_targets (by omega) (le_refl _) hp.degree_nonneg hpos
  have hnew : ∀ v w, v < w → w < g1.numVertices →
      new.getD v 0 + (g1.vertices v).degree ≤ new.getD w 0 :=
    fun v w hvw hw => ht.ordered hp.degree_nonneg (Nat.zero_le v) hvw hw
  have h0 : new.getD 0 0 = 0 := hfirst.trans hp.first
  have hlast := ht.last
  rw [bound_of_ge (le_refl _)] at hlast
  have hright := hp.index_le h0 hnew
  obtain ⟨g2, hg2, hsp⟩ := hp.spreadLoop (k := g1.numVertices - 1) (g := g1) (by omega) hnew hright
    ⟨.refl _, rfl, fun _ _ => rfl, fun v hlt hv => absurd hv (by omega), hp.slots⟩
  have hL := hp.layout h.logSegmentIdx (fun s k => by rw [h.logPtr]; rfl) h0 hnew hlast hsp
  have hn : g2.numVertices = g1.numVertices := hsp.numVertices
  have hmoved := fun {v} (hv : v < g1.numVertices) => hsp.vertices_eq
    (by rw [h0, ← hp.first, bound_of_lt (by omega)]) hv
  refine ⟨g2.recountSegmentTotalAll, ?_, fun v hv => ⟨hright v hv, ?_⟩, ⟨h.shape.trans (hsp.toSameShape.trans
    ⟨rfl, rfl, rfl, rfl, rfl, rfl⟩), hsp.bp.trans h.bp, ?_, ?_, ?_, ?_, fun v hv => ?_, fun t => ?_,
    fun t => ?_, fun x hx0 hx => Image.DurableAt.of_flush _ hx0 (by rw [zero_add]; exact hx)⟩⟩
  · simp only [spreadWeighted]
    rw [hpos]
    simp only [hg2]
  · show (g2.vertices v).index = _
    rw [hmoved hv]
  · -- a flush changes no value
    exact ⟨⟨hL.geometry.1, hL.geometry.2, hL.geometry.3, hL.geometry.4⟩, hL.first,
      fun v hv => (hL.holds v hv).frame rfl rfl (fun _ _ _ => rfl) rfl (le_refl _) fun _ _ _ => rfl,
      hL.logIdx, hL.logClear, hL.actual, hL.total, hL.numEdges⟩
  · show nVertices ≤ g2.numVertices
    rw [hn]
    exact h.numVertices
  · show g2.numEdges = _ + (g2.numVertices : ℤ)
    rw [hsp.numEdges, hn]
    exact h.count
  · show g2.elemCapacity = g2.numEdges * 4
    rw [hsp.elemCapacity, hsp.numEdges]
    exact h.elemCapacity
  · have hv : v < g1.numVertices := by rw [← hn]; exact hv
    show (g2.vertices v).offset = -1
    rw [hmoved hv]
    exact hp.offset v hv
  · show g2.logPtr t = _
    rw [hsp.logPtr]
    exact h.logPtr t
  · show g2.logSegmentIdx t = 0
    rw [hsp.logSegmentIdx]
    exact h.logSegmentIdx t

/-- What a constructor that does not abort leaves. -/
lemma create_spec (h2 : 2 ≤ nVertices) (hsorted : edgeList.Pairwise fun e e' => e.1 ≤ e'.1)
    (hids : ∀ e ∈ edgeList, e.1 < nVertices)
    (h : create foreign directed nVertices edgeList = some g) :
    Created g foreign directed nVertices edgeList := by
  obtain ⟨g1, -, hl, he⟩ := create_loaded foreign directed h2 hsorted hids
  rw [he] at h
  obtain ⟨g', hg', rfl⟩ := Option.map_eq_some_iff.1 h
  cases hpos : g1.calculatePositions 0 g1.numVertices (g1.elemCapacity - g1.numEdges)
      g1.numEdges with
  | none => simp [spreadWeighted, hpos] at hg'
  | some new =>
    obtain ⟨g'', hg'', -, hcr⟩ := hl.created hpos
    obtain rfl := Option.some.inj (hg''.symm.trans hg')
    exact hcr

/-- No assertion of the constructor fails while the numbers stay below the precision of the step. -/
lemma create_isSome (foreign : Foreign) (directed : Bool) (h2 : 2 ≤ nVertices)
    (hsorted : edgeList.Pairwise fun e e' => e.1 ≤ e'.1)
    (hids : ∀ e ∈ edgeList, e.1 < nVertices)
    (hbound : edgeList.length + 2 * (computeCapacity nVertices).2.2 ≤ 100000000) :
    ∃ g, create foreign directed nVertices edgeList = some g := by
  obtain ⟨g1, -, hl, he⟩ := create_loaded foreign directed h2 hsorted hids
  have hp := hl.toPacked
  have htwo := hp.geometry.two_le_vertices
  have hn : g1.numVertices = (computeCapacity nVertices).2.2 := hl.shape.numVertices
  have hcount := hl.count
  have hcap := hl.elemCapacity
  obtain ⟨new, hpos⟩ := calculatePositions_isSome 0 g1.numVertices
    (g1.elemCapacity - g1.numEdges) g1.numEdges (by omega) (le_refl _) hp.degree_nonneg hp.first.ge
    (by omega) hp.numEdges (by omega) (by rw [hp.first, bound_of_ge (le_refl _)]; omega)
  obtain ⟨g', hg', -⟩ := hl.created hpos
  exact ⟨_, by rw [he, hg']; rfl⟩

end Graph

end Dgap
