import Dgap.Crash.Scan

/-!
# Recovering the vertices from the edge array

What `recovery` finds in the edge array of a graph whose logs are empty. `Readable` says when it finds the
graph again: nothing but the pivots of the vertices is negative, a gap holds as many positive values that
elements left behind when they moved as its vertex has edges to vertex 0, which the scan takes for empty
slots, the loop over vertex 0 meets a zero before vertex 1 begins, and `malloc` returned offsets that are
`-1` already. `recovery_edges` says that this is exact. Right after the base load the pivot of vertex 1
is still in its old slot as well, so the scan fails there (`recovery_edges_fails`).
-/

namespace Dgap

open Memory

namespace Graph

variable {g : Graph} {adj : ℕ → List ℕ} {fresh : Fresh} {s : Scan} {v : ℕ}

/-- The state in which `recovery` begins its scan. -/
def blank (fresh : Fresh) : Scan where
  vertices := fresh.vertices
  segmentEdgesActual := fun _ => 0
  numEdges := 0
  vid := 0
  segId := 0

/-- What the scan counts for a vertex: its pivot, and the positive slots up to the next pivot. -/
def counted (g : Graph) (v : ℕ) : ℤ :=
  1 + g.positives (g.bound v + 1) (g.bound (v + 1) - g.bound v - 1).toNat

/-- The destinations 0 of a vertex whose elements are all on-segment. -/
def zeros (g : Graph) (v : ℕ) : ℕ :=
  (slice g.edges.cur ((g.vertices v).index + 1) ((g.vertices v).degree - 1).toNat).count 0

/-- The positive values in the gap behind the elements of a vertex. -/
def stale (g : Graph) (v : ℕ) : ℤ :=
  g.positives ((g.vertices v).index + (g.vertices v).degree)
    (g.bound (v + 1) - (g.vertices v).index - (g.vertices v).degree).toNat

/-- When the scan finds the graph again. -/
structure Readable (g : Graph) (fresh : Fresh) : Prop where
  offset : ∀ v < g.numVertices, (fresh.vertices v).offset = -1
  pivot : ∀ x, 0 ≤ x → x < g.elemCapacity → g.edges.cur x < 0 →
    ∃ v < g.numVertices, x = (g.vertices v).index
  stale : ∀ v < g.numVertices, g.stale v = g.zeros v
  stop : ∃ x, 1 ≤ x ∧ x < (g.vertices 1).index ∧ g.edges.cur x = 0

/-- `r` has the vertices and the counters of `g`, without log chains. -/
structure Reconstructs (g r : Graph) : Prop where
  index : ∀ v < g.numVertices, (r.vertices v).index = (g.vertices v).index
  degree : ∀ v < g.numVertices, (r.vertices v).degree = (g.vertices v).degree
  offset : ∀ v < g.numVertices, (r.vertices v).offset = -1
  numEdges : r.numEdges = g.numEdges
  actual : ∀ t < g.segmentCount, r.segmentEdgesActual (t + g.segmentCount) =
    g.segmentEdgesActual (t + g.segmentCount)
  total : ∀ t < g.segmentCount, r.segmentEdgesTotal (t + g.segmentCount) =
    g.segmentEdgesTotal (t + g.segmentCount)

section Scanning

variable (hL : g.Layout adj) (hempty : ∀ v < g.numVertices, (g.vertices v).offset = -1)

include hL

/-- The pivot of a vertex. -/
lemma Layout.pivot (hv : v < g.numVertices) : g.edges.cur (g.bound v) = -(v : ℤ) := by
  have hh := hL.holds v hv
  have hpos := hh.onseg_pos
  have hslots := hh.slots
  obtain ⟨k, hk⟩ : ∃ k, (g.onseg v).toNat = k + 1 := ⟨(g.onseg v).toNat - 1, by omega⟩
  rw [hk, elements, List.take_succ_cons, slice, List.cons.injEq] at hslots
  rw [bound_of_lt hv]
  exact hslots.1

/-- Every vertex has a slot of its own. -/
lemma Layout.bound_lt (hv : v < g.numVertices) : g.bound v < g.bound (v + 1) := by
  have := hL.ordered (v := v) (w := v + 1) (by omega) (by omega)
  have := (hL.holds v hv).onseg_pos
  omega

include hempty

/-- The destinations of a vertex, slot by slot. -/
lemma Layout.dests (hv : v < g.numVertices) :
    slice g.edges.cur ((g.vertices v).index + 1) ((g.vertices v).degree - 1).toNat =
      (adj v).map Nat.cast := by
  have hh := hL.holds v hv
  have hslots := hh.slots
  have hdeg := hh.degree
  rw [onseg_of_none (hempty v hv), hdeg, Int.toNat_natCast, List.take_length, elements_length,
    elements, slice, List.cons.injEq] at hslots
  rw [hdeg, elements_length]
  simpa using hslots.2

/-- The count of a vertex misses its destinations 0 and takes in the stale values of its gap. -/
lemma Layout.counted_eq (hv : v < g.numVertices) :
    g.counted v = (g.vertices v).degree - g.zeros v + g.stale v := by
  have hpos := hL.degree_pos hv
  have hroom := (hL.holds v hv).room
  rw [onseg_of_none (hempty v hv)] at hroom
  have hsplit : (g.bound (v + 1) - g.bound v - 1).toNat = ((g.vertices v).degree - 1).toNat +
      (g.bound (v + 1) - (g.vertices v).index - (g.vertices v).degree).toNat := by
    rw [bound_of_lt hv]
    omega
  have hdests : g.positives ((g.vertices v).index + 1) ((g.vertices v).degree - 1).toNat +
      g.zeros v = (g.vertices v).degree - 1 := by
    have hlen : (adj v).countP (0 < ·) + (adj v).count 0 = (adj v).length := by
      rw [List.count, List.length_eq_countP_add_countP (0 < ·)]
      congr 1
      exact List.countP_congr fun x _ => by simp [Nat.pos_iff_ne_zero]
    have hdeg := (hL.holds v hv).degree
    rw [elements_length] at hdeg
    rw [positives, zeros, hL.dests hempty hv, List.countP_map, List.count, List.countP_map]
    have e1 : (adj v).countP ((fun x : ℤ => decide (0 < x)) ∘ Nat.cast) = (adj v).countP (0 < ·) :=
      List.countP_congr fun x _ => by simp
    have e2 : (adj v).countP ((fun x : ℤ => x == 0) ∘ Nat.cast) = (adj v).count 0 :=
      List.countP_congr fun x _ => by simp
    rw [e1, e2]
    omega
  rw [counted, hsplit, positives_add, bound_of_lt hv, stale]
  have harg : (g.vertices v).index + 1 + (((g.vertices v).degree - 1).toNat : ℤ) =
      (g.vertices v).index + (g.vertices v).degree := by omega
  rw [harg]
  omega

end Scanning

/-- The scan has counted the vertices below `v`. -/
structure Scanned (g : Graph) (fresh : Fresh) (v : ℕ) (s : Scan) : Prop where
  done : ∀ w < v, s.vertices w = ⟨g.bound w, g.counted w, (fresh.vertices w).offset⟩
  todo : ∀ w, v ≤ w → s.vertices w = fresh.vertices w
  actual : ∀ j, s.segmentEdgesActual j =
    ∑ w ∈ Finset.range v, if g.getSegmentId w = j then g.counted w else 0
  numEdges : s.numEdges = ∑ w ∈ Finset.range v, g.counted w

/-- The scan counts one more vertex. -/
lemma Scanned.pivot_counts (h : Scanned g fresh v s) {k : ℤ} (hk : g.counted v = 1 + k) :
    Scanned g fresh (v + 1) ((s.pivot (g.bound v) v (g.getSegmentId v)).counts k) := by
  refine ⟨fun w hw => ?_, fun w hw => ?_, fun j => ?_, ?_⟩
  · by_cases hwv : w = v
    · subst hwv
      simp [Scan.counts, Scan.pivot, h.todo w (le_refl _), hk]
    · simp [Scan.counts, Scan.pivot, Function.update_of_ne hwv, h.done w (by omega)]
  · have hwv : w ≠ v := by omega
    simp [Scan.counts, Scan.pivot, Function.update_of_ne hwv, h.todo w (by omega)]
  · rw [Finset.sum_range_succ, ← h.actual j]
    by_cases hj : g.getSegmentId v = j
    · subst hj
      rw [if_pos rfl, hk]
      simp [Scan.counts, Scan.pivot, add_assoc]
    · rw [if_neg hj]
      simp [Scan.counts, Scan.pivot, Function.update_of_ne (Ne.symm hj)]
  · rw [Finset.sum_range_succ, ← h.numEdges, hk]
    simp [Scan.counts, Scan.pivot, add_assoc]

/-- Before the first pivot. -/
lemma scanned_blank (g : Graph) (fresh : Fresh) : Scanned g fresh 0 (blank fresh) :=
  ⟨fun w hw => absurd hw (Nat.not_lt_zero w), fun _ _ => rfl, fun _ => by simp [blank],
    by simp [blank]⟩

section Scanning

variable (hL : g.Layout adj)

include hL

/-- The first loop, when it stops. -/
lemma Layout.scan_some (h : g.scan (blank fresh) = some s) : ∃ z, 1 ≤ z ∧ z < g.elemCapacity ∧
    g.edges.cur z = 0 ∧ (∀ x, 1 ≤ x → x < z → g.edges.cur x ≠ 0) ∧
    s = g.scanRest (g.elemCapacity - z).toNat z
      (((blank fresh).pivot 0 0 (g.getSegmentId 0)).counts (z - 1)) := by
  have hpos := hL.geometry.two_le_vertices
  have h0 := hL.pivot (v := 0) (by omega)
  rw [hL.first] at h0
  rw [scan, if_pos (by simpa using h0)] at h
  cases hf : g.scanFirst (g.elemCapacity - 1).toNat 1 ((blank fresh).pivot 0 0 (g.getSegmentId 0)) with
  | none => rw [hf] at h; cases h
  | some r =>
    obtain ⟨z, s1⟩ := r
    obtain ⟨h1, h2, h3, h4, rfl⟩ := scanFirst_some hf
    rw [hf] at h
    exact ⟨z, h1, by omega, h3, h4, (Option.some.inj h).symm⟩

/-- The first loop stops at a zero. -/
lemma Layout.scan_isSome {x : ℤ} (h1 : 1 ≤ x) (h2 : x < g.elemCapacity) (hx : g.edges.cur x = 0)
    (fresh : Fresh) : ∃ s, g.scan (blank fresh) = some s := by
  have hpos := hL.geometry.two_le_vertices
  have h0 := hL.pivot (v := 0) (by omega)
  rw [hL.first] at h0
  obtain ⟨z, s1, hf⟩ := scanFirst_isSome (k := (g.elemCapacity - 1).toNat) h1 (by omega) hx
    ((blank fresh).pivot 0 0 (g.getSegmentId 0))
  rw [scan, if_pos (by simpa using h0), hf]
  exact ⟨_, rfl⟩

/-- Where vertex 1 begins. -/
lemma Layout.bound_one : g.bound 1 = (g.vertices 1).index ∧ 1 ≤ g.bound 1 ∧
    g.bound 1 < g.elemCapacity := by
  have hpos := hL.geometry.two_le_vertices
  have h1 := hL.bound_lt (v := 0) (by omega)
  have h2 := hL.bound_lt (v := 1) (by omega)
  have h3 := hL.bound_le (v := 2) hpos (le_refl _)
  rw [hL.first] at h1
  rw [bound_of_ge (le_refl _)] at h3
  exact ⟨bound_of_lt (by omega), h1, by simp only [Nat.reduceAdd] at h2; omega⟩

/-- Between two pivots nothing is negative, when nothing but the pivots is. -/
lemma Layout.between_nonneg (hpivot : ∀ x, 0 ≤ x → x < g.elemCapacity → g.edges.cur x < 0 →
      ∃ v < g.numVertices, x = (g.vertices v).index) (hv : v < g.numVertices) {x : ℤ}
    (h1 : g.bound v < x) (h2 : x < g.bound (v + 1)) : 0 ≤ g.edges.cur x := by
  by_contra hneg
  have h0 := hL.bound_nonneg hv.le
  have hn := hL.bound_le (v := v + 1) (by omega) (le_refl g.numVertices)
  rw [bound_of_ge (le_refl _)] at hn
  obtain ⟨w, hw, rfl⟩ := hpivot x (by omega) (by omega) (by omega)
  rw [← bound_of_lt hw] at h1 h2
  rcases Nat.lt_or_ge v w with hvw | hvw
  · have := hL.bound_le (v := v + 1) (w := w) (by omega) hw.le
    omega
  · have := hL.bound_le hvw hv.le
    omega

/-- The whole scan, when nothing but the pivots is negative and the first loop stops in time. -/
lemma Layout.scanned (hpivot : ∀ x, 0 ≤ x → x < g.elemCapacity → g.edges.cur x < 0 →
      ∃ v < g.numVertices, x = (g.vertices v).index) {z : ℤ} (hz1 : 1 ≤ z)
    (hz2 : z < g.bound 1) (hne : ∀ x, 1 ≤ x → x < z → g.edges.cur x ≠ 0) (fresh : Fresh) :
    Scanned g fresh g.numVertices (g.scanRest (g.elemCapacity - z).toNat z
      (((blank fresh).pivot 0 0 (g.getSegmentId 0)).counts (z - 1))) := by
  have hn2 := hL.geometry.two_le_vertices
  have hbetween := fun {v} => hL.between_nonneg hpivot (v := v)
  suffices hall : ∀ v, 1 ≤ v → v ≤ g.numVertices → Scanned g fresh v
      (g.scanRest (g.bound v - z).toNat z
        (((blank fresh).pivot 0 0 (g.getSegmentId 0)).counts (z - 1))) by
    have := hall g.numVertices (by omega) (le_refl _)
    rwa [bound_of_ge (le_refl _)] at this
  intro v hv
  induction v, hv using Nat.le_induction with
  | base =>
    intro _
    -- the two loops share the slots of vertex 0
    rw [scanRest_nonneg fun x h1 h2 => hbetween (v := 0) (by omega) (by rw [hL.first]; omega)
      (by rw [Nat.zero_add]; omega)]
    have hfirst : g.positives 1 (z - 1).toNat = z - 1 := by
      rw [positives_eq fun x h1 h2 => ?_]
      · omega
      · have := hbetween (v := 0) (x := x) (by omega) (by rw [hL.first]; omega)
          (by rw [Nat.zero_add]; omega)
        have := hne x h1 (by omega)
        omega
    rw [Scan.counts_counts]
    have := (scanned_blank g fresh).pivot_counts (k := z - 1 + g.positives z (g.bound 1 - z).toNat) ?_
    · rwa [hL.first] at this
    · rw [counted, hL.first, show (g.bound (0 + 1) - 0 - 1).toNat =
        (z - 1).toNat + (g.bound 1 - z).toNat by rw [Nat.zero_add]; omega, positives_add, zero_add,
        hfirst, show (1 : ℤ) + ((z - 1).toNat : ℤ) = z by omega]
  | succ v hv ih =>
    intro hle
    have hlt := hL.bound_lt (v := v) (by omega)
    have h1 := hL.bound_le hv (by omega)
    rw [show (g.bound (v + 1) - z).toNat = (g.bound v - z).toNat +
      ((g.bound (v + 1) - g.bound v - 1).toNat + 1) by omega, scanRest_add,
      show z + ((g.bound v - z).toNat : ℤ) = g.bound v by omega,
      scanRest_vertex hv (hL.pivot (by omega)) fun x h1 h2 => hbetween (by omega) h1
        (by push_cast at h2; omega)]
    exact (ih (by omega)).pivot_counts rfl

/-- The sum of the degrees in a leaf, as the scan adds them up. -/
lemma Layout.sum_leaf {f : ℕ → ℤ} (hf : ∀ v < g.numVertices, f v = (g.vertices v).degree) {t : ℕ}
    (ht : t < g.segmentCount) :
    ∑ w ∈ Finset.range g.numVertices, (if g.getSegmentId w = t + g.segmentCount then f w else 0) =
      g.segmentEdgesActual (t + g.segmentCount) := by
  have hg := hL.geometry
  have hle := hg.mul_le (s := t + 1) (by omega)
  rw [hL.actual t ht, degreeSum, ← Finset.sum_filter]
  refine Finset.sum_congr ?_ fun w hw => hf w ?_
  · ext w
    have := hg.leafOf_iff w t
    rw [Finset.mem_filter, Finset.mem_range, Finset.mem_Ico, getSegmentId_eq, Nat.add_right_cancel_iff,
      this]
    omega
  · exact (Finset.mem_Ico.1 hw).2.trans_le hle

end Scanning

/-- The scan has found the vertices and the counters of `g`, without log chains. -/
structure Found (g : Graph) (s : Scan) : Prop where
  vertices : ∀ v < g.numVertices,
    s.vertices v = ⟨(g.vertices v).index, (g.vertices v).degree, -1⟩
  numEdges : s.numEdges = g.numEdges
  actual : ∀ t < g.segmentCount, s.segmentEdgesActual (t + g.segmentCount) =
    g.segmentEdgesActual (t + g.segmentCount)

section Readable

variable (hL : g.Layout adj) (hempty : ∀ v < g.numVertices, (g.vertices v).offset = -1)

include hL hempty

/-- A destination is not negative. -/
lemma Layout.dest_nonneg (hv : v < g.numVertices) {x : ℤ} (h1 : (g.vertices v).index < x)
    (h2 : x < (g.vertices v).index + (g.vertices v).degree) : 0 ≤ g.edges.cur x := by
  obtain ⟨j, hj⟩ : ∃ j : ℕ, x = (g.vertices v).index + 1 + j :=
    ⟨(x - (g.vertices v).index - 1).toNat, by omega⟩
  have hlt : j < (slice g.edges.cur ((g.vertices v).index + 1)
      ((g.vertices v).degree - 1).toNat).length := by
    rw [slice_length]
    omega
  have hmem := List.getElem_mem hlt
  rw [slice_getElem, ← hj, hL.dests hempty hv, List.mem_map] at hmem
  obtain ⟨d, -, hd⟩ := hmem
  omega

/-- A readable array gives the graph back. -/
lemma Layout.found (h : g.Readable fresh) : ∃ s, g.scan (blank fresh) = some s ∧ g.Found s := by
  obtain ⟨x, hx1, hx2, hx⟩ := h.stop
  obtain ⟨hb1, -, hb2⟩ := hL.bound_one
  obtain ⟨s, hs⟩ := hL.scan_isSome hx1 (by omega) hx fresh
  obtain ⟨z, hz1, -, -, hne, rfl⟩ := hL.scan_some hs
  have hzx : z ≤ x := by
    by_contra hlt
    exact hne x hx1 (by omega) hx
  have hscan := hL.scanned h.pivot hz1 (by omega) hne fresh
  have hcounted : ∀ v < g.numVertices, g.counted v = (g.vertices v).degree := fun v hv => by
    rw [hL.counted_eq hempty hv, h.stale v hv]
    ring
  refine ⟨_, hs, fun v hv => ?_, ?_, fun t ht => ?_⟩
  · rw [hscan.done v hv, hcounted v hv, h.offset v hv, bound_of_lt hv]
  · rw [hscan.numEdges, hL.numEdges, degreeSum, ← Finset.range_eq_Ico]
    exact Finset.sum_congr rfl fun v hv => hcounted v (Finset.mem_range.1 hv)
  · rw [hscan.actual, hL.sum_leaf hcounted ht]

omit hempty in
/-- Behind the first loop of the scan are the pivots of all vertices but the first. -/
lemma Layout.pivot_behind {z : ℤ} (hz : z ≤ g.bound 1) (h1 : 1 ≤ v) (hv : v < g.numVertices) :
    z ≤ g.bound v ∧ g.bound v < g.elemCapacity ∧ g.edges.cur (g.bound v) < 0 ∧
      g.pivotAt (g.bound v) = v := by
  have hp := hL.pivot hv
  have hle := hL.bound_le h1 hv.le
  have hlt := hL.bound_lt hv
  have hcap := hL.bound_le (v := v + 1) (by omega) (le_refl g.numVertices)
  rw [bound_of_ge (le_refl g.numVertices)] at hcap
  exact ⟨by omega, by omega, by omega, by rw [pivotAt, hp]; omega⟩

/-- The first loop of the scan stops in front of the second vertex, if it counts for the first one no more
than its elements. -/
lemma Layout.lt_bound_one {z : ℤ} (hz : z ≤ (g.vertices 0).degree) (h0 : g.edges.cur z = 0) :
    z < g.bound 1 := by
  have hn2 := hL.geometry.two_le_vertices
  have hroom := (hL.holds 0 (by omega)).room
  rw [onseg_of_none (hempty 0 (by omega)), ← bound_of_lt (by omega), hL.first, zero_add, zero_add]
    at hroom
  rcases lt_or_eq_of_le (hz.trans hroom) with hlt | heq
  · exact hlt
  · have hp := hL.pivot (v := 1) (by omega)
    rw [← heq, h0] at hp
    omega

/-- Only a readable array gives the graph back. -/
lemma Layout.readable (hs : g.scan (blank fresh) = some s) (h : g.Found s) : g.Readable fresh := by
  have hn2 := hL.geometry.two_le_vertices
  obtain ⟨hb1, hb2, hb3⟩ := hL.bound_one
  obtain ⟨z, hz1, hz2, hz3, hne, rfl⟩ := hL.scan_some hs
  set s0 := ((blank fresh).pivot 0 0 (g.getSegmentId 0)).counts (z - 1) with hs0
  have hs0deg : (s0.vertices 0).degree = z := by simp [hs0, Scan.counts, Scan.pivot]
  have hs0num : s0.numEdges = z := by simp [hs0, Scan.counts, Scan.pivot, blank]
  -- the first loop stops among the elements of vertex 0
  have hzdeg : z ≤ (g.vertices 0).degree := by
    have := le_scanRest_zero g (g.elemCapacity - z).toNat z s0
    rwa [h.vertices 0 (by omega), hs0deg] at this
  have hzlt := hL.lt_bound_one hempty hzdeg hz3
  -- the scan loses no element
  obtain ⟨seen, hsub, hn, -, hmem, hfirst⟩ := scanRest_slack (g := g) (s := s0)
    (show ∀ v ∈ ({0} : Finset ℕ), v < g.numVertices from fun v hv => by
      rw [Finset.mem_singleton.1 hv]
      omega)
    (fun v hv => by rw [Finset.mem_singleton.1 hv, hs0deg]; exact hz1)
    (g.elemCapacity - z).toNat z
  have hpivotAt := fun v => hL.pivot_behind (v := v) hzlt.le
  have hseen : seen = Finset.range g.numVertices := by
    ext v
    rw [Finset.mem_range]
    refine ⟨hn v, fun hv => ?_⟩
    rcases Nat.eq_zero_or_pos v with rfl | hpos
    · exact hsub (Finset.mem_singleton_self 0)
    · obtain ⟨h1, h2, h3, h4⟩ := hpivotAt v hpos hv
      have := hmem _ h1 (by omega) h3 (by rw [h4]; exact hv)
      rwa [h4] at this
  have hslack : Scan.slack seen (g.scanRest (g.elemCapacity - z).toNat z s0) = Scan.slack {0} s0 := by
    have hsum : ∑ v ∈ Finset.range g.numVertices,
        ((g.scanRest (g.elemCapacity - z).toNat z s0).vertices v).degree = g.numEdges := by
      rw [hL.numEdges, degreeSum, ← Finset.range_eq_Ico]
      exact Finset.sum_congr rfl fun v hv => by rw [h.vertices v (Finset.mem_range.1 hv)]
    rw [Scan.slack, Scan.slack, hseen, hsum, h.numEdges, Finset.sum_singleton, hs0deg, hs0num]
    ring
  have hpivot : ∀ x, 0 ≤ x → x < g.elemCapacity → g.edges.cur x < 0 →
      ∃ v < g.numVertices, x = (g.vertices v).index := by
    intro x hx1 hx2 hneg
    rcases lt_or_ge x z with hxz | hxz
    · -- in front of the first zero there are only destinations of vertex 0
      exfalso
      have h0 := hL.first
      rw [bound_of_lt (by omega)] at h0
      rcases eq_or_lt_of_le hx1 with rfl | hpos
      · have := hL.pivot (v := 0) (by omega)
        rw [hL.first] at this
        omega
      · have := hL.dest_nonneg hempty (v := 0) (by omega) (x := x) (by omega) (by omega)
        omega
    · obtain ⟨hw, hw0, hother⟩ := hfirst hslack x hxz (by omega) hneg
      rw [Finset.mem_singleton] at hw0
      obtain ⟨h1, h2, h3, h4⟩ := hpivotAt _ (Nat.pos_of_ne_zero hw0) hw
      refine ⟨_, hw, ?_⟩
      rw [← bound_of_lt hw]
      rcases lt_trichotomy x (g.bound (g.pivotAt x)) with hlt | heq | hgt
      · exact absurd h4.symm ((hfirst hslack _ h1 (by omega) h3).2.2 x hxz hlt hneg)
      · exact heq
      · exact absurd h4 (hother _ h1 hgt h3)
  have hscan := hL.scanned hpivot hz1 hzlt hne fresh
  refine ⟨fun v hv => ?_, hpivot, fun v hv => ?_, z, hz1, by omega, hz3⟩
  · have := hscan.done v hv
    rw [h.vertices v hv] at this
    exact (congrArg VertexElement.offset this).symm
  · have := hscan.done v hv
    rw [h.vertices v hv] at this
    have hdeg := congrArg VertexElement.degree this
    have := hL.counted_eq hempty hv
    simp only at hdeg
    omega

end Readable

/-- What `recovery` makes of a graph when its scan ends in `s`. -/
structure Rebuilt (g : Graph) (s : Scan) (r : Graph) : Prop extends SameShape g r where
  elemCapacity : r.elemCapacity = g.elemCapacity
  vertices : r.vertices = s.vertices
  numEdges : r.numEdges = s.numEdges
  actual : r.segmentEdgesActual = s.segmentEdgesActual
  total : ∀ t < g.segmentCount, r.segmentEdgesTotal (t + g.segmentCount) = r.segmentTotal t
  logIdx : ∀ t < g.segmentCount, r.logSegmentIdx t =
    scanLog (g.logPtr t).cur maxLogEntries 0 (g.logSegmentIdx t)

/-- `recovery` fails when its scan leaves the array. -/
lemma recovery_none (h : g.scan ⟨g.vertices, g.segmentEdgesActual, 0, 0, 0⟩ = none) :
    g.recovery = none := by
  rw [recovery, h]

/-- `recovery` when its scan ends. -/
lemma recovery_some (h : g.scan ⟨g.vertices, g.segmentEdgesActual, 0, 0, 0⟩ = some s) :
    ∃ r, g.recovery = some r ∧ g.Rebuilt s r := by
  rw [recovery, h]
  refine ⟨_, rfl, ⟨rfl, rfl, rfl, rfl, rfl, rfl⟩, rfl, rfl, rfl, rfl, fun t ht => ?_, fun t ht => ?_⟩
  · simp only [recountSegmentTotalAll]
    rw [if_pos (by omega), Nat.add_sub_cancel]
    rfl
  · exact if_pos ht

/-- The reopen branch of the constructor after a crash that loses no store. -/
lemma Recorded.reopen (h : g.Recorded) (foreign : Foreign) (fresh : Fresh) :
    g.settle.powerOff.reopen foreign fresh =
      match (g.settle.powerOff.mount foreign fresh).recovery with
      | none => none
      | some r => some { r with bp := { r.bp with numEdges := r.numEdges } } :=
  if_neg (by rw [show g.settle.powerOff.bp.backedUp = false from h.backedUp]; simp)

/-- It scans the arrays of the graph. -/
lemma Recorded.scan_eq (h : g.Recorded) (foreign : Foreign) (fresh : Fresh) :
    (g.settle.powerOff.mount foreign fresh).scan (blank fresh) = g.scan (blank fresh) :=
  scan_congr (m := g.settle.powerOff.mount foreign fresh) (g := g) rfl h.elemCapacity h.segmentSize
    h.segmentCount _

/-- After a crash that loses no store the constructor fails when the scan leaves the array. -/
lemma Recorded.reopen_none (h : g.Recorded) (foreign : Foreign)
    (hs : g.scan (blank fresh) = none) : g.settle.powerOff.reopen foreign fresh = none := by
  rw [h.reopen, recovery_none (g := g.settle.powerOff.mount foreign fresh)
    ((h.scan_eq foreign fresh).trans hs)]

/-- What the constructor leaves after a crash that loses no store. -/
lemma Recorded.reopen_some (h : g.Recorded) (foreign : Foreign)
    (hs : g.scan (blank fresh) = some s) :
    ∃ r, g.settle.powerOff.reopen foreign fresh = some r ∧
      (g.settle.powerOff.mount foreign fresh).Rebuilt s r := by
  obtain ⟨r, hr, hb⟩ := recovery_some (g := g.settle.powerOff.mount foreign fresh)
    ((h.scan_eq foreign fresh).trans hs)
  rw [h.reopen, hr]
  exact ⟨_, rfl, hb.toSameShape.trans ⟨rfl, rfl, rfl, rfl, rfl, rfl⟩, hb.elemCapacity, hb.vertices,
    hb.numEdges, hb.actual, hb.total, hb.logIdx⟩

/-- The extent of a leaf depends on where the vertices begin. -/
lemma Layout.segmentTotal_congr (hL : g.Layout adj) {m : Graph}
    (hcap : m.elemCapacity = g.elemCapacity) (hsize : m.segmentSize = g.segmentSize)
    (hcount : m.segmentCount = g.segmentCount)
    (hindex : ∀ v < g.numVertices, (m.vertices v).index = (g.vertices v).index) {t : ℕ}
    (ht : t < g.segmentCount) : m.segmentTotal t = g.segmentEdgesTotal (t + g.segmentCount) := by
  have hg := hL.geometry
  have hpos := hg.size
  have hmul : ∀ u < g.segmentCount, u * g.segmentSize < g.numVertices := fun u hu => by
    rw [hg.vertices, Nat.mul_comm]
    exact Nat.mul_lt_mul_of_pos_left hu hpos
  rw [hL.total t ht, ← hg.segmentTotal_eq ht, segmentTotal, segmentTotal, hcap, hsize, hcount,
    hindex _ (hmul t ht)]
  split
  · rfl
  · rw [hindex _ (hmul (t + 1) (by omega))]

/-- The vertices and counters are those of the graph exactly when the scan has found them. -/
lemma Layout.reconstructs_iff (hL : g.Layout adj) (hrec : g.Recorded) {foreign : Foreign} {r : Graph}
    (hr : (g.settle.powerOff.mount foreign fresh).Rebuilt s r) : g.Reconstructs r ↔ g.Found s := by
  have hcount : (g.settle.powerOff.mount foreign fresh).segmentCount = g.segmentCount :=
    hrec.segmentCount
  constructor
  · intro h
    refine ⟨fun v hv => ?_, ?_, fun t ht => ?_⟩
    · rw [← hr.vertices, ← h.index v hv, ← h.degree v hv, ← h.offset v hv]
    · rw [← hr.numEdges, h.numEdges]
    · rw [← hr.actual, h.actual t ht]
  · intro h
    have hv : ∀ v < g.numVertices, r.vertices v =
        ⟨(g.vertices v).index, (g.vertices v).degree, -1⟩ := fun v hv => by
      rw [hr.vertices, h.vertices v hv]
    refine ⟨fun v hlt => by rw [hv v hlt], fun v hlt => by rw [hv v hlt],
      fun v hlt => by rw [hv v hlt], by rw [hr.numEdges, h.numEdges],
      fun t ht => by rw [hr.actual, h.actual t ht], fun t ht => ?_⟩
    have htotal := hr.total t (by rw [hcount]; exact ht)
    rw [hcount] at htotal
    rw [htotal]
    exact hL.segmentTotal_congr (hr.elemCapacity.trans hrec.elemCapacity)
      (hr.segmentSize.trans hrec.segmentSize) (hr.segmentCount.trans hcount)
      (fun v hlt => by rw [hv v hlt]) ht

section Sequential

variable {foreign : Foreign} {directed : Bool} {tid nVertices : ℕ} {base ops : List (ℕ × ℕ)}

/-- After a run that ends with empty logs, `recovery` finds the graph again if and only if its array is
readable. -/
theorem recovery_edges (h : Run foreign directed tid nVertices base ops g)
    (hempty : ∀ t < g.segmentCount, g.logSegmentIdx t = 0) (fresh : Fresh) :
    (∃ r, g.settle.powerOff.reopen foreign fresh = some r ∧ g.Reconstructs r) ↔ g.Readable fresh := by
  have hL := h.layout
  have hrec := h.recorded
  have hoff : ∀ v < g.numVertices, (g.vertices v).offset = -1 := fun v hv =>
    hL.offset_of_empty hv (hempty _ (hL.geometry.leafOf_lt hv))
  constructor
  · rintro ⟨r, hr, hmatch⟩
    cases hs : g.scan (blank fresh) with
    | none => rw [hrec.reopen_none foreign hs] at hr; cases hr
    | some s =>
      obtain ⟨r', hr', hb⟩ := hrec.reopen_some foreign hs
      obtain rfl : r' = r := Option.some.inj (hr'.symm.trans hr)
      exact hL.readable hoff hs ((hL.reconstructs_iff hrec hb).1 hmatch)
  · intro hread
    obtain ⟨s, hs, hfound⟩ := hL.found hoff hread
    obtain ⟨r, hr, hb⟩ := hrec.reopen_some foreign hs
    exact ⟨r, hr, (hL.reconstructs_iff hrec hb).2 hfound⟩

/-- Four edges of vertex 0 have overwritten the old pivot of vertex 1, and the array is readable. -/
theorem recovery_edges_two : ∃ g, Run ⟨fun _ => 7, fun _ => .zero⟩ true 0 2 []
    [(0, 1), (0, 1), (0, 1), (0, 1)] g ∧
    ∃ r, g.settle.powerOff.reopen ⟨fun _ => 7, fun _ => .zero⟩
      ⟨fun _ => ⟨7, 7, -1⟩, fun _ => 7⟩ = some r ∧ g.Reconstructs r := by
  obtain ⟨g, hg, hp⟩ := Run.exists_of_check ⟨fun _ => 7, fun _ => .zero⟩ true 0 2 []
    [(0, 1), (0, 1), (0, 1), (0, 1)] (by decide) (by decide) (by decide) (by decide)
    (fun g => decide (g.numVertices = 2 ∧ g.segmentCount = 2 ∧ g.elemCapacity = 8 ∧
      (∀ t : ℕ, t < 2 → g.logSegmentIdx t = 0) ∧
      (∀ v : ℕ, v < 2 → g.stale v = g.zeros v) ∧ (∀ x : ℕ, x < 8 → g.edges.cur x < 0 → x = 6) ∧
      (g.vertices 1).index = 6 ∧ g.edges.cur 5 = 0))
    (by decide +kernel)
  rw [decide_eq_true_iff] at hp
  obtain ⟨hn, hs, hcap, hempty, hstale, hneg, hindex, hzero⟩ := hp
  refine ⟨g, hg, (recovery_edges hg (by rwa [hs]) _).2 ⟨fun _ _ => rfl, fun x h1 h2 hx => ?_,
    by rwa [hn], 5, by decide, by rw [hindex]; decide, hzero⟩⟩
  refine ⟨1, by omega, ?_⟩
  lift x to ℕ using h1
  have := hneg x (by omega) hx
  omega

/-- Right after the base load the scan finds the pivot of vertex 1 twice, even when `malloc` returned
offsets that are `-1`. -/
theorem recovery_edges_fails : ∃ g, Run ⟨fun _ => 0, fun _ => .zero⟩ true 0 2 [] [] g ∧
    (∀ t < g.segmentCount, g.logSegmentIdx t = 0) ∧
    ¬∃ r, g.settle.powerOff.reopen ⟨fun _ => 0, fun _ => .zero⟩
      ⟨fun _ => ⟨0, 0, -1⟩, fun _ => 0⟩ = some r ∧ g.Reconstructs r := by
  obtain ⟨g, hg, hp⟩ := Run.exists_of_check ⟨fun _ => 0, fun _ => .zero⟩ true 0 2 [] []
    (by decide) (by decide) (by decide) (by decide)
    (fun g => decide (g.segmentCount = 2 ∧ (∀ t : ℕ, t < 2 → g.logSegmentIdx t = 0) ∧
        g.numEdges = 2) &&
      (g.settle.powerOff.reopen ⟨fun _ => 0, fun _ => .zero⟩
        ⟨fun _ => ⟨0, 0, -1⟩, fun _ => 0⟩).any fun r => r.numEdges = 3) (by decide +kernel)
  rw [Bool.and_eq_true, decide_eq_true_iff, Option.any_eq_true] at hp
  obtain ⟨⟨hs, hempty, hnum⟩, r, hr, hr3⟩ := hp
  rw [decide_eq_true_iff] at hr3
  refine ⟨g, hg, by rwa [hs], fun ⟨r', hr', h⟩ => ?_⟩
  obtain rfl : r' = r := Option.some.inj (hr'.symm.trans hr)
  have := h.numEdges
  omega

end Sequential

end Graph

end Dgap
