import Dgap.Graph.Insert
import Dgap.Layout.Positions

/-!
# The representation invariant

`Layout g adj` says that the graph `g` represents the adjacency lists `adj`: every vertex holds its pivot
and its destinations, the log slots above the insert index are zero, and the counters count. It is kept
by every data movement, also by one whose window was chosen from stale counters. `Fits` is the part that
a sequential run adds: no leaf holds more elements than it has slots, and a leaf with a log entry holds
fewer.
-/

namespace Dgap

open Memory

namespace Graph

/-- The geometry that `compute_capacity` sets up. -/
structure Geometry (g : Graph) : Prop where
  count : g.segmentCount = 2 ^ g.treeHeight
  height : 1 ≤ g.treeHeight
  size : 1 ≤ g.segmentSize
  vertices : g.numVertices = g.segmentSize * g.segmentCount

/-- The graph `g` represents the adjacency lists `adj`. -/
structure Layout (g : Graph) (adj : ℕ → List ℕ) : Prop where
  geometry : g.Geometry
  first : g.bound 0 = 0
  holds : ∀ v < g.numVertices, g.Holds v (elements v (adj v))
  logIdx : ∀ s < g.segmentCount, 0 ≤ g.logSegmentIdx s ∧ g.logSegmentIdx s ≤ maxLogEntries
  logClear : ∀ s < g.segmentCount, ∀ k, g.logSegmentIdx s ≤ k → (g.logPtr s).cur k = .zero
  actual : ∀ s < g.segmentCount, g.segmentEdgesActual (s + g.segmentCount) =
    g.degreeSum (s * g.segmentSize) ((s + 1) * g.segmentSize)
  total : ∀ s < g.segmentCount, g.segmentEdgesTotal (s + g.segmentCount) =
    g.bound ((s + 1) * g.segmentSize) - g.bound (s * g.segmentSize)
  numEdges : g.numEdges = g.degreeSum 0 g.numVertices

/-- No leaf is overfull, and a leaf with a log entry has a gap. -/
structure Fits (g : Graph) : Prop where
  le : ∀ s < g.segmentCount,
    g.segmentEdgesActual (s + g.segmentCount) ≤ g.segmentEdgesTotal (s + g.segmentCount)
  lt : ∀ s < g.segmentCount, 0 < g.logSegmentIdx s →
    g.segmentEdgesActual (s + g.segmentCount) < g.segmentEdgesTotal (s + g.segmentCount)

section Sums

variable {g g' : Graph} {a b c : ℕ}

/-- Degree sums of adjacent intervals add up. -/
lemma degreeSum_add (h1 : a ≤ b) (h2 : b ≤ c) :
    g.degreeSum a b + g.degreeSum b c = g.degreeSum a c :=
  Finset.sum_Ico_consecutive _ h1 h2

/-- Degree sums depend on the degrees only. -/
lemma degreeSum_congr (h : ∀ v, a ≤ v → v < b → (g'.vertices v).degree = (g.vertices v).degree) :
    g'.degreeSum a b = g.degreeSum a b :=
  Finset.sum_congr rfl fun v hv => by
    rw [Finset.mem_Ico] at hv
    exact h v hv.1 hv.2

/-- A degree that grows by one shows in the sums that contain its vertex. -/
lemma degreeSum_succ {v : ℕ} (h : ∀ w, a ≤ w → w < b → w ≠ v →
      (g'.vertices w).degree = (g.vertices w).degree)
    (hv : (g'.vertices v).degree = (g.vertices v).degree + 1) :
    g'.degreeSum a b = g.degreeSum a b + if a ≤ v ∧ v < b then 1 else 0 := by
  unfold degreeSum
  have e : ∀ w ∈ Finset.Ico a b, (g'.vertices w).degree =
      (g.vertices w).degree + if w = v then 1 else 0 := by
    intro w hw
    rw [Finset.mem_Ico] at hw
    by_cases hwv : w = v
    · subst hwv
      rw [hv, if_pos rfl]
    · rw [h w hw.1 hw.2 hwv, if_neg hwv, add_zero]
  rw [Finset.sum_congr rfl e, Finset.sum_add_distrib, Finset.sum_ite_eq' (Finset.Ico a b) v]
  simp

end Sums

section Leaves

variable {g : Graph} {v s : ℕ}

/-- The leaf of a vertex. -/
lemma leafOf_eq (v : ℕ) : g.leafOf v = v / g.segmentSize := by
  simp [leafOf, getSegmentId]

/-- The tree slot of a vertex' leaf. -/
lemma getSegmentId_eq (v : ℕ) : g.getSegmentId v = g.leafOf v + g.segmentCount := by
  rw [leafOf_eq]
  rfl

namespace Geometry

variable (hg : g.Geometry)

include hg

/-- The leaves cover the vertices. -/
lemma leafOf_lt (h : v < g.numVertices) : g.leafOf v < g.segmentCount := by
  rw [leafOf_eq]
  apply Nat.div_lt_of_lt_mul
  rw [← hg.vertices]
  exact h

/-- There are at least two leaves. -/
lemma two_le_count : 2 ≤ g.segmentCount := by
  rw [hg.count]
  calc 2 = 2 ^ 1 := rfl
    _ ≤ 2 ^ g.treeHeight := Nat.pow_le_pow_right (by omega) hg.height

/-- The slot of a leaf is not the unused slot 0. -/
lemma getSegmentId_pos (v : ℕ) : 0 < g.getSegmentId v := by
  have := hg.two_le_count
  rw [getSegmentId_eq]
  omega

/-- There are at least two vertices. -/
lemma two_le_vertices : 2 ≤ g.numVertices := by
  rw [hg.vertices]
  calc 2 = 1 * 2 := rfl
    _ ≤ g.segmentSize * g.segmentCount := Nat.mul_le_mul hg.size hg.two_le_count

/-- The vertices of the leaves below `s` come first. -/
lemma mul_le (h : s ≤ g.segmentCount) : s * g.segmentSize ≤ g.numVertices := by
  rw [hg.vertices, Nat.mul_comm]
  exact Nat.mul_le_mul_left _ h

/-- The vertices of a leaf. -/
lemma leafOf_iff (v s : ℕ) :
    g.leafOf v = s ↔ s * g.segmentSize ≤ v ∧ v < (s + 1) * g.segmentSize := by
  have := hg.size
  rw [leafOf_eq, Nat.div_eq_iff (by omega), Nat.succ_mul]
  omega

/-- The vertices of a range of leaves. -/
lemma leafOf_mem (v l r : ℕ) :
    (l ≤ g.leafOf v ∧ g.leafOf v < r) ↔ l * g.segmentSize ≤ v ∧ v < r * g.segmentSize := by
  have := hg.size
  rw [leafOf_eq, Nat.le_div_iff_mul_le (by omega), Nat.div_lt_iff_lt_mul (by omega)]

/-- The first vertex of a leaf lies in it. -/
lemma leafOf_mul (s : ℕ) : g.leafOf (s * g.segmentSize) = s := by
  rw [leafOf_eq, Nat.mul_div_cancel _ (by have := hg.size; omega)]

end Geometry

end Leaves

/-- The parts of a graph that no insertion changes. -/
structure SameShape (g g' : Graph) : Prop where
  directed : g'.directed = g.directed
  numVertices : g'.numVertices = g.numVertices
  segmentSize : g'.segmentSize = g.segmentSize
  segmentCount : g'.segmentCount = g.segmentCount
  treeHeight : g'.treeHeight = g.treeHeight
  foreign : g'.foreign = g.foreign

namespace SameShape

variable {g g' g'' : Graph}

/-- Nothing changes the shape it leaves alone. -/
lemma refl (g : Graph) : SameShape g g := ⟨rfl, rfl, rfl, rfl, rfl, rfl⟩

/-- Shapes are kept along a sequence of changes. -/
lemma trans (h : SameShape g g') (h' : SameShape g' g'') : SameShape g g'' :=
  ⟨h'.1.trans h.1, h'.2.trans h.2, h'.3.trans h.3, h'.4.trans h.4, h'.5.trans h.5, h'.6.trans h.6⟩

/-- The same shape has the same geometry. -/
lemma geometry (h : SameShape g g') (hg : g.Geometry) : g'.Geometry :=
  ⟨by rw [h.segmentCount, h.treeHeight]; exact hg.count, by rw [h.treeHeight]; exact hg.height,
    by rw [h.segmentSize]; exact hg.size,
    by rw [h.numVertices, h.segmentSize, h.segmentCount]; exact hg.vertices⟩

/-- The same shape has the same leaves. -/
lemma leafOf (h : SameShape g g') (v : ℕ) : g'.leafOf v = g.leafOf v := by
  rw [leafOf_eq, leafOf_eq, h.segmentSize]

end SameShape

namespace Layout

variable {g : Graph} {adj : ℕ → List ℕ} {v w s k : ℕ}

/-- The insert index of a vertex' log. -/
lemma logIdx_leafOf (h : g.Layout adj) (hv : v < g.numVertices) :
    0 ≤ g.logSegmentIdx (g.leafOf v) ∧ g.logSegmentIdx (g.leafOf v) ≤ maxLogEntries :=
  h.logIdx _ (h.geometry.leafOf_lt hv)

/-- The vertices of any window have their elements arranged. -/
lemma window (h : g.Layout adj) {a b : ℕ} (hb : b ≤ g.numVertices) :
    g.WindowArranged a b fun v => elements v (adj v) := fun v _ hv =>
  (h.holds v (by omega)).arranged (h.logIdx_leafOf (by omega)).1 (h.logIdx_leafOf (by omega)).2

/-- Degrees are positive. -/
lemma degree_pos (h : g.Layout adj) (hv : v < g.numVertices) : 1 ≤ (g.vertices v).degree := by
  rw [(h.holds v hv).degree, elements_length]
  omega

/-- The degrees in a window are not negative. -/
lemma degree_nonneg (h : g.Layout adj) {a b : ℕ} (hb : b ≤ g.numVertices) :
    ∀ v, a ≤ v → v < b → 0 ≤ (g.vertices v).degree :=
  fun _ _ hv => zero_le_one.trans (h.degree_pos (hv.trans_le hb))

/-- Vertices begin in order. -/
lemma bound_le (h : g.Layout adj) (hvw : v ≤ w) (hw : w ≤ g.numVertices) : g.bound v ≤ g.bound w :=
  (h.window (a := 0) (le_refl _)).bound_le (le_refl _) (Nat.zero_le v) hvw hw

/-- The on-segment elements of a vertex end before any later vertex begins. -/
lemma ordered (h : g.Layout adj) (hvw : v < w) (hw : w ≤ g.numVertices) :
    g.bound v + g.onseg v ≤ g.bound w :=
  (h.window (a := 0) (le_refl _)).ordered (le_refl _) (Nat.zero_le v) hvw hw

/-- No vertex begins left of slot 0. -/
lemma bound_nonneg (h : g.Layout adj) (hv : v ≤ g.numVertices) : 0 ≤ g.bound v := by
  rw [← h.first]
  exact h.bound_le (Nat.zero_le v) hv

/-- The array has a slot. -/
lemma capacity_pos (h : g.Layout adj) : 0 < g.elemCapacity := by
  have h2 := h.geometry.two_le_vertices
  have h1 := h.ordered (v := 0) (w := g.numVertices) (by omega) (le_refl _)
  have hpos := (h.holds 0 (by omega)).onseg_pos
  rw [h.first, bound_of_ge (le_refl _)] at h1
  omega

/-- Degree sums are at least the number of their vertices. -/
lemma degreeSum_ge (h : g.Layout adj) {a b : ℕ} (hb : b ≤ g.numVertices) :
    ((b - a : ℕ) : ℤ) ≤ g.degreeSum a b := by
  have hcard : ((b - a : ℕ) : ℤ) = ∑ _v ∈ Finset.Ico a b, (1 : ℤ) := by simp
  rw [hcard]
  refine Finset.sum_le_sum fun v hv => ?_
  rw [Finset.mem_Ico] at hv
  exact h.degree_pos (by omega)

/-- What `lock_in_batch` adds up over a range of leaves: the degrees of its vertices, and the distance
between its ends. -/
lemma lockInBatch_eq (h : g.Layout adj) (hk : s + k ≤ g.segmentCount) :
    g.lockInBatch k s = (g.degreeSum (s * g.segmentSize) ((s + k) * g.segmentSize),
      g.bound ((s + k) * g.segmentSize) - g.bound (s * g.segmentSize)) := by
  induction k generalizing s with
  | zero => simp [lockInBatch, degreeSum]
  | succ k ih =>
    rw [lockInBatch, ih (by omega), h.actual s (by omega), h.total s (by omega)]
    have e : s + 1 + k = s + (k + 1) := by omega
    refine Prod.ext ?_ ?_
    · simp only
      rw [e, degreeSum_add (Nat.mul_le_mul_right _ (by omega)) (Nat.mul_le_mul_right _ (by omega))]
    · simp only
      rw [e]
      ring

/-- A leaf has at least one slot for each of its vertices. -/
lemma total_pos (h : g.Layout adj) (hs : s < g.segmentCount) :
    0 < g.segmentEdgesTotal (s + g.segmentCount) := by
  have hsize := h.geometry.size
  have hle := h.geometry.mul_le (s := s + 1) (by omega)
  have hlt : s * g.segmentSize < (s + 1) * g.segmentSize := by
    rw [Nat.succ_mul]
    omega
  have := h.ordered hlt hle
  have := (h.holds (s * g.segmentSize) (by omega)).onseg_pos
  rw [h.total s hs]
  omega

end Layout

end Graph

end Dgap
