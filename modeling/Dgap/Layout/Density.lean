import Dgap.Layout.Run

/-!
# The density of the root

The capacity is between one and four times the number of elements. It starts at four times
(`compute_capacity`), the elements only grow in number, and it is doubled only by `resize_V1`, which
`insert` reaches on a walk that has found the root at least three quarters full
(`ReachesResize.root_dense`). The other bound is that every leaf fits, summed over the leaves
(`Layout.numEdges_le`).
-/

namespace Dgap

namespace Graph

variable {g g' g1 : Graph} {adj : ℕ → List ℕ} {tid src dst : ℕ}

/-- `insert` reaches `resize_V1`, with the graph `g1`: the insertion has filled the leaf of its source,
and the walk has left the tree. -/
structure ReachesResize (g : Graph) (tid src dst : ℕ) (g1 : Graph) : Prop where
  inserted : g.doInsertion tid src dst (g.getSegmentId src) = some g1
  full : g1.density (g.getSegmentId src) ≥ up0
  left : (g1.findWindow src (g.getSegmentId src) (g.getSegmentId src) 0).1 = 0

/-- The window at the height of the tree is the whole graph. -/
lemma Layout.segMeta_root (hL : g.Layout adj) (hs : src < g.numVertices) :
    g.segMeta src g.treeHeight = (g.numEdges, g.elemCapacity) := by
  have hg := hL.geometry
  have hn : g.segmentSize * 2 ^ g.treeHeight = g.numVertices := by rw [← hg.count, hg.vertices]
  have hl : g.leftIndex src g.treeHeight = 0 := by
    rw [leftIndex, hn, Nat.div_eq_of_lt hs, Nat.zero_mul]
  have hr : g.rightIndex src g.treeHeight = g.segmentCount * g.segmentSize := by
    rw [rightIndex, hl, hn, Nat.zero_add, min_self, hg.vertices, Nat.mul_comm]
  have hlseg : g.leftSegment src g.treeHeight = 0 := by
    rw [leftSegment, hl, leafOf_eq, Nat.zero_div]
  have hrseg : g.rightSegment src g.treeHeight = g.segmentCount := by
    rw [rightSegment, hr, hg.leafOf_mul]
  rw [hL.segMeta_eq hs, hlseg, hrseg, Nat.zero_mul, Nat.mul_comm, ← hg.vertices, hL.first,
    bound_of_ge (le_refl _), ← hL.numEdges, sub_zero]

/-- The threshold of the root is `up_h`. -/
lemma Geometry.upHeight_root (hg : g.Geometry) : g.upHeight g.treeHeight = upH := by
  have hh : (g.treeHeight : ℚ) ≠ 0 := by
    have := hg.height
    exact_mod_cast (by omega : g.treeHeight ≠ 0)
  rw [upHeight, deltaUp, mul_div_cancel₀ _ hh]
  ring

/-- A root that is not below its threshold is at least three quarters full. -/
lemma Layout.root_dense (hL : g.Layout adj) (hs : src < g.numVertices)
    (h : g.belowThreshold src g.treeHeight = false) :
    upH ≤ (g.numEdges : ℚ) / g.elemCapacity := by
  rw [belowThreshold, hL.segMeta_root hs, hL.geometry.upHeight_root] at h
  simpa using h

/-- The same without a division. -/
lemma Layout.capacity_le (hL : g.Layout adj) (hs : src < g.numVertices)
    (h : g.belowThreshold src g.treeHeight = false) : 3 * g.elemCapacity ≤ 4 * g.numEdges := by
  have hcap : (0 : ℚ) < g.elemCapacity := by
    have := hL.segMeta_pos hs g.treeHeight
    rw [hL.segMeta_root hs] at this
    exact_mod_cast this
  have hd := hL.root_dense hs h
  rw [le_div_iff₀ hcap, upH] at hd
  have : (3 : ℚ) * g.elemCapacity ≤ 4 * g.numEdges := by linarith
  exact_mod_cast this

/-- Where `insert` reaches `resize_V1` the root is at least three quarters full. -/
lemma ReachesResize.root_dense (h : ReachesResize g tid src dst g1) (hL : g.Layout adj)
    (hs : src < g.numVertices) : upH ≤ (g1.numEdges : ℚ) / g1.elemCapacity := by
  have hins := hL.doInsertion_spec hs h.inserted
  have hsh := hins.sameShape
  have hL1 := hins.layout hL hs
  have hleft := h.left
  rw [show g.getSegmentId src = g1.getSegmentId src by
    rw [getSegmentId_eq, getSegmentId_eq, hsh.leafOf, hsh.segmentCount]] at hleft
  exact hL1.root_dense (by rw [hsh.numVertices]; exact hs) (hL1.geometry.passed_root hleft)

/-- An insert that reaches `resize_V1` ends as it does. -/
lemma ReachesResize.insert_eq (h : ReachesResize g tid src dst g1) (hL : g.Layout adj) :
    g.insert tid src dst = g1.resizeV1 := by
  have hcount := hL.geometry.getSegmentId_pos src
  obtain ⟨hheight, -, -, -⟩ :=
    findWindow_spec g1 src (g.getSegmentId src) (g.getSegmentId src) 0 (le_refl _) hcount
  have hleft := h.left
  unfold insert
  simp only [h.inserted]
  rw [if_pos h.full]
  generalize g1.findWindow src (g.getSegmentId src) (g.getSegmentId src) 0 = w at *
  obtain ⟨window, height⟩ := w
  simp only at hleft hheight
  rw [if_neg (by omega), if_neg (by simpa using hleft), if_neg (not_lt.2 h.full)]

/-- An insert keeps the capacity within four times the number of elements. -/
lemma InsertStep.capacity_le (h : InsertStep g g' src dst) (hL : g.Layout adj)
    (hs : src < g.numVertices) (hcap : g.elemCapacity ≤ 4 * g.numEdges) :
    g'.elemCapacity ≤ 4 * g'.numEdges := by
  cases h with
  | plain h _ =>
    rw [h.elemCapacity, h.numEdges]
    omega
  | window h _ _ _ _ hr =>
    rw [hr.elemCapacity, hr.numEdges, h.elemCapacity, h.numEdges]
    omega
  | resize h _ hroot hr =>
    have hdense := (h.layout hL hs).capacity_le (by rw [h.sameShape.numVertices]; exact hs) hroot
    have hpos := (h.layout hL hs).degreeSum_ge (a := 0) (le_refl _)
    rw [← (h.layout hL hs).numEdges] at hpos
    rw [hr.elemCapacity, hr.numEdges]
    omega

section Sequential

variable {foreign : Foreign} {directed : Bool} {nVertices : ℕ} {base ops : List (ℕ × ℕ)}

/-- A check of where a sequence of inserts ends and of how the next one goes on, as a statement about a
run whose next insert reaches `resize_V1`. -/
lemma Run.exists_resize_of_check (foreign : Foreign) (directed : Bool) (tid nVertices : ℕ)
    (base ops : List (ℕ × ℕ)) (src dst : ℕ) (h2 : 2 ≤ nVertices)
    (hsorted : base.Pairwise fun e e' => e.1 ≤ e'.1)
    (hbase : ∀ e ∈ base, e.1 < nVertices ∧ e.2 < nVertices)
    (hops : ∀ e ∈ ops, e.1 < (computeCapacity nVertices).2.2 ∧ e.2 < (computeCapacity nVertices).2.2)
    (p : Graph → Bool)
    (h : ((create foreign directed nVertices base).bind (insertAll tid ops)).any (fun g =>
      (g.doInsertion tid src dst (g.getSegmentId src)).any fun g1 =>
        decide (g1.density (g.getSegmentId src) ≥ up0) &&
        (g1.findWindow src (g.getSegmentId src) (g.getSegmentId src) 0).1 == 0 && p g1) = true) :
    ∃ g g1, Run foreign directed tid nVertices base ops g ∧ ReachesResize g tid src dst g1 ∧
      p g1 = true := by
  obtain ⟨g, hg, hp⟩ := Run.exists_of_check foreign directed tid nVertices base ops h2 hsorted hbase
    hops _ h
  obtain ⟨g1, h1, hp1⟩ := (Option.any_eq_true _ _).1 hp
  simp only [Bool.and_eq_true, decide_eq_true_eq, beq_iff_eq] at hp1
  exact ⟨g, g1, hg, ⟨h1, hp1.1.1, hp1.1.2⟩, hp1.2⟩

/-- After the base load and after every insert the array has a slot for every element, and is at most
four times as large as the elements need; and the next insert only resizes an array that is at least
three quarters full. -/
theorem density_bounds (h : Run foreign directed tid nVertices base ops g) :
    (g.numEdges ≤ g.elemCapacity ∧ g.elemCapacity ≤ 4 * g.numEdges) ∧
    low0 ≤ (g.numEdges : ℚ) / g.elemCapacity ∧
    ∀ tid' src dst g1, src < g.numVertices → ReachesResize g tid' src dst g1 →
      upH ≤ (g1.numEdges : ℚ) / g1.elemCapacity := by
  have hL := h.layout
  have hle := hL.numEdges_le h.fits
  have hcap : g.elemCapacity ≤ 4 * g.numEdges :=
    h.induct (P := fun g _ => g.elemCapacity ≤ 4 * g.numEdges)
      (fun hc => by have := hc.elemCapacity; omega)
      fun hL _ hs _ hstep hcap => hstep.capacity_le hL hs hcap
  have hpos : (0 : ℚ) < g.elemCapacity := by
    have h1 := hL.degreeSum_ge (a := 0) (le_refl g.numVertices)
    have h2 := hL.numEdges
    have h3 := hL.geometry.two_le_vertices
    exact_mod_cast (by omega : 0 < g.elemCapacity)
  refine ⟨⟨hle, hcap⟩, ?_, fun tid' src dst g1 hs hreach => hreach.root_dense hL hs⟩
  have hcap' : (g.elemCapacity : ℚ) ≤ 4 * g.numEdges := by exact_mod_cast hcap
  rw [le_div_iff₀ hpos, low0]
  linarith

/-- Two vertices without a base edge: the fifth edge from the first vertex resizes the array. -/
theorem density_bounds_two : ∃ g g1,
    Run ⟨fun _ => 7, fun _ => .zero⟩ true 0 2 [] (List.replicate 4 (0, 1)) g ∧
    ReachesResize g 0 0 1 g1 ∧ (g.numEdges ≤ g.elemCapacity ∧ g.elemCapacity ≤ 4 * g.numEdges) ∧
    upH ≤ (g1.numEdges : ℚ) / g1.elemCapacity := by
  obtain ⟨g, g1, hg, hreach, -⟩ := Run.exists_resize_of_check ⟨fun _ => 7, fun _ => .zero⟩ true 0 2 []
    (List.replicate 4 (0, 1)) 0 1 (by decide) (by decide) (by decide) (by decide) (fun _ => true)
    (by decide +kernel)
  obtain ⟨h1, -, h2⟩ := density_bounds hg
  exact ⟨g, g1, hg, hreach, h1, h2 0 0 1 g1 (by rw [hg.numVertices]; decide) hreach⟩

end Sequential

end Graph

end Dgap
