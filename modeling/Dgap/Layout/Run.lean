import Dgap.Layout.Safe
import Dgap.Layout.Load
import Dgap.Layout.Read

/-!
# Sequential runs

A `Run` is a base load followed by inserts, one after another, that aborts nowhere. What one insert does
is `InsertStep`; what holds along a run follows by `Run.induct`. The graph at the end of a run represents
the base edges and the inserted ones in order of arrival (`Run.layout`), every leaf fits (`Run.fits`), and
a run only ends when the numbers exceed the precision of the positions (`Run.exists_of_bound`).
-/

namespace Dgap

open Memory

namespace Graph

/-- The base load of `base` and the inserts `ops`, all ids in range, end in `g`. -/
structure Run (foreign : Foreign) (directed : Bool) (tid nVertices : ℕ) (base ops : List (ℕ × ℕ))
    (g : Graph) : Prop where
  two_le : 2 ≤ nVertices
  sorted : base.Pairwise fun e e' => e.1 ≤ e'.1
  baseIds : ∀ e ∈ base, e.1 < nVertices ∧ e.2 < nVertices
  opIds : ∀ e ∈ ops, e.1 < (computeCapacity nVertices).2.2 ∧ e.2 < (computeCapacity nVertices).2.2
  run : (create foreign directed nVertices base).bind (insertAll tid ops) = some g

section Inserts

variable {g g' : Graph} {adj : ℕ → List ℕ} {tid : ℕ} {ops : List (ℕ × ℕ)}

/-- The first insert of a sequence. -/
lemma insertAll_cons {e : ℕ × ℕ} (h : insertAll tid (e :: ops) g = some g') :
    ∃ g1, g.insert tid e.1 e.2 = some g1 ∧ insertAll tid ops g1 = some g' := by
  simp only [insertAll] at h
  cases h1 : g.insert tid e.1 e.2 with
  | none => simp [h1] at h
  | some g1 =>
    rw [h1] at h
    exact ⟨g1, rfl, h⟩

/-- A sequence of inserts in two parts. -/
lemma insertAll_append {ops1 ops2 : List (ℕ × ℕ)} (h : insertAll tid (ops1 ++ ops2) g = some g') :
    ∃ g1, insertAll tid ops1 g = some g1 ∧ insertAll tid ops2 g1 = some g' := by
  induction ops1 generalizing g with
  | nil => exact ⟨g, rfl, h⟩
  | cons e ops1 ih =>
    obtain ⟨g1, h1, h2⟩ := insertAll_cons h
    obtain ⟨g2, h3, h4⟩ := ih h2
    exact ⟨g2, by simp only [insertAll, h1, h3], h4⟩

/-- What every insert of a sequence keeps, the sequence keeps. -/
lemma insertAll_induct {P : Graph → (ℕ → List ℕ) → Prop} (hL : g.Layout adj) (hF : g.Fits)
    (hP : P g adj) (hids : ∀ e ∈ ops, e.1 < g.numVertices)
    (step : ∀ {g1 g2 : Graph} {adj1 : ℕ → List ℕ} {src dst : ℕ}, g1.Layout adj1 → g1.Fits →
      src < g1.numVertices → g1.insert tid src dst = some g2 → InsertStep g1 g2 src dst →
      P g1 adj1 → P g2 (Multigraph.insert adj1 (src, dst)))
    (h : insertAll tid ops g = some g') :
    g'.Layout (ops.foldl Multigraph.insert adj) ∧ g'.Fits ∧ SameShape g g' ∧
      P g' (ops.foldl Multigraph.insert adj) := by
  induction ops generalizing g adj with
  | nil =>
    obtain rfl := Option.some.inj h
    exact ⟨hL, hF, .refl g, hP⟩
  | cons e ops ih =>
    obtain ⟨g1, h1, h2⟩ := insertAll_cons h
    have hs := hids e List.mem_cons_self
    have hstep := hL.insert_spec hs h1
    have hsh := hstep.sameShape
    obtain ⟨hL', hF', hsh', hP'⟩ := ih (hstep.layout hL hs) (hstep.fits hL hs hF)
      (step hL hF hs h1 hstep hP)
      (fun e' he' => by rw [hsh.numVertices]; exact hids e' (List.mem_cons_of_mem _ he')) h2
    exact ⟨hL', hF', hsh.trans hsh', hP'⟩

/-- A sequence of inserts aborts nowhere while the numbers stay below the precision of the step. -/
lemma insertAll_isSome (hL : g.Layout adj) (hF : g.Fits) (hids : ∀ e ∈ ops, e.1 < g.numVertices)
    (tid : ℕ) (hbound : g.numEdges + ops.length + g.numVertices ≤ 100000000) :
    ∃ g', insertAll tid ops g = some g' := by
  induction ops generalizing g adj with
  | nil => exact ⟨g, rfl⟩
  | cons e ops ih =>
    have hs := hids e List.mem_cons_self
    rw [List.length_cons] at hbound
    push_cast at hbound
    obtain ⟨g1, h1⟩ := hL.insert_isSome hF hs tid e.2 (by omega)
    have hstep := hL.insert_spec hs h1
    obtain ⟨g', h'⟩ := ih (hstep.layout hL hs) (hstep.fits hL hs hF)
      (fun e' he' => by
        rw [hstep.sameShape.numVertices]
        exact hids e' (List.mem_cons_of_mem _ he'))
      (by rw [hstep.numEdges, hstep.sameShape.numVertices]; omega)
    exact ⟨g', by simp only [insertAll, h1, h']⟩

end Inserts

/-- The persistent root records the sizes of a graph that has not been closed. -/
structure Recorded (g : Graph) : Prop where
  directed : g.bp.directed = g.directed
  numVertices : g.bp.numVertices = g.numVertices
  elemCapacity : g.bp.elemCapacity = g.elemCapacity
  segmentSize : g.bp.segmentSize = g.segmentSize
  segmentCount : g.bp.segmentCount = g.segmentCount
  treeHeight : g.bp.treeHeight = g.treeHeight
  backedUp : g.bp.backedUp = false

/-- A new graph is recorded. -/
lemma Created.recorded {foreign : Foreign} {directed : Bool} {nVertices : ℕ} {base : List (ℕ × ℕ)}
    {g : Graph} (h : Created g foreign directed nVertices base) : g.Recorded := by
  have hsh := h.shape
  refine ⟨?_, ?_, ?_, ?_, ?_, ?_, ?_⟩
  · rw [h.bp, hsh.directed]
    rfl
  · rw [h.bp, hsh.numVertices]
    rfl
  · rw [h.bp, h.elemCapacity, h.numEdges, hsh.numVertices]
    rfl
  · rw [h.bp, hsh.segmentSize]
    rfl
  · rw [h.bp, hsh.segmentCount]
    rfl
  · rw [h.bp, hsh.treeHeight]
    rfl
  · rw [h.bp]
    rfl

/-- An insert keeps the record. -/
lemma InsertStep.recorded {g g' : Graph} {src dst : ℕ} (h : InsertStep g g' src dst)
    (hr : g.Recorded) : g'.Recorded := by
  have hbp := h.bp hr.elemCapacity
  have hsh := h.sameShape
  refine ⟨?_, ?_, ?_, ?_, ?_, ?_, ?_⟩
  · rw [hbp, hsh.directed]
    exact hr.directed
  · rw [hbp, hsh.numVertices]
    exact hr.numVertices
  · rw [hbp]
  · rw [hbp, hsh.segmentSize]
    exact hr.segmentSize
  · rw [hbp, hsh.segmentCount]
    exact hr.segmentCount
  · rw [hbp, hsh.treeHeight]
    exact hr.treeHeight
  · rw [hbp]
    exact hr.backedUp

namespace Run

variable {foreign : Foreign} {directed : Bool} {tid nVertices : ℕ} {base ops : List (ℕ × ℕ)}
  {g : Graph}

/-- A run begins with a base load. -/
lemma created (h : Run foreign directed tid nVertices base ops g) :
    ∃ g0, Created g0 foreign directed nVertices base ∧ insertAll tid ops g0 = some g ∧
      ∀ e ∈ ops, e.1 < g0.numVertices := by
  obtain ⟨g0, h0, h1⟩ := Option.bind_eq_some_iff.1 h.run
  have hc := create_spec h.two_le h.sorted (fun e he => (h.baseIds e he).1) h0
  refine ⟨g0, hc, h1, fun e he => ?_⟩
  rw [hc.shape.numVertices]
  exact (h.opIds e he).1

/-- What a new graph satisfies and every insert keeps holds at the end of every run. -/
lemma induct {P : Graph → (ℕ → List ℕ) → Prop}
    (init : ∀ {g0}, Created g0 foreign directed nVertices base → P g0 (Multigraph.ofEdges base))
    (step : ∀ {g1 g2 : Graph} {adj : ℕ → List ℕ} {src dst : ℕ}, g1.Layout adj → g1.Fits →
      src < g1.numVertices → g1.insert tid src dst = some g2 → InsertStep g1 g2 src dst →
      P g1 adj → P g2 (Multigraph.insert adj (src, dst)))
    (h : Run foreign directed tid nVertices base ops g) :
    P g (Multigraph.ofEdges (base ++ ops)) := by
  obtain ⟨g0, hc, hops, hids⟩ := h.created
  obtain ⟨-, -, -, hP⟩ := insertAll_induct hc.layout hc.fits (init hc) hids step hops
  have hadj : ops.foldl Multigraph.insert (Multigraph.ofEdges base) =
      Multigraph.ofEdges (base ++ ops) := by
    funext u
    rw [Multigraph.foldl_insert, Multigraph.ofEdges_append]
  rwa [hadj] at hP

/-- A run ends in a layout of the base edges and the inserted ones. -/
lemma layout (h : Run foreign directed tid nVertices base ops g) :
    g.Layout (Multigraph.ofEdges (base ++ ops)) :=
  h.induct (P := fun g adj => g.Layout adj) (fun hc => hc.layout)
    fun hL _ hs _ hstep _ => hstep.layout hL hs

/-- Every leaf fits at the end of a run. -/
lemma fits (h : Run foreign directed tid nVertices base ops g) : g.Fits :=
  h.induct (P := fun g _ => g.Fits) (fun hc => hc.fits)
    fun hL hF hs _ hstep _ => hstep.fits hL hs hF

/-- The persistent root records the sizes at the end of a run. -/
lemma recorded (h : Run foreign directed tid nVertices base ops g) : g.Recorded :=
  h.induct (P := fun g _ => g.Recorded) (fun hc => hc.recorded)
    fun _ _ _ _ hstep h => hstep.recorded h

/-- The number of vertices is what `compute_capacity` says. -/
lemma numVertices (h : Run foreign directed tid nVertices base ops g) :
    g.numVertices = (computeCapacity nVertices).2.2 :=
  h.induct (P := fun g _ => g.numVertices = (computeCapacity nVertices).2.2)
    (fun hc => hc.shape.numVertices)
    fun _ _ _ _ hstep h => hstep.sameShape.numVertices.trans h

/-- The number of elements: an edge each, and a pivot for every vertex. -/
lemma numEdges (h : Run foreign directed tid nVertices base ops g) :
    g.numEdges = (base ++ ops).length + g.numVertices := by
  have hL := h.layout
  have hdeg : ∀ v ∈ Finset.Ico 0 g.numVertices,
      (g.vertices v).degree = (Multigraph.ofEdges (base ++ ops) v).length + 1 := fun v hv => by
    rw [(hL.holds v (Finset.mem_Ico.1 hv).2).degree, elements_length]
    push_cast
    rfl
  have hids : ∀ e ∈ base ++ ops, e.1 < g.numVertices := by
    obtain ⟨g0, hc, -, hops⟩ := h.created
    intro e he
    rw [h.numVertices]
    have hn : g0.numVertices = (computeCapacity nVertices).2.2 := hc.shape.numVertices
    rcases List.mem_append.1 he with he | he
    · have h1 := (h.baseIds e he).1
      have h2 := hc.numVertices
      omega
    · exact (h.opIds e he).1
  rw [hL.numEdges, degreeSum, Finset.sum_congr rfl hdeg, Finset.sum_add_distrib,
    ← Multigraph.sum_length_ofEdges _ hids]
  simp

/-- Below the precision of the step every sequence of inserts is a run. -/
lemma exists_of_bound (foreign : Foreign) (directed : Bool) (tid : ℕ) (h2 : 2 ≤ nVertices)
    (hsorted : base.Pairwise fun e e' => e.1 ≤ e'.1)
    (hbase : ∀ e ∈ base, e.1 < nVertices ∧ e.2 < nVertices)
    (hops : ∀ e ∈ ops, e.1 < (computeCapacity nVertices).2.2 ∧ e.2 < (computeCapacity nVertices).2.2)
    (hbound : base.length + ops.length + 2 * (computeCapacity nVertices).2.2 ≤ 100000000) :
    ∃ g, Run foreign directed tid nVertices base ops g := by
  obtain ⟨g0, h0⟩ := create_isSome foreign directed h2 hsorted
    (fun e he => (hbase e he).1) (by omega)
  have hc := create_spec h2 hsorted (fun e he => (hbase e he).1) h0
  have hn : g0.numVertices = (computeCapacity nVertices).2.2 := hc.shape.numVertices
  obtain ⟨g, hg⟩ := insertAll_isSome hc.layout hc.fits
    (fun e he => by rw [hn]; exact (hops e he).1) tid (by rw [hc.numEdges]; omega)
  exact ⟨g, h2, hsorted, hbase, hops, by rw [h0, Option.bind_some, hg]⟩

/-- A check of where a sequence of inserts ends, as a statement about its run. -/
lemma exists_of_check (foreign : Foreign) (directed : Bool) (tid nVertices : ℕ)
    (base ops : List (ℕ × ℕ)) (h2 : 2 ≤ nVertices)
    (hsorted : base.Pairwise fun e e' => e.1 ≤ e'.1)
    (hbase : ∀ e ∈ base, e.1 < nVertices ∧ e.2 < nVertices)
    (hops : ∀ e ∈ ops, e.1 < (computeCapacity nVertices).2.2 ∧ e.2 < (computeCapacity nVertices).2.2)
    (p : Graph → Bool)
    (h : ((create foreign directed nVertices base).bind (insertAll tid ops)).any p = true) :
    ∃ g, Run foreign directed tid nVertices base ops g ∧ p g = true := by
  obtain ⟨g, hg, hp⟩ := (Option.any_eq_true p _).1 h
  exact ⟨g, ⟨h2, hsorted, hbase, hops, hg⟩, hp⟩

end Run

section Sequential

variable {foreign : Foreign} {directed : Bool} {tid nVertices : ℕ} {base ops : List (ℕ × ℕ)}
  {g : Graph}

/-- After the base load and after every insert, a vertex has the degree of its edges so far and yields
them all: the `k` on-segment ones in order of arrival, then the logged ones in reverse. -/
theorem outNeigh_correct (h : Run foreign directed tid nVertices base ops g) {v : ℕ}
    (hv : v < g.numVertices) :
    let l := Multigraph.ofEdges (base ++ ops) v
    let k := (g.onseg v - 1).toNat
    g.outDegree v = l.length ∧ k ≤ l.length ∧ ((g.vertices v).offset = -1 → k = l.length) ∧
      (g.outNeigh v 0).Yields ((l.take k ++ (l.drop k).reverse).map Nat.cast) := by
  have hh := h.layout.holds v hv
  have hpos := hh.onseg_pos
  have hle := hh.onseg_le
  have hdeg := hh.degree
  rw [elements_length] at hle hdeg
  push_cast at hle hdeg
  refine ⟨?_, by omega, fun ho => ?_, hh.outNeigh_yields hv⟩
  · rw [outDegree, hdeg]
    ring
  · rw [onseg_of_none ho] at *
    omega

/-- The same read off two vertices with an edge in each direction. -/
theorem outNeigh_correct_two : ∃ g, Run ⟨fun _ => 7, fun _ => .zero⟩ true 0 2 [(0, 1)]
    [(1, 0), (0, 1)] g ∧ g.outDegree 0 = 2 ∧
    (g.outNeigh 0 0).Yields (([1, 1].take (g.onseg 0 - 1).toNat ++
      ([1, 1].drop (g.onseg 0 - 1).toNat).reverse).map Nat.cast) := by
  obtain ⟨g, hg⟩ : ∃ g, Run ⟨fun _ => 7, fun _ => .zero⟩ true 0 2 [(0, 1)] [(1, 0), (0, 1)] g :=
    Run.exists_of_bound _ _ _ (by decide) (by decide) (by decide) (by decide) (by decide)
  have hn : 0 < g.numVertices := by rw [hg.numVertices]; decide
  obtain ⟨h1, -, -, h2⟩ := outNeigh_correct hg hn
  exact ⟨g, hg, h1, h2⟩

/-- The representation invariant holds after the base load and after every insert. -/
theorem representation (h : Run foreign directed tid nVertices base ops g) :
    ((g.vertices 0).index = 0 ∧
      ∀ v < g.numVertices, (g.vertices v).index + g.onseg v ≤ g.bound (v + 1)) ∧
    (∀ v < g.numVertices, 1 ≤ (g.vertices v).degree ∧
      g.edges.cur (g.vertices v).index = -(v : ℤ)) ∧
    (∀ v < g.numVertices, (g.vertices v).offset ≠ -1 →
      ∃ slots, Chain (fun k => ((g.logPtr (g.leafOf v)).cur k).prevOffset)
          (g.logSegmentIdx (g.leafOf v)) (g.vertices v).offset slots ∧
        (slots.length : ℤ) = (g.vertices v).degree - g.onseg v ∧
        ∀ k ∈ slots, ((g.logPtr (g.leafOf v)).cur k).u = v) ∧
    ((∀ s < g.segmentCount,
        g.segmentEdgesActual (s + g.segmentCount) =
          ∑ v ∈ Finset.Ico (s * g.segmentSize) ((s + 1) * g.segmentSize), (g.vertices v).degree ∧
        g.segmentEdgesTotal (s + g.segmentCount) =
          g.bound ((s + 1) * g.segmentSize) - (g.vertices (s * g.segmentSize)).index) ∧
      g.numEdges = ∑ v ∈ Finset.Ico 0 g.numVertices, (g.vertices v).degree) ∧
    ∀ s < g.segmentCount,
      g.segmentEdgesActual (s + g.segmentCount) ≤ g.segmentEdgesTotal (s + g.segmentCount) ∧
      (g.logSegmentIdx s ≠ 0 →
        g.segmentEdgesActual (s + g.segmentCount) < g.segmentEdgesTotal (s + g.segmentCount)) := by
  have hL := h.layout
  have hF := h.fits
  have hg := hL.geometry
  have h2 := hg.two_le_vertices
  refine ⟨⟨?_, fun v hv => (hL.holds v hv).room⟩, fun v hv => ⟨hL.degree_pos hv, ?_⟩,
    fun v hv _ => ?_, ⟨fun s hs => ⟨hL.actual s hs, ?_⟩, hL.numEdges⟩,
    fun s hs => ⟨hF.le s hs, fun hne => hF.lt s hs ?_⟩⟩
  · have h0 := hL.first
    rwa [bound_of_lt (by omega)] at h0
  · -- the pivot is the first element
    have hh := hL.holds v hv
    have hpos := hh.onseg_pos
    have hslots := hh.slots
    rw [show (g.onseg v).toNat = (g.onseg v).toNat - 1 + 1 by omega, slice, elements,
      List.take_succ_cons, List.cons.injEq] at hslots
    exact hslots.1
  · have hh := hL.holds v hv
    have hle := hh.onseg_le
    have hpos := hh.onseg_pos
    obtain ⟨slots, hc, hu, hvals⟩ := hh.logged
    refine ⟨slots, hc, ?_, hu⟩
    have hlen := congrArg List.length hvals
    rw [List.length_map, List.length_reverse, List.length_drop] at hlen
    rw [hh.degree]
    omega
  · have hle := hg.mul_le (s := s + 1) (by omega)
    have hsize := hg.size
    rw [Nat.succ_mul] at hle
    rw [hL.total s hs, bound_of_lt (v := s * g.segmentSize) (by omega)]
  · have := (hL.logIdx s hs).1
    omega

/-- The invariant of a graph with two vertices and three edges. -/
theorem representation_two : ∃ g, Run ⟨fun _ => 7, fun _ => .zero⟩ true 0 2 [(0, 1)]
    [(1, 0), (0, 1)] g ∧ (g.vertices 0).index = 0 ∧
    g.numEdges = ∑ v ∈ Finset.Ico 0 g.numVertices, (g.vertices v).degree := by
  obtain ⟨g, hg⟩ : ∃ g, Run ⟨fun _ => 7, fun _ => .zero⟩ true 0 2 [(0, 1)] [(1, 0), (0, 1)] g :=
    Run.exists_of_bound _ _ _ (by decide) (by decide) (by decide) (by decide) (by decide)
  obtain ⟨⟨h1, -⟩, -, -, ⟨-, h2⟩, -⟩ := representation hg
  exact ⟨g, hg, h1, h2⟩

/-- In a sequential run whose elements and vertices stay below `10^8` no assertion fails: the base load
and the inserts so far end in some graph, the next insert returns, a full log finds a gap in its leaf and
the pending edge a place, and no density has a zero denominator. -/
theorem no_assertion_fails (h2 : 2 ≤ nVertices)
    (hsorted : base.Pairwise fun e e' => e.1 ≤ e'.1)
    (hbase : ∀ e ∈ base, e.1 < nVertices ∧ e.2 < nVertices)
    (hops : ∀ e ∈ ops, e.1 < (computeCapacity nVertices).2.2 ∧ e.2 < (computeCapacity nVertices).2.2)
    {src dst : ℕ} (hsrc : src < (computeCapacity nVertices).2.2)
    (hbound : base.length + (ops.length + 1) + 2 * (computeCapacity nVertices).2.2 ≤ 100000000) :
    ∃ g, Run foreign directed tid nVertices base ops g ∧
      (g.logSegmentIdx (g.leafOf src) ≥ maxLogEntries →
        g.segmentEdgesActual (g.getSegmentId src) < g.segmentEdgesTotal (g.getSegmentId src)) ∧
      (∃ g1 g2, g.makeLogRoom tid src (g.getSegmentId src) = some g1 ∧
        g1.placeEdge src dst (g1.getSegmentId src) = some g2) ∧
      (∃ g1, g.doInsertion tid src dst (g.getSegmentId src) = some g1 ∧
        g1.segmentEdgesTotal (g.getSegmentId src) ≠ 0 ∧
        (∀ height, (g1.segMeta src height).2 ≠ 0) ∧ g1.treeHeight ≠ 0) ∧
      ∃ g', g.insert tid src dst = some g' := by
  obtain ⟨g, hg⟩ := Run.exists_of_bound foreign directed tid h2 hsorted hbase hops
    (by omega)
  have hL := hg.layout
  have hF := hg.fits
  have hs : src < g.numVertices := by rw [hg.numVertices]; exact hsrc
  have hlt := hL.geometry.leafOf_lt hs
  have hnum : g.numEdges + 1 + g.numVertices ≤ 100000000 := by
    rw [hg.numEdges, hg.numVertices, List.length_append]
    push_cast
    omega
  refine ⟨g, hg, fun hfull => ?_, ?_, ?_, hL.insert_isSome hF hs tid dst hnum⟩
  · rw [getSegmentId_eq]
    have : (0 : ℤ) < maxLogEntries := by decide
    exact hF.lt _ hlt (by omega)
  · obtain ⟨g1, h1, hsh, hL1, hidx⟩ := hL.makeLogRoom_isSome hF hs tid (by omega)
    obtain ⟨g2, h2⟩ := hL1.placeEdge_isSome (by rw [hsh.numVertices]; exact hs) dst
      (by rw [hsh.leafOf]; exact hidx)
    exact ⟨g1, g2, h1, h2⟩
  · obtain ⟨g1, h1⟩ := hL.doInsertion_isSome hF hs tid dst (by omega)
    have hins := hL.doInsertion_spec hs h1
    have hsh := hins.sameShape
    have hseg : g1.getSegmentId src = g.getSegmentId src := by
      rw [getSegmentId_eq, getSegmentId_eq, hsh.leafOf, hsh.segmentCount]
    have hs1 : src < g1.numVertices := by rw [hsh.numVertices]; exact hs
    have hden := (hins.layout hL hs).denominators hs1
    rw [hseg] at hden
    exact ⟨g1, h1, hden⟩

/-- Two vertices, one base edge, and the third of three inserts. -/
theorem no_assertion_fails_two : ∃ g, Run ⟨fun _ => 7, fun _ => .zero⟩ true 0 2 [(0, 1)]
    [(1, 0), (0, 1)] g ∧ ∃ g', g.insert 0 0 1 = some g' := by
  obtain ⟨g, hg, -, -, -, h⟩ := @no_assertion_fails ⟨fun _ => 7, fun _ => .zero⟩ true 0 2 [(0, 1)]
    [(1, 0), (0, 1)] (by decide) (by decide) (by decide) (by decide) 0 1 (by decide) (by decide)
  exact ⟨g, hg, h⟩

end Sequential

end Graph

end Dgap
