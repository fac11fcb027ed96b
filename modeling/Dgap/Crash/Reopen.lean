import Dgap.Graph.Recovery
import Dgap.Layout.Run

/-!
# Closing and reopening

The destructor writes, and the reopen branch of the constructor copies back, everything that reading a
graph needs (`reopen_close`). It does not set `leaf_segments`, whose mutexes `insert` locks, so a reopened
graph answers as the graph that was closed, and takes no insert (`reopen_transparent`).
-/

namespace Dgap

namespace Graph

variable {g : Graph}

/-- `r` answers as `g` does: the same numbers of vertices and edges, and for every vertex the same degree
and the same sequence of neighbours. -/
structure SameAnswers (g r : Graph) : Prop where
  numVertices : r.numVertices = g.numVertices
  numEdges : r.numEdges = g.numEdges
  outDegree : ∀ v < g.numVertices, r.outDegree v = g.outDegree v
  outNeigh : ∀ v < g.numVertices, ∀ l, (r.outNeigh v 0).Yields l ↔ (g.outNeigh v 0).Yields l

/-- `r` has the sizes, the edge array, the logs, the vertices and the counters of `g`. -/
structure Loads (g r : Graph) : Prop where
  numVertices : r.numVertices = g.numVertices
  numEdges : r.numEdges = g.numEdges
  elemCapacity : r.elemCapacity = g.elemCapacity
  segmentSize : r.segmentSize = g.segmentSize
  segmentCount : r.segmentCount = g.segmentCount
  treeHeight : r.treeHeight = g.treeHeight
  edges : r.edges.cur = g.edges.cur
  logs : ∀ s, (r.logPtr s).cur = (g.logPtr s).cur
  vertices : ∀ v < g.numVertices, r.vertices v = g.vertices v
  logIdx : ∀ s < g.segmentCount, r.logSegmentIdx s = g.logSegmentIdx s
  actual : ∀ j < 2 * g.segmentCount, r.segmentEdgesActual j = g.segmentEdgesActual j
  total : ∀ j < 2 * g.segmentCount, r.segmentEdgesTotal j = g.segmentEdgesTotal j

/-- The constructor trusts the flag. -/
lemma reopen_of_backedUp {p : Pool} (h : p.bp.backedUp = true) (foreign : Foreign) (fresh : Fresh) :
    p.reopen foreign fresh = some (Pool.restore (p.mount foreign fresh)) := if_pos h

/-- `recovery` does not write the persistent root. -/
lemma recovery_bp {r : Graph} (h : g.recovery = some r) : r.bp = g.bp := by
  unfold recovery at h
  split at h
  · cases h
  · obtain rfl := Option.some.inj h
    rfl

/-- The reopen branch of the constructor leaves the flag as it was. -/
lemma reopen_backedUp {p : Pool} {foreign : Foreign} {fresh : Fresh} {r : Graph}
    (h : p.reopen foreign fresh = some r) : r.bp.backedUp = p.bp.backedUp := by
  unfold Pool.reopen at h
  simp only at h
  split at h
  · obtain rfl := Option.some.inj h
    rfl
  · split at h
    · cases h
    · rename_i hrec
      obtain rfl := Option.some.inj h
      have hbp := congrArg Base.backedUp (recovery_bp hrec)
      exact hbp

/-- After the destructor the constructor loads the graph again. -/
lemma reopen_close (g : Graph) (foreign : Foreign) (fresh : Fresh) :
    ∃ r, g.close.reopen foreign fresh = some r ∧ g.Loads r := by
  refine ⟨Pool.restore (g.close.mount foreign fresh), reopen_of_backedUp rfl _ _, rfl, rfl, rfl, rfl,
    rfl, rfl, rfl, fun _ => rfl, fun v hv => ?_, fun s hs => ?_, fun j hj => ?_, fun j hj => ?_⟩
  · exact (if_pos hv).trans (if_pos hv)
  · exact (if_pos hs).trans (if_pos hs)
  · exact (if_pos hj).trans (if_pos hj)
  · exact (if_pos hj).trans (if_pos hj)

/-- What is loaded answers as before. -/
lemma Loads.answers {r : Graph} (h : g.Loads r) : g.SameAnswers r := by
  refine ⟨h.numVertices, h.numEdges, fun v hv => by rw [outDegree, outDegree, h.vertices v hv],
    fun v hv l => ?_⟩
  have honseg : r.onsegEdges v = g.onsegEdges v := by
    rw [onsegEdges, onsegEdges, h.vertices v hv, h.numVertices, h.elemCapacity]
    by_cases hlast : v ≥ g.numVertices - 1
    · rw [if_pos hlast, if_pos hlast]
    · rw [if_neg hlast, if_neg hlast, h.vertices (v + 1) (by omega)]
  rw [outNeigh, outNeigh, honseg, h.edges, h.vertices v hv, h.segmentSize, h.logs]

section Sequential

variable {foreign : Foreign} {directed : Bool} {tid nVertices : ℕ} {base opsA opsB : List (ℕ × ℕ)}
  {gA : Graph}

/-- A graph that is closed after `opsA`, reopened and given `opsB` answers as the one that was never closed
if and only if there is nothing in `opsB`. -/
theorem reopen_transparent (hA : Run foreign directed tid nVertices base opsA gA)
    (hAB : Run foreign directed tid nVertices base (opsA ++ opsB) g) (fresh : Fresh) :
    (∃ p, (Process.reopen foreign fresh gA.close).bind (Process.insertAll tid opsB) = some p ∧
      g.SameAnswers p.g) ↔ opsB = [] := by
  obtain ⟨r, hr, hloads⟩ := reopen_close gA foreign fresh
  have hp : Process.reopen foreign fresh gA.close = some ⟨r, false⟩ := by
    rw [Process.reopen, hr, Option.map_some]
  rw [hp, Option.bind_some]
  cases opsB with
  | nil =>
    rw [List.append_nil] at hAB
    obtain rfl : gA = g := Option.some.inj (hA.run.symm.trans hAB.run)
    exact ⟨fun _ => rfl, fun _ => ⟨_, rfl, hloads.answers⟩⟩
  | cons e opsB =>
    -- the first insert finds no mutexes
    refine ⟨fun ⟨p, hp, _⟩ => ?_, fun h => by cases h⟩
    cases hp

/-- Closing and reopening after one insert. -/
theorem reopen_transparent_two : ∃ gA, Run ⟨fun _ => 7, fun _ => .zero⟩ true 0 2 [(0, 1)] [(1, 0)] gA ∧
    ∃ p, (Process.reopen ⟨fun _ => 7, fun _ => .zero⟩ ⟨fun _ => ⟨7, 7, 7⟩, fun _ => 7⟩ gA.close).bind
      (Process.insertAll 0 []) = some p ∧ gA.SameAnswers p.g := by
  obtain ⟨gA, hA⟩ : ∃ gA, Run ⟨fun _ => 7, fun _ => .zero⟩ true 0 2 [(0, 1)] [(1, 0)] gA :=
    Run.exists_of_bound _ _ _ (by decide) (by decide) (by decide) (by decide) (by decide)
  have hAB : Run ⟨fun _ => 7, fun _ => .zero⟩ true 0 2 [(0, 1)] ([(1, 0)] ++ []) gA := hA
  exact ⟨gA, hA, (reopen_transparent hA hAB _).2 rfl⟩

/-- A new graph that is closed and reopened takes no edge, where the one that stayed open does. -/
theorem reopen_transparent_fails : ∃ gA g, Run ⟨fun _ => 0, fun _ => .zero⟩ true 0 2 [] [] gA ∧
    Run ⟨fun _ => 0, fun _ => .zero⟩ true 0 2 [] ([] ++ [(0, 1)]) g ∧
    ¬∃ p, (Process.reopen ⟨fun _ => 0, fun _ => .zero⟩ ⟨fun _ => .zero, fun _ => 0⟩ gA.close).bind
      (Process.insertAll 0 [(0, 1)]) = some p ∧ g.SameAnswers p.g := by
  obtain ⟨gA, hA⟩ : ∃ gA, Run ⟨fun _ => 0, fun _ => .zero⟩ true 0 2 [] [] gA :=
    Run.exists_of_bound _ _ _ (by decide) (by decide) (by decide) (by decide) (by decide)
  obtain ⟨g, hg⟩ : ∃ g, Run ⟨fun _ => 0, fun _ => .zero⟩ true 0 2 [] ([] ++ [(0, 1)]) g :=
    Run.exists_of_bound _ _ _ (by decide) (by decide) (by decide) (by decide) (by decide)
  refine ⟨gA, g, hA, hg, fun ⟨p, hp, _⟩ => ?_⟩
  cases hp

end Sequential

end Graph

end Dgap
