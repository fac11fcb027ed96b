import Dgap.Graph.Insert

/-!
# Building a graph from the base edge list

`compute_capacity`, `insert(edge_list)`, `spread_weighted` and the create branch of the constructor
(`graph.h`). `Loader` is the state of `insert(edge_list)`: the graph, the next free slot `ii` and the
last vertex `last_vid` whose edges have begun.
-/

namespace Dgap

/-- The state of `insert(edge_list)`. -/
structure Loader where
  g : Graph
  ii : ℤ
  lastVid : ℤ

namespace Loader

/-- Write the pivot of vertex `vid` at the next free slot. -/
def putPivot (vid : ℕ) (s : Loader) : Loader :=
  let j := s.g.getSegmentId vid
  { s with
    g := { s.g with
      edges := s.g.edges.store s.ii (-(vid : ℤ))
      vertices := Function.update s.g.vertices vid
        { s.g.vertices vid with degree := 1, index := s.ii }
      segmentEdgesActual := Function.update s.g.segmentEdgesActual j
        (s.g.segmentEdgesActual j + 1) }
    ii := s.ii + 1 }

/-- The pivots of `k` vertices from `vid` on. -/
def putPivots : ℕ → ℕ → Loader → Loader
  | 0, _, s => s
  | k + 1, vid, s => putPivots k (vid + 1) (s.putPivot vid)

/-- Write a destination at the next free slot, for source `src`. -/
def putEdge (src dst : ℕ) (s : Loader) : Loader :=
  let j := s.g.getSegmentId src
  { s with
    g := { s.g with
      edges := s.g.edges.store s.ii dst
      vertices := Function.update s.g.vertices src
        { s.g.vertices src with degree := (s.g.vertices src).degree + 1 }
      segmentEdgesActual := Function.update s.g.segmentEdgesActual j
        (s.g.segmentEdgesActual j + 1) }
    ii := s.ii + 1 }

/-- The pivots that precede the first edge of `src`: those of the vertices skipped since `last_vid`,
and its own. -/
def openVertex (src : ℕ) (s : Loader) : Loader :=
  if (s.g.vertices src).degree = 0 then
    let s :=
      if (src : ℤ) ≠ s.lastVid + 1 then
        s.putPivots (src - (s.lastVid + 1).toNat) (s.lastVid + 1).toNat
      else s
    { s.putPivot src with lastVid := src }
  else s

/-- The body of the loop over the base edges. -/
def loadEdge (s : Loader) (e : ℕ × ℕ) : Loader := (s.openVertex e.1).putEdge e.1 e.2

/-- `vertices_[i].offset = -1`. -/
def clearOffset (i : ℕ) (s : Loader) : Loader :=
  { s with
    g := { s.g with
      vertices := Function.update s.g.vertices i { s.g.vertices i with offset := -1 } } }

/-- The loop that gives every vertex without base edges its pivot, `k` vertices from `i` on. -/
def closeVertices : ℕ → ℕ → Loader → Option Loader
  | 0, _, s => some s
  | k + 1, i, s =>
    if (s.g.vertices i).degree = 0 then
      if (i : ℤ) > s.lastVid then closeVertices k (i + 1) ((s.putPivot i).clearOffset i)
      else none
    else closeVertices k (i + 1) (s.clearOffset i)

end Loader

namespace Graph

variable (g : Graph)

/-- The inner loop of `spread_weighted`. -/
def spreadCopy : ℕ → ℤ → ℤ → Image ℤ → Image ℤ
  | 0, _, _, a => a
  | k + 1, readIndex, writeIndex, a =>
    spreadCopy k (readIndex - 1) (writeIndex - 1) (a.store writeIndex (a.cur readIndex))

/-- The loop of `spread_weighted` from vertex `currVertex` down to vertex 1. -/
def spreadLoop (newPositions : List ℤ) : ℕ → Graph → Option Graph
  | 0, g => some g
  | currVertex + 1, g =>
    let v := g.vertices (currVertex + 1)
    let newPosition := newPositions.getD (currVertex + 1) 0
    let readIndex := v.index + v.degree - 1
    let writeIndex := newPosition + v.degree - 1
    if writeIndex ≥ readIndex then
      spreadLoop newPositions currVertex
        { g with
          edges := spreadCopy v.degree.toNat readIndex writeIndex g.edges
          vertices := Function.update g.vertices (currVertex + 1) { v with index := newPosition } }
    else none

/-- `spread_weighted(0, end_vertex)`. -/
def spreadWeighted (endVertex : ℕ) : Option Graph :=
  let gaps := g.elemCapacity - g.numEdges
  match g.calculatePositions 0 endVertex gaps g.numEdges with
  | none => none
  | some newPositions =>
    match spreadLoop newPositions (endVertex - 1) g with
    | none => none
    | some g => some g.recountSegmentTotalAll

/-- `insert(edge_list)`. -/
def insertBase (edgeList : List (ℕ × ℕ)) : Option Graph :=
  let s := edgeList.foldl Loader.loadEdge { g := g, ii := 0, lastVid := -1 }
  match s.closeVertices g.numVertices 0 with
  | none => none
  | some s =>
    let g := { s.g with numEdges := s.g.numEdges + s.g.numVertices }
    match g.spreadWeighted g.numVertices with
    | none => none
    | some g => some { g with edges := g.edges.flush 0 g.elemCapacity }

/-- `insert(edge_list)` up to its call of `spread_weighted`. -/
def loadBase (edgeList : List (ℕ × ℕ)) : Option Graph :=
  let s := edgeList.foldl Loader.loadEdge { g := g, ii := 0, lastVid := -1 }
  (s.closeVertices g.numVertices 0).map fun s =>
    { s.g with numEdges := s.g.numEdges + s.g.numVertices }

/-- The result of `compute_capacity`: `segment_size`, `segment_count` and `num_vertices`. -/
def computeCapacity (numVertices : ℕ) : ℕ × ℕ × ℕ :=
  let segmentSize := ceilLog2 numVertices
  let segmentCount := ceilDiv numVertices segmentSize
  let segmentCount := hyperfloor segmentCount
  let segmentSize := ceilDiv numVertices segmentCount
  (segmentSize, segmentCount, segmentCount * segmentSize)

/-- The create branch of the constructor up to the base load: every array is allocated and zero. -/
def allocate (foreign : Foreign) (directed : Bool) (nEdges nVertices : ℕ) : Graph :=
  let (segmentSize, segmentCount, numVertices) := computeCapacity nVertices
  let elemCapacity := ((nEdges + numVertices : ℕ) : ℤ) * maxSparseness
  let treeHeight := floorLog2 segmentCount
  { directed
    numEdges := nEdges
    numVertices, elemCapacity, segmentSize, segmentCount, treeHeight
    edges := zallocEdges foreign elemCapacity
    vertices := fun v => if v < numVertices then .zero else foreign.vertices v
    logPtr := fun _ => .durable fun _ => .zero
    logSegmentIdx := fun _ => 0
    segmentEdgesActual := fun _ => 0
    segmentEdgesTotal := fun _ => 0
    ulogPtr := fun _ _ => 0
    oplogPtr := fun _ => 0
    bp := {
      numVertices, elemCapacity, segmentCount, segmentSize, treeHeight, directed
      numEdges := nEdges
      backedUp := false
      vertices := fun _ => .zero
      logSegmentIdx := fun _ => 0
      segmentEdgesActual := fun _ => 0
      segmentEdgesTotal := fun _ => 0 }
    foreign }

/-- The create branch of the constructor. -/
def create (foreign : Foreign) (directed : Bool) (nVertices : ℕ) (edgeList : List (ℕ × ℕ)) :
    Option Graph :=
  (allocate foreign directed edgeList.length nVertices).insertBase edgeList

end Graph

end Dgap
