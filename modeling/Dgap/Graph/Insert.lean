import Dgap.Graph.Rebalance

/-!
# Inserting an edge

`have_space_onseg`, `insert_into_log`, `do_insertion`, `resize_V1` and the dynamic `insert(src, dst)`
of `graph.h`, the latter without its mutexes: run alone, an insert finds every mutex free and every
`on_rebalance` at 0 and leaves them so. `lockInBatch` is what `lock_in_batch` returns. The program with
its mutexes is in `Dgap/Threads`.
-/

namespace Dgap

namespace Graph

variable (g : Graph)

/-- `have_space_onseg`. -/
def haveSpaceOnseg (src : ℕ) (loc : ℤ) : Bool :=
  (src = g.numVertices - 1 ∧ g.elemCapacity > loc) ∨
    (src < g.numVertices - 1 ∧ (g.vertices (src + 1)).index > loc)

/-- `insert_into_log`. -/
def insertIntoLog (segmentId src dst : ℕ) : Option Graph :=
  let idx := g.logSegmentIdx segmentId
  let vsrc := g.vertices src
  if idx < maxLogEntries ∧ vsrc.offset < maxLogEntries ∧
      segmentId * g.segmentSize ≤ src ∧ src < segmentId * g.segmentSize + g.segmentSize then
    some { g with
      logPtr := Function.update g.logPtr segmentId
        (((g.logPtr segmentId).store idx ⟨src, dst, vsrc.offset⟩).flush idx 1)
      vertices := Function.update g.vertices src { vsrc with offset := idx }
      logSegmentIdx := Function.update g.logSegmentIdx segmentId (idx + 1) }
  else none

/-- `edges_[loc].v = dst` and its flush. -/
def storeEdge (loc : ℤ) (dst : ℕ) : Graph :=
  { g with edges := (g.edges.store loc dst).flush loc 1 }

/-- The metadata update at the end of `do_insertion`. -/
def countEdge (src srcSegment : ℕ) : Graph :=
  { g with
    vertices := Function.update g.vertices src
      { g.vertices src with degree := (g.vertices src).degree + 1 }
    segmentEdgesActual := Function.update g.segmentEdgesActual srcSegment
      (g.segmentEdgesActual srcSegment + 1)
    numEdges := g.numEdges + 1 }

/-- The slot behind the last element of `src`, were all its elements on-segment. -/
def insertLoc (src : ℕ) : ℤ := (g.vertices src).index + (g.vertices src).degree

/-- The part of `do_insertion` behind the test for a full log: on-segment if there is space now,
else into the log. -/
def placeEdge (src dst srcSegment : ℕ) : Option Graph :=
  if g.haveSpaceOnseg src (g.insertLoc src) then some (g.storeEdge (g.insertLoc src) dst)
  else g.insertIntoLog (srcSegment - g.segmentCount) src dst

/-- The leaf rebalance of `do_insertion` when the log is full. -/
def makeLogRoom (tid src srcSegment : ℕ) : Option Graph :=
  if g.logSegmentIdx (srcSegment - g.segmentCount) ≥ maxLogEntries then
    let leftIndex := src / g.segmentSize * g.segmentSize
    let rightIndex := min (leftIndex + g.segmentSize) g.numVertices
    g.rebalanceWeighted tid leftIndex rightIndex (g.segmentEdgesActual srcSegment)
      (g.segmentEdgesTotal srcSegment)
  else some g

/-- `do_insertion`. -/
def doInsertion (tid src dst srcSegment : ℕ) : Option Graph :=
  if g.haveSpaceOnseg src (g.insertLoc src) then
    some ((g.storeEdge (g.insertLoc src) dst).countEdge src srcSegment)
  else do
    let g ← g.makeLogRoom tid src srcSegment
    let g ← g.placeEdge src dst srcSegment
    return g.countEdge src srcSegment

/-- What `lock_in_batch` returns: the sums of `segment_edges_actual` and `segment_edges_total` over the
`k` leaves from `segId` on. -/
def lockInBatch : ℕ → ℕ → ℤ × ℤ
  | 0, _ => (0, 0)
  | k + 1, segId =>
    let rest := lockInBatch k (segId + 1)
    (g.segmentEdgesActual (segId + g.segmentCount) + rest.1,
      g.segmentEdgesTotal (segId + g.segmentCount) + rest.2)

/-- `up_height`, the density threshold at a height. -/
def upHeight (height : ℕ) : ℚ := up0 - height * g.deltaUp

/-- `left_index` of the window of `src` at a height. -/
def leftIndex (src height : ℕ) : ℕ :=
  src / (g.segmentSize * 2 ^ height) * (g.segmentSize * 2 ^ height)

/-- `right_index` of the window of `src` at a height. -/
def rightIndex (src height : ℕ) : ℕ :=
  min (g.leftIndex src height + g.segmentSize * 2 ^ height) g.numVertices

/-- `left_segment` of the window of `src` at a height. -/
def leftSegment (src height : ℕ) : ℕ := g.leafOf (g.leftIndex src height)

/-- `right_segment` of the window of `src` at a height. -/
def rightSegment (src height : ℕ) : ℕ := g.leafOf (g.rightIndex src height)

/-- `seg_meta` of the window of `src` at a height. -/
def segMeta (src height : ℕ) : ℤ × ℤ :=
  g.lockInBatch (g.rightSegment src height - g.leftSegment src height) (g.leftSegment src height)

/-- Whether the window of `src` at a height is below its threshold. -/
def belowThreshold (src height : ℕ) : Bool :=
  ((g.segMeta src height).1 : ℚ) / ((g.segMeta src height).2 : ℚ) < g.upHeight height

/-- The `while (window > 0)` loop: the final `window` and `height`. The window halves in every
iteration, so `window` itself is enough fuel. -/
def findWindow (src : ℕ) : ℕ → ℕ → ℕ → ℕ × ℕ
  | 0, window, height => (window, height)
  | fuel + 1, window, height =>
    if 0 < window then
      if g.belowThreshold src (height + 1) then (window / 2, height + 1)
      else findWindow src fuel (window / 2) (height + 1)
    else (window, height)

/-- The loop of `resize_V1` over `k` vertices from `vi` on. `edges` is the old array, the result is the
vertex table and the new array. -/
def resizeLoop (elemCapacity : ℤ) (edges : ℤ → ℤ) (newIndices : List ℤ) :
    ℕ → ℕ → (ℕ → VertexElement) × Image ℤ → (ℕ → VertexElement) × Image ℤ
  | 0, _, st => st
  | k + 1, vi, (vertices, newEdges) =>
    let nextVertexBoundary :=
      if vi = g.numVertices - 1 then elemCapacity - 1 else (vertices (vi + 1)).index - 1
    let v := vertices vi
    let onsegNumEdges := if v.offset ≠ -1 then nextVertexBoundary - v.index + 1 else v.degree
    let newIndex := newIndices.getD vi 0
    let newEdges := resizeCopy edges onsegNumEdges.toNat v.index newIndex newEdges
    let newEdges :=
      if v.offset ≠ -1 then
        resizeDrain (g.logPtr (g.leafOf vi)).cur maxLogEntries v.offset (newIndex + v.degree - 1)
          newEdges
      else newEdges
    resizeLoop elemCapacity edges newIndices k (vi + 1)
      (Function.update vertices vi ⟨newIndex, v.degree, -1⟩, newEdges)
where
  /-- `memcpy(new_edges_ + dst, edges_ + src, k * sizeof(DestID_))`. -/
  resizeCopy (edges : ℤ → ℤ) : ℕ → ℤ → ℤ → Image ℤ → Image ℤ
    | 0, _, _, a => a
    | k + 1, src, dst, a => resizeCopy edges k (src + 1) (dst + 1) (a.store dst (edges src))
  /-- The loop that moves logged edges into the new array. -/
  resizeDrain (log : ℤ → LogEntry) : ℕ → ℤ → ℤ → Image ℤ → Image ℤ
    | 0, _, _, a => a
    | fuel + 1, currOff, writeIndex, a =>
      if currOff = -1 then a
      else resizeDrain log fuel (log currOff).prevOffset (writeIndex - 1)
        (a.store writeIndex (log currOff).v)

/-- `resize_V1`. -/
def resizeV1 : Option Graph :=
  let g := { g with elemCapacity := g.elemCapacity * 2 }
  let gaps := g.elemCapacity - g.numEdges
  match g.calculatePositions 0 g.numVertices gaps g.numEdges with
  | none => none
  | some newIndices =>
    let st := g.resizeLoop g.elemCapacity g.edges.cur newIndices g.numVertices 0
      (g.vertices, zallocEdges g.foreign g.elemCapacity)
    let g := { g with vertices := st.1, edges := st.2.flush 0 g.elemCapacity }
    let g := g.recountSegmentTotalAll
    let g := { g with bp := { g.bp with elemCapacity := g.elemCapacity } }
    some (releaseLogs g.segmentCount 0 g)

/-- `insert(src, dst)`, run by thread `tid`. `exit(-1)` is `none`, like a failed assertion. -/
def insert (tid src dst : ℕ) : Option Graph :=
  let currentSegment := g.getSegmentId src
  match g.doInsertion tid src dst currentSegment with
  | none => none
  | some g =>
    if g.density currentSegment ≥ up0 then
      let (window, height) := g.findWindow src currentSegment currentSegment 0
      if height = 0 then none
      else if window ≠ 0 then
        if g.density currentSegment ≥ up0 then
          g.rebalanceWeighted tid (g.leftIndex src height) (g.rightIndex src height)
            (g.segMeta src height).1 (g.segMeta src height).2
        else some g
      else if g.density currentSegment < up0 then some g
      else g.resizeV1
    else some g

/-- A sequence of `insert` calls, one after another. -/
def insertAll (tid : ℕ) : List (ℕ × ℕ) → Graph → Option Graph
  | [], g => some g
  | (src, dst) :: rest, g =>
    match g.insert tid src dst with
    | none => none
    | some g => insertAll tid rest g

end Graph

end Dgap
