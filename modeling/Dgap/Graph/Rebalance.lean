import Dgap.Graph.State

/-!
# Rebalancing a window

`calculate_positions`, `load_into_ulog`, `rebalance_data_V1`, `release_log`, `recount_segment_total`
and `rebalance_weighted` of `graph.h`. A failed assertion is `none`. `index_d` and `step` are exact
rationals; a conversion to `int64_t` truncates.

`rebalance_data_V1` works on a `Shifting`: the vertex table and the edge array it moves, the undo log
of its thread, and the interval `[ulogSt, ulogNd)` that the undo log covers. Its loops are the loops
of the source: `leftShift`, `rightShift` and `drainLog` move the elements of one vertex (`shiftVertex`),
`shiftGroup` runs from vertex `ii` down to `curr_vertex`, `rebalanceLoop` runs over the groups.
-/

namespace Dgap

/-- The conversion of a `double` to `int64_t`. -/
def toInt64 (q : ℚ) : ℤ := q.num.tdiv q.den

/-- `precision_pos`. -/
def precisionPos : ℚ := 100000000

namespace Graph

variable (g : Graph)

/-- The loop of `calculate_positions`, `k` vertices from `i` on. -/
def positionsLoop (indexBoundary : ℤ) (step : ℚ) : ℕ → ℕ → ℚ → Option (List ℤ)
  | 0, _, _ => some []
  | k + 1, i, indexD =>
    let newIndex := toInt64 indexD
    let degree := (g.vertices i).degree
    if newIndex + degree ≤ indexBoundary then do
      let rest ← positionsLoop indexBoundary step k (i + 1)
        (newIndex + (degree + step * (degree + 1)))
      return newIndex :: rest
    else none

/-- `calculate_positions`. -/
def calculatePositions (startVertex endVertex : ℕ) (gaps totalDegree : ℤ) : Option (List ℤ) :=
  let size := endVertex - startVertex
  let step : ℚ := gaps / ((totalDegree + size : ℤ) : ℚ)
  if 0 < toInt64 (step * precisionPos) then
    g.positionsLoop (g.bound endVertex) (toInt64 (step * precisionPos) / precisionPos) size
      startVertex (g.vertices startVertex).index
  else none

end Graph

/-- What `rebalance_data_V1` works on. -/
structure Shifting where
  vertices : ℕ → VertexElement
  edges : Image ℤ
  ulog : ℤ → ℤ
  oplog : ℤ
  ulogSt : ℤ
  ulogNd : ℤ

namespace Shifting

variable (s : Shifting)

/-- `load_into_ulog`. -/
def loadIntoUlog (loadIdxSt loadSz flushIdxSt flushIdxNd : ℤ) : Shifting :=
  { s with
    edges := if flushIdxSt ≠ flushIdxNd
      then s.edges.flush flushIdxSt (flushIdxNd - flushIdxSt + 1) else s.edges
    ulog := fun k => if 0 ≤ k ∧ k < loadSz then s.edges.cur (loadIdxSt + k) else s.ulog k
    oplog := loadIdxSt }

/-- Cover `writeIndex` by the undo log before a left shift stores there. -/
def coverUp (elemCapacity writeIndex : ℤ) : Shifting :=
  if writeIndex < s.ulogSt ∨ s.ulogNd ≤ writeIndex then
    let fits := writeIndex + maxUlogEntries ≤ elemCapacity
    let loadSz := if fits then maxUlogEntries else elemCapacity - writeIndex
    { s.loadIntoUlog writeIndex loadSz s.ulogSt s.ulogNd with
      ulogSt := writeIndex
      ulogNd := if fits then writeIndex + maxUlogEntries else elemCapacity }
  else s

/-- Cover `writeIndex` by the undo log before a right shift or a log drain stores there. -/
def coverDown (writeIndex : ℤ) : Shifting :=
  if writeIndex < s.ulogSt ∨ s.ulogNd ≤ writeIndex then
    let fits := 0 ≤ writeIndex - maxUlogEntries
    let loadSz := if fits then maxUlogEntries else writeIndex
    { s.loadIntoUlog (writeIndex - maxUlogEntries) loadSz s.ulogSt s.ulogNd with
      ulogSt := if fits then writeIndex - maxUlogEntries else 0
      ulogNd := writeIndex }
  else s

/-- `edges_[i] = x`. -/
def store (i x : ℤ) : Shifting := { s with edges := s.edges.store i x }

/-- The left-shift loop, `k` elements from `readIndex` to `writeIndex` upwards. -/
def leftShift (elemCapacity : ℤ) : ℕ → ℤ → ℤ → Shifting → Shifting
  | 0, _, _, s => s
  | k + 1, readIndex, writeIndex, s =>
    let s := s.coverUp elemCapacity writeIndex
    leftShift elemCapacity k (readIndex + 1) (writeIndex + 1)
      (s.store writeIndex (s.edges.cur readIndex))

/-- The right-shift loop, `k` elements from `readIndex` to `writeIndex` downwards. -/
def rightShift : ℕ → ℤ → ℤ → Shifting → Shifting
  | 0, _, _, s => s
  | k + 1, readIndex, writeIndex, s =>
    let s := s.coverDown writeIndex
    rightShift k (readIndex - 1) (writeIndex - 1) (s.store writeIndex (s.edges.cur readIndex))

/-- The loop that moves the logged edges of a vertex on-segment, newest edge to the highest slot. A
chain has at most as many entries as the log, which bounds the iterations. -/
def drainLog (log : ℤ → LogEntry) : ℕ → ℤ → ℤ → Shifting → Shifting
  | 0, _, _, s => s
  | fuel + 1, currOff, writeIndex, s =>
    if currOff = -1 then s
    else
      let s := s.coverDown writeIndex
      drainLog log fuel (log currOff).prevOffset (writeIndex - 1)
        (s.store writeIndex (log currOff).v)

end Shifting

namespace Graph

variable (g : Graph)

/-- The body of the loop over a group: move vertex `jj` to `newIndex`, its logged edges behind its
on-segment edges. -/
def shiftVertex (newIndex : ℤ) (jj : ℕ) (nextVertexBoundary : ℤ) (s : Shifting) : Shifting :=
  let vj := s.vertices jj
  let onsegNumEdges := nextVertexBoundary - vj.index + 1
  let count := if vj.offset ≠ -1 then onsegNumEdges else vj.degree
  let s :=
    if newIndex < vj.index then s.leftShift g.elemCapacity count.toNat vj.index newIndex
    else if vj.index < newIndex then
      s.rightShift count.toNat (vj.index + count - 1) (newIndex + count - 1)
    else s
  let s :=
    if vj.offset ≠ -1 then
      s.drainLog (g.logPtr (g.leafOf jj)).cur maxLogEntries vj.offset (newIndex + vj.degree - 1)
    else s
  { s with vertices := Function.update s.vertices jj ⟨newIndex, vj.degree, -1⟩ }

/-- The loop over a group, `k` vertices from `jj` downwards. -/
def shiftGroup (startVertex : ℕ) (newIndex : List ℤ) : ℕ → ℕ → ℤ → Shifting → Shifting
  | 0, _, _, s => s
  | k + 1, jj, nextVertexBoundary, s =>
    shiftGroup startVertex newIndex k (jj - 1) ((s.vertices jj).index - 1)
      (g.shiftVertex (newIndex.getD (jj - startVertex) 0) jj nextVertexBoundary s)

/-- The first vertex from `ii` on, among `k`, that has space to its right; the vertex behind the last
one if there is none. -/
def findSpace (startVertex : ℕ) (newIndex : List ℤ) (s : Shifting) : ℕ → ℕ → ℕ
  | 0, ii => ii
  | k + 1, ii =>
    if newIndex.getD (ii - startVertex) 0 + (s.vertices ii).degree ≤ (s.vertices (ii + 1)).index
    then ii
    else findSpace startVertex newIndex s k (ii + 1)

/-- The outer loop of `rebalance_data_V1`; every iteration advances `currVertex`, so `fuel` as large
as the window suffices. -/
def rebalanceLoop (startVertex endVertex : ℕ) (newIndex : List ℤ) : ℕ → ℕ → Shifting → Shifting
  | 0, _, s => s
  | fuel + 1, currVertex, s =>
    if currVertex < endVertex then
      let ii := findSpace startVertex newIndex s (endVertex - currVertex) currVertex
      let ii := if ii = endVertex then ii - 1 else ii
      let nextVertexBoundary :=
        if g.numVertices - 1 ≤ ii then g.elemCapacity - 1 else (s.vertices (ii + 1)).index - 1
      rebalanceLoop startVertex endVertex newIndex fuel (ii + 1)
        (g.shiftGroup startVertex newIndex (ii + 1 - currVertex) ii nextVertexBoundary s)
    else s

/-- `release_log`. The flush names the address of the DRAM pointer `log_ptr_[segment_id]`, so no log
slot becomes durable. -/
def releaseLog (segmentId : ℕ) : Graph :=
  if g.logSegmentIdx segmentId = 0 then g
  else
    { g with
      logPtr := Function.update g.logPtr segmentId
        ((g.logPtr segmentId).fill 0 (g.logSegmentIdx segmentId) .zero)
      logSegmentIdx := Function.update g.logSegmentIdx segmentId 0 }

/-- The loop that releases `k` logs from `segmentId` on. -/
def releaseLogs : ℕ → ℕ → Graph → Graph
  | 0, _, g => g
  | k + 1, segmentId, g => releaseLogs k (segmentId + 1) (g.releaseLog segmentId)

/-- `rebalance_data_V1`, run by thread `tid`. -/
def rebalanceDataV1 (tid startVertex endVertex : ℕ) (newIndex : List ℤ) : Graph :=
  let s := g.rebalanceLoop startVertex endVertex newIndex (endVertex - startVertex) startVertex
    { vertices := g.vertices
      edges := g.edges
      ulog := g.ulogPtr tid
      oplog := g.oplogPtr tid
      ulogSt := (g.vertices endVertex).index
      ulogNd := (g.vertices endVertex).index }
  releaseLogs (g.leafOf endVertex - g.leafOf startVertex) (g.leafOf startVertex)
    { g with
      vertices := s.vertices
      edges := s.edges
      ulogPtr := Function.update g.ulogPtr tid s.ulog
      oplogPtr := Function.update g.oplogPtr tid s.oplog }

/-- The body of the loops of `recount_segment_total`: the extent of leaf `i`. -/
def segmentTotal (i : ℕ) : ℤ :=
  (if i = g.segmentCount - 1 then g.elemCapacity
    else (g.vertices ((i + 1) * g.segmentSize)).index) - (g.vertices (i * g.segmentSize)).index

/-- `recount_segment_total(start_vertex, end_vertex)`. -/
def recountSegmentTotal (startVertex endVertex : ℕ) : Graph :=
  { g with
    segmentEdgesTotal := fun j =>
      if g.leafOf startVertex + g.segmentCount ≤ j ∧ j < g.leafOf endVertex + g.segmentCount
      then g.segmentTotal (j - g.segmentCount) else g.segmentEdgesTotal j }

/-- `recount_segment_total()`. -/
def recountSegmentTotalAll : Graph :=
  { g with
    segmentEdgesTotal := fun j =>
      if g.segmentCount ≤ j ∧ j < 2 * g.segmentCount then g.segmentTotal (j - g.segmentCount)
      else if j < 2 * g.segmentCount then 0 else g.segmentEdgesTotal j }

/-- `rebalance_weighted`. -/
def rebalanceWeighted (tid startVertex endVertex : ℕ) (usedSpace totalSpace : ℤ) :
    Option Graph :=
  let fromIdx := (g.vertices startVertex).index
  let toIdx := g.bound endVertex
  if toIdx > fromIdx then
    let capacity := toIdx - fromIdx
    if totalSpace = capacity then
      let gaps := totalSpace - usedSpace
      let size := endVertex - startVertex
      match g.calculatePositions startVertex endVertex gaps usedSpace with
      | none => none
      | some newIndex =>
        if newIndex.getD (size - 1) 0 + (g.vertices (endVertex - 1)).degree ≤ g.bound endVertex then
          some ((g.rebalanceDataV1 tid startVertex endVertex newIndex).recountSegmentTotal
            startVertex endVertex)
        else none
    else none
  else none

end Graph

end Dgap
