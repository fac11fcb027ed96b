import Dgap.Graph.Load

/-!
# Closing and reopening a graph

The destructor, `recovery`, the reopen branch of the constructor and `rebalance_all` (`graph.h`). `Pool`
is what the pool file holds while no process has it open: the persistent root with its arrays, the edge
array and the segment logs. `close` is the pool after the destructor, `powerOff` the pool after a power
failure. `Fresh` is what `malloc` returns memory with: the reopen branch does not clear `vertices_` and
`log_segment_idx_`, and `recovery` does not write all of them.

`Scan` is the state of the two loops of `recovery` over the edge array. The first loop has no bound in
the source; a run that leaves the array is `none`.
-/

namespace Dgap

/-- What is in the memory that `malloc` returns for `vertices_` and `log_segment_idx_`. -/
structure Fresh where
  vertices : ℕ → VertexElement
  logSegmentIdx : ℕ → ℤ

/-- The contents of a pool file. -/
structure Pool where
  bp : Base
  edges : ℤ → ℤ
  logs : ℕ → ℤ → LogEntry

/-- The state of the loops of `recovery` over the edge array. -/
structure Scan where
  vertices : ℕ → VertexElement
  segmentEdgesActual : ℕ → ℤ
  numEdges : ℤ
  vid : ℕ
  segId : ℕ

namespace Scan

variable (s : Scan)

/-- A slot that belongs to the current vertex. -/
def count : Scan :=
  { s with
    vertices := Function.update s.vertices s.vid
      { s.vertices s.vid with degree := (s.vertices s.vid).degree + 1 }
    segmentEdgesActual := Function.update s.segmentEdgesActual s.segId
      (s.segmentEdgesActual s.segId + 1)
    numEdges := s.numEdges + 1 }

/-- A pivot at slot `i`: the vertex `vid` of the tree leaf `segId` begins. -/
def pivot (i : ℤ) (vid segId : ℕ) : Scan :=
  { vertices := Function.update s.vertices vid { s.vertices vid with index := i, degree := 1 }
    segmentEdgesActual := Function.update s.segmentEdgesActual segId
      (s.segmentEdgesActual segId + 1)
    numEdges := s.numEdges + 1
    vid, segId }

end Scan

namespace Graph

variable (g : Graph)

/-- The loop over the slots behind the pivot of vertex 0, up to the first zero; `k` slots are left from
`i` on. -/
def scanFirst : ℕ → ℤ → Scan → Option (ℤ × Scan)
  | 0, _, _ => none
  | k + 1, i, s => if g.edges.cur i ≠ 0 then scanFirst k (i + 1) s.count else some (i, s)

/-- The body of the loop over the slots. -/
def scanSlot (i : ℤ) (s : Scan) : Scan :=
  let x := g.edges.cur i
  let s := if x < 0 then s.pivot i (-x).toNat (g.getSegmentId (-x).toNat) else s
  if x > 0 then s.count else s

/-- The loop over `k` slots from `i` on. -/
def scanRest : ℕ → ℤ → Scan → Scan
  | 0, _, s => s
  | k + 1, i, s => scanRest k (i + 1) (g.scanSlot i s)

/-- The loops of `recovery` over the edge array. -/
def scan (s : Scan) : Option Scan :=
  if g.edges.cur 0 = 0 then
    match g.scanFirst (g.elemCapacity - 1).toNat 1 (s.pivot 0 0 (g.getSegmentId 0)) with
    | none => none
    | some (i, s) => some (g.scanRest (g.elemCapacity - i).toNat i s)
  else some (g.scanRest g.elemCapacity.toNat 0 s)

/-- The test of an entry in the log scan. -/
def logEntryUsed (e : LogEntry) : Bool := e.u ≠ 0 ∧ e.v ≠ 0 ∧ e.prevOffset ≠ 0

/-- The loop of `recovery` over the entries of one log, `k` entries from `i` on; `idx` is
`log_segment_idx_[sid]`. -/
def scanLog (log : ℤ → LogEntry) : ℕ → ℤ → ℤ → ℤ
  | 0, _, idx => idx
  | k + 1, i, idx => if logEntryUsed (log i) then scanLog log k (i + 1) i else idx

/-- `recovery`. -/
def recovery : Option Graph :=
  match g.scan
    { vertices := g.vertices
      segmentEdgesActual := g.segmentEdgesActual
      numEdges := 0
      vid := 0
      segId := 0 } with
  | none => none
  | some s =>
    let g := { g with
      vertices := s.vertices
      segmentEdgesActual := s.segmentEdgesActual
      numEdges := s.numEdges }
    let g := g.recountSegmentTotalAll
    some { g with
      logSegmentIdx := fun sid =>
        if sid < g.segmentCount
        then scanLog (g.logPtr sid).cur maxLogEntries 0 (g.logSegmentIdx sid)
        else g.logSegmentIdx sid }

/-- The destructor: the volatile arrays and the counters are written to the pool, and the flag that says
so. -/
def close : Pool where
  bp :=
    { g.bp with
      numVertices := g.numVertices
      numEdges := g.numEdges
      elemCapacity := g.elemCapacity
      segmentCount := g.segmentCount
      segmentSize := g.segmentSize
      treeHeight := g.treeHeight
      backedUp := true
      vertices := fun v => if v < g.numVertices then g.vertices v else g.bp.vertices v
      logSegmentIdx := fun s =>
        if s < g.segmentCount then g.logSegmentIdx s else g.bp.logSegmentIdx s
      segmentEdgesActual := fun j =>
        if j < 2 * g.segmentCount then g.segmentEdgesActual j else g.bp.segmentEdgesActual j
      segmentEdgesTotal := fun j =>
        if j < 2 * g.segmentCount then g.segmentEdgesTotal j else g.bp.segmentEdgesTotal j }
  edges := g.edges.cur
  logs := fun s => (g.logPtr s).cur

/-- What a power failure leaves. -/
def powerOff : Pool where
  bp := g.bp
  edges := g.edges.dur
  logs := fun s => (g.logPtr s).dur

/-- The graph once every store to the pool has become durable. -/
def settle : Graph :=
  { g with edges := g.edges.settle, logPtr := fun s => (g.logPtr s).settle }

/-- `rebalance_all`, run by thread `tid`. -/
def rebalanceAll (tid : ℕ) : Option Graph :=
  let leftSegment := g.leafOf 0
  let rightSegment := g.leafOf g.numVertices
  let segMeta := g.lockInBatch (rightSegment - leftSegment) leftSegment
  g.rebalanceWeighted tid 0 g.numVertices segMeta.1 segMeta.2

end Graph

namespace Pool

/-- The reopen branch of the constructor up to the test of the flag. -/
def mount (foreign : Foreign) (fresh : Fresh) (p : Pool) : Graph where
  directed := p.bp.directed
  numEdges := p.bp.numEdges
  numVertices := p.bp.numVertices
  elemCapacity := p.bp.elemCapacity
  segmentSize := p.bp.segmentSize
  segmentCount := p.bp.segmentCount
  treeHeight := p.bp.treeHeight
  edges := .durable p.edges
  vertices := fresh.vertices
  logPtr := fun s => .durable (p.logs s)
  logSegmentIdx := fresh.logSegmentIdx
  segmentEdgesActual := fun _ => 0
  segmentEdgesTotal := fun _ => 0
  ulogPtr := fun _ _ => 0
  oplogPtr := fun _ => 0
  bp := p.bp
  foreign := foreign

/-- The arrays that the reopen branch copies after a clean shutdown. -/
def restore (g : Graph) : Graph :=
  { g with
    vertices := fun v => if v < g.numVertices then g.bp.vertices v else g.vertices v
    logSegmentIdx := fun s => if s < g.segmentCount then g.bp.logSegmentIdx s else g.logSegmentIdx s
    segmentEdgesActual := fun j =>
      if j < 2 * g.segmentCount then g.bp.segmentEdgesActual j else g.segmentEdgesActual j
    segmentEdgesTotal := fun j =>
      if j < 2 * g.segmentCount then g.bp.segmentEdgesTotal j else g.segmentEdgesTotal j }

/-- The reopen branch of the constructor. -/
def reopen (foreign : Foreign) (fresh : Fresh) (p : Pool) : Option Graph :=
  let g := p.mount foreign fresh
  if p.bp.backedUp then some (restore g)
  else
    match g.recovery with
    | none => none
    | some g => some { g with bp := { g.bp with numEdges := g.numEdges } }

end Pool

/-- A process that has a graph open. `leafSegments` says whether `leaf_segments` points to an array: only
the create branch of the constructor allocates one. -/
structure Process where
  g : Graph
  leafSegments : Bool

namespace Process

/-- The constructor, when the file does not exist. -/
def create (foreign : Foreign) (directed : Bool) (nVertices : ℕ) (edgeList : List (ℕ × ℕ)) :
    Option Process :=
  (Graph.create foreign directed nVertices edgeList).map fun g => ⟨g, true⟩

/-- The constructor, when the file exists. -/
def reopen (foreign : Foreign) (fresh : Fresh) (p : Pool) : Option Process :=
  (p.reopen foreign fresh).map fun g => ⟨g, false⟩

/-- `insert(src, dst)`, which begins by locking a mutex in `leaf_segments`. -/
def insert (tid src dst : ℕ) (p : Process) : Option Process :=
  if p.leafSegments then (p.g.insert tid src dst).map fun g => { p with g } else none

/-- A sequence of `insert` calls, one after another. -/
def insertAll (tid : ℕ) : List (ℕ × ℕ) → Process → Option Process
  | [], p => some p
  | (src, dst) :: rest, p => (p.insert tid src dst).bind (insertAll tid rest)

end Process

end Dgap
