import Dgap.Graph.State

/-!
# Reading a graph

`num_edges_directed`, `out_degree`, `out_neigh` and the class `Neighborhood` with its `iterator`
(`graph.h`). An iterator's `DestID_ *` is a `Ptr`: null, a slot of `edges_`, or a heap cell that holds
the destination copied from a log entry.
-/

namespace Dgap

/-- The `DestID_ *` of an iterator. -/
inductive Ptr where
  | null
  | slot (i : ℤ)
  | cell (v : ℤ)
  deriving DecidableEq

/-- `Neighborhood::iterator`. -/
structure Iterator where
  onsegEdges : ℤ
  logIndex : ℤ
  iteratorIndex : ℤ
  onseg : Bool
  onlog : Bool
  ptr : Ptr

/-- `Neighborhood`: the memory it reads, and its members. -/
structure Neighborhood where
  edges : ℤ → ℤ
  logP : ℤ → LogEntry
  srcV : VertexElement
  onsegEdges : ℤ
  startOffset : ℤ
  logIndex : ℤ
  beginPtr : Ptr
  onseg : Bool
  onlog : Bool

namespace Neighborhood

/-- The loop of the constructor that skips `k` entries of the log chain. -/
def skip (logP : ℤ → LogEntry) : ℕ → ℤ → ℤ
  | 0, logIndex => logIndex
  | k + 1, logIndex => skip logP k (logP logIndex).prevOffset

/-- The constructor of `Neighborhood`. -/
def make (edges : ℤ → ℤ) (srcV : VertexElement) (startOffset : ℤ) (logP : ℤ → LogEntry)
    (onsegEdges : ℤ) : Neighborhood :=
  let startOffset := min startOffset srcV.degree
  if srcV.degree > startOffset then
    if onsegEdges > startOffset then
      { edges, logP, srcV, onsegEdges, startOffset
        logIndex := srcV.offset
        beginPtr := .slot (srcV.index + startOffset)
        onseg := true
        onlog := false }
    else
      let logIndex := skip logP (startOffset - onsegEdges).toNat srcV.offset
      { edges, logP, srcV, onsegEdges, startOffset
        logIndex := (logP logIndex).prevOffset
        beginPtr := .cell (logP logIndex).v
        onseg := false
        onlog := true }
  else
    { edges, logP, srcV, onsegEdges, startOffset
      logIndex := -1
      beginPtr := .null
      onseg := false
      onlog := false }

variable (nb : Neighborhood)

/-- `begin()`. -/
def begin : Iterator where
  onsegEdges := nb.onsegEdges
  logIndex := nb.logIndex
  iteratorIndex := nb.startOffset + 1
  onseg := nb.onseg
  onlog := nb.onlog
  ptr := nb.beginPtr

/-- `operator++`. -/
def next (it : Iterator) : Iterator :=
  let it := { it with iteratorIndex := it.iteratorIndex + 1 }
  if it.onseg then
    if it.iteratorIndex > it.onsegEdges then
      if nb.srcV.degree > it.onsegEdges then
        { it with
          ptr := .cell (nb.logP it.logIndex).v
          logIndex := (nb.logP it.logIndex).prevOffset
          onseg := false
          onlog := true }
      else { it with ptr := .null }
    else
      match it.ptr with
      | .slot i => { it with ptr := .slot (i + 1) }
      | p => { it with ptr := p }
  else
    if it.logIndex ≠ -1 then
      { it with
        ptr := .cell (nb.logP it.logIndex).v
        logIndex := (nb.logP it.logIndex).prevOffset }
    else { it with ptr := .null }

/-- `operator*`. -/
def deref : Ptr → ℤ
  | .null => 0
  | .slot i => nb.edges i
  | .cell v => v

/-- The values a loop from `it` to `end()` reads, if it ends within `fuel` increments. -/
def collect : ℕ → Iterator → Option (List ℤ)
  | 0, it => if it.ptr = .null then some [] else none
  | fuel + 1, it =>
    if it.ptr = .null then some []
    else (collect fuel (nb.next it)).map (nb.deref it.ptr :: ·)

/-- Iterating from `begin()` to `end()` terminates and yields exactly `l`. -/
def Yields (l : List ℤ) : Prop := ∃ fuel, nb.collect fuel nb.begin = some l

end Neighborhood

namespace Graph

variable (g : Graph)

/-- `num_edges_directed`. -/
def numEdgesDirected : ℤ := if g.directed then g.numEdges else 2 * g.numEdges

/-- `out_degree`. -/
def outDegree (v : ℕ) : ℤ := (g.vertices v).degree - 1

/-- The `onseg_edges` of `out_neigh`: all elements of a vertex without a log chain, else all slots up
to the next vertex. -/
def onsegEdges (n : ℕ) : ℤ :=
  let nextVertexBoundary :=
    if n ≥ g.numVertices - 1 then g.elemCapacity - 1 else (g.vertices (n + 1)).index - 1
  if (g.vertices n).offset ≠ -1 then nextVertexBoundary - (g.vertices n).index + 1
  else (g.vertices n).degree

/-- `out_neigh`. -/
def outNeigh (n : ℕ) (startOffset : ℤ) : Neighborhood :=
  .make g.edges.cur (g.vertices n) (startOffset + 1) (g.logPtr (n / g.segmentSize)).cur
    (g.onsegEdges n)

/-- `in_neigh`: the same body as `out_neigh`. -/
def inNeigh (n : ℕ) (startOffset : ℤ) : Neighborhood :=
  .make g.edges.cur (g.vertices n) (startOffset + 1) (g.logPtr (n / g.segmentSize)).cur
    (g.onsegEdges n)

end Graph

end Dgap
