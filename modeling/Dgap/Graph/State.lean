import Dgap.Memory.Image

/-!
# The state of a DGAP graph

The members of `CSRGraph` (`graph.h`), the records they are made of, and the helpers of `util.h` that
size them. Vertex ids and leaf numbers are naturals; positions, degrees, log offsets and slot values
are integers, because the code uses `-1` as a sentinel and negative slot values as pivots. Arrays are
total maps: reading outside an allocation yields whatever the map says there, and no result may
depend on it. Machine widths are not modelled.

`vertices_` and the segment arrays live in DRAM; `edges_` and the segment logs live in persistent
memory and carry a durable image. `Base` is the persistent root record with the arrays its oids lead
to; the running graph touches it only in `resize_V1`, and the constructor and destructor read and
write it.
-/

namespace Dgap

/-- `last_bit_set`: one plus the position of the most significant set bit (`__builtin_clzll` is
undefined at 0, and no caller passes 0). -/
def lastBitSet (x : ℕ) : ℕ := Nat.log2 x + 1

/-- `floor_log2`. -/
def floorLog2 (x : ℕ) : ℕ := lastBitSet x - 1

/-- `ceil_log2`. -/
def ceilLog2 (x : ℕ) : ℕ := lastBitSet (x - 1)

/-- `ceil_div`. -/
def ceilDiv (x y : ℕ) : ℕ := if x = 0 then 0 else 1 + (x - 1) / y

/-- `hyperfloor`: the largest power of two not above `x`. -/
def hyperfloor (x : ℕ) : ℕ := 1 <<< floorLog2 x

/-- `MAX_LOG_ENTRIES`, the capacity of one segment log. -/
def maxLogEntries : ℕ := 170

/-- `MAX_ULOG_ENTRIES`, the capacity of one undo log. -/
def maxUlogEntries : ℤ := 512

/-- `LogEntry`. -/
structure LogEntry where
  u : ℤ
  v : ℤ
  prevOffset : ℤ
  deriving DecidableEq

/-- The entry that `memset(…, 0, …)` and `pmemobj_zalloc` leave. -/
def LogEntry.zero : LogEntry := ⟨0, 0, 0⟩

/-- `vertex_element`. -/
structure VertexElement where
  index : ℤ
  degree : ℤ
  offset : ℤ
  deriving DecidableEq

/-- The vertex that `pmemobj_zalloc` leaves. -/
def VertexElement.zero : VertexElement := ⟨0, 0, 0⟩

/-- `Base`, the persistent root, with the arrays that only the constructor and destructor touch. -/
structure Base where
  numVertices : ℕ
  numEdges : ℤ
  elemCapacity : ℤ
  segmentCount : ℕ
  segmentSize : ℕ
  treeHeight : ℕ
  directed : Bool
  backedUp : Bool
  vertices : ℕ → VertexElement
  logSegmentIdx : ℕ → ℤ
  segmentEdgesActual : ℕ → ℤ
  segmentEdgesTotal : ℕ → ℤ

/-- What memory holds outside the arrays the code allocates: beside a fresh edge array and behind the
last vertex. -/
structure Foreign where
  edges : ℤ → ℤ
  vertices : ℕ → VertexElement

/-- The members of `CSRGraph` that the update and read paths use. -/
structure Graph where
  directed : Bool
  numEdges : ℤ
  numVertices : ℕ
  elemCapacity : ℤ
  segmentSize : ℕ
  segmentCount : ℕ
  treeHeight : ℕ
  edges : Image ℤ
  vertices : ℕ → VertexElement
  logPtr : ℕ → Image LogEntry
  logSegmentIdx : ℕ → ℤ
  segmentEdgesActual : ℕ → ℤ
  segmentEdgesTotal : ℕ → ℤ
  ulogPtr : ℕ → ℤ → ℤ
  oplogPtr : ℕ → ℤ
  bp : Base
  foreign : Foreign

/-- `up_h`, the upper density threshold of the root. -/
def upH : ℚ := 3 / 4

/-- `up_0`, the upper density threshold of the leaves. -/
def up0 : ℚ := 1

/-- `low_0`, the lower density threshold of the leaves. -/
def low0 : ℚ := 1 / 4

/-- `max_sparseness`, `1.0 / low_0`. -/
def maxSparseness : ℤ := 4

namespace Graph

variable (g : Graph)

/-- `delta_up`. -/
def deltaUp : ℚ := (up0 - upH) / g.treeHeight

/-- `get_segment_id`: the tree leaf of a vertex. -/
def getSegmentId (v : ℕ) : ℕ := v / g.segmentSize + g.segmentCount

/-- The leaf number of a vertex, `get_segment_id(v) - segment_count`. -/
def leafOf (v : ℕ) : ℕ := g.getSegmentId v - g.segmentCount

/-- The ratio `(double) actual / (double) total` of the leaf in tree slot `j`. -/
def density (j : ℕ) : ℚ := (g.segmentEdgesActual j : ℚ) / (g.segmentEdgesTotal j : ℚ)

/-- Where the slots of vertex `v` begin; past the last vertex, the end of the array. The code spells
this `(v >= num_vertices) ? elem_capacity : vertices_[v].index`. -/
def bound (v : ℕ) : ℤ := if g.numVertices ≤ v then g.elemCapacity else (g.vertices v).index

/-- `pmemobj_zalloc` of `n` edge slots. -/
def zallocEdges (foreign : Foreign) (n : ℤ) : Image ℤ :=
  .durable fun i => if 0 ≤ i ∧ i < n then 0 else foreign.edges i

end Graph

end Dgap
