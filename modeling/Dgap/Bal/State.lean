import Dgap.Memory.Unrolled

/-!
# The blocked adjacency list

The members of `CSRGraph` in `bal/src/graph.h`, the records they are made of, `out_neigh` with its
iterator. The pool is mapped at the address `pop`; `heap` are its edge blocks by their offset in the pool.
`next_offset` is an offset, `head_offset` and `tail_offset` are addresses. Reading or writing through an
address at which no edge block begins is `none`. `uint32_t` arithmetic wraps.
-/

namespace Dgap

namespace Bal

/-- `BLOCK_SIZE`. -/
def blockSize : ℕ := 1022

/-- `vertex_element`, without its mutex. -/
structure VertexElement where
  headOffset : ℕ
  tailOffset : ℕ
  degree : ℕ
  deriving DecidableEq

/-- The vertex that `pmemobj_zalloc` leaves. -/
def VertexElement.zero : VertexElement := ⟨0, 0, 0⟩

/-- `edge_block`. -/
structure EdgeBlock where
  block : ℕ → ℕ
  nextOffset : ℕ

/-- The block that `pmemobj_zalloc` leaves. -/
def EdgeBlock.zero : EdgeBlock := ⟨fun _ => 0, 0⟩

/-- `block[i] = x`. -/
def EdgeBlock.store (b : EdgeBlock) (i x : ℕ) : EdgeBlock :=
  { b with block := Function.update b.block i x }

@[simp] lemma EdgeBlock.store_block_self (b : EdgeBlock) (i x : ℕ) : (b.store i x).block i = x :=
  Function.update_self ..

@[simp] lemma EdgeBlock.store_nextOffset (b : EdgeBlock) (i x : ℕ) :
    (b.store i x).nextOffset = b.nextOffset := rfl

/-- `Base`, with the array that `vertices_oid_` leads to. -/
structure Base where
  numNodes : ℕ
  numEdges : ℤ
  directed : Bool
  vertices : ℕ → VertexElement

/-- The members of `CSRGraph`. -/
structure Graph where
  directed : Bool
  numNodes : ℕ
  numEdges : ℤ
  vertices : ℕ → VertexElement
  pop : ℕ
  heap : ℕ → Option EdgeBlock
  bp : Base

/-- The increment of a `uint32_t`. -/
def succ32 (x : ℕ) : ℕ := (x + 1) % 2 ^ 32

/-- `pmemobj_direct`: the address of an offset, null for the null offset. -/
def direct (pop off : ℕ) : ℕ := if off = 0 then 0 else pop + off

namespace Graph

variable (g : Graph)

/-- The edge block at an address. -/
def deref (p : ℕ) : Option EdgeBlock := if g.pop ≤ p then g.heap (p - g.pop) else none

/-- A change of the edge block at an address. -/
def write (p : ℕ) (f : EdgeBlock → EdgeBlock) : Option Graph :=
  (g.deref p).map fun b => { g with heap := Function.update g.heap (p - g.pop) (some (f b)) }

/-- `pmemobj_zalloc` of an edge block, when the allocator returns the offset `off`. -/
def zalloc (off : ℕ) : Option Graph :=
  if off ≠ 0 ∧ g.heap off = none then
    some { g with heap := Function.update g.heap off (some .zero) }
  else none

/-- A change of a vertex. -/
def setVertex (v : ℕ) (x : VertexElement) : Graph :=
  { g with vertices := Function.update g.vertices v x }

@[simp] lemma setVertex_vertices (v : ℕ) (x : VertexElement) :
    (g.setVertex v x).vertices v = x := Function.update_self ..

@[simp] lemma setVertex_pop (v : ℕ) (x : VertexElement) : (g.setVertex v x).pop = g.pop := rfl

@[simp] lemma setVertex_heap (v : ℕ) (x : VertexElement) : (g.setVertex v x).heap = g.heap := rfl

variable {g} in
/-- A write only changes the blocks. -/
lemma write_frame {g' : Graph} {p : ℕ} {f : EdgeBlock → EdgeBlock} (h : g.write p f = some g') :
    g'.numNodes = g.numNodes ∧ g'.pop = g.pop := by
  obtain ⟨b, -, rfl⟩ := Option.map_eq_some_iff.1 h
  exact ⟨rfl, rfl⟩

variable {g} in
/-- An allocation only changes the blocks. -/
lemma zalloc_frame {g' : Graph} {off : ℕ} (h : g.zalloc off = some g') :
    g'.numNodes = g.numNodes ∧ g'.pop = g.pop := by
  unfold zalloc at h
  split at h
  case isTrue =>
    obtain rfl := Option.some.inj h
    exact ⟨rfl, rfl⟩
  case isFalse => cases h

/-- `out_degree`. -/
def outDegree (v : ℕ) : ℕ := (g.vertices v).degree

end Graph

/-- An iterator of `Neighborhood`; `gIndex` is the block and the position that it points to. -/
structure Iterator where
  gIndex : Option (ℕ × ℕ)
  currEdgeBlock : ℕ
  currIdx : ℕ
  degree : ℕ

/-- `Neighborhood`. -/
structure Neighborhood where
  currEdgeBlock : ℕ
  degree : ℕ
  currIdx : ℕ
  beginPtr : Option (ℕ × ℕ)

/-- `&(block->block[i])`: the first position of the null block is null. -/
def slot (p i : ℕ) : Option (ℕ × ℕ) := if p = 0 ∧ i = 0 then none else some (p, i)

/-- A position that is not null. -/
lemma slot_eq {p i : ℕ} (h : ¬ (p = 0 ∧ i = 0)) : slot p i = some (p, i) := if_neg h

namespace Neighborhood

/-- The constructor of `Neighborhood`. -/
def make (currEdgeBlock startOffset degree : ℕ) : Neighborhood where
  currEdgeBlock := currEdgeBlock
  degree := degree
  currIdx := startOffset % 2 ^ 32
  beginPtr := if degree ≤ startOffset then none else slot currEdgeBlock startOffset

/-- `begin()`. -/
def begin (nb : Neighborhood) : Iterator where
  gIndex := nb.beginPtr
  currEdgeBlock := nb.currEdgeBlock
  currIdx := nb.currIdx
  degree := nb.degree

end Neighborhood

namespace Graph

variable (g : Graph)

/-- `out_neigh`. -/
def outNeigh (n startOffset : ℕ) : Neighborhood :=
  .make (g.vertices n).headOffset startOffset (g.vertices n).degree

/-- `in_neigh`: the same body as `out_neigh`. -/
def inNeigh (n startOffset : ℕ) : Neighborhood :=
  .make (g.vertices n).headOffset startOffset (g.vertices n).degree

/-- `operator++`. -/
def next (it : Iterator) : Option Iterator :=
  let currIdx := succ32 it.currIdx
  if currIdx = it.degree then some { it with currIdx, gIndex := none }
  else if currIdx % blockSize = 0 then
    (g.deref it.currEdgeBlock).map fun b =>
      let currEdgeBlock := direct g.pop b.nextOffset
      { it with currIdx, currEdgeBlock, gIndex := slot currEdgeBlock (currIdx % blockSize) }
  else some { it with currIdx, gIndex := slot it.currEdgeBlock (currIdx % blockSize) }

/-- The values a loop from `it` to `end()` reads, if it ends within `fuel` increments. -/
def collect : ℕ → Iterator → Option (List ℕ)
  | 0, it => if it.gIndex = none then some [] else none
  | fuel + 1, it =>
    match it.gIndex with
    | none => some []
    | some (p, i) => do
      let b ← g.deref p
      let it ← g.next it
      let rest ← collect fuel it
      return b.block i :: rest

/-- Iterating from `begin()` to `end()` terminates and yields exactly `l`. -/
def Yields (nb : Neighborhood) (l : List ℕ) : Prop := ∃ fuel, g.collect fuel nb.begin = some l

end Graph

end Bal

end Dgap
