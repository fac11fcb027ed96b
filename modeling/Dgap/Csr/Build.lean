import Dgap.Machine.ForLoop
import Dgap.Parallel.PrefixSum
import Dgap.Parallel.Scatter

/-!
# Building the compressed sparse rows

`CountDegrees`, `PrefixSum`, `ParallelPrefixSum`, `MakeCSR` with shared offsets and
`MakePMemGraphFromEL` of `csr/src/builder.h`. A degree is a `NodeID_` that is incremented atomically, in any
order of the edges; offsets are 64-bit numbers, of which an edge list that fits in memory never needs more.
The scatter takes an offset in one atomic step and writes the destination in another one. `pmemobj_tx_zalloc`
aborts the transaction for a size of 0, and for a negative size, which is a huge number as a `size_t`; every
other allocation succeeds.
-/

namespace Dgap

namespace Csr

open Machine

variable {δ : Type*}

/-- `block_size` of `ParallelPrefixSum`. -/
def blockSize : ℕ := 1 <<< 20

/-- Whether an edge is taken in by `CountDegrees` and `MakeCSR`. -/
def takes (symmetrize transpose : Bool) : Bool := symmetrize || (!symmetrize && !transpose)

/-- `fetch_and_add(degrees[e.u], 1)`. -/
def countDegree (symmetrize transpose : Bool) (degrees : ℕ → ℤ) (e : ℕ × δ) : ℕ → ℤ :=
  if takes symmetrize transpose then Function.update degrees e.1 (signed 32 (degrees e.1 + 1)) else degrees

/-- `CountDegrees`, when the increments run in the order of the list. -/
def countDegrees (symmetrize transpose : Bool) (el : List (ℕ × δ)) : ℕ → ℤ :=
  el.foldl (countDegree symmetrize transpose) fun _ => 0

/-- `PrefixSum`; `sums` is what fresh memory holds. -/
def prefixSum (degrees : ℕ → ℤ) (size : ℕ) (sums : ℕ → ℤ) : ℕ → ℤ :=
  PrefixSum.sequential degrees size sums

/-- `ParallelPrefixSum`. -/
def parallelPrefixSum (degrees : ℕ → ℤ) (size : ℕ) (s : PrefixSum.Schedule ℤ) : ℕ → ℤ :=
  PrefixSum.blocked degrees blockSize size s

/-- `NodeID_ index_length = offsets.size()`. -/
def indexLength (numNodes : ℕ) : ℤ := signed 32 (numNodes + 1)

/-- `index[n] = offsets[n]`, `k` times from `n` on. -/
def copyIndex (offsets : ℕ → ℤ) : ℕ → ℕ → (ℕ → ℤ) → ℕ → ℤ
  | 0, _, index => index
  | k + 1, n, index => copyIndex offsets k (n + 1) (Function.update index n (offsets n))

/-- The index that `MakeCSR` returns; `index` is what fresh memory holds. -/
def makeIndex (numNodes : ℕ) (offsets index : ℕ → ℤ) : ℕ → ℤ :=
  copyIndex offsets (indexLength numNodes).toNat 0 index

/-- The parallel loop of `MakeCSR`. -/
def makeNeighs (symmetrize transpose : Bool) (offsets : ℕ → ℤ) (neighs : ℤ → δ) (el : List (ℕ × δ)) :
    System (Scatter.Config δ) Unit :=
  Scatter.runs offsets neighs (if takes symmetrize transpose then el else [])

/-- What `MakePMemGraphFromEL` leaves in the pool. -/
structure Stored (δ : Type*) where
  index : List ℤ
  neighs : List δ
  numEdges : ℤ

/-- The allocations and copies of `MakePMemGraphFromEL`, from the index and the destinations that `MakeCSR`
returns and the offsets as it leaves them; `none` if the transaction aborts. -/
def persist (numNodes : ℕ) (index offsets : ℕ → ℤ) (neighs : ℤ → δ) : Option (Stored δ) :=
  if indexLength numNodes ≤ 0 ∨ offsets numNodes ≤ 0 then none
  else
    let index := (List.range (indexLength numNodes).toNat).map index
    index[numNodes]?.bind fun last => index[0]?.map fun first =>
      ⟨index, Memory.slice neighs 0 (offsets numNodes).toNat, last - first⟩

/-- The slice of the destinations of vertex `u`. -/
def Stored.row (g : Stored δ) (u : ℕ) : List δ :=
  (g.neighs.drop (g.index.getD u 0).toNat).take (g.index.getD (u + 1) 0 - g.index.getD u 0).toNat

/-- What the construction is for: the stored index does not decrease from 0 to the number of edges, the row
of every vertex has its destinations, every cell was written once, the prefix sums by blocks are the plain
ones, and the last offset still is the number of edges. -/
structure Correct (numNodes : ℕ) (el : List (ℕ × δ)) (degrees prefixes : ℕ → ℤ) (c : Scatter.Config δ)
    (g : Stored δ) : Prop where
  length : g.index.length = numNodes + 1
  first : g.index.getD 0 0 = 0
  last : g.index.getD numNodes 0 = el.length
  mono : ∀ u < numNodes, g.index.getD u 0 ≤ g.index.getD (u + 1) 0
  rows : ∀ u < numNodes, (g.row u).Perm (Multigraph.ofEdges el u)
  written : c.written.Perm ((List.range el.length).map (↑))
  prefixes : ∀ sums, ∀ i ≤ numNodes, prefixes i = prefixSum degrees numNodes sums i
  offsets : c.cursor numNodes = el.length
  numEdges : g.numEdges = el.length

/-- A run of `MakePMemGraphFromEL` over an edge list: the degrees it counts, the offsets it computes from
them, the last state of the scatter and what it leaves in the pool, if it does not abort. -/
structure Makes (symmetrize : Bool) (numNodes : ℕ) (el : List (ℕ × δ)) (degrees offsets : ℕ → ℤ)
    (c : Scatter.Config δ) (stored : Option (Stored δ)) : Prop where
  counts : ∃ order, order.Perm el ∧ degrees = countDegrees symmetrize false order
  sums : ∃ s : PrefixSum.Schedule ℤ, s.Covers blockSize numNodes ∧ offsets = parallelPrefixSum degrees numNodes s
  scatters : ∃ neighs, (makeNeighs symmetrize false offsets neighs el).Reach c
  ends : c.todo = 0 ∧ c.pending = 0
  persists : ∃ index, stored = persist numNodes (makeIndex numNodes offsets index) c.cursor c.cells

section

variable {symmetrize : Bool} {numNodes : ℕ} {el order : List (ℕ × δ)}

/-- Without transposition every edge is taken in. -/
lemma takes_false (symmetrize : Bool) : takes symmetrize false = true := by cases symmetrize <;> rfl

/-- The degrees are counted modulo the width of `NodeID_`. -/
lemma countDegrees_eq (symmetrize : Bool) (el : List (ℕ × δ)) (u : ℕ) :
    countDegrees symmetrize false el u = signed 32 (Scatter.taken el u) := by
  induction el using List.reverseRecOn with
  | nil =>
    have h0 : signed 32 0 = 0 := signed_of_mem (by norm_num) ⟨by norm_num, by norm_num⟩
    exact h0.symm
  | append_singleton el e ih =>
    have hstep : countDegrees symmetrize false (el ++ [e]) =
        countDegree symmetrize false (countDegrees symmetrize false el) e := List.foldl_concat ..
    rw [hstep, countDegree, takes_false, if_pos rfl, Scatter.taken_concat]
    by_cases hu : u = e.1
    · subst hu
      rw [Function.update_self, Function.update_self, ih, signed_add, Nat.cast_succ]
    · rw [Function.update_of_ne hu, Function.update_of_ne hu, ih]

/-- The blocks may run in any order. -/
lemma parallelPrefixSum_eq {degrees : ℕ → ℤ} {s : PrefixSum.Schedule ℤ}
    (hs : s.Covers blockSize numNodes) :
    parallelPrefixSum degrees numNodes s = prefixSum degrees numNodes s.sums :=
  PrefixSum.blocked_eq (by decide) hs

/-- A prefix sum. -/
lemma prefixSum_eq {degrees sums : ℕ → ℤ} {i : ℕ} (hi : i ≤ numNodes) :
    prefixSum degrees numNodes sums i = ∑ j ∈ Finset.range i, degrees j :=
  PrefixSum.sequential_eq hi sums

/-- What the copied index holds. -/
lemma copyIndex_eq (offsets : ℕ → ℤ) (k n : ℕ) (index : ℕ → ℤ) (i : ℕ) :
    copyIndex offsets k n index i = if n ≤ i ∧ i < n + k then offsets i else index i := by
  induction k generalizing n index with
  | zero => rw [copyIndex, if_neg (by omega)]
  | succ k ih =>
    rw [copyIndex, ih]
    by_cases hi : i = n
    · subst hi
      rw [if_neg (by omega), Function.update_self, if_pos (by omega)]
    · rw [Function.update_of_ne hi]
      exact if_congr (by omega) rfl rfl

/-- The index that `MakeCSR` returns, as far as it is copied. -/
lemma makeIndex_eq {i : ℕ} (hi : i < (indexLength numNodes).toNat) (offsets index : ℕ → ℤ) :
    makeIndex numNodes offsets index i = offsets i := by
  rw [makeIndex, copyIndex_eq, if_pos (by omega)]

/-- A persisted graph. -/
lemma persist_eq_some {index offsets : ℕ → ℤ} {neighs : ℤ → δ} {g : Stored δ}
    (h : persist numNodes index offsets neighs = some g) :
    0 < offsets numNodes ∧ g.index = (List.range (indexLength numNodes).toNat).map index := by
  rw [persist] at h
  generalize indexLength numNodes = k at h ⊢
  split at h
  case isTrue => cases h
  case isFalse hpos =>
    obtain ⟨last, -, h⟩ := Option.bind_eq_some_iff.1 h
    obtain ⟨first, -, rfl⟩ := Option.map_eq_some_iff.1 h
    exact ⟨by omega, rfl⟩

/-- Where the row of a vertex begins. -/
def rowStart (el : List (ℕ × δ)) (u : ℕ) : ℕ := ∑ v ∈ Finset.range u, Scatter.taken el v

/-- The row behind the first `u` rows. -/
lemma rowStart_succ (el : List (ℕ × δ)) (u : ℕ) : rowStart el (u + 1) = rowStart el u + Scatter.taken el u :=
  Finset.sum_range_succ ..

/-- The rows take up as many cells as there are edges. -/
lemma rowStart_numNodes (hids : ∀ e ∈ el, e.1 < numNodes) : rowStart el numNodes = el.length := by
  rw [rowStart, ← Multigraph.sum_length_ofEdges numNodes hids, ← Finset.range_eq_Ico]
  rfl

namespace Makes

variable {degrees offsets : ℕ → ℤ} {c : Scatter.Config δ} {stored : Option (Stored δ)}
  (h : Makes symmetrize numNodes el degrees offsets c stored)

include h

/-- The degrees that are counted. -/
lemma degrees_eq (u : ℕ) : degrees u = signed 32 (Scatter.taken el u) := by
  obtain ⟨order, horder, rfl⟩ := h.counts
  rw [countDegrees_eq, Scatter.taken, Scatter.taken, (Multigraph.ofEdges_perm horder u).length_eq]

/-- The offsets before the scatter. -/
lemma offsets_eq {i : ℕ} (hi : i ≤ numNodes) : offsets i = ∑ j ∈ Finset.range i, degrees j := by
  obtain ⟨s, hs, rfl⟩ := h.sums
  rw [parallelPrefixSum_eq hs, prefixSum_eq hi]

/-- The stored index, as far as it is stored. -/
lemma index_eq {g : Stored δ} (hg : stored = some g) :
    g.index.length = (indexLength numNodes).toNat ∧
      ∀ i < (indexLength numNodes).toNat, g.index.getD i 0 = offsets i := by
  obtain ⟨index, hindex⟩ := h.persists
  obtain ⟨-, hlist⟩ := persist_eq_some (hindex.symm.trans hg)
  refine ⟨by rw [hlist, List.length_map, List.length_range], fun i hi => ?_⟩
  rw [hlist, List.getD_eq_getElem?_getD, List.getElem?_map, List.getElem?_range hi, Option.map_some,
    Option.getD_some, makeIndex_eq hi]

/-- What goes wrong otherwise: destinations that are stored are not none, an index with an entry for each vertex
has a length that fits, and a row with all destinations has a degree that fits. -/
lemma small {g : Stored δ} (hg : stored = some g) (hcorrect : Correct numNodes el degrees offsets c g) :
    el ≠ [] ∧ numNodes + 1 < 2 ^ 31 ∧ ∀ u < numNodes, (Multigraph.ofEdges el u).length < 2 ^ 31 := by
  obtain ⟨hlen, hindex⟩ := h.index_eq hg
  have hlen' : (indexLength numNodes).toNat = numNodes + 1 := hlen.symm.trans hcorrect.length
  refine ⟨?_, ?_, fun u hu => ?_⟩
  · rintro rfl
    obtain ⟨_, hindex⟩ := h.persists
    have hpos := (persist_eq_some (hindex.symm.trans hg)).1
    rw [hcorrect.offsets] at hpos
    exact lt_irrefl _ hpos
  · rw [← hlen']
    exact toNat_signed_lt (by norm_num) _
  · have hdiff : g.index.getD (u + 1) 0 - g.index.getD u 0 = signed 32 (Scatter.taken el u) := by
      rw [hindex _ (by omega), hindex u (by omega), h.offsets_eq hu, h.offsets_eq hu.le,
        Finset.sum_range_succ, add_sub_cancel_left, h.degrees_eq]
    have hrow := (hcorrect.rows u hu).length_eq
    rw [Stored.row, hdiff] at hrow
    rw [← hrow]
    exact (List.length_take_le _ _).trans_lt (toNat_signed_lt (by norm_num) _)

section Small

variable (hids : ∀ e ∈ el, e.1 < numNodes) (hne : el ≠ []) (hnodes : numNodes + 1 < 2 ^ 31)
  (hdegrees : ∀ u < numNodes, (Multigraph.ofEdges el u).length < 2 ^ 31)

include hdegrees in
/-- Degrees that fit add up to the starts of the rows. -/
lemma offsets_start {i : ℕ} (hi : i ≤ numNodes) : offsets i = rowStart el i := by
  rw [h.offsets_eq hi, rowStart, Nat.cast_sum]
  refine Finset.sum_congr rfl fun j hj => ?_
  rw [Finset.mem_range] at hj
  rw [h.degrees_eq, signed_keep (by norm_num) (hdegrees j (by omega))]

include hids hdegrees in
/-- What the scatter leaves behind. -/
lemma scattered : c.written.Perm ((List.range el.length).map (↑)) ∧
    (∀ u < numNodes, (Memory.slice c.cells (rowStart el u) (Scatter.taken el u)).Perm (Multigraph.ofEdges el u)) ∧
    c.cursor numNodes = el.length := by
  obtain ⟨neighs, hreach⟩ := h.scatters
  rw [makeNeighs, takes_false, if_pos rfl] at hreach
  obtain ⟨hwritten, hrows, hcursor⟩ := Scatter.runs_sort (Finset.sum_range_zero _)
    (fun u _ => rowStart_succ el u) hids (fun u hu => h.offsets_start hdegrees hu) hreach h.ends.1 h.ends.2
  have htotal : rowStart el numNodes = el.length := rowStart_numNodes hids
  have hnone : Scatter.taken el numNodes = 0 := by
    rw [Scatter.taken, Multigraph.ofEdges_eq_nil fun e he => (hids e he).ne, List.length_nil]
  refine ⟨by rwa [htotal] at hwritten, hrows, ?_⟩
  rw [hcursor numNodes (le_refl _), hnone, Nat.add_zero, htotal]

include hids hne hnodes hdegrees in
/-- Otherwise all goes right. -/
lemma correct : ∃ g, stored = some g ∧ Correct numNodes el degrees offsets c g := by
  obtain ⟨hwritten, hrows, hend⟩ := h.scattered hids hdegrees
  have htotal : rowStart el numNodes = el.length := rowStart_numNodes hids
  have hlength : indexLength numNodes = ((numNodes + 1 : ℕ) : ℤ) := by
    rw [indexLength, ← Nat.cast_succ]
    exact signed_keep (by norm_num) hnodes
  obtain ⟨index, hindex⟩ := h.persists
  obtain ⟨g, hg, hneighs, hnum⟩ : ∃ g, stored = some g ∧
      g.neighs = Memory.slice c.cells 0 el.length ∧
      g.numEdges = makeIndex numNodes offsets index numNodes - makeIndex numNodes offsets index 0 := by
    have hget : ∀ i ≤ numNodes, ((List.range (numNodes + 1)).map (makeIndex numNodes offsets index))[i]? =
        some (makeIndex numNodes offsets index i) := fun i hi => by
      rw [List.getElem?_map, List.getElem?_range (by omega), Option.map_some]
    have hpos : 0 < el.length := List.length_pos_iff.2 hne
    rw [hindex, persist, hlength, if_neg (by rw [hend]; omega), Int.toNat_natCast]
    simp only [hget numNodes (le_refl _), hget 0 (Nat.zero_le _), Option.bind_some, Option.map_some, hend,
      Int.toNat_natCast]
    exact ⟨_, rfl, rfl, rfl⟩
  obtain ⟨hlen, hentry⟩ := h.index_eq hg
  have hidx : ∀ i ≤ numNodes, g.index.getD i 0 = rowStart el i := fun i hi => by
    rw [hentry i (by rw [hlength, Int.toNat_natCast]; omega), h.offsets_start hdegrees hi]
  have hdiff : ∀ u, ((rowStart el (u + 1) : ℕ) : ℤ) - rowStart el u = Scatter.taken el u := fun u => by
    rw [rowStart_succ, Nat.cast_add, add_sub_cancel_left]
  refine ⟨g, hg, ⟨by rw [hlen, hlength, Int.toNat_natCast], ?_, ?_, fun u hu => ?_, fun u hu => ?_, ?_,
    fun sums i hi => ?_, hend, ?_⟩⟩
  · rw [hidx 0 (Nat.zero_le _)]
    rfl
  · rw [hidx numNodes (le_refl _), htotal]
  · rw [hidx u hu.le, hidx (u + 1) hu, rowStart_succ]
    omega
  · have hle : rowStart el u + Scatter.taken el u ≤ el.length := by
      rw [← rowStart_succ, ← htotal]
      exact Finset.sum_le_sum_of_subset (Finset.range_mono hu)
    rw [Stored.row, hidx u hu.le, hidx (u + 1) hu, hdiff, Int.toNat_natCast, Int.toNat_natCast, hneighs,
      Memory.slice_drop _ _ (by omega), Memory.slice_take _ _ (by omega), zero_add]
    exact hrows u hu
  · exact hwritten
  · rw [h.offsets_eq hi, prefixSum_eq hi]
  · rw [hnum, makeIndex_eq (by rw [hlength, Int.toNat_natCast]; omega),
      makeIndex_eq (by rw [hlength, Int.toNat_natCast]; omega), h.offsets_start hdegrees (le_refl _),
      h.offsets_start hdegrees (Nat.zero_le _), htotal]
    exact sub_zero _

end Small

end Makes

/-- Without an edge the destinations have the size 0, and the transaction aborts. -/
lemma Makes.empty {degrees offsets : ℕ → ℤ} {c : Scatter.Config δ} {stored : Option (Stored δ)}
    (h : Makes symmetrize numNodes [] degrees offsets c stored) : stored = none := by
  obtain ⟨-, -, hend⟩ := h.scattered (fun e he => (nomatch he)) fun u _ => Nat.two_pow_pos 31
  obtain ⟨index, hindex⟩ := h.persists
  rw [hindex, persist, if_pos (.inr hend.le)]

end

/-- `MakePMemGraphFromEL` stores the rows of the edge list exactly if there is an edge, and the degrees of all
vertices and the length of the index are below `2 ^ 31`. -/
theorem makePMemGraph {symmetrize : Bool} {numNodes : ℕ} {el : List (ℕ × δ)} {degrees offsets : ℕ → ℤ}
    {c : Scatter.Config δ} {stored : Option (Stored δ)}
    (h : Makes symmetrize numNodes el degrees offsets c stored) (hids : ∀ e ∈ el, e.1 < numNodes) :
    (∃ g, stored = some g ∧ Correct numNodes el degrees offsets c g) ↔
      el ≠ [] ∧ numNodes + 1 < 2 ^ 31 ∧ ∀ u < numNodes, (Multigraph.ofEdges el u).length < 2 ^ 31 := by
  constructor
  · rintro ⟨g, hg, hcorrect⟩
    exact h.small hg hcorrect
  · rintro ⟨hne, hnodes, hdegrees⟩
    exact h.correct hids hne hnodes hdegrees

/-- Every edge list has a run. -/
lemma exists_makes (symmetrize : Bool) (numNodes : ℕ) (el : List (ℕ × δ)) (neighs : ℤ → δ) :
    ∃ degrees offsets c stored, Makes symmetrize numNodes el degrees offsets c stored := by
  let s : PrefixSum.Schedule ℤ := ⟨List.range (PrefixSum.numBlocks blockSize numNodes),
    List.range (PrefixSum.numBlocks blockSize numNodes), fun _ => 0, fun _ => 0, fun _ => 0⟩
  obtain ⟨c, hc, hend⟩ := Scatter.runs_end
    (parallelPrefixSum (countDegrees symmetrize false el) numNodes s) neighs el
  refine ⟨_, _, c, _, ⟨el, .refl el, rfl⟩, ⟨s, ⟨.refl _, .refl _⟩, rfl⟩, ⟨neighs, ?_⟩, hend,
    ⟨fun _ => 0, rfl⟩⟩
  rwa [makeNeighs, takes_false, if_pos rfl]

/-- Three edges of two vertices. -/
theorem makePMemGraph_two : ∃ (degrees offsets : ℕ → ℤ) (c : Scatter.Config ℕ) (g : Stored ℕ),
    Makes false 2 [(0, 1), (1, 0), (0, 0)] degrees offsets c (some g) ∧
      Correct 2 [(0, 1), (1, 0), (0, 0)] degrees offsets c g := by
  obtain ⟨degrees, offsets, c, stored, h⟩ := exists_makes false 2 [(0, 1), (1, 0), (0, 0)] fun _ => 7
  obtain ⟨g, rfl, hg⟩ := (makePMemGraph h (by decide)).2 ⟨List.cons_ne_nil _ _, by norm_num, fun u _ =>
    lt_of_le_of_lt (Multigraph.length_ofEdges_le _ u) (by norm_num)⟩
  exact ⟨degrees, offsets, c, g, h, hg⟩

/-- No edge, and a vertex with `2 ^ 31` edges. -/
theorem makePMemGraph_fails :
    (∃ (degrees offsets : ℕ → ℤ) (c : Scatter.Config ℕ), Makes false 1 [] degrees offsets c none) ∧
    ∃ (el : List (ℕ × ℕ)) (degrees offsets : ℕ → ℤ) (c : Scatter.Config ℕ)
      (stored : Option (Stored ℕ)), el = List.replicate (2 ^ 31) (0, 0) ∧
        Makes false 1 el degrees offsets c stored ∧ degrees 0 = -2 ^ 31 ∧
        ¬ ∃ g, stored = some g ∧ Correct 1 el degrees offsets c g := by
  constructor
  · obtain ⟨degrees, offsets, c, stored, h⟩ := exists_makes false 1 ([] : List (ℕ × ℕ)) fun _ => 0
    obtain rfl := h.empty
    exact ⟨degrees, offsets, c, h⟩
  obtain ⟨k, hk⟩ : ∃ k : ℕ, k = 2 ^ 31 := ⟨_, rfl⟩
  rw [← hk]
  obtain ⟨degrees, offsets, c, stored, h⟩ := exists_makes false 1 (List.replicate k (0, 0)) fun _ => 0
  refine ⟨_, degrees, offsets, c, stored, rfl, h, ?_, ?_⟩
  · rw [h.degrees_eq, Scatter.taken, Multigraph.ofEdges_replicate, List.length_replicate, hk]
    decide +kernel
  · rintro ⟨g, hg, hcorrect⟩
    have := (h.small hg hcorrect).2.2 0 Nat.one_pos
    rw [Multigraph.ofEdges_replicate, List.length_replicate, hk] at this
    exact lt_irrefl _ this

end Csr

end Dgap
