import Dgap.Build.Symmetric
import Dgap.Layout.Read
import Dgap.Parallel.PrefixSum

/-!
# Edge ids

`ParallelLoadDegrees`, `ParallelPrefixSum` and `GetEdgeId` of `bc.cc`. A degree is a 32-bit field and
`degrees` is an array of such numbers, so what `out_degree` returns fits in it. The blocks of the two
parallel loops run in any order. An edge of a vertex is its position in the iteration over `out_neigh`
(`neighbors`); the ids of the edges of all vertices are different numbers below the sum of the degrees
(`Numbered`).
-/

namespace Dgap

namespace Neighborhood

variable {nb : Neighborhood}

/-- A loop that ends does so within as many increments as it yields values. -/
lemma collect_of_length {l : List ℤ} {fuel : ℕ} {it : Iterator} (h : nb.collect fuel it = some l) {k : ℕ}
    (hk : l.length ≤ k) : nb.collect k it = some l := by
  induction fuel generalizing l it k with
  | zero =>
    rw [collect] at h
    split_ifs at h with hptr
    cases h
    cases k <;> exact if_pos hptr
  | succ fuel ih =>
    rw [collect] at h
    split_ifs at h with hptr
    · cases h
      cases k <;> exact if_pos hptr
    · obtain ⟨l', hl', rfl⟩ := Option.map_eq_some_iff.1 h
      obtain _ | k := k
      · cases hk
      · rw [collect, if_neg hptr, ih hl' (Nat.le_of_succ_le_succ hk), Option.map_some]

end Neighborhood

namespace Graph

/-- The vertices that `for (NodeID v : g.out_neigh(u))` runs over: a vertex has at most as many as its
degree. -/
def neighbors (g : Graph) (u : ℕ) : List ℕ :=
  (((g.outNeigh u 0).collect (g.outDegree u).toNat (g.outNeigh u 0).begin).getD []).map Int.toNat

variable {g : Graph} {adj : ℕ → List ℕ} {u : ℕ}

/-- The loop over a vertex yields its destinations in some order, as many as its degree says. -/
lemma Layout.neighbors (h : g.Layout adj) (hu : u < g.numVertices) :
    (g.outNeigh u 0).Yields ((g.neighbors u).map (↑)) ∧ (g.neighbors u).Perm (adj u) ∧
      g.outDegree u = (g.neighbors u).length := by
  have hh := h.holds u hu
  have hdeg : g.outDegree u = (adj u).length := by
    have hlen := hh.degree
    rw [elements_length] at hlen
    rw [outDegree, hlen]
    push_cast
    ring
  have hy := hh.outNeigh_yields hu
  rw [← yielded] at hy
  generalize (g.onseg u - 1).toNat = m at hy
  obtain ⟨fuel, hfuel⟩ := hy
  have hcollect := Neighborhood.collect_of_length hfuel (k := (g.outDegree u).toNat)
    (by rw [List.length_map, yielded_length, hdeg, Int.toNat_natCast])
  have heq : g.neighbors u = yielded m (adj u) := by
    rw [Graph.neighbors, hcollect, Option.getD_some, List.map_map]
    exact (List.map_congr_left fun x _ => Int.toNat_natCast x).trans (List.map_id _)
  rw [heq, yielded_length]
  exact ⟨⟨fuel, hfuel⟩, yielded_perm m _, hdeg⟩

end Graph

namespace Bc

/-- `block_size` of `ParallelPrefixSum`. -/
def blockSize : ℕ := 1 <<< 20

/-- `degrees[u]`, as `ParallelLoadDegrees` fills the array. -/
def loadDegrees (g : Graph) (u : ℕ) : ℤ := g.outDegree u

/-- `ParallelPrefixSum`. -/
def parallelPrefixSum (degrees : ℕ → ℤ) (size : ℕ) (s : PrefixSum.Schedule ℤ) : ℕ → ℤ :=
  PrefixSum.blocked degrees blockSize size s

/-- The array `prefix` that `Brandes` hands to `PBFS`. -/
def edgePrefix (g : Graph) (s : PrefixSum.Schedule ℤ) : ℕ → ℤ :=
  parallelPrefixSum (loadDegrees g) g.numVertices s

/-- `GetEdgeId`. -/
def getEdgeId (prefixes : ℕ → ℤ) (u localEdgeId : ℕ) : ℤ := prefixes u + localEdgeId

/-- The edges of the first `n` vertices have different ids. -/
structure Numbered (nbrs : ℕ → List ℕ) (prefixes : ℕ → ℤ) (n : ℕ) : Prop where
  nonneg : ∀ u < n, ∀ k < (nbrs u).length, 0 ≤ getEdgeId prefixes u k
  inj : ∀ u < n, ∀ k < (nbrs u).length, ∀ u' < n, ∀ k' < (nbrs u').length,
    getEdgeId prefixes u k = getEdgeId prefixes u' k' → u = u' ∧ k = k'

section

variable {nbrs : ℕ → List ℕ} {prefixes : ℕ → ℤ} {n : ℕ}
  (h : ∀ i ≤ n, prefixes i = ∑ j ∈ Finset.range i, ((nbrs j).length : ℤ))

include h

/-- The ids of the edges of a vertex end before those of the next one begin. -/
lemma getEdgeId_lt {u k : ℕ} (hu : u < n) (hk : k < (nbrs u).length) {i : ℕ} (hi : u < i) (hin : i ≤ n) :
    getEdgeId prefixes u k < prefixes i := by
  have hle : prefixes (u + 1) ≤ prefixes i := by
    rw [h _ hu, h i hin]
    exact Finset.sum_le_sum_of_subset_of_nonneg (Finset.range_mono hi) fun _ _ _ => Int.natCast_nonneg _
  have hnext : prefixes (u + 1) = prefixes u + (nbrs u).length := by
    rw [h _ hu, h u hu.le, Finset.sum_range_succ]
  rw [getEdgeId]
  omega

/-- Prefix sums of the numbers of destinations number the edges. -/
lemma Numbered.of_sums : Numbered nbrs prefixes n where
  nonneg u hu k _ := by
    have hsum : 0 ≤ prefixes u := by
      rw [h u hu.le]
      exact Finset.sum_nonneg fun _ _ => Int.natCast_nonneg _
    rw [getEdgeId]
    omega
  inj u hu k hk u' hu' k' hk' heq := by
    rcases lt_trichotomy u u' with hlt | rfl | hgt
    · have := getEdgeId_lt h hu hk hlt hu'.le
      rw [heq, getEdgeId] at this
      omega
    · rw [getEdgeId, getEdgeId] at heq
      exact ⟨rfl, by omega⟩
    · have := getEdgeId_lt h hu' hk' hgt hu.le
      rw [← heq, getEdgeId] at this
      omega

end

variable {g : Graph} {adj : ℕ → List ℕ} {s : PrefixSum.Schedule ℤ}

/-- The array `prefix` holds the sums of the numbers of destinations. -/
lemma edgePrefix_eq (h : g.Layout adj) (hs : s.Covers blockSize g.numVertices) {i : ℕ} (hi : i ≤ g.numVertices) :
    edgePrefix g s i = ∑ j ∈ Finset.range i, ((g.neighbors j).length : ℤ) := by
  rw [edgePrefix, parallelPrefixSum, PrefixSum.blocked_eq (by decide) hs, PrefixSum.sequential_eq hi]
  refine Finset.sum_congr rfl fun j hj => ?_
  exact (h.neighbors ((Finset.mem_range.1 hj).trans_le hi)).2.2

/-- The sum of all degrees does not exceed `num_edges_directed`, which counts the pivots too. -/
lemma edgePrefix_le (h : g.Layout adj) (hs : s.Covers blockSize g.numVertices) :
    edgePrefix g s g.numVertices ≤ g.numEdgesDirected := by
  have hsum : ∑ u ∈ Finset.Ico 0 g.numVertices, g.outDegree u = edgePrefix g s g.numVertices := by
    rw [edgePrefix_eq h hs le_rfl, ← Finset.range_eq_Ico]
    exact Finset.sum_congr rfl fun j hj => (h.neighbors (Finset.mem_range.1 hj)).2.2
  have hpos : 0 ≤ edgePrefix g s g.numVertices := by
    rw [edgePrefix_eq h hs le_rfl]
    exact Finset.sum_nonneg fun _ _ => Int.natCast_nonneg _
  rw [h.numEdgesDirected_eq, hsum]
  split <;> omega

end Bc

end Dgap
