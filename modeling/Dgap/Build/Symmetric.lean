import Dgap.Build.MakeGraph

/-!
# What a build promises to the kernels

A symmetrized build has every edge of its input lists in both directions, so `in_neigh`, which reads the
out-edges, enumerates the transpose. The edge counter is another matter: `num_edges_` counts the pivot of
every vertex, and a symmetrized list has both directions of an edge already when `num_edges_directed`
doubles the counter, so no graph reports the number of edges that its vertices enumerate.
-/

namespace Dgap

section Symmetric

variable {n : ℕ} {foreign : Foreign} {base dynamic : List (ℕ × ℕ)} {c : Config n}

/-- What is shared out among the threads is counted by the threads together. -/
lemma sum_count {share : Fin n → List (ℕ × ℕ)}
    (h : (dynamic : Multiset (ℕ × ℕ)) = ∑ i, (share i : Multiset (ℕ × ℕ))) (e : ℕ × ℕ) :
    ∑ i, (share i).count e = dynamic.count e := by
  have hcount := congrArg (Multiset.count e) h
  rw [Multiset.count_sum', Multiset.coe_count] at hcount
  simp only [Multiset.coe_count] at hcount
  convert hcount.symm

/-- A finished build has returned from all its inserts, and each vertex has its edges in both
directions. -/
lemma MakeGraph.count_outNeigh (h : MakeGraph foreign true base dynamic c)
    (hdynamic : ∀ e ∈ dynamic,
      e.1 < (Graph.computeCapacity (findMaxNodeID base + 1)).2.2 ∧
        e.2 < (Graph.computeCapacity (findMaxNodeID base + 1)).2.2)
    {u : ℕ} (hu : u < c.g.numVertices) : ∃ l : List ℤ, (c.g.outNeigh u 0).Yields l ∧
      ∀ v : ℕ, l.count (v : ℤ) =
        (base ++ dynamic).count (u, v) + (base ++ dynamic).count (v, u) := by
  cases h with
  | @returns el g0 share _ hmax hperm hsorted hcreate hshare hc hdone =>
    have hel : ∀ e ∈ el, e.1 < findMaxNodeID base + 1 ∧ e.2 < findMaxNodeID base + 1 := by
      intro e he
      rcases mem_baseList (hperm.mem_iff.1 he) with h | h
      · have := le_findMaxNodeID h
        omega
      · have := le_findMaxNodeID h
        simp only [Prod.fst_swap, Prod.snd_swap] at this
        omega
    have hn : g0.numVertices = (Graph.computeCapacity (findMaxNodeID base + 1)).2.2 :=
      (Graph.create_spec (by omega) hsorted (fun e he => (hel e he).1) hcreate).shape.numVertices
    have hmem : ∀ i, ∀ e ∈ share i, e ∈ dynamic := by
      intro i e he
      rw [← Multiset.mem_coe, hshare, Multiset.mem_sum]
      exact ⟨i, Finset.mem_univ i, he⟩
    have hprogram : ∀ i, ∀ e ∈ ingest true (share i),
        e.1 < g0.numVertices ∧ e.2 < g0.numVertices := by
      intro i e he
      rw [hn]
      rcases mem_ingest he with h | h
      · exact hdynamic e (hmem i e h)
      · exact (hdynamic e.swap (hmem i _ h)).symm
    have hD := inserts_data (by omega) hsorted hel hcreate hprogram hc
    have hidle : ∀ i, (c.threads i).pc = .idle := fun i => (hdone i).1
    have hreturned : ∀ i, (c.threads i).returned = ingest true (share i) := by
      intro i
      have := hD.returned hidle i
      rwa [(hdone i).2, List.append_nil] at this
    obtain ⟨l, hl, hcount⟩ := hD.outNeigh_yields hidle hu
    refine ⟨l, hl, fun v => ?_⟩
    have hcast : Function.Injective (Nat.cast : ℕ → ℤ) := Nat.cast_injective
    rw [← Multiset.coe_count, hcount, Multiset.count_map_eq_count' _ _ hcast, Multiset.count_add,
      Multiset.count_sum', Multiset.coe_count, Multigraph.count_ofEdges]
    simp only [Multiset.coe_count, Multigraph.count_ofEdges, hreturned, count_ingest]
    rw [hperm.count_eq, count_baseList, Finset.sum_add_distrib, sum_count hshare, sum_count hshare,
      List.count_append, List.count_append]
    omega

/-- In a symmetrized build of any interleaving, `u` and `v` enumerate each other equally often, namely
once for every edge between them in the two input lists, and a self-loop is enumerated twice; so what
`in_neigh` enumerates is the transpose. -/
theorem symmetric_build (h : MakeGraph foreign true base dynamic c)
    (hdynamic : ∀ e ∈ dynamic,
      e.1 < (Graph.computeCapacity (findMaxNodeID base + 1)).2.2 ∧
        e.2 < (Graph.computeCapacity (findMaxNodeID base + 1)).2.2) :
    ∃ out : ℕ → List ℤ,
      (∀ u < c.g.numVertices, (c.g.outNeigh u 0).Yields (out u) ∧ (c.g.inNeigh u 0).Yields (out u)) ∧
      (∀ u < c.g.numVertices, ∀ v < c.g.numVertices, u ≠ v →
        (out u).count (v : ℤ) = (out v).count (u : ℤ) ∧
        (out u).count (v : ℤ) =
          (base ++ dynamic).count (u, v) + (base ++ dynamic).count (v, u)) ∧
      ∀ u < c.g.numVertices, (out u).count (u : ℤ) = 2 * (base ++ dynamic).count (u, u) := by
  have hout : ∀ u, ∃ l : List ℤ, u < c.g.numVertices → (c.g.outNeigh u 0).Yields l ∧
      ∀ v : ℕ, l.count (v : ℤ) =
        (base ++ dynamic).count (u, v) + (base ++ dynamic).count (v, u) := by
    intro u
    by_cases hu : u < c.g.numVertices
    · obtain ⟨l, hl⟩ := h.count_outNeigh hdynamic hu
      exact ⟨l, fun _ => hl⟩
    · exact ⟨[], fun hu' => absurd hu' hu⟩
  choose out hout using hout
  refine ⟨out, fun u hu => ⟨(hout u hu).1, (hout u hu).1⟩, fun u hu v hv _ => ⟨?_, ?_⟩,
    fun u hu => ?_⟩
  · rw [(hout u hu).2, (hout v hv).2, Nat.add_comm]
  · rw [(hout u hu).2]
  · rw [(hout u hu).2, two_mul]

/-- Two threads ingest an edge and a self-loop: the self-loop is enumerated twice. -/
theorem symmetric_build_two : ∃ c : Config 2,
    MakeGraph ⟨fun _ => 7, fun _ => .zero⟩ true [(0, 1)] [(0, 1), (1, 1)] c ∧
    1 < c.g.numVertices ∧ ∃ l : List ℤ, (c.g.inNeigh 1 0).Yields l ∧ l.count ((1 : ℕ) : ℤ) = 2 := by
  obtain ⟨g0, c, hg, hc, hp⟩ := reach_of_check (fun _ _ => True) ⟨fun _ => 7, fun _ => .zero⟩ false 2
    [(0, 1), (1, 0)] (fun i => ingest true (![[(0, 1)], [(1, 1)]] i))
    ((List.replicate 8 [0, 1]).flatten ++ List.replicate 8 1 ++ List.replicate 8 0)
    (fun c => (c.threads 0).pc == .idle && (c.threads 1).pc == .idle && (c.threads 0).todo == [] &&
      (c.threads 1).todo == [] && c.g.numVertices == 2) (by decide +kernel)
  simp only [Bool.and_eq_true, beq_iff_eq] at hp
  obtain ⟨⟨⟨⟨h1, h2⟩, h3⟩, h4⟩, hn⟩ := hp
  have hmade : MakeGraph ⟨fun _ => 7, fun _ => .zero⟩ true [(0, 1)] [(0, 1), (1, 1)] c :=
    .returns (by decide) (by decide) (by decide) hg (by decide +kernel) hc.of_restrict
      (Fin.forall_fin_two.2 ⟨⟨h1, h3⟩, ⟨h2, h4⟩⟩)
  obtain ⟨out, hout, -, hself⟩ := symmetric_build hmade (by decide)
  exact ⟨c, hmade, by omega, out 1, (hout 1 (by omega)).2, hself 1 (by omega)⟩

end Symmetric

namespace Graph

section Counters

variable {foreign : Foreign} {directed : Bool} {tid nVertices : ℕ} {base ops : List (ℕ × ℕ)}
  {g : Graph} {adj : ℕ → List ℕ}

/-- The degrees that `out_degree` reports sum up to the elements without the pivots. -/
lemma Layout.sum_outDegree (hL : g.Layout adj) :
    ∑ v ∈ Finset.Ico 0 g.numVertices, g.outDegree v = g.numEdges - g.numVertices := by
  rw [hL.numEdges, degreeSum]
  simp [outDegree]

/-- `num_edges_directed` exceeds the edges by the pivots, and the result is doubled in an undirected
graph. -/
lemma Layout.numEdgesDirected_eq (hL : g.Layout adj) : g.numEdgesDirected =
    (if g.directed then 1 else 2) *
      (∑ v ∈ Finset.Ico 0 g.numVertices, g.outDegree v + g.numVertices) := by
  rw [hL.sum_outDegree, numEdgesDirected]
  split <;> ring

/-- After no run is `num_edges_directed` the number of edges that the vertices enumerate. -/
theorem edge_counter (h : Run foreign directed tid nVertices base ops g) :
    ∑ v ∈ Finset.Ico 0 g.numVertices, g.outDegree v = (base ++ ops).length ∧
    g.numEdgesDirected ≠ ∑ v ∈ Finset.Ico 0 g.numVertices, g.outDegree v := by
  have hL := h.layout
  have hsum : ∑ v ∈ Finset.Ico 0 g.numVertices, g.outDegree v = (base ++ ops).length := by
    rw [hL.sum_outDegree, h.numEdges]
    ring
  have hn := hL.geometry.two_le_vertices
  refine ⟨hsum, ?_⟩
  rw [hL.numEdgesDirected_eq, hsum]
  split <;> omega

/-- Two vertices and two edges, one of them inserted. -/
theorem edge_counter_two : ∃ g, Run ⟨fun _ => 7, fun _ => .zero⟩ true 0 2 [(0, 1)] [(1, 0)] g ∧
    g.numEdgesDirected ≠ ∑ v ∈ Finset.Ico 0 g.numVertices, g.outDegree v := by
  obtain ⟨g, hg⟩ : ∃ g, Run ⟨fun _ => 7, fun _ => .zero⟩ true 0 2 [(0, 1)] [(1, 0)] g :=
    Run.exists_of_bound _ _ _ (by decide) (by decide) (by decide) (by decide) (by decide)
  exact ⟨g, hg, (edge_counter hg).2⟩

/-- One base edge between two vertices: the counter says 3 in a directed graph, and 8 in the symmetrized
one, where the vertices enumerate 1 and 2 edges. -/
theorem edge_counter_fails :
    (∃ g, Run ⟨fun _ => 7, fun _ => .zero⟩ true 0 2 [(0, 1)] [] g ∧ g.numEdgesDirected = 3 ∧
      ∑ v ∈ Finset.Ico 0 g.numVertices, g.outDegree v = 1) ∧
    ∃ g, Run ⟨fun _ => 7, fun _ => .zero⟩ false 0 2 [(0, 1), (1, 0)] [] g ∧
      g.numEdgesDirected = 8 ∧ ∑ v ∈ Finset.Ico 0 g.numVertices, g.outDegree v = 2 := by
  constructor
  · obtain ⟨g, hg, hp⟩ := Run.exists_of_check ⟨fun _ => 7, fun _ => .zero⟩ true 0 2 [(0, 1)] []
      (by decide) (by decide) (by decide) (by decide)
      (fun g => decide (g.numEdgesDirected = 3) && decide (g.numVertices = 2) &&
        decide (g.outDegree 0 + g.outDegree 1 = 1)) (by decide +kernel)
    simp only [Bool.and_eq_true, decide_eq_true_iff] at hp
    refine ⟨g, hg, hp.1.1, ?_⟩
    rw [hp.1.2, Finset.sum_Ico_succ_top (by omega), Finset.sum_Ico_succ_top (by omega)]
    simpa using hp.2
  · obtain ⟨g, hg, hp⟩ := Run.exists_of_check ⟨fun _ => 7, fun _ => .zero⟩ false 0 2
      [(0, 1), (1, 0)] [] (by decide) (by decide) (by decide) (by decide)
      (fun g => decide (g.numEdgesDirected = 8) && decide (g.numVertices = 2) &&
        decide (g.outDegree 0 + g.outDegree 1 = 2)) (by decide +kernel)
    simp only [Bool.and_eq_true, decide_eq_true_iff] at hp
    refine ⟨g, hg, hp.1.1, ?_⟩
    rw [hp.1.2, Finset.sum_Ico_succ_top (by omega), Finset.sum_Ico_succ_top (by omega)]
    simpa using hp.2

end Counters

end Graph

end Dgap
