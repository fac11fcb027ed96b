import Dgap.Build.Built
import Dgap.Bfs.Search
import Dgap.Bfs.Verifier

/-!
# The search of a built graph

`main` of `bfs.cc`: the graph that a symmetrized `MakeGraph` builds from its two input lists, by any interleaving of
the inserts, `DOBFS` on it, by any interleaving of the team, and `BFSVerifier` on the parents.
-/

namespace Dgap

namespace Bfs

open Multigraph

variable {n : ℕ} {foreign : Foreign} {base dynamic : List (ℕ × ℕ)} {c : Config n} {source : ℕ} {alpha beta : ℤ}

/-- The input edges, each both ways. -/
def mirrored (input : List (ℕ × ℕ)) : ℕ → List ℕ := ofEdges (input ++ input.map Prod.swap)

/-- The edges of a symmetrized build. -/
lemma mem_mirrored {input : List (ℕ × ℕ)} {g : Graph} (h : MakeGraph.Reads true input g) :
    ∀ u ∈ Finset.range g.numVertices, ∀ v, v ∈ g.neighbors u ↔ v ∈ mirrored input u := by
  intro u hu v
  rw [h.mem rfl u (Finset.mem_range.1 hu) v, mirrored, mem_ofEdges, List.mem_append, List.mem_map]
  refine or_congr_right ⟨fun hv => ⟨_, hv, rfl⟩, ?_⟩
  rintro ⟨⟨a, b⟩, he, heq⟩
  cases heq
  exact he

/-- A symmetrized build is a graph to search. -/
lemma built_valid {input : List (ℕ × ℕ)} {g : Graph} (h : MakeGraph.Reads true input g)
    (hsource : source < g.numVertices) (halpha : alpha ≠ 0) (hbeta : 0 < beta) :
    (g.search source alpha beta).Valid where
  source := hsource
  closed u hu v hv := Finset.mem_range.1 (h.closed u (Finset.mem_range.2 hu) v hv)
  inverse u hu v := by
    show v ∈ g.neighbors u ↔ v < g.numVertices ∧ u ∈ g.neighbors v
    constructor
    · intro hv
      have hlt := Finset.mem_range.1 (h.closed u (Finset.mem_range.2 hu) v hv)
      exact ⟨hlt, (h.mem rfl v hlt u).2 ((h.mem rfl u hu v).1 hv).symm⟩
    · rintro ⟨hlt, hv⟩
      exact (h.mem rfl u hu v).2 ((h.mem rfl v hlt u).1 hv).symm
  outDegree v hv := by
    show 0 ≤ g.outDegree v
    rw [h.outDegree v hv]
    exact Int.natCast_nonneg _
  alpha := halpha
  beta := hbeta

/-- The verifier accepts what the search has found. -/
lemma Found.accepted {inp : Input} {parent : ℕ → ℤ} {fuel : ℕ} (h : Found inp parent) (hin : inp.Valid)
    (hfuel : inp.numNodes < fuel) :
    bfsVerifier inp.outNeigh inp.inNeigh inp.numNodes inp.source parent fuel = some true := by
  obtain ⟨depth, toVisit, hrun, -, hreach, hunreach⟩ := depths_spec hin.closed_range hin.source .init .start
    (show inp.numNodes < fuel + 0 from hfuel)
  rw [bfsVerifier, hrun, Option.map_some, Option.some_inj]
  refine List.all_eq_true.2 fun u hu => (checkVertex_iff hreach hunreach).2 ?_
  obtain ⟨hfound, hnone⟩ := h u (List.mem_range.1 hu)
  refine ⟨fun hu' => ?_, hnone⟩
  rcases hfound hu' with hsource | ⟨v, j, hv, hat, hedge, hparent⟩
  · exact .inl hsource
  · refine .inr ⟨?_, v, ?_, hparent, hv.tight hat⟩
    · rintro rfl
      have := hat.unique atDist_start
      cases this
    · exact (hin.inverse u (List.mem_range.1 hu) v).2 ⟨hin.lt_of_at hv, hedge⟩

/-- The search of a symmetrized build finds a tree of shortest paths over the input edges, taken both ways, and the
verifier accepts it. -/
theorem built_shortest_tree (h : MakeGraph foreign true base dynamic c)
    (hdynamic : ∀ e ∈ dynamic,
      e.1 < (Graph.computeCapacity (findMaxNodeID base + 1)).2.2 ∧
        e.2 < (Graph.computeCapacity (findMaxNodeID base + 1)).2.2)
    (hsource : source < c.g.numVertices) (halpha : alpha ≠ 0) (hbeta : 0 < beta) {numThreads : ℕ}
    {d : ForkJoin.Config numThreads Loop ℕ State Thread}
    (hd : (runs numThreads (c.g.search source alpha beta)).Reach d) (hend : d.phase = none) :
    ShortestTree (mirrored (base ++ dynamic)) source (Finset.range c.g.numVertices) (parentOf d.shared.parent) ∧
      (∀ v < c.g.numVertices, ¬ Reachable (mirrored (base ++ dynamic)) source v → d.shared.parent v = -1) ∧
      ∀ fuel, c.g.numVertices < fuel →
        bfsVerifier c.g.neighbors c.g.inNeighbors c.g.numVertices source d.shared.parent fuel = some true := by
  have hreads := h.reads hdynamic
  have hin : (c.g.search source alpha beta).Valid := built_valid hreads hsource halpha hbeta
  have hs : source ∈ Finset.range c.g.numVertices := Finset.mem_range.2 hsource
  have hfound : Found (c.g.search source alpha beta) d.shared.parent :=
    (outline hin).outline.post (fun _ _ => start_ok) hd hend
  refine ⟨(hfound.tree hin).congr hreads.closed hs (mem_mirrored hreads), fun v hv hreach => ?_, fun fuel hfuel =>
    hfound.accepted hin hfuel⟩
  refine (hfound v hv).2 fun hreach' => hreach ?_
  exact (reachable_congr hreads.closed hs (mem_mirrored hreads)).1 hreach'

/-- Two vertices with an edge each way, built by two threads and searched by three from the second one. -/
theorem built_shortest_tree_two : ∃ (c : Config 2) (d : ForkJoin.Config 3 Loop ℕ State Thread),
    MakeGraph ⟨fun _ => 7, fun _ => .zero⟩ true [(0, 1)] [(0, 1), (1, 1)] c ∧
    (runs 3 (c.g.search 1 15 18)).Reach d ∧ d.phase = none ∧ parentOf d.shared.parent 0 = some 1 ∧
    bfsVerifier c.g.neighbors c.g.inNeighbors c.g.numVertices 1 d.shared.parent 3 = some true := by
  obtain ⟨g0, c, hg, hc, hp⟩ := reach_of_check (fun _ _ => True) ⟨fun _ => 7, fun _ => .zero⟩ false 2
    [(0, 1), (1, 0)] (fun i => ingest true (![[(0, 1)], [(1, 1)]] i))
    ((List.replicate 8 [0, 1]).flatten ++ List.replicate 8 1 ++ List.replicate 8 0)
    (fun c => (c.threads 0).pc == .idle && (c.threads 1).pc == .idle && (c.threads 0).todo == [] &&
      (c.threads 1).todo == [] && c.g.numVertices == 2) (by decide +kernel)
  simp only [Bool.and_eq_true, beq_iff_eq] at hp
  obtain ⟨⟨⟨⟨h1, h2⟩, h3⟩, h4⟩, hn⟩ := hp
  have hmade : MakeGraph ⟨fun _ => 7, fun _ => .zero⟩ true [(0, 1)] [(0, 1), (1, 1)] c :=
    .returns (by decide) (by decide) (by decide) hg (by decide +kernel) hc.of_restrict
      (Fin.forall_fin_two.2 ⟨⟨h1, h3⟩, ⟨h2, h4⟩⟩)
  have hsource : 1 < c.g.numVertices := by omega
  have halpha : (15 : ℤ) ≠ 0 := by decide
  have hbeta : (0 : ℤ) < 18 := by decide
  obtain ⟨d, hd, hend⟩ := exists_found (n := 3) (built_valid (hmade.reads (by decide)) hsource halpha hbeta)
    (by decide) ⟨fun _ => 7, ⟨fun _ => 7, 7, 7, 7⟩, .reset, .reset, 0, 0, 0, 0, []⟩
  obtain ⟨htree, -, hverifier⟩ := built_shortest_tree hmade (by decide) hsource halpha hbeta hd hend
  have hedge : Reachable (mirrored ([(0, 1)] ++ [(0, 1), (1, 1)])) 1 0 := (Reachable.refl 1).edge (by decide)
  obtain ⟨u, hu, hmem, hreach, hdist⟩ := htree.up 0 (Finset.mem_range.2 (by omega)) hedge (by decide)
  have hone : ∀ u, 0 ∈ mirrored ([(0, 1)] ++ [(0, 1), (1, 1)]) u → u = 1 := by
    intro u hu
    rw [mirrored, mem_ofEdges] at hu
    simp at hu
    exact hu
  exact ⟨c, d, hmade, hd, hend, hone u hmem ▸ hu, hverifier 3 (by omega)⟩

end Bfs

end Dgap
