import Dgap.Adjacency.Components
import Dgap.Bc.EdgeId

/-!
# What a built graph represents

When `MakeGraph` has returned, whatever the interleaving of its inserts, the graph represents the edges of the
two input lists, mirrored if the build is symmetrized (`MakeGraph.layout`); so the kernels run on a graph
whose vertices are joined exactly as the input edges join them (`MakeGraph.reads`).
-/

namespace Dgap

open Multigraph

variable {n nVertices : ℕ} {foreign : Foreign} {symmetrize directed : Bool} {base dynamic : List (ℕ × ℕ)}
  {g0 : Graph} {program : Fin n → List (ℕ × ℕ)} {c : Config n}

/-- The inserts leave the geometry of the graph alone. -/
lemma inserts_sameShape (h2 : 2 ≤ nVertices) (hsorted : base.Pairwise fun e e' => e.1 ≤ e'.1)
    (hbase : ∀ e ∈ base, e.1 < nVertices ∧ e.2 < nVertices)
    (hcreate : Graph.create foreign directed nVertices base = some g0)
    (hprogram : ∀ i, ∀ e ∈ program i, e.1 < g0.numVertices ∧ e.2 < g0.numVertices)
    (hc : (inserts g0 program).Reach c) : Graph.SameShape g0 c.g := by
  induction hc with
  | init hinit =>
    cases hinit
    exact .refl g0
  | @step c m c' hc hstep ih =>
    have hD := inserts_data h2 hsorted hbase hcreate hprogram hc
    cases m with
    | run i => exact ih.trans (hD.step hstep).2
    | wake i => exact ih.trans (hD.spurious hstep).2

/-- The inserts of the iterations that the threads share out are the inserts of all. -/
lemma ingest_sum {share : Fin n → List (ℕ × ℕ)}
    (h : (dynamic : Multiset (ℕ × ℕ)) = ∑ i, (share i : Multiset (ℕ × ℕ))) :
    (ingest symmetrize dynamic : Multiset (ℕ × ℕ)) =
      ∑ i, (ingest symmetrize (share i) : Multiset (ℕ × ℕ)) := by
  let f : ℕ × ℕ → Multiset (ℕ × ℕ) := fun e =>
    ((if symmetrize then [(e.1, e.2), (e.2, e.1)] else [(e.1, e.2)] : List (ℕ × ℕ)) : Multiset (ℕ × ℕ))
  have hf : ∀ l : List (ℕ × ℕ), (ingest symmetrize l : Multiset (ℕ × ℕ)) = (l : Multiset (ℕ × ℕ)).bind f :=
    fun l => (Multiset.coe_bind l _).symm
  simp only [hf, h]
  clear h
  induction (Finset.univ : Finset (Fin n)) using Finset.cons_induction with
  | empty => rfl
  | cons i s hi ih => rw [Finset.sum_cons, Finset.sum_cons, Multiset.add_bind, ih]

/-- A finished build represents its input, mirrored if it is symmetrized. -/
theorem MakeGraph.layout (h : MakeGraph foreign symmetrize base dynamic c)
    (hdynamic : ∀ e ∈ dynamic,
      e.1 < (Graph.computeCapacity (findMaxNodeID base + 1)).2.2 ∧
        e.2 < (Graph.computeCapacity (findMaxNodeID base + 1)).2.2) :
    ∃ edges : List (ℕ × ℕ), c.g.Layout (ofEdges edges) ∧
      edges.Perm (baseList symmetrize base ++ ingest symmetrize dynamic) ∧
      ∀ e ∈ edges, e.1 < c.g.numVertices ∧ e.2 < c.g.numVertices := by
  cases h with
  | @returns el g0 share _ hmax hperm hsorted hcreate hshare hc hdone =>
    have hel : ∀ e ∈ el, e.1 < findMaxNodeID base + 1 ∧ e.2 < findMaxNodeID base + 1 := by
      intro e he
      rcases mem_baseList (hperm.mem_iff.1 he) with h | h
      · have := le_findMaxNodeID h
        omega
      · have := le_findMaxNodeID h
        simp only [Prod.fst_swap, Prod.snd_swap] at this
        omega
    have hcr := Graph.create_spec (by omega) hsorted (fun e he => (hel e he).1) hcreate
    have hn : g0.numVertices = (Graph.computeCapacity (findMaxNodeID base + 1)).2.2 := hcr.shape.numVertices
    have hingest : ∀ e ∈ ingest symmetrize dynamic, e.1 < g0.numVertices ∧ e.2 < g0.numVertices := by
      intro e he
      rw [hn]
      rcases mem_ingest he with h | h
      · exact hdynamic e h
      · exact (hdynamic e.swap h).symm
    have hprogram : ∀ i, ∀ e ∈ ingest symmetrize (share i), e.1 < g0.numVertices ∧ e.2 < g0.numVertices := by
      intro i e he
      refine hingest e ?_
      rw [← Multiset.mem_coe, ingest_sum hshare, Multiset.mem_sum]
      exact ⟨i, Finset.mem_univ i, he⟩
    have hD := inserts_data (by omega) hsorted hel hcreate hprogram hc
    have hsize := (inserts_sameShape (by omega) hsorted hel hcreate hprogram hc).numVertices
    have hidle : ∀ i, (c.threads i).pc = .idle := fun i => (hdone i).1
    obtain ⟨ops, hL, hops⟩ := hD.layout
    have hplaced : ∀ i, (c.threads i).placed = (ingest symmetrize (share i) : Multiset (ℕ × ℕ)) := by
      intro i
      have hreturned := hD.returned hidle i
      rw [(hdone i).2, List.append_nil] at hreturned
      simp [Thread.placed, hidle i, Pc.placed, hreturned]
    have hopsperm : ops.Perm (ingest symmetrize dynamic) := by
      rw [← Multiset.coe_eq_coe, hops, ingest_sum hshare]
      exact Finset.sum_congr rfl fun i _ => hplaced i
    refine ⟨el ++ ops, hL, hperm.append hopsperm, fun e he => ?_⟩
    rw [hsize]
    rcases List.mem_append.1 he with he | he
    · have hle : findMaxNodeID base + 1 ≤ (Graph.computeCapacity (findMaxNodeID base + 1)).2.2 :=
        (Graph.allocate_geometry foreign true 0 (by omega)).2
      have := hel e he
      rw [hn]
      omega
    · exact hingest e (hopsperm.subset he)

/-- A vertex has an edge if the list has it. -/
lemma mem_ofEdges {l : List (ℕ × ℕ)} {u v : ℕ} : v ∈ ofEdges l u ↔ (u, v) ∈ l := by
  rw [← List.count_pos_iff, count_ofEdges, List.count_pos_iff]

/-- The mirrored base list has the base edges. -/
lemma subset_baseList (symmetrize : Bool) (el : List (ℕ × ℕ)) : el ⊆ baseList symmetrize el := by
  rw [baseList_eq]
  split
  · exact List.subset_append_left el _
  · exact List.Subset.refl el

/-- The inserts have the dynamic edges. -/
lemma subset_ingest (symmetrize : Bool) (el : List (ℕ × ℕ)) : el ⊆ ingest symmetrize el := by
  intro e he
  refine List.mem_flatMap.2 ⟨e, he, ?_⟩
  cases symmetrize <;> simp

/-- What the loops over the out-edges of a built graph run over. -/
structure MakeGraph.Reads (symmetrize : Bool) (input : List (ℕ × ℕ)) (g : Graph) : Prop where
  yields : ∀ u < g.numVertices, (g.outNeigh u 0).Yields ((g.neighbors u).map (↑))
  closed : Closed g.neighbors (Finset.range g.numVertices)
  joined : ∀ u v, Joined g.neighbors (Finset.range g.numVertices) u v ↔
    Joined (ofEdges input) (Finset.range g.numVertices) u v
  mem : symmetrize = true → ∀ u < g.numVertices, ∀ v,
    v ∈ g.neighbors u ↔ (u, v) ∈ input ∨ (v, u) ∈ input
  inRange : ∀ e ∈ input, e.1 < g.numVertices ∧ e.2 < g.numVertices
  outDegree : ∀ u < g.numVertices, g.outDegree u = (g.neighbors u).length

/-- The kernels run on the input graph. -/
theorem MakeGraph.reads (h : MakeGraph foreign symmetrize base dynamic c)
    (hdynamic : ∀ e ∈ dynamic,
      e.1 < (Graph.computeCapacity (findMaxNodeID base + 1)).2.2 ∧
        e.2 < (Graph.computeCapacity (findMaxNodeID base + 1)).2.2) :
    MakeGraph.Reads symmetrize (base ++ dynamic) c.g := by
  obtain ⟨edges, hL, hperm, hlt⟩ := h.layout hdynamic
  have hmem : ∀ {u v}, u < c.g.numVertices → (v ∈ c.g.neighbors u ↔ (u, v) ∈ edges) := fun {u v} hu => by
    rw [(hL.neighbors hu).2.1.mem_iff, mem_ofEdges]
  -- an edge of the graph is an input edge or the reversal of one
  have hinput : ∀ {e}, e ∈ edges → e ∈ base ++ dynamic ∨ e.swap ∈ base ++ dynamic := fun {e} he => by
    rcases List.mem_append.1 (hperm.subset he) with he | he
    · exact (mem_baseList he).imp (List.mem_append_left _) (List.mem_append_left _)
    · exact (mem_ingest he).imp (List.mem_append_right _) (List.mem_append_right _)
  have hsub : base ++ dynamic ⊆ edges := fun e he => by
    refine hperm.symm.subset ?_
    rcases List.mem_append.1 he with he | he
    · exact List.mem_append_left _ (subset_baseList symmetrize base he)
    · exact List.mem_append_right _ (subset_ingest symmetrize dynamic he)
  have hrange : ∀ {u}, u ∈ Finset.range c.g.numVertices → u < c.g.numVertices := Finset.mem_range.1
  refine ⟨fun u hu => (hL.neighbors hu).1, fun u hu v hv => ?_, fun u v => ⟨.mono fun u hu v hv => ?_,
    .mono fun u hu v hv => ?_⟩, ?_, fun e he => hlt e (hsub he), fun u hu => (hL.neighbors hu).2.2⟩
  · exact Finset.mem_range.2 (hlt _ ((hmem (hrange hu)).1 hv)).2
  · have hedge := (hmem (hrange hu)).1 hv
    rcases hinput hedge with he | he
    · exact .edge hu (mem_ofEdges.2 he)
    · exact .symm (.edge (Finset.mem_range.2 (hlt _ hedge).2) (mem_ofEdges.2 he))
  · exact .edge hu ((hmem (hrange hu)).2 (hsub (mem_ofEdges.1 hv)))
  · rintro rfl u hu v
    rw [hmem hu]
    refine ⟨hinput, ?_⟩
    have hcount : ∀ {a b}, (a, b) ∈ edges ↔ 0 < (baseList true base ++ ingest true dynamic).count (a, b) :=
      fun {a b} => by rw [List.count_pos_iff, hperm.mem_iff]
    rw [hcount, List.count_append, count_baseList, count_ingest]
    simp only [← List.count_pos_iff, List.count_append]
    omega

end Dgap
