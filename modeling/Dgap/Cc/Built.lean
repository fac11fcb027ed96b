import Dgap.Build.Built
import Dgap.Cc.Components
import Dgap.Cc.Verifier

/-!
# The components of a built graph

`main` of `cc_sv.cc`: the graph that `MakeGraph` builds from its two input lists, by any interleaving of the
inserts, `ShiloachVishkin` on it, by any interleaving of the team, and `CCVerifier` on the labels, in any
order of its map. The labels are those of the components of the input edges; of a symmetrized build they are
always accepted.
-/

namespace Dgap

namespace Cc

open Multigraph

variable {n : ℕ} {foreign : Foreign} {symmetrize : Bool} {base dynamic : List (ℕ × ℕ)} {c : Config n}

/-- A symmetrized build has every edge in both directions. -/
lemma symmetric_of_reads {input : List (ℕ × ℕ)} {g : Graph} (h : MakeGraph.Reads true input g) :
    Symmetric g.neighbors (Finset.range g.numVertices) := by
  intro u hu v hv
  have hvlt := Finset.mem_range.1 (h.closed u hu v hv)
  exact (h.mem rfl v hvlt u).2 ((h.mem rfl u (Finset.mem_range.1 hu) v).1 hv).symm

/-- Two vertices of a built graph get the same label exactly if the input edges join them, and the verifier
accepts the labels if the build is symmetrized. -/
theorem built_components (h : MakeGraph foreign symmetrize base dynamic c)
    (hdynamic : ∀ e ∈ dynamic,
      e.1 < (Graph.computeCapacity (findMaxNodeID base + 1)).2.2 ∧
        e.2 < (Graph.computeCapacity (findMaxNodeID base + 1)).2.2)
    {numThreads : ℕ} {d : ForkJoin.Config numThreads Loop ℕ State Pc}
    (hd : (runs numThreads c.g.neighbors c.g.numVertices).Reach d) (hend : d.phase = none) :
    (∀ u < c.g.numVertices, ∀ v < c.g.numVertices, d.shared.comp u = d.shared.comp v ↔
      Joined (ofEdges (base ++ dynamic)) (Finset.range c.g.numVertices) u v) ∧
    ∀ order fuel, Enumerates order (labelToSource d.shared.comp c.g.numVertices) → c.g.numVertices < fuel →
      ∃ accepted, ccVerifier c.g.neighbors c.g.numVertices d.shared.comp order fuel = some accepted ∧
        (symmetrize = true → accepted = true) := by
  have hreads := h.reads hdynamic
  have hfound := (outline hreads.closed).outline.post (fun _ _ => start_ok) hd hend
  -- joined vertices have the same least vertex
  have hcomp : ∀ u < c.g.numVertices, ∀ v < c.g.numVertices, d.shared.comp u = d.shared.comp v ↔
      Joined c.g.neighbors (Finset.range c.g.numVertices) u v := by
    intro u hu v hv
    have hleastu := hfound.isLeast u hu
    have hleastv := hfound.isLeast v hv
    constructor
    · intro heq
      have hjv := hleastv.1
      rw [← heq] at hjv
      exact Multigraph.Joined.trans hleastu.1 (Multigraph.Joined.symm hjv)
    · intro hj
      exact le_antisymm (hleastu.2 (hj.trans hleastv.1)) (hleastv.2 (hj.symm.trans hleastu.1))
  refine ⟨fun u hu v hv => (hcomp u hu v hv).trans (hreads.joined u v), fun order fuel horder hfuel => ?_⟩
  obtain ⟨accepted, hverifier, haccepted⟩ := ccVerifier_eq hreads.closed horder hfuel
  refine ⟨accepted, hverifier, ?_⟩
  rintro rfl
  refine haccepted.2 (IsComponents.verified hreads.closed horder ⟨hcomp, fun v hv s hs => ?_⟩)
  have hmem : s ∈ Finset.range c.g.numVertices := (hs.1.mem hreads.closed).1 (Finset.mem_range.2 hv)
  exact (joined_iff_reachable hreads.closed (symmetric_of_reads hreads) hmem).1
    (Multigraph.Joined.symm hs.1)

/-- Two vertices with an edge each way, built by two threads and labelled by three: one component, which the
verifier accepts. -/
theorem built_components_two : ∃ (c : Config 2) (d : ForkJoin.Config 3 Loop ℕ State Pc),
    MakeGraph ⟨fun _ => 7, fun _ => .zero⟩ true [(0, 1)] [(0, 1), (1, 1)] c ∧
    (runs 3 c.g.neighbors c.g.numVertices).Reach d ∧ d.phase = none ∧ d.shared.comp 0 = d.shared.comp 1 ∧
    ∀ order, Enumerates order (labelToSource d.shared.comp c.g.numVertices) →
      ccVerifier c.g.neighbors c.g.numVertices d.shared.comp order 3 = some true := by
  obtain ⟨g0, c, hg, hc, hp⟩ := reach_of_check (fun _ _ => True) ⟨fun _ => 7, fun _ => .zero⟩ false 2
    [(0, 1), (1, 0)] (fun i => ingest true (![[(0, 1)], [(1, 1)]] i))
    ((List.replicate 8 [0, 1]).flatten ++ List.replicate 8 1 ++ List.replicate 8 0)
    (fun c => (c.threads 0).pc == .idle && (c.threads 1).pc == .idle && (c.threads 0).todo == [] &&
      (c.threads 1).todo == [] && c.g.numVertices == 2) (by decide +kernel)
  simp only [Bool.and_eq_true, beq_iff_eq] at hp
  obtain ⟨⟨⟨⟨h1, h2⟩, h3⟩, h4⟩, hn⟩ := hp
  have hmade : MakeGraph ⟨fun _ => 7, fun _ => .zero⟩ true [(0, 1)] [(0, 1), (1, 1)] c :=
    .returns (by decide) (by decide) (by decide) hg (by decide +kernel) hc.of_restrict
      (Fin.forall_fin_two.2 ⟨⟨h1, h3⟩, ⟨h2, h4⟩⟩)
  have hreads := hmade.reads (by decide)
  obtain ⟨d, hd, hend⟩ := exists_found (n := 3) hreads.closed (by decide) ⟨fun _ => 7, false, 0⟩
  obtain ⟨hcomp, hverifier⟩ := built_components hmade (by decide) hd hend
  have hjoined : Joined (ofEdges ([(0, 1)] ++ [(0, 1), (1, 1)])) (Finset.range c.g.numVertices) 0 1 :=
    .edge (Finset.mem_range.2 (by omega)) (by decide)
  refine ⟨c, d, hmade, hd, hend, (hcomp 0 (by omega) 1 (by omega)).2 hjoined, fun order horder => ?_⟩
  obtain ⟨accepted, hrun, hyes⟩ := hverifier order 3 horder (by omega)
  rw [hrun, hyes rfl]

end Cc

end Dgap
