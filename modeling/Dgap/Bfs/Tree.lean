import Dgap.Adjacency.Components
import Dgap.Bfs.DirectionOptimizing

/-!
# The tree of a search by levels

While the frontier is at depth `d`, every vertex that is not deeper has a parent one level up, and a vertex
that is deeper is unvisited or has been found from the frontier (`Tree`). Finding an unvisited vertex from
any vertex that is not deeper than the frontier keeps this, since such a vertex can only be in the frontier
(`Tree.level_eq`); that is why bits of former frontiers in the bitmap do no harm.
-/

namespace Dgap

namespace Bfs

open Multigraph

/-- What a run needs of its graph and parameters. -/
structure Input.Valid (inp : Input) : Prop where
  source : inp.source < inp.numNodes
  closed : ∀ u < inp.numNodes, ∀ v ∈ inp.outNeigh u, v < inp.numNodes
  inverse : ∀ u < inp.numNodes, ∀ v, v ∈ inp.inNeigh u ↔ v < inp.numNodes ∧ u ∈ inp.outNeigh v
  outDegree : ∀ v < inp.numNodes, 0 ≤ inp.outDegree v
  alpha : inp.alpha ≠ 0
  beta : 0 < inp.beta

variable (inp : Input)

/-- A vertex is at depth `d` of the search. -/
abbrev Input.At (d v : ℕ) : Prop := AtDist inp.outNeigh inp.source d v

/-- A vertex has a parent one level up; the source is its own. -/
def HasParent (parent : ℕ → ℤ) (v : ℕ) : Prop :=
  (v = inp.source ∧ parent v = inp.source) ∨
    ∃ u j, inp.At j u ∧ inp.At (j + 1) v ∧ v ∈ inp.outNeigh u ∧ parent v = u

/-- The parents while the frontier is at depth `d`. -/
structure Tree (parent : ℕ → ℤ) (d : ℕ) : Prop where
  near : ∀ v, ∀ j ≤ d, inp.At j v → HasParent inp parent v
  far : ∀ v < inp.numNodes, (∀ j ≤ d, ¬ inp.At j v) → parent v < 0 ∨ (inp.At (d + 1) v ∧ HasParent inp parent v)

variable {inp} {parent parent' : ℕ → ℤ} {d j u v : ℕ}

/-- A parent is a vertex. -/
lemma HasParent.nonneg (h : HasParent inp parent v) : 0 ≤ parent v := by
  rcases h with ⟨-, h⟩ | ⟨u, j, -, -, -, h⟩
  · rw [h]
    exact Int.natCast_nonneg _
  · rw [h]
    exact Int.natCast_nonneg _

/-- A vertex keeps its parent. -/
lemma HasParent.congr (h : HasParent inp parent v) (heq : parent' v = parent v) : HasParent inp parent' v := by
  rcases h with ⟨hv, h⟩ | ⟨u, j, hu, hv, hmem, h⟩
  · exact .inl ⟨hv, heq.trans h⟩
  · exact .inr ⟨u, j, hu, hv, hmem, heq.trans h⟩

section Depths

variable (hin : inp.Valid)

include hin

/-- The graph is closed under its edges. -/
lemma Input.Valid.closed_range : Closed inp.outNeigh (Finset.range inp.numNodes) := fun u hu v hv =>
  Finset.mem_range.2 (hin.closed u (Finset.mem_range.1 hu) v hv)

/-- What the search reaches is a vertex. -/
lemma Input.Valid.lt_of_reachable (h : Reachable inp.outNeigh inp.source v) : v < inp.numNodes := by
  obtain ⟨p, hp⟩ := h
  exact Finset.mem_range.1 (hp.joined hin.closed_range (Finset.mem_range.2 hin.source)).1

/-- What has a depth is a vertex. -/
lemma Input.Valid.lt_of_at (h : inp.At d v) : v < inp.numNodes := hin.lt_of_reachable h.1

/-- Each level up to a nonempty one is nonempty, so the depth is below the number of vertices. -/
lemma Input.Valid.depth_lt (h : inp.At d v) : d < inp.numNodes := by
  suffices hs : ∃ s : Finset ℕ, s ⊆ Finset.range inp.numNodes ∧ s.card = d + 1 ∧ ∀ x ∈ s, ∃ j ≤ d, inp.At j x by
    obtain ⟨s, hsub, hcard, -⟩ := hs
    have hle := Finset.card_le_card hsub
    rw [hcard, Finset.card_range] at hle
    exact hle
  induction d generalizing v with
  | zero =>
    refine ⟨{v}, ?_, rfl, fun x hx => ⟨0, le_rfl, Finset.mem_singleton.1 hx ▸ h⟩⟩
    exact Finset.singleton_subset_iff.2 (Finset.mem_range.2 (hin.lt_of_at h))
  | succ d ih =>
    obtain ⟨u, hu, -⟩ := h.pred
    obtain ⟨s, hsub, hcard, hs⟩ := ih hu
    have hmem : v ∉ s := by
      intro hv
      obtain ⟨j, hj, hvj⟩ := hs v hv
      have := hvj.unique h
      omega
    refine ⟨insert v s, Finset.insert_subset (Finset.mem_range.2 (hin.lt_of_at h)) hsub, ?_, fun x hx => ?_⟩
    · rw [Finset.card_insert_of_notMem hmem, hcard]
    · rcases Finset.mem_insert.1 hx with rfl | hx
      · exact ⟨d + 1, le_rfl, h⟩
      · obtain ⟨j, hj, hxj⟩ := hs x hx
        exact ⟨j, by omega, hxj⟩

end Depths

/-- Behind an empty level there is none. -/
lemma not_at_of_le (h : ∀ v, ¬ inp.At d v) (hd : d ≤ j) : ¬ inp.At j v := by
  induction j, hd using Nat.le_induction generalizing v with
  | base => exact h v
  | succ j _ ih =>
    intro hv
    obtain ⟨u, hu, -⟩ := hv.pred
    exact ih hu

namespace Tree

variable (h : Tree inp parent d)

include h

/-- An unvisited vertex is deeper than the frontier. -/
lemma not_at (hv : parent v < 0) (hj : j ≤ d) : ¬ inp.At j v := fun hat => by
  have := (h.near v j hj hat).nonneg
  omega

/-- An unvisited vertex with an edge from a vertex that is not deeper than the frontier has it from the
frontier. -/
lemma level_eq (hu : inp.At j u) (hj : j ≤ d) (hmem : v ∈ inp.outNeigh u) (hv : parent v < 0) :
    j = d ∧ inp.At (d + 1) v := by
  obtain ⟨hr, hle⟩ := hu.next hmem
  have hat : inp.At (dist inp.outNeigh inp.source v) v := ⟨hr, rfl⟩
  have hdeep : d < dist inp.outNeigh inp.source v := by
    by_contra hd
    exact h.not_at hv (not_lt.1 hd) hat
  obtain rfl : j = d := by omega
  have hd : dist inp.outNeigh inp.source v = j + 1 := by omega
  exact ⟨rfl, hr, hd⟩

/-- An unvisited vertex is found. -/
lemma claim (hu : inp.At j u) (hj : j ≤ d) (hmem : v ∈ inp.outNeigh u) (hv : parent v < 0) :
    Tree inp (Function.update parent v u) d := by
  obtain ⟨rfl, hat⟩ := h.level_eq hu hj hmem hv
  constructor
  · intro w i hi hw
    have hne : w ≠ v := by
      rintro rfl
      exact h.not_at hv hi hw
    exact (h.near w i hi hw).congr (Function.update_of_ne hne _ _)
  · intro w hw hfar
    by_cases hwv : w = v
    · subst hwv
      exact .inr ⟨hat, .inr ⟨u, j, hu, hat, hmem, Function.update_self ..⟩⟩
    · rw [Function.update_of_ne hwv]
      rcases h.far w hw hfar with hneg | ⟨hat', hp⟩
      · exact .inl hneg
      · exact .inr ⟨hat', hp.congr (Function.update_of_ne hwv _ _)⟩

/-- The next level is complete. -/
lemma next (hin : inp.Valid) (hall : ∀ v, inp.At (d + 1) v → 0 ≤ parent v) : Tree inp parent (d + 1) := by
  constructor
  · intro v j hj hv
    rcases Nat.le_succ_iff.1 hj with hj | rfl
    · exact h.near v j hj hv
    · have hfar : ∀ i ≤ d, ¬ inp.At i v := fun i hi hat => by
        have := hat.unique hv
        omega
      rcases h.far v (hin.lt_of_at hv) hfar with hneg | ⟨-, hp⟩
      · have := hall v hv
        omega
      · exact hp
  · intro v hv hfar
    rcases h.far v hv fun i hi => hfar i (by omega) with hneg | ⟨hat, -⟩
    · exact .inl hneg
    · exact absurd hat (hfar (d + 1) le_rfl)

/-- When the frontier is empty the search is over. -/
lemma ended (hempty : ∀ v, ¬ inp.At d v) (hv : v < inp.numNodes) :
    (Reachable inp.outNeigh inp.source v → HasParent inp parent v) ∧
      (¬ Reachable inp.outNeigh inp.source v → parent v < 0) := by
  have hdepth : ∀ {i}, inp.At i v → i ≤ d := fun {i} hat => by
    by_contra hi
    exact not_at_of_le hempty (not_le.1 hi).le hat
  refine ⟨fun hr => h.near v _ (hdepth ⟨hr, rfl⟩) ⟨hr, rfl⟩, fun hr => ?_⟩
  rcases h.far v hv fun i _ hat => hr hat.1 with hneg | ⟨hat, -⟩
  · exact hneg
  · exact absurd hat.1 hr

end Tree

/-- The source alone is visited. -/
lemma Tree.start (hneg : ∀ v < inp.numNodes, parent v < 0) :
    Tree inp (Function.update parent inp.source inp.source) 0 := by
  constructor
  · intro v j hj hv
    obtain rfl := Nat.le_zero.1 hj
    obtain rfl := atDist_zero.1 hv
    exact .inl ⟨rfl, Function.update_self ..⟩
  · intro v hv hfar
    have hne : v ≠ inp.source := by
      rintro rfl
      exact hfar 0 le_rfl atDist_start
    rw [Function.update_of_ne hne]
    exact .inl (hneg v hv)

end Bfs

end Dgap
