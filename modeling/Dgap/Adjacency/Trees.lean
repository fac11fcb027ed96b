import Dgap.Adjacency.Components

/-!
# Trees of shortest paths

A search gives every vertex it reaches a parent that is one level nearer to the start (`ShortestTree`). Whoever
follows the parents walks a shortest path back (`ShortestTree.exists_path`). The order of the edges does not
matter (`ShortestTree.congr`).
-/

namespace Multigraph

variable {V : Type*}

section

variable (nbrs : V → List V) (s : V) (vs : Finset V) (parent : V → Option V)

/-- Every reachable vertex of the set has a parent one level up, the start is its own, and the others have none. -/
structure ShortestTree : Prop where
  root : parent s = some s
  up : ∀ v ∈ vs, Reachable nbrs s v → v ≠ s → ∃ u, parent v = some u ∧ v ∈ nbrs u ∧ Tight nbrs s u v
  none : ∀ v ∈ vs, ¬ Reachable nbrs s v → parent v = none

/-- A path, its last edge first, whose edges come from the parents. -/
def Follows : List (V × ℕ) → V → Prop
  | [], _ => True
  | (u, _) :: p, v => parent v = some u ∧ Follows p u

end

variable {nbrs nbrs' : V → List V} {s u v : V} {vs : Finset V} {parent : V → Option V} {p : List (V × ℕ)}

/-- Who follows the parents walks a shortest path back to the start. -/
theorem ShortestTree.exists_path (h : ShortestTree nbrs s vs parent) (hvs : Closed nbrs vs) (hs : s ∈ vs)
    (hv : Reachable nbrs s v) : ∃ p ∈ shortestPaths nbrs s v, Follows parent p v := by
  induction hd : dist nbrs s v generalizing v with
  | zero =>
    obtain rfl : v = s := atDist_zero.1 ⟨hv, hd⟩
    exact ⟨[], ⟨.nil, hd.symm⟩, trivial⟩
  | succ d ih =>
    have hne : v ≠ s := by
      rintro rfl
      have := AtDist.unique ⟨hv, hd⟩ atDist_start
      cases this
    obtain ⟨q, hq⟩ := hv
    obtain ⟨u, hu, hedge, hreach, hdist⟩ := h.up v (hq.joined hvs hs).1 ⟨q, hq⟩ hne
    obtain ⟨p, ⟨hp, hlen⟩, hfollows⟩ := ih hreach (by omega)
    obtain ⟨k, hk⟩ := List.getElem?_of_mem hedge
    refine ⟨(u, k) :: p, ⟨.cons hp hk, ?_⟩, hu, hfollows⟩
    rw [List.length_cons, hlen, hdist]

section Congr

variable (hvs : Closed nbrs vs) (hs : s ∈ vs)

include hvs hs

/-- A path over the edges of another graph that has them all. -/
lemma IsPath.mono (hle : ∀ u ∈ vs, nbrs u ⊆ nbrs' u) (h : IsPath nbrs s p v) :
    ∃ p', IsPath nbrs' s p' v ∧ p'.length = p.length := by
  induction h with
  | nil => exact ⟨[], .nil, rfl⟩
  | @cons p u k v hp hk ih =>
    obtain ⟨p', hp', hlen⟩ := ih
    obtain ⟨k', hk'⟩ := List.getElem?_of_mem (hle u (hp.joined hvs hs).1 (List.mem_of_getElem? hk))
    exact ⟨(u, k') :: p', .cons hp' hk', by rw [List.length_cons, List.length_cons, hlen]⟩

variable (hmem : ∀ u ∈ vs, ∀ v, v ∈ nbrs u ↔ v ∈ nbrs' u)

include hmem

omit hs in
/-- A graph with the same edges is closed too. -/
lemma Closed.congr : Closed nbrs' vs := fun u hu v hv => hvs u hu v ((hmem u hu v).2 hv)

/-- The lengths of the paths depend on the edges alone. -/
lemma exists_path_congr (n : ℕ) :
    (∃ p, IsPath nbrs s p v ∧ p.length = n) ↔ ∃ p, IsPath nbrs' s p v ∧ p.length = n := by
  constructor
  · rintro ⟨p, hp, rfl⟩
    exact hp.mono hvs hs fun u hu w => (hmem u hu w).1
  · rintro ⟨p, hp, rfl⟩
    exact hp.mono (hvs.congr hmem) hs fun u hu w => (hmem u hu w).2

/-- What is reachable depends on the edges alone. -/
lemma reachable_congr : Reachable nbrs s v ↔ Reachable nbrs' s v := by
  constructor
  · rintro ⟨p, hp⟩
    obtain ⟨p', hp', -⟩ := (exists_path_congr hvs hs hmem p.length).1 ⟨p, hp, rfl⟩
    exact ⟨p', hp'⟩
  · rintro ⟨p, hp⟩
    obtain ⟨p', hp', -⟩ := (exists_path_congr hvs hs hmem p.length).2 ⟨p, hp, rfl⟩
    exact ⟨p', hp'⟩

/-- The distance depends on the edges alone. -/
lemma dist_congr : dist nbrs s v = dist nbrs' s v :=
  congrArg sInf (Set.ext fun n => exists_path_congr hvs hs hmem n)

/-- A tree of shortest paths depends on the edges alone. -/
lemma ShortestTree.congr (h : ShortestTree nbrs s vs parent) : ShortestTree nbrs' s vs parent where
  root := h.root
  up v hv hreach hne := by
    obtain ⟨u, hu, hedge, hreach', hdist⟩ := h.up v hv ((reachable_congr hvs hs hmem).2 hreach) hne
    obtain ⟨p, hp⟩ := hreach'
    have hmem' := (hmem u (hp.joined hvs hs).1 v).1 hedge
    refine ⟨u, hu, hmem', (reachable_congr hvs hs hmem).1 ⟨p, hp⟩, ?_⟩
    rw [← dist_congr hvs hs hmem, ← dist_congr hvs hs hmem]
    exact hdist
  none v hv hreach := h.none v hv fun hreach' => hreach ((reachable_congr hvs hs hmem).1 hreach')

end Congr

end Multigraph
