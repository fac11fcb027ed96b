import Mathlib

/-!
# Shortest paths of a multigraph

A graph is the list of destinations of each vertex. A path is a list of edges, an edge a vertex with a
position in its list, so parallel edges make different paths. The vertices at distance `d + 1` are those
which an edge leads to from distance `d` and which are not nearer (`AtDist.pred`, `AtDist.next`), and the
shortest paths to a vertex are those of its predecessors, each continued by one of the edges between them
(`numShortestPaths_eq`).
-/

namespace Multigraph

section

variable {V : Type*} (nbrs : V → List V) (s : V)

/-- A path from `s`, its last edge first. -/
inductive IsPath : List (V × ℕ) → V → Prop where
  | nil : IsPath [] s
  | cons {p u k v} : IsPath p u → (nbrs u)[k]? = some v → IsPath ((u, k) :: p) v

/-- Some path leads to `v`. -/
def Reachable (v : V) : Prop := ∃ p, IsPath nbrs s p v

/-- The length of a shortest path, 0 if there is none. -/
noncomputable def dist (v : V) : ℕ := sInf {n | ∃ p, IsPath nbrs s p v ∧ p.length = n}

/-- The shortest paths to `v`. -/
def shortestPaths (v : V) : Set (List (V × ℕ)) := {p | IsPath nbrs s p v ∧ p.length = dist nbrs s v}

/-- The number of shortest paths to `v`, parallel edges counted separately. -/
noncomputable def numShortestPaths (v : V) : ℕ := (shortestPaths nbrs s v).ncard

/-- `v` is reachable and its distance is `d`. -/
def AtDist (d : ℕ) (v : V) : Prop := Reachable nbrs s v ∧ dist nbrs s v = d

/-- An edge from `u` to `v` would be the last one of a shortest path. -/
def Tight (u v : V) : Prop := Reachable nbrs s u ∧ dist nbrs s v = dist nbrs s u + 1

end

section

variable {V : Type*} {nbrs : V → List V} {s u v : V} {d k : ℕ} {p : List (V × ℕ)}

/-- No path is shorter than the distance. -/
lemma IsPath.dist_le (h : IsPath nbrs s p v) : dist nbrs s v ≤ p.length := Nat.sInf_le ⟨p, h, rfl⟩

/-- A reachable vertex has a shortest path. -/
lemma Reachable.exists_shortest (h : Reachable nbrs s v) : ∃ p, p ∈ shortestPaths nbrs s v := by
  obtain ⟨p, hp⟩ := h
  exact Nat.sInf_mem (s := {n | ∃ p, IsPath nbrs s p v ∧ p.length = n}) ⟨p.length, p, hp, rfl⟩

/-- The distance of a vertex is unique. -/
lemma AtDist.unique {d' : ℕ} (h : AtDist nbrs s d v) (h' : AtDist nbrs s d' v) : d = d' := h.2.symm.trans h'.2

/-- The start has distance 0. -/
lemma atDist_start : AtDist nbrs s 0 s := ⟨⟨[], .nil⟩, Nat.le_zero.1 (IsPath.dist_le .nil)⟩

/-- Only the start has distance 0. -/
lemma atDist_zero : AtDist nbrs s 0 v ↔ v = s := by
  constructor
  · rintro ⟨hr, hd⟩
    obtain ⟨p, hp, hlen⟩ := hr.exists_shortest
    rw [hd, List.length_eq_zero_iff] at hlen
    subst hlen
    cases hp
    rfl
  · rintro rfl
    exact atDist_start

/-- An edge leads at most one further. -/
lemma AtDist.next (h : AtDist nbrs s d u) (hv : v ∈ nbrs u) : Reachable nbrs s v ∧ dist nbrs s v ≤ d + 1 := by
  obtain ⟨p, hp, hlen⟩ := h.1.exists_shortest
  obtain ⟨k, hk⟩ := List.getElem?_of_mem hv
  have hpath : IsPath nbrs s ((u, k) :: p) v := .cons hp hk
  refine ⟨⟨_, hpath⟩, hpath.dist_le.trans ?_⟩
  rw [List.length_cons, hlen, h.2]

/-- The last edge of a shortest path comes from a vertex one nearer. -/
lemma IsPath.atDist_of_length (hp : IsPath nbrs s p u) (hk : (nbrs u)[k]? = some v)
    (hlen : p.length + 1 = dist nbrs s v) : AtDist nbrs s p.length u := by
  have hu : AtDist nbrs s (dist nbrs s u) u := ⟨⟨p, hp⟩, rfl⟩
  have hle := (hu.next (List.mem_of_getElem? hk)).2
  have hge := hp.dist_le
  exact ⟨hu.1, by omega⟩

/-- A vertex that is not the start has a predecessor one nearer. -/
lemma AtDist.pred (h : AtDist nbrs s (d + 1) v) : ∃ u, AtDist nbrs s d u ∧ v ∈ nbrs u := by
  obtain ⟨p, hp, hlen⟩ := h.1.exists_shortest
  cases hp with
  | nil =>
    rw [h.2] at hlen
    cases hlen
  | @cons p u k _ hp hk =>
    have hu := hp.atDist_of_length hk hlen
    have hd : p.length = d := Nat.succ.inj (hlen.trans h.2)
    exact ⟨u, hd ▸ hu, List.mem_of_getElem? hk⟩

/-- A tight edge leads from a level to the next one. -/
lemma AtDist.tight (hu : AtDist nbrs s d u) (hv : AtDist nbrs s (d + 1) v) : Tight nbrs s u v :=
  ⟨hu.1, by rw [hu.2, hv.2]⟩

/-- The end of a tight edge. -/
lemma Tight.atDist (h : Tight nbrs s u v) (hv : v ∈ nbrs u) :
    AtDist nbrs s (dist nbrs s u) u ∧ AtDist nbrs s (dist nbrs s u + 1) v :=
  ⟨⟨h.1, rfl⟩, (AtDist.next ⟨h.1, rfl⟩ hv).1, h.2⟩

end

section Count

variable {V : Type*} [DecidableEq V] {nbrs : V → List V} {s v : V}

/-- The positions of a list that hold a value. -/
def positions (l : List V) (v : V) : Finset ℕ := (Finset.range l.length).filter fun k => l[k]? = some v

/-- The positions of a value. -/
lemma mem_positions {l : List V} {k : ℕ} : k ∈ positions l v ↔ l[k]? = some v := by
  rw [positions, Finset.mem_filter, Finset.mem_range, and_iff_right_iff_imp]
  exact fun h => (List.getElem?_eq_some_iff.1 h).1

/-- A value has as many positions as it has occurrences. -/
lemma card_positions (l : List V) (v : V) : (positions l v).card = l.count v := by
  induction l using List.reverseRecOn with
  | nil => rfl
  | append_singleton l w ih =>
    have hold : (Finset.range l.length).filter (fun k => (l ++ [w])[k]? = some v) = positions l v := by
      refine Finset.filter_congr fun k hk => ?_
      rw [List.getElem?_append_left (Finset.mem_range.1 hk)]
    have hnew : l.length ∉ positions l v := by simp [positions]
    rw [positions, List.length_append, List.length_singleton, Finset.range_add_one, Finset.filter_insert, hold,
      List.count_append, ← ih, List.count_singleton]
    by_cases h : w = v
    · rw [if_pos (by rw [List.getElem?_concat_length, h]), Finset.card_insert_of_notMem hnew, if_pos (by simpa using h)]
    · rw [if_neg (by simpa using h), if_neg (by simpa using h), add_zero]

variable (nbrs s) in
/-- The paths of a length, extended edge by edge, through some vertices only. -/
def paths (vs : Finset V) : ℕ → V → Finset (List (V × ℕ))
  | 0, v => if v = s then {[]} else ∅
  | l + 1, v => vs.biUnion fun u => (positions (nbrs u) v).biUnion fun k => (paths vs l u).image (List.cons (u, k))

variable {vs : Finset V} (hs : s ∈ vs) (hvs : ∀ u ∈ vs, ∀ v ∈ nbrs u, v ∈ vs)

include hs hvs

omit [DecidableEq V] in
/-- A path stays within the vertices. -/
lemma IsPath.mem_vertices {p : List (V × ℕ)} (h : IsPath nbrs s p v) : v ∈ vs := by
  induction h with
  | nil => exact hs
  | cons _ hk ih => exact hvs _ ih _ (List.mem_of_getElem? hk)

/-- The extension reaches every path. -/
lemma mem_paths {l : ℕ} {p : List (V × ℕ)} : p ∈ paths nbrs s vs l v ↔ IsPath nbrs s p v ∧ p.length = l := by
  induction l generalizing v p with
  | zero =>
    rw [paths]
    constructor
    · intro h
      split_ifs at h with hv
      · rw [Finset.mem_singleton.1 h, hv]
        exact ⟨.nil, rfl⟩
      · cases h
    · rintro ⟨hp, hlen⟩
      rw [List.length_eq_zero_iff] at hlen
      subst hlen
      cases hp
      rw [if_pos rfl, Finset.mem_singleton]
  | succ l ih =>
    simp only [paths, Finset.mem_biUnion, mem_positions, Finset.mem_image, ih]
    constructor
    · rintro ⟨u, -, k, hk, p, ⟨hp, hlen⟩, rfl⟩
      exact ⟨.cons hp hk, by rw [List.length_cons, hlen]⟩
    · rintro ⟨hp, hlen⟩
      cases hp with
      | nil => cases hlen
      | @cons p u k _ hp hk =>
        exact ⟨u, hp.mem_vertices hs hvs, k, hk, p, ⟨hp, Nat.succ.inj hlen⟩, rfl⟩

omit hs hvs in
/-- One more edge: each edge into a vertex continues the paths to its source. -/
lemma card_paths_succ (l : ℕ) (v : V) : (paths nbrs s vs (l + 1) v).card =
    ∑ u ∈ vs, (nbrs u).count v * (paths nbrs s vs l u).card := by
  have hcons : ∀ {u u' : V} {k k' : ℕ} {q : List (V × ℕ)}, q ∈ (paths nbrs s vs l u).image (List.cons (u, k)) →
      q ∈ (paths nbrs s vs l u').image (List.cons (u', k')) → u = u' ∧ k = k' := by
    intro u u' k k' q hq hq'
    obtain ⟨p, -, rfl⟩ := Finset.mem_image.1 hq
    obtain ⟨p', -, heq⟩ := Finset.mem_image.1 hq'
    cases heq
    exact ⟨rfl, rfl⟩
  rw [paths, Finset.card_biUnion]
  · refine Finset.sum_congr rfl fun u _ => ?_
    rw [Finset.card_biUnion]
    · rw [← card_positions, ← smul_eq_mul, ← Finset.sum_const]
      exact Finset.sum_congr rfl fun k _ => Finset.card_image_of_injective _ (List.cons_injective)
    · exact fun k _ k' _ hne => Finset.disjoint_left.2 fun q hq hq' => hne (hcons hq hq').2
  · intro u _ u' _ hne
    refine Finset.disjoint_left.2 fun q hq hq' => hne ?_
    obtain ⟨k, -, hq⟩ := Finset.mem_biUnion.1 hq
    obtain ⟨k', -, hq'⟩ := Finset.mem_biUnion.1 hq'
    exact (hcons hq hq').1

/-- The shortest paths are the paths as long as the distance. -/
lemma numShortestPaths_card (v : V) : numShortestPaths nbrs s v = (paths nbrs s vs (dist nbrs s v) v).card := by
  have hset : shortestPaths nbrs s v = (paths nbrs s vs (dist nbrs s v) v : Set (List (V × ℕ))) := by
    ext p
    rw [Finset.mem_coe, mem_paths hs hvs]
    rfl
  rw [numShortestPaths, hset, Set.ncard_coe_finset]

/-- There is one shortest path to the start. -/
lemma numShortestPaths_start : numShortestPaths nbrs s s = 1 := by
  rw [numShortestPaths_card hs hvs, atDist_start.2, paths, if_pos rfl, Finset.card_singleton]

/-- An unreachable vertex has no shortest path. -/
lemma numShortestPaths_of_not_reachable (h : ¬ Reachable nbrs s v) : numShortestPaths nbrs s v = 0 := by
  rw [numShortestPaths_card hs hvs, Finset.card_eq_zero]
  exact Finset.eq_empty_of_forall_notMem fun p hp => h ⟨p, ((mem_paths hs hvs).1 hp).1⟩

open Classical in
/-- The shortest paths to a vertex, by the tight edges that end there. -/
theorem numShortestPaths_eq (v : V) : numShortestPaths nbrs s v = (if v = s then 1 else 0) +
    ∑ u ∈ vs with Tight nbrs s u v, (nbrs u).count v * numShortestPaths nbrs s u := by
  have hterm : ∀ u ∈ vs.filter fun u => Tight nbrs s u v, (nbrs u).count v * numShortestPaths nbrs s u ≠ 0 →
      v ∈ nbrs u := fun u _ h => List.count_pos_iff.1 (Nat.pos_of_ne_zero fun h0 => h (by rw [h0, zero_mul]))
  by_cases hv : AtDist nbrs s 0 v
  · -- nothing leads to the start on a shortest path
    obtain rfl := atDist_zero.1 hv
    rw [numShortestPaths_start hs hvs, if_pos rfl, Finset.sum_eq_zero, add_zero]
    intro u hu
    by_contra h
    cases (((Finset.mem_filter.1 hu).2).atDist (hterm u hu h)).2.unique hv
  · have hne : v ≠ s := fun h => hv (atDist_zero.2 h)
    rw [if_neg hne, zero_add]
    by_cases hr : Reachable nbrs s v
    · obtain ⟨d, hd⟩ : ∃ d, dist nbrs s v = d + 1 :=
        Nat.exists_eq_succ_of_ne_zero fun h0 => hv ⟨hr, h0⟩
      rw [numShortestPaths_card hs hvs, hd, card_paths_succ, Finset.sum_filter]
      refine Finset.sum_congr rfl fun u _ => ?_
      split_ifs with ht
      · -- a path to the source of a tight edge is one of its shortest
        rw [numShortestPaths_card hs hvs, show dist nbrs s u = d from Nat.succ.inj (ht.2.symm.trans hd)]
      · rw [mul_eq_zero, Finset.card_eq_zero]
        by_contra! hcon
        obtain ⟨p, hp⟩ := hcon.2
        obtain ⟨hp, hlen⟩ := (mem_paths hs hvs).1 hp
        obtain ⟨k, hk⟩ := List.getElem?_of_mem (List.count_pos_iff.1 (Nat.pos_of_ne_zero hcon.1))
        have hu := hp.atDist_of_length hk (by rw [hlen, hd])
        exact ht ⟨hu.1, by rw [hd, hu.2, hlen]⟩
    · rw [numShortestPaths_of_not_reachable hs hvs hr, Finset.sum_eq_zero]
      intro u hu
      by_contra h
      exact hr (((Finset.mem_filter.1 hu).2).atDist (hterm u hu h)).2.1

end Count

end Multigraph
