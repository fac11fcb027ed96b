import Dgap.Adjacency.Components

/-!
# A list that grows while it is read

A search keeps a list of the vertices it has found and reads it from the front, while it appends the
destinations that are not in it yet. `Frontier` is what holds when the first `it` vertices have been read;
when all have been read, the list has the vertices that are reachable from the start, each once
(`Frontier.mem_iff`). The list is in the order of the distances from the start (`Layered`): what is new lies one
level behind the vertex that is read (`Layered.dist_new`).
-/

namespace Multigraph

variable {V : Type*} (nbrs : V → List V) (s : V)

/-- The vertices found when the destinations of the first `it` of them have been appended. -/
structure Frontier (it : ℕ) (frontier : List V) : Prop where
  nodup : frontier.Nodup
  start : frontier[0]? = some s
  reachable : ∀ x ∈ frontier, Reachable nbrs s x
  expanded : ∀ j < it, ∀ u, frontier[j]? = some u → ∀ v ∈ nbrs u, v ∈ frontier
  it_le : it ≤ frontier.length

variable {nbrs s} {it : ℕ} {frontier new : List V} {u x : V}

/-- The start alone. -/
lemma Frontier.init : Frontier nbrs s 0 [s] where
  nodup := List.nodup_singleton s
  start := rfl
  reachable x hx := by
    rw [List.mem_singleton.1 hx]
    exact .refl s
  expanded j hj := absurd hj (Nat.not_lt_zero j)
  it_le := Nat.zero_le _

/-- The start is found. -/
lemma Frontier.start_mem (h : Frontier nbrs s it frontier) : s ∈ frontier := List.mem_of_getElem? h.start

/-- The destinations that are new. -/
structure News (dests frontier new : List V) : Prop where
  nodup : new.Nodup
  mem : ∀ v ∈ new, v ∈ dests
  disjoint : ∀ v ∈ new, v ∉ frontier
  all : ∀ v ∈ dests, v ∈ frontier ++ new

/-- There is nothing new among no destinations. -/
lemma News.nil : News [] frontier [] where
  nodup := List.nodup_nil
  mem _ hv := absurd hv List.not_mem_nil
  disjoint _ hv := absurd hv List.not_mem_nil
  all _ hv := absurd hv List.not_mem_nil

/-- A destination that has been found. -/
lemma News.skip {v : V} {vs : List V} (h : News vs frontier new) (hv : v ∈ frontier) :
    News (v :: vs) frontier new where
  nodup := h.nodup
  mem w hw := List.mem_cons_of_mem v (h.mem w hw)
  disjoint := h.disjoint
  all := List.forall_mem_cons.2 ⟨List.mem_append_left new hv, h.all⟩

/-- A destination that is new. -/
lemma News.push {v : V} {vs : List V} (h : News vs (frontier ++ [v]) new) (hv : v ∉ frontier) :
    News (v :: vs) frontier (v :: new) where
  nodup := h.nodup.cons fun hmem => h.disjoint v hmem (List.mem_append_right _ List.mem_cons_self)
  mem := List.forall_mem_cons.2 ⟨List.mem_cons_self, fun w hw => List.mem_cons_of_mem v (h.mem w hw)⟩
  disjoint := List.forall_mem_cons.2 ⟨hv, fun w hw hw' => h.disjoint w hw (List.mem_append_left _ hw')⟩
  all := by
    refine List.forall_mem_cons.2 ⟨List.mem_append_right _ List.mem_cons_self, fun w hw => ?_⟩
    rw [List.append_cons]
    exact h.all w hw

/-- The next vertex is read. -/
lemma Frontier.next (h : Frontier nbrs s it frontier) (hu : frontier[it]? = some u)
    (hnew : News (nbrs u) frontier new) :
    Frontier nbrs s (it + 1) (frontier ++ new) where
  nodup := h.nodup.append hnew.nodup fun x hx hx' => hnew.disjoint x hx' hx
  start := by
    have hlt := (List.getElem?_eq_some_iff.1 h.start).1
    rw [List.getElem?_append_left hlt]
    exact h.start
  reachable x hx := by
    rcases List.mem_append.1 hx with hx | hx
    · exact h.reachable x hx
    · exact (h.reachable u (List.mem_of_getElem? hu)).edge (hnew.mem x hx)
  expanded j hj w hw v hv := by
    have hit := (List.getElem?_eq_some_iff.1 hu).1
    rw [List.getElem?_append_left (by omega)] at hw
    rcases Nat.lt_succ_iff_lt_or_eq.1 hj with hj | rfl
    · exact List.mem_append_left new (h.expanded j hj w hw v hv)
    · obtain rfl : u = w := Option.some.inj (hu.symm.trans hw)
      exact hnew.all v hv
  it_le := by
    have hit := (List.getElem?_eq_some_iff.1 hu).1
    rw [List.length_append]
    omega

/-- When all have been read, what is found is what is reachable. -/
theorem Frontier.mem_iff (h : Frontier nbrs s it frontier) (hend : frontier[it]? = none) :
    x ∈ frontier ↔ Reachable nbrs s x := by
  refine ⟨h.reachable x, ?_⟩
  have hlen : frontier.length ≤ it := List.getElem?_eq_none_iff.1 hend
  rintro ⟨p, hp⟩
  induction hp with
  | nil => exact h.start_mem
  | @cons p u k v hp hk ih =>
    obtain ⟨j, hj⟩ := List.getElem?_of_mem ih
    have hlt := (List.getElem?_eq_some_iff.1 hj).1
    exact h.expanded j (by omega) u hj v (List.mem_of_getElem? hk)

/-- No more vertices are found than there are. -/
lemma Frontier.length_le [DecidableEq V] {vs : Finset V} (h : Frontier nbrs s it frontier) (hvs : Closed nbrs vs)
    (hs : s ∈ vs) : frontier.length ≤ vs.card := by
  rw [← List.toFinset_card_of_nodup h.nodup]
  refine Finset.card_le_card fun x hx => ?_
  obtain ⟨p, hp⟩ := h.reachable x (List.mem_toFinset.1 hx)
  exact (hp.joined hvs hs).1

variable (nbrs s) in
/-- The vertices found lie in the order of their distances, and no more than a level behind the next one to be
read. -/
structure Layered (it : ℕ) (frontier : List V) : Prop extends Frontier nbrs s it frontier where
  mono : ∀ (j k : ℕ) (x y : V), frontier[j]? = some x → frontier[k]? = some y → j ≤ k →
    dist nbrs s x ≤ dist nbrs s y
  bound : ∀ u, frontier[it]? = some u → ∀ x ∈ frontier, dist nbrs s x ≤ dist nbrs s u + 1

/-- The start alone is in order. -/
lemma Layered.init : Layered nbrs s 0 [s] where
  toFrontier := .init
  mono j k x y hx hy _ := by
    rw [List.mem_singleton.1 (List.mem_of_getElem? hx), List.mem_singleton.1 (List.mem_of_getElem? hy)]
  bound u hu x hx := by
    rw [List.mem_singleton.1 hx, List.mem_singleton.1 (List.mem_of_getElem? hu)]
    exact Nat.le_succ _

/-- What is not farther than the next vertex to be read has been found. -/
lemma Layered.mem_of_dist_le (h : Layered nbrs s it frontier) (hu : frontier[it]? = some u)
    (hx : Reachable nbrs s x) (hle : dist nbrs s x ≤ dist nbrs s u) : x ∈ frontier := by
  induction hd : dist nbrs s x generalizing x with
  | zero =>
    obtain rfl : x = s := atDist_zero.1 ⟨hx, hd⟩
    exact h.start_mem
  | succ d ih =>
    obtain ⟨w, ⟨hw, hdw⟩, hedge⟩ := AtDist.pred ⟨hx, hd⟩
    obtain ⟨j, hj⟩ := List.getElem?_of_mem (ih hw (by omega) hdw)
    -- its predecessor is nearer than the next vertex, so it has been read
    have hlt : j < it := by
      by_contra hge
      have := h.mono it j u w hu hj (not_lt.1 hge)
      omega
    exact h.expanded j hlt w hj x hedge

/-- What is new lies one level behind the vertex that is read. -/
lemma Layered.dist_new (h : Layered nbrs s it frontier) (hu : frontier[it]? = some u) (hedge : x ∈ nbrs u)
    (hx : x ∉ frontier) : dist nbrs s x = dist nbrs s u + 1 := by
  have hreach := h.reachable u (List.mem_of_getElem? hu)
  obtain ⟨hreachx, hle⟩ := AtDist.next ⟨hreach, rfl⟩ hedge
  by_contra hne
  exact hx (h.mem_of_dist_le hu hreachx (by omega))

/-- The next vertex is read, and the order stays. -/
lemma Layered.next (h : Layered nbrs s it frontier) (hu : frontier[it]? = some u) (hnew : News (nbrs u) frontier new) :
    Layered nbrs s (it + 1) (frontier ++ new) := by
  have hdist : ∀ x ∈ new, dist nbrs s x = dist nbrs s u + 1 := fun x hx =>
    h.dist_new hu (hnew.mem x hx) (hnew.disjoint x hx)
  have hlt := (List.getElem?_eq_some_iff.1 hu).1
  have hall : ∀ x ∈ frontier ++ new, dist nbrs s x ≤ dist nbrs s u + 1 := fun x hx => by
    rcases List.mem_append.1 hx with hx | hx
    · exact h.bound u hu x hx
    · exact (hdist x hx).le
  have hmono : ∀ (j k : ℕ) (x y : V), (frontier ++ new)[j]? = some x → (frontier ++ new)[k]? = some y → j ≤ k →
      dist nbrs s x ≤ dist nbrs s y := by
    intro j k x y hx hy hjk
    rcases Nat.lt_or_ge k frontier.length with hk | hk
    · rw [List.getElem?_append_left hk] at hy
      rw [List.getElem?_append_left (by omega)] at hx
      exact h.mono j k x y hx hy hjk
    · rw [List.getElem?_append_right hk] at hy
      rw [hdist y (List.mem_of_getElem? hy)]
      exact hall x (List.mem_of_getElem? hx)
  refine ⟨h.toFrontier.next hu hnew, hmono, fun w hw x hx => ?_⟩
  have hu' : (frontier ++ new)[it]? = some u := by rw [List.getElem?_append_left hlt, hu]
  have := hmono it (it + 1) u w hu' hw (Nat.le_succ it)
  have := hall x hx
  omega

end Multigraph
