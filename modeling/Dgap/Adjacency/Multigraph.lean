import Mathlib

/-!
# Directed multigraphs as adjacency lists

What a store of a growing multigraph is for: every vertex has the list of its destinations in order of
arrival, and an insertion appends to the list of its source. `ofEdges` is the adjacency of an edge list;
inserting edge by edge computes it (`foldl_insert`).
-/

namespace Multigraph

variable {α β : Type*} [DecidableEq α]

/-- Append an edge to the list of its source. -/
def insert (a : α → List β) (e : α × β) : α → List β := Function.update a e.1 (a e.1 ++ [e.2])

/-- The destinations of each vertex, in the order of the edge list. -/
def ofEdges (l : List (α × β)) (u : α) : List β := (l.filter fun e => e.1 = u).map Prod.snd

/-- No edges, no destinations. -/
@[simp] lemma ofEdges_nil (u : α) : ofEdges ([] : List (α × β)) u = [] := rfl

/-- Edge lists concatenate vertex by vertex. -/
@[simp] lemma ofEdges_append (l l' : List (α × β)) (u : α) :
    ofEdges (l ++ l') u = ofEdges l u ++ ofEdges l' u := by
  simp [ofEdges]

/-- The adjacency of a one-edge list. -/
lemma ofEdges_singleton (e : α × β) (u : α) :
    ofEdges [e] u = if e.1 = u then [e.2] else [] := by
  by_cases h : e.1 = u <;> simp [ofEdges, h]

/-- The adjacency of one edge repeated. -/
lemma ofEdges_replicate (k : ℕ) (u : α) (v : β) :
    ofEdges (List.replicate k (u, v)) u = List.replicate k v := by
  simp [ofEdges]

/-- In another order of the edges a vertex has its destinations in another order. -/
lemma ofEdges_perm {l l' : List (α × β)} (h : l.Perm l') (u : α) : (ofEdges l u).Perm (ofEdges l' u) :=
  (h.filter _).map Prod.snd

/-- No vertex has more edges than there are. -/
lemma length_ofEdges_le (l : List (α × β)) (u : α) : (ofEdges l u).length ≤ l.length := by
  rw [ofEdges, List.length_map]
  exact List.length_filter_le _ _

/-- A vertex without edges. -/
lemma ofEdges_eq_nil {l : List (α × β)} {u : α} (h : ∀ e ∈ l, e.1 ≠ u) : ofEdges l u = [] := by
  rw [ofEdges, List.map_eq_nil_iff, List.filter_eq_nil_iff]
  exact fun e he => by simpa using h e he

/-- One more edge at the end of the list is an insertion. -/
lemma ofEdges_concat (l : List (α × β)) (e : α × β) :
    ofEdges (l ++ [e]) = insert (ofEdges l) e := by
  funext u
  rw [ofEdges_append, ofEdges_singleton, insert]
  by_cases h : u = e.1
  · subst h
    simp
  · rw [Function.update_of_ne h, if_neg (Ne.symm h), List.append_nil]

/-- Insertions at one vertex leave the others alone. -/
lemma insert_of_ne {a : α → List β} {e : α × β} {u : α} (h : u ≠ e.1) : insert a e u = a u :=
  Function.update_of_ne h _ _

/-- What an insertion does to its source. -/
lemma insert_self (a : α → List β) (e : α × β) : insert a e e.1 = a e.1 ++ [e.2] :=
  Function.update_self ..

/-- Inserting the edges of a list one after another appends its adjacency. -/
lemma foldl_insert (l : List (α × β)) (a : α → List β) (u : α) :
    l.foldl insert a u = a u ++ ofEdges l u := by
  induction l generalizing a with
  | nil => simp
  | cons e l ih =>
    rw [List.foldl_cons, ih, show e :: l = [e] ++ l from rfl, ofEdges_append, ofEdges_singleton]
    by_cases h : u = e.1
    · subst h
      rw [insert_self, if_pos rfl, List.append_assoc]
    · rw [insert_of_ne h, if_neg (Ne.symm h), List.nil_append]

/-- Over a range of vertices that contains all sources, the lists have as many edges as the edge list. -/
lemma sum_length_ofEdges {l : List (ℕ × β)} (n : ℕ) (h : ∀ e ∈ l, e.1 < n) :
    ∑ u ∈ Finset.Ico 0 n, (ofEdges l u).length = l.length := by
  induction l with
  | nil => simp
  | cons e l ih =>
    have hlen : ∀ u, (ofEdges (e :: l) u).length =
        (ofEdges l u).length + if u = e.1 then 1 else 0 := by
      intro u
      rw [show e :: l = [e] ++ l from rfl, ofEdges_append, ofEdges_singleton]
      by_cases hu : u = e.1
      · simp [hu]
      · simp [hu, Ne.symm hu]
    have hmem : e.1 ∈ Finset.Ico 0 n := Finset.mem_Ico.2 ⟨Nat.zero_le _, h e List.mem_cons_self⟩
    simp only [hlen]
    rw [Finset.sum_add_distrib, ih fun e' he' => h e' (List.mem_cons_of_mem _ he'),
      Finset.sum_ite_eq', if_pos hmem, List.length_cons]

/-- The adjacency of edges that several lists share out is shared out the same way. -/
lemma ofEdges_sum {ι : Type*} {s : Finset ι} {l : List (α × β)} {part : ι → List (α × β)}
    (h : (l : Multiset (α × β)) = ∑ i ∈ s, (part i : Multiset (α × β))) (u : α) :
    (ofEdges l u : Multiset β) = ∑ i ∈ s, (ofEdges (part i) u : Multiset β) := by
  let f : Multiset (α × β) → Multiset β := fun m => (m.filter fun e => e.1 = u).map Prod.snd
  have hf : ∀ l : List (α × β), (ofEdges l u : Multiset β) = f l := fun l => by
    simp [f, ofEdges, Multiset.filter_coe, Multiset.map_coe]
  have hadd : ∀ m m', f (m + m') = f m + f m' := fun m m' => by
    simp [f, Multiset.filter_add, Multiset.map_add]
  rw [hf, h]
  simp only [hf]
  clear h
  induction s using Finset.cons_induction with
  | empty => rfl
  | cons i s hi ih => rw [Finset.sum_cons, Finset.sum_cons, hadd, ih]

section Counts

variable [DecidableEq β]

/-- How often a vertex has a destination is how often the list has the edge. -/
lemma count_ofEdges (l : List (α × β)) (u : α) (v : β) : (ofEdges l u).count v = l.count (u, v) := by
  induction l with
  | nil => rfl
  | cons e l ih =>
    rw [show e :: l = [e] ++ l from rfl, ofEdges_append, ofEdges_singleton, List.count_append, ih,
      List.count_append]
    congr 1
    obtain ⟨a, b⟩ := e
    by_cases ha : a = u
    · subst ha
      by_cases hb : b = v <;> simp [hb]
    · simp [ha]

/-- Reversing all edges of a list reverses what it is counted for. -/
lemma count_swap (l : List (α × β)) (u : α) (v : β) :
    (l.map Prod.swap).count (v, u) = l.count (u, v) :=
  List.count_map_of_injective l Prod.swap Prod.swap_injective (u, v)

end Counts

end Multigraph
