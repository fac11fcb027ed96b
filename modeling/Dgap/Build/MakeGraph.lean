import Dgap.Threads.Data

/-!
# Building a graph from two files

`MakeGraph` of `builder.h`, for a database file that does not exist yet, from the edge lists that the
readers return. With `symmetrize_` the base list is mirrored before it is sorted and loaded, and every
dynamic edge is inserted in both directions. `std::sort` compares the sources only and is not stable, so
the sorted list is any one that the comparison allows; the iterations of the dynamic loop are shared out
among the threads in any way, and their inserts are interleaved in any way.
-/

namespace Dgap

/-- `FindMaxNodeID`. -/
def findMaxNodeID (el : List (ℕ × ℕ)) : ℕ := el.foldl (fun maxSeen e => max (max maxSeen e.1) e.2) 0

/-- The loop that appends the reversal of `k` edges, from the `i`-th on, to the list it reads. -/
def mirrorLoop : ℕ → ℕ → List (ℕ × ℕ) → List (ℕ × ℕ)
  | 0, _, el => el
  | k + 1, i, el => mirrorLoop k (i + 1) (el ++ [((el.getD i (0, 0)).2, (el.getD i (0, 0)).1)])

/-- The base list before it is sorted. -/
def baseList (symmetrize : Bool) (el : List (ℕ × ℕ)) : List (ℕ × ℕ) :=
  if symmetrize then mirrorLoop el.length 0 el else el

/-- The inserts of the iterations over the edges `el` of the dynamic loop. -/
def ingest (symmetrize : Bool) (el : List (ℕ × ℕ)) : List (ℕ × ℕ) :=
  el.flatMap fun e => if symmetrize then [(e.1, e.2), (e.2, e.1)] else [(e.1, e.2)]

/-- `MakeGraph` has returned the graph of the state `c`, built by `n` threads. `share i` are the dynamic
edges whose iterations thread `i` ran. A base list that names no vertex but 0 is left out: with a single
node `compute_capacity` evaluates `__builtin_clzll(0)`, which is undefined. -/
inductive MakeGraph {n : ℕ} (foreign : Foreign) (symmetrize : Bool) (base dynamic : List (ℕ × ℕ)) :
    Config n → Prop where
  | returns {el : List (ℕ × ℕ)} {g0 : Graph} {share : Fin n → List (ℕ × ℕ)} {c : Config n} :
      1 ≤ findMaxNodeID base →
      el.Perm (baseList symmetrize base) →
      el.Pairwise (fun e e' => e.1 ≤ e'.1) →
      Graph.create foreign (!symmetrize) (findMaxNodeID base + 1) el = some g0 →
      (dynamic : Multiset (ℕ × ℕ)) = ∑ i, (share i : Multiset (ℕ × ℕ)) →
      (inserts g0 fun i => ingest symmetrize (share i)).Reach c →
      (∀ i, (c.threads i).pc = .idle ∧ (c.threads i).todo = []) →
      MakeGraph foreign symmetrize base dynamic c

/-- No id is above `FindMaxNodeID`. -/
lemma le_findMaxNodeID {el : List (ℕ × ℕ)} {e : ℕ × ℕ} (h : e ∈ el) :
    e.1 ≤ findMaxNodeID el ∧ e.2 ≤ findMaxNodeID el := by
  -- the maximum never shrinks along the list
  have hmono : ∀ (l : List (ℕ × ℕ)) (m : ℕ),
      m ≤ l.foldl (fun maxSeen e => max (max maxSeen e.1) e.2) m := by
    intro l
    induction l with
    | nil => exact fun m => le_refl m
    | cons e l ih =>
      exact fun m => le_trans (le_max_of_le_left (le_max_left _ _)) (ih (max (max m e.1) e.2))
  have hmem : ∀ (l : List (ℕ × ℕ)) (m : ℕ), e ∈ l →
      max e.1 e.2 ≤ l.foldl (fun maxSeen e => max (max maxSeen e.1) e.2) m := by
    intro l
    induction l with
    | nil => exact fun m h => absurd h List.not_mem_nil
    | cons e' l ih =>
      intro m h
      rcases List.mem_cons.1 h with rfl | h
      · exact le_trans (max_le_max_right _ (le_max_right _ _)) (hmono l _)
      · exact ih _ h
  have := hmem el 0 h
  exact ⟨le_trans (le_max_left _ _) this, le_trans (le_max_right _ _) this⟩

/-- The loop appends the reversals of the edges it starts with. -/
lemma mirrorLoop_eq (el done rest : List (ℕ × ℕ)) (h : el = done ++ rest) (k : ℕ)
    (hk : k = rest.length) (tail : List (ℕ × ℕ)) :
    mirrorLoop k done.length (el ++ tail) = el ++ tail ++ rest.map Prod.swap := by
  induction rest generalizing done k tail with
  | nil =>
    subst hk
    simp [mirrorLoop]
  | cons e rest ih =>
    subst hk
    have hget : (el ++ tail).getD done.length (0, 0) = e := by
      subst h
      simp [List.getD_eq_getElem?_getD]
    simp only [List.length_cons, mirrorLoop, hget]
    have hih := ih (done ++ [e]) (by rw [h, List.append_assoc]; rfl) rest.length rfl
      (tail ++ [(e.2, e.1)])
    rw [List.length_append, List.length_singleton] at hih
    rw [List.append_assoc, hih, List.map_cons]
    simp [Prod.swap]

/-- The mirrored base list. -/
lemma baseList_eq (symmetrize : Bool) (el : List (ℕ × ℕ)) :
    baseList symmetrize el = if symmetrize then el ++ el.map Prod.swap else el := by
  unfold baseList
  split
  · simpa using mirrorLoop_eq el [] el rfl el.length rfl []
  · rfl

/-- An edge of the mirrored base list is a base edge, or the reversal of one. -/
lemma mem_baseList {symmetrize : Bool} {el : List (ℕ × ℕ)} {e : ℕ × ℕ}
    (h : e ∈ baseList symmetrize el) : e ∈ el ∨ e.swap ∈ el := by
  rw [baseList_eq] at h
  split at h
  · rcases List.mem_append.1 h with h | h
    · exact .inl h
    · obtain ⟨e', he', rfl⟩ := List.mem_map.1 h
      exact .inr (by simpa using he')
  · exact .inl h

/-- An insert is a dynamic edge, or the reversal of one. -/
lemma mem_ingest {symmetrize : Bool} {el : List (ℕ × ℕ)} {e : ℕ × ℕ} (h : e ∈ ingest symmetrize el) :
    e ∈ el ∨ e.swap ∈ el := by
  obtain ⟨e', he', hm⟩ := List.mem_flatMap.1 h
  split at hm
  · rcases List.mem_cons.1 hm with rfl | hm
    · exact .inl he'
    · obtain rfl := List.mem_singleton.1 hm
      exact .inr he'
  · obtain rfl := List.mem_singleton.1 hm
    exact .inl he'

/-- How often the symmetrized base list has an edge. -/
lemma count_baseList (el : List (ℕ × ℕ)) (u v : ℕ) :
    (baseList true el).count (u, v) = el.count (u, v) + el.count (v, u) := by
  rw [baseList_eq, if_pos rfl, List.count_append, Multigraph.count_swap]

/-- How often the symmetrized inserts have an edge. -/
lemma count_ingest (el : List (ℕ × ℕ)) (u v : ℕ) :
    (ingest true el).count (u, v) = el.count (u, v) + el.count (v, u) := by
  induction el with
  | nil => rfl
  | cons e el ih =>
    obtain ⟨a, b⟩ := e
    have hsplit : ingest true ((a, b) :: el) = [(a, b)] ++ ([(b, a)] ++ ingest true el) := rfl
    have hcons : ∀ e : ℕ × ℕ, ((a, b) :: el).count e = [(a, b)].count e + el.count e := fun e => by
      rw [← List.count_append, List.singleton_append]
    have hswap : [(b, a)].count (u, v) = [(a, b)].count (v, u) :=
      Multigraph.count_swap [(a, b)] v u
    rw [hsplit, List.count_append, List.count_append, ih, hcons, hcons, hswap]
    omega

end Dgap
