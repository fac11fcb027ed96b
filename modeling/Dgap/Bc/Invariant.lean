import Dgap.Adjacency.Paths
import Dgap.Bc.Search

/-!
# What holds between two steps of the search

While the level behind distance `d` is discovered, `depths` is the distance up to `d` and some of the
vertices at `d + 1` are claimed (`Distances`). Every claimed vertex is once in the shared queue, as it will
be when all copies are done (`order`), in a buffer, or on its way there (`Queued`). The slices of the queue
before the window and the window are the levels up to `d` (`Levels`). How many destinations of each vertex
are done (`prog`) follows from where the threads are (`Working`), and decides which bits are set and what
the counts are (`Counted`).
-/

namespace Dgap

namespace Bc

open Multigraph

/-- What `PBFS` is called with: a graph whose destinations are vertices, different ids for its edges, and
one of its vertices. -/
structure Input (nbrs : ℕ → List ℕ) (prefixes : ℕ → ℤ) (numNodes source : ℕ) : Prop where
  source : source < numNodes
  closed : ∀ u < numNodes, ∀ v ∈ nbrs u, v < numNodes
  numbered : Numbered nbrs prefixes numNodes

/-- The start is a vertex of the graph. -/
lemma Input.source_mem {nbrs : ℕ → List ℕ} {prefixes : ℕ → ℤ} {numNodes source : ℕ}
    (h : Input nbrs prefixes numNodes source) : source ∈ Finset.range numNodes := Finset.mem_range.2 h.source

/-- Edges lead to vertices of the graph. -/
lemma Input.range_closed {nbrs : ℕ → List ℕ} {prefixes : ℕ → ℤ} {numNodes source : ℕ}
    (h : Input nbrs prefixes numNodes source) :
    ∀ u ∈ Finset.range numNodes, ∀ v ∈ nbrs u, v ∈ Finset.range numNodes :=
  fun u hu v hv => Finset.mem_range.2 (h.closed u (Finset.mem_range.1 hu) v hv)

/-- `depths` up to distance `d`, with some vertices behind it. -/
structure Distances (nbrs : ℕ → List ℕ) (source d : ℕ) (depths : ℕ → ℤ) : Prop where
  near : ∀ v, ∀ i ≤ d, depths v = (i : ℕ) ↔ AtDist nbrs source i v
  far : ∀ v, depths v = (d + 1 : ℕ) → AtDist nbrs source (d + 1) v
  range : ∀ v, depths v = -1 ∨ ∃ i ≤ d + 1, depths v = (i : ℕ)

/-- The vertex a thread works on. -/
def Pc.vertex? : Pc → Option ℕ
  | .edge u _ _ => some u
  | _ => none

/-- The edge whose bit a thread has set and whose paths it has not added yet. -/
def Pc.marked? : Pc → Option (ℕ × ℕ)
  | .edge u k .load => some (u, k)
  | .edge u k (.add _) => some (u, k)
  | _ => none

/-- The vertex a thread has claimed and not stored yet. -/
def Pc.claimed (nbrs : ℕ → List ℕ) : Pc → List ℕ
  | .edge u k .push => (nbrs u)[k]?.toList
  | _ => []

/-- The vertices that a thread has claimed and for which it has not taken cells of the shared queue. -/
def Thread.held (nbrs : ℕ → List ℕ) (t : Thread) : Multiset ℕ := t.buffer.pending + t.pc.claimed nbrs

section

variable {n : ℕ} (nbrs : ℕ → List ℕ) (prefixes : ℕ → ℤ) (numNodes source : ℕ)

/-- The shared queue holds `order` where nothing is being copied, and the claimed vertices are these and
those that the threads hold. -/
structure Queued (order : List ℕ) (c : Config n) : Prop where
  settled : QueueBuffer.Settled c.queue order
  members : (order : Multiset ℕ) + ∑ i, (c.threads i).held nbrs =
    ((Finset.range numNodes).filter fun v => c.depths v ≠ -1).val
  copies : ∀ i, (c.threads i).buffer.Copies c.queue order
  filled : QueueBuffer.Filled c.queue order fun i => (c.threads i).buffer

/-- The bounds `starts` cut the queue into an empty slice and the levels up to `d`. -/
structure Levels (starts : List ℕ) (shared : ℕ → ℕ) (d : ℕ) : Prop where
  length : starts.length = d + 3
  first : starts.getD 0 0 = 0 ∧ starts.getD 1 0 = 0
  mono : ∀ j ≤ d + 1, starts.getD j 0 ≤ starts.getD (j + 1) 0
  level : ∀ j ≤ d, ∀ v, AtDist nbrs source j v ↔
    ∃ i, starts.getD (j + 1) 0 ≤ i ∧ i < starts.getD (j + 2) 0 ∧ shared i = v

/-- The number of shortest paths, as `path_counts` holds it. -/
noncomputable def pathCount (v : ℕ) : BitVec 32 := BitVec.ofNat 32 (numShortestPaths nbrs source v)

/-- What a thread knows about the destination `v` of `u` where it is. -/
def StageOk (d : ℕ) (depths : ℕ → ℤ) (u v : ℕ) : Stage → Prop
  | .check | .cas => True
  | .push | .test => depths v ≠ -1
  | .setBit | .load => depths v = (d + 1 : ℕ)
  | .add x => depths v = (d + 1 : ℕ) ∧ x = pathCount nbrs source u

/-- A thread is where `prog` says, copies only when its buffer is full or in the flush, and has an empty
buffer behind it. -/
structure ThreadOk (prog : ℕ → ℕ) (d : ℕ) (depths : ℕ → ℤ) (t : Thread) : Prop where
  edge : ∀ u k stage, t.pc = .edge u k stage → AtDist nbrs source d u ∧ prog u = k ∧
    ∃ v, (nbrs u)[k]? = some v ∧ StageOk nbrs source d depths u v stage
  copying : t.buffer.copying ≠ none → t.pc = .flushed ∨ ∃ u k, t.pc = .edge u k .push
  flushed : t.pc = .flushed → t.buffer.copying = none → t.buffer.localQueue = []

/-- `prog` destinations of each vertex are done: none of a vertex that waits, all of a vertex that no thread
works on any more. -/
structure Working (prog : ℕ → ℕ) (d : ℕ) (c : Config n) : Prop where
  threads : ∀ i, ThreadOk nbrs source prog d c.depths (c.threads i)
  todo : ∀ pos ∈ c.todo, c.queue.sharedOutStart ≤ pos ∧ pos < c.queue.sharedOutEnd ∧
    prog (c.queue.shared pos) = 0
  apart : ∀ i j u, (c.threads i).pc.vertex? = some u → (c.threads j).pc.vertex? = some u → i = j
  fresh : ∀ i u, (c.threads i).pc.vertex? = some u → ∀ pos ∈ c.todo, c.queue.shared pos ≠ u
  status : ∀ u, AtDist nbrs source d u → prog u = (nbrs u).length ∨
    (∃ pos ∈ c.todo, c.queue.shared pos = u) ∨ ∃ i, (c.threads i).pc.vertex? = some u
  before : ∀ u, ∀ j < d, AtDist nbrs source j u → prog u = (nbrs u).length
  after : ∀ u, 0 < prog u → ∃ j ≤ d, AtDist nbrs source j u
  seen : ∀ u k v, k < prog u → (nbrs u)[k]? = some v → c.depths v ≠ -1
  loop : c.phase = .loop → ∀ i, (c.threads i).pc ≠ .flushed
  flush : c.phase = .flush → c.todo = ∅ ∧ ∀ i, (c.threads i).pc.vertex? = none

open Classical in
/-- What a vertex is credited with when `prog` destinations of each vertex are done. -/
noncomputable def credits (prog : ℕ → ℕ) (v : ℕ) : BitVec 32 :=
  ∑ u ∈ (Finset.range numNodes).filter fun u => Tight nbrs source u v,
    (((nbrs u).take (prog u)).count v : BitVec 32) * pathCount nbrs source u

/-- The bits and the counts, when `prog` destinations of each vertex are done. -/
structure Counted (prog : ℕ → ℕ) (c : Config n) : Prop where
  bits : ∀ u < numNodes, ∀ k v, (nbrs u)[k]? = some v →
    (c.succ.getBit (getEdgeId prefixes u k).toNat = true ↔
      Tight nbrs source u v ∧ (k < prog u ∨ ∃ i, (c.threads i).pc.marked? = some (u, k)))
  counts : ∀ v, c.pathCounts v = (if v = source then 1 else 0) + credits nbrs numNodes source prog v

/-- What holds while the level behind `d` is discovered. -/
structure Inv (order : List ℕ) (prog : ℕ → ℕ) (d : ℕ) (c : Config n) : Prop where
  depth : c.depth = (d + 1 : ℕ)
  phase : c.phase ≠ .done
  distances : Distances nbrs source d c.depths
  queued : Queued nbrs numNodes order c
  levels : Levels nbrs source (c.depthIndex ++ [c.queue.sharedOutEnd]) c.queue.shared d
  last : c.depthIndex.getD (d + 1) 0 = c.queue.sharedOutStart
  working : Working nbrs source prog d c
  counted : Counted nbrs prefixes numNodes source prog c

end

section Distances

variable {nbrs : ℕ → List ℕ} {source d : ℕ} {depths : ℕ → ℤ} {u v : ℕ}

/-- A claimed vertex has its distance. -/
lemma Distances.atDist (h : Distances nbrs source d depths) (hv : depths v ≠ -1) :
    ∃ i ≤ d + 1, depths v = (i : ℕ) ∧ AtDist nbrs source i v := by
  obtain ⟨i, hi, hd⟩ := (h.range v).resolve_left hv
  rcases hi.lt_or_eq with hlt | rfl
  · exact ⟨i, hi, hd, (h.near v i (Nat.le_of_lt_succ hlt)).1 hd⟩
  · exact ⟨_, le_rfl, hd, h.far v hd⟩

/-- The distance of a claimed vertex is in `depths`. -/
lemma Distances.eq_of_atDist (h : Distances nbrs source d depths) (hv : depths v ≠ -1) {i : ℕ}
    (hi : AtDist nbrs source i v) : depths v = (i : ℕ) := by
  obtain ⟨j, -, hd, hj⟩ := h.atDist hv
  rw [hd, hi.unique hj]

/-- A vertex that the frontier leads to and that nothing has claimed is in the next level. -/
lemma Distances.next (h : Distances nbrs source d depths) (hu : AtDist nbrs source d u) (huv : v ∈ nbrs u)
    (hv : depths v = -1) : AtDist nbrs source (d + 1) v := by
  obtain ⟨hr, hle⟩ := hu.next huv
  refine ⟨hr, le_antisymm hle ?_⟩
  by_contra hlt
  have hd := (h.near v (dist nbrs source v) (by omega)).2 ⟨hr, rfl⟩
  omega

/-- A vertex of the next level is claimed. -/
lemma Distances.claim (h : Distances nbrs source d depths) (hv : AtDist nbrs source (d + 1) v) :
    Distances nbrs source d (Function.update depths v (d + 1 : ℕ)) where
  near w i hi := by
    by_cases hw : w = v
    · subst hw
      rw [Function.update_self]
      constructor
      · intro heq
        omega
      · intro hat
        have := hat.unique hv
        omega
    · rw [Function.update_of_ne hw, h.near w i hi]
  far w hd := by
    by_cases hw : w = v
    · exact hw ▸ hv
    · rw [Function.update_of_ne hw] at hd
      exact h.far w hd
  range w := by
    by_cases hw : w = v
    · exact .inr ⟨d + 1, le_rfl, by rw [hw, Function.update_self]⟩
    · rw [Function.update_of_ne hw]
      exact h.range w

/-- Everything of the next level is claimed. -/
lemma Distances.succ (h : Distances nbrs source d depths)
    (hall : ∀ v, AtDist nbrs source (d + 1) v → depths v ≠ -1) : Distances nbrs source (d + 1) depths where
  near v i hi := by
    rcases hi.lt_or_eq with hlt | rfl
    · exact h.near v i (Nat.le_of_lt_succ hlt)
    · exact ⟨h.far v, fun hv => h.eq_of_atDist (hall v hv) hv⟩
  far v hd := by
    rcases h.range v with hv | ⟨i, hi, hv⟩ <;> omega
  range v := by
    rcases h.range v with hv | ⟨i, hi, hv⟩
    · exact .inl hv
    · exact .inr ⟨i, by omega, hv⟩

/-- The start of the search. -/
lemma Distances.init : Distances nbrs source 0 (Function.update (fun _ => -1) source 0) where
  near v i hi := by
    obtain rfl := Nat.le_zero.1 hi
    rw [atDist_zero]
    by_cases hv : v = source
    · rw [hv, Function.update_self, Nat.cast_zero]
      exact ⟨fun _ => rfl, fun _ => rfl⟩
    · rw [Function.update_of_ne hv]
      exact ⟨fun h => by omega, fun h => absurd h hv⟩
  far v hd := by
    by_cases hv : v = source
    · rw [hv, Function.update_self] at hd
      omega
    · rw [Function.update_of_ne hv] at hd
      omega
  range v := by
    by_cases hv : v = source
    · exact .inr ⟨0, by omega, by rw [hv, Function.update_self, Nat.cast_zero]⟩
    · exact .inl (Function.update_of_ne hv ..)

end Distances

end Bc

end Dgap
