import Dgap.Bal.Adjacency
import Dgap.Build.MakeGraph
import Dgap.Machine.ForLoop

/-!
# The counters of the ingestion loops

The loops that take a graph in compare a counter with a 64-bit number of edges. In the base load and the
mirroring of the base list the counter is an `int`, in the dynamic inserts of the blocked adjacency list a
`uint32_t`, and only in the dynamic inserts of the PMA a `uint64_t`. Each of them visits every edge once exactly
as long as the number of edges is below the first value that the counter cannot hold (`ingestion_loops`). From
there on the two serial loops, the base load of the PMA and the mirroring, never end; the two loops of the
blocked adjacency list are under `omp parallel for`, which converts the number of edges to the type of the counter
before it begins, and have too few rounds. Below, all of them compute what the model of the loops elsewhere says.

The rounds of a parallel loop are shared out among the threads; the dynamic loops here yield the inserts of all
rounds, in the order in which these run.
-/

namespace Dgap

open Machine

/-- The loop over the base edges in `insert(edge_list)`, with an `int` counter. -/
def Loader.insertFor (edgeList : List (ℕ × ℕ)) : ForLoop Loader :=
  .overList (signed 32) edgeList Loader.loadEdge

/-- The loop of `MakeGraph` that mirrors the base list, with an `int` counter. -/
def mirrorFor (el : List (ℕ × ℕ)) : ForLoop (List (ℕ × ℕ)) where
  conv := signed 32
  bound := el.length
  body i el := (at? el i).map fun e => el ++ [(e.2, e.1)]

/-- The loop of `MakeGraph` over the dynamic edges, under `omp parallel for` with a `uint64_t` counter. -/
def dynamicFor (symmetrize : Bool) (el : List (ℕ × ℕ)) : ParallelFor (List (ℕ × ℕ)) :=
  .overList (unsigned 64) el fun l e => l ++ ingest symmetrize [e]

/-- The loop over the base edges in the constructor of the blocked adjacency list, under `omp parallel for` with
an `int` counter. -/
def Bal.baseFor (baseEdgeList : List (ℕ × ℕ)) : ParallelFor (List (ℕ × ℕ)) :=
  .overList (signed 32) baseEdgeList fun l e => l ++ [e]

/-- The loop of its `MakeGraph` over the dynamic edges, under `omp parallel for` with a `uint32_t` counter. -/
def Bal.dynamicFor (symmetrize : Bool) (el : List (ℕ × ℕ)) : ParallelFor (List (ℕ × ℕ)) :=
  .overList (unsigned 32) el fun l e => l ++ ingest symmetrize [e]

/-- Below the limit of its counter the base load is the fold over the base edges. -/
lemma Loader.insertFor_run {edgeList : List (ℕ × ℕ)} (h : edgeList.length < 2 ^ 31) (s : Loader) :
    (insertFor edgeList).run edgeList.length 0 s = some (edgeList.foldl loadEdge s) :=
  ForLoop.run_overList (fun _ hj => signed_keep (by norm_num) (hj.trans_lt h)) (Nat.zero_add _)

/-- A loop over a list that lists what each element stands for. -/
lemma foldl_append_flatMap {α β : Type*} (f : α → List β) (l : List α) (done : List β) :
    l.foldl (fun done e => done ++ f e) done = done ++ l.flatMap f := by
  induction l generalizing done with
  | nil => rw [List.foldl_nil, List.flatMap_nil, List.append_nil]
  | cons e l ih => rw [List.foldl_cons, ih, List.flatMap_cons, List.append_assoc]

/-- The rounds of a parallel loop that lists what each element stands for, in any order. -/
lemma parallelFor_run {conv : ℤ → ℤ} {el : List (ℕ × ℕ)} (f : ℕ × ℕ → List (ℕ × ℕ))
    (hle : tripCount conv el.length ≤ el.length) {order : List ℕ}
    (horder : order.Perm (ParallelFor.overList conv el fun l e => l ++ f e).rounds) :
    ∃ l, (ParallelFor.overList conv el fun l e => l ++ f e).run order [] = some l ∧
      l.Perm ((el.take (tripCount conv el.length)).flatMap f) := by
  have hrounds : ∀ i ∈ order, i < el.length := fun i hi =>
    (List.mem_range.1 (horder.mem_iff.1 hi)).trans_le hle
  refine ⟨_, ParallelFor.run_overList hrounds, ?_⟩
  rw [foldl_append_flatMap, List.nil_append, ← ParallelFor.filterMap_range]
  exact (horder.filterMap _).flatMap_right f

/-- The rounds of the base load of the blocked adjacency list have the edges that its threads share out. -/
lemma Bal.baseFor_run {el : List (ℕ × ℕ)} {order : List ℕ} (horder : order.Perm (baseFor el).rounds) :
    ∃ l, (baseFor el).run order [] = some l ∧ l.Perm (loadEdges el) := by
  obtain ⟨l, hl, hperm⟩ := parallelFor_run (fun e => [e]) (tripCount_signed_le (by norm_num) _) horder
  rw [List.flatMap_singleton'] at hperm
  exact ⟨l, hl, hperm⟩

/-- As many rounds as there are edges make the inserts of the whole list. -/
lemma parallelFor_ingest {conv : ℤ → ℤ} {el : List (ℕ × ℕ)} (symmetrize : Bool)
    (hcount : tripCount conv el.length = el.length) {order : List ℕ}
    (horder : order.Perm (ParallelFor.overList conv el fun l e => l ++ ingest symmetrize [e]).rounds) :
    ∃ l, (ParallelFor.overList conv el fun l e => l ++ ingest symmetrize [e]).run order [] = some l ∧
      l.Perm (ingest symmetrize el) := by
  obtain ⟨l, hl, hperm⟩ := parallelFor_run (fun e => ingest symmetrize [e]) hcount.le horder
  rw [hcount, List.take_length] at hperm
  refine ⟨l, hl, hperm.trans (.of_eq ?_)⟩
  rw [ingest]
  exact List.flatMap_congr fun e _ => List.flatMap_singleton ..

/-- The rounds of the dynamic inserts of the PMA. -/
lemma dynamicFor_run {el : List (ℕ × ℕ)} (h : el.length < 2 ^ 64) (symmetrize : Bool) {order : List ℕ}
    (horder : order.Perm (dynamicFor symmetrize el).rounds) :
    ∃ l, (dynamicFor symmetrize el).run order [] = some l ∧ l.Perm (ingest symmetrize el) :=
  parallelFor_ingest symmetrize (by rw [tripCount, unsigned_keep h, Int.toNat_natCast]) horder

/-- The rounds of the dynamic inserts of the blocked adjacency list. -/
lemma Bal.dynamicFor_run {el : List (ℕ × ℕ)} (h : el.length < 2 ^ 32) (symmetrize : Bool) {order : List ℕ}
    (horder : order.Perm (dynamicFor symmetrize el).rounds) :
    ∃ l, (dynamicFor symmetrize el).run order [] = some l ∧ l.Perm (ingest symmetrize el) :=
  parallelFor_ingest symmetrize (by rw [tripCount, unsigned_keep h, Int.toNat_natCast]) horder

/-- Below the limit of its counter the mirroring is the loop of the model. -/
lemma mirrorFor_run {el : List (ℕ × ℕ)} (h : el.length < 2 ^ 31) :
    (mirrorFor el).run el.length 0 el = some (mirrorLoop el.length 0 el) := by
  have hloop : ∀ k i l, i + k = el.length → el.length ≤ l.length →
      (mirrorFor el).run k (i : ℕ) l = some (mirrorLoop k i l) := by
    intro k
    induction k with
    | zero => exact fun i l hi _ => if_neg (by simp only [mirrorFor]; omega)
    | succ k ih =>
      intro i l hi hl
      have hsucc : signed 32 ((i : ℤ) + 1) = ((i + 1 : ℕ) : ℤ) := by
        rw [← Nat.cast_succ]
        exact signed_keep (by norm_num) (lt_of_le_of_lt (by omega) h)
      rw [ForLoop.run, if_pos (by simp only [mirrorFor]; omega)]
      simp only [mirrorFor, at?_natCast, List.getElem?_eq_getElem (show i < l.length by omega),
        Option.map_some, Option.bind_some, hsucc]
      rw [mirrorLoop, List.getD_eq_getElem?_getD, List.getElem?_eq_getElem (show i < l.length by omega),
        Option.getD_some]
      exact ih (i + 1) _ (by omega) (by rw [List.length_append]; omega)
  exact hloop el.length 0 el (Nat.zero_add _) (le_refl _)

/-- The numbers of edges for which the ingestion loops end and visit every edge once. -/
theorem ingestion_loops (el : List (ℕ × ℕ)) (symmetrize : Bool) :
    ((Loader.insertFor el).VisitsOnce el.length ↔ el.length < 2 ^ 31) ∧
    ((mirrorFor el).VisitsOnce el.length ↔ el.length < 2 ^ 31) ∧
    ((Bal.baseFor el).VisitsOnce el.length ↔ el.length < 2 ^ 31) ∧
    ((Bal.dynamicFor symmetrize el).VisitsOnce el.length ↔ el.length < 2 ^ 32) := by
  have hint : 0 < 32 := by norm_num
  exact ⟨ForLoop.visitsOnce_signed hint rfl rfl, ForLoop.visitsOnce_signed hint rfl rfl,
    ParallelFor.visitsOnce_signed hint rfl rfl, ParallelFor.visitsOnce_unsigned rfl rfl⟩

/-- The `uint64_t` counter holds every number of edges. -/
theorem dynamicFor_visitsOnce (el : List (ℕ × ℕ)) (symmetrize : Bool) :
    (dynamicFor symmetrize el).VisitsOnce el.length ↔ el.length < 2 ^ 64 :=
  ParallelFor.visitsOnce_unsigned rfl rfl

/-- With `2 ^ 31` base edges the base load of the PMA and the mirroring never end, and the base load of the blocked
adjacency list has no round; with `2 ^ 32` dynamic edges its dynamic inserts have none. -/
theorem ingestion_loops_fail : ∃ el el' : List (ℕ × ℕ), el.length = 2 ^ 31 ∧ el'.length = 2 ^ 32 ∧
    (∀ fuel, (Loader.insertFor el).indices fuel 0 = none ∧ (mirrorFor el).indices fuel 0 = none) ∧
    (Bal.baseFor el).rounds = [] ∧ (Bal.dynamicFor false el').rounds = [] ∧
    ¬ (Loader.insertFor el).VisitsOnce el.length ∧ ¬ (mirrorFor el).VisitsOnce el.length ∧
    ¬ (Bal.baseFor el).VisitsOnce el.length ∧ ¬ (Bal.dynamicFor false el').VisitsOnce el'.length := by
  obtain ⟨el, hel⟩ : ∃ el : List (ℕ × ℕ), el.length = 2 ^ 31 := ⟨.replicate _ (0, 0), List.length_replicate⟩
  obtain ⟨el', hel'⟩ : ∃ el : List (ℕ × ℕ), el.length = 2 ^ 32 := ⟨.replicate _ (0, 0), List.length_replicate⟩
  have hint : ∀ i, signed 32 i < el.length := fun i => by
    rw [hel]
    exact signed_lt (by norm_num) i
  have hpos : (0 : ℤ) < el.length := by rw [hel]; norm_num
  have h1 : ∀ fuel, (Loader.insertFor el).indices fuel 0 = none := fun _ =>
    ForLoop.indices_eq_none hint hpos
  have h2 : ∀ fuel, (mirrorFor el).indices fuel 0 = none := fun _ => ForLoop.indices_eq_none hint hpos
  have h3 : (Bal.baseFor el).rounds = [] := by
    rw [ParallelFor.rounds]
    show List.range (tripCount (signed 32) el.length) = []
    rw [hel, show tripCount (signed 32) (2 ^ 31 : ℕ) = 0 by decide +kernel, List.range_zero]
  have h4 : (Bal.dynamicFor false el').rounds = [] := by
    rw [ParallelFor.rounds]
    show List.range (tripCount (unsigned 32) el'.length) = []
    rw [hel', show tripCount (unsigned 32) (2 ^ 32 : ℕ) = 0 by decide +kernel, List.range_zero]
  refine ⟨el, el', hel, hel', fun fuel => ⟨h1 fuel, h2 fuel⟩, h3, h4, ForLoop.not_visitsOnce h1,
    ForLoop.not_visitsOnce h2, fun h => ?_, fun h => ?_⟩
  · rw [ParallelFor.VisitsOnce, h3] at h
    have hlen := h.length_eq
    rw [List.length_nil, List.length_range, hel] at hlen
    exact absurd hlen (by norm_num)
  · rw [ParallelFor.VisitsOnce, h4] at h
    have hlen := h.length_eq
    rw [List.length_nil, List.length_range, hel'] at hlen
    exact absurd hlen (by norm_num)

end Dgap
