import Dgap.Graph.Load
import Dgap.Layout.Invariant
import Dgap.Adjacency.Multigraph

/-!
# Loading the base edges

`insert(edge_list)` writes the elements of the vertices one after another without gaps. `Compact s m adj`
says that the loader `s` has done so for the vertices below `m`, with the edges `adj`. Every store goes
behind the packed elements (`Compact.end_le`), so a new pivot (`Compact.putPivot`) and a new edge of the
last vertex (`Compact.putEdge`) keep it. Because the edges come sorted by source, the loop over them only
ever appends to the last vertex (`Compact.loadEdges`), and the loop after it finds the vertices without
a pivot in order (`Compact.closeVertices`).
-/

namespace Dgap

open Memory

namespace Graph

/-- The parts of a graph that the base load leaves alone. -/
structure Untouched (g g' : Graph) : Prop extends SameShape g g' where
  numEdges : g'.numEdges = g.numEdges
  elemCapacity : g'.elemCapacity = g.elemCapacity
  logPtr : g'.logPtr = g.logPtr
  logSegmentIdx : g'.logSegmentIdx = g.logSegmentIdx
  bp : g'.bp = g.bp
  behind : ∀ v, g.numVertices ≤ v → g'.vertices v = g.vertices v

namespace Untouched

variable {g g' g'' : Graph}

/-- Nothing is touched by doing nothing. -/
lemma refl (g : Graph) : Untouched g g := ⟨.refl g, rfl, rfl, rfl, rfl, rfl, fun _ _ => rfl⟩

/-- Untouched parts stay so along a sequence of changes. -/
lemma trans (h : Untouched g g') (h' : Untouched g' g'') : Untouched g g'' :=
  ⟨h.toSameShape.trans h'.toSameShape, h'.numEdges.trans h.numEdges,
    h'.elemCapacity.trans h.elemCapacity, h'.logPtr.trans h.logPtr,
    h'.logSegmentIdx.trans h.logSegmentIdx, h'.bp.trans h.bp, fun v hv =>
      (h'.behind v (by rw [h.numVertices]; exact hv)).trans (h.behind v hv)⟩

end Untouched

/-- When the degree of one vertex and the counter of its leaf grow by one, the counters still count. -/
lemma actual_succ {g g' : Graph} (hg : g.Geometry) (hsh : SameShape g g') {v : ℕ}
    (ho : ∀ w, w ≠ v → (g'.vertices w).degree = (g.vertices w).degree)
    (hv : (g'.vertices v).degree = (g.vertices v).degree + 1)
    (hc : g'.segmentEdgesActual = Function.update g.segmentEdgesActual (g.getSegmentId v)
      (g.segmentEdgesActual (g.getSegmentId v) + 1)) {t : ℕ}
    (h : g.segmentEdgesActual (t + g.segmentCount) =
      g.degreeSum (t * g.segmentSize) ((t + 1) * g.segmentSize)) :
    g'.segmentEdgesActual (t + g'.segmentCount) =
      g'.degreeSum (t * g'.segmentSize) ((t + 1) * g'.segmentSize) := by
  rw [hsh.segmentCount, hsh.segmentSize, hc, degreeSum_succ (fun w _ _ hw => ho w hw) hv, ← h,
    getSegmentId_eq]
  have hiff := hg.leafOf_iff v t
  by_cases ht : g.leafOf v = t
  · rw [if_pos (hiff.1 ht), ht, Function.update_self]
  · rw [if_neg fun h => ht (hiff.2 h), Function.update_of_ne (by omega), add_zero]

end Graph

/-- The first `m` vertices are packed from slot 0 on, with the edges `adj`. -/
structure Compact (s : Loader) (m : ℕ) (adj : ℕ → List ℕ) : Prop where
  geometry : s.g.Geometry
  le : m ≤ s.g.numVertices
  degree : ∀ v < m, (s.g.vertices v).degree = (adj v).length + 1
  index : ∀ v < m, (s.g.vertices v).index = s.g.degreeSum 0 v
  slots : ∀ v < m, slice s.g.edges.cur (s.g.vertices v).index (elements v (adj v)).length =
    elements v (adj v)
  fresh : ∀ v, m ≤ v → v < s.g.numVertices → (s.g.vertices v).degree = 0
  empty : ∀ v, m ≤ v → adj v = []
  next : s.ii = s.g.degreeSum 0 m
  actual : ∀ t < s.g.segmentCount, s.g.segmentEdgesActual (t + s.g.segmentCount) =
    s.g.degreeSum (t * s.g.segmentSize) ((t + 1) * s.g.segmentSize)

namespace Compact

open Dgap.Graph

variable {s : Loader} {m src dst k i : ℕ} {adj : ℕ → List ℕ}

/-- The elements of a packed vertex end before the next free slot. -/
lemma end_le (h : Compact s m adj) {v : ℕ} (hv : v < m) :
    (s.g.vertices v).index + (elements v (adj v)).length ≤ s.ii := by
  have hsum := degreeSum_add (g := s.g) (Nat.zero_le (v + 1)) hv
  have hrest : 0 ≤ s.g.degreeSum (v + 1) m := degreeSum_nonneg fun w _ hw => by
    rw [h.degree w hw]
    omega
  have hlast : s.g.degreeSum 0 (v + 1) = s.g.degreeSum 0 v + (s.g.vertices v).degree :=
    Finset.sum_Ico_succ_top (Nat.zero_le v) _
  have := h.degree v hv
  rw [h.index v hv, h.next, elements_length]
  push_cast
  omega

/-- A store at the next free slot spares the packed elements. -/
lemma slots_store (h : Compact s m adj) {v : ℕ} (hv : v < m) (x : ℤ) :
    slice (s.g.edges.store s.ii x).cur (s.g.vertices v).index (elements v (adj v)).length =
      elements v (adj v) := by
  have hend := h.end_le hv
  refine (slice_congr fun j hj => ?_).trans (h.slots v hv)
  rw [Image.store_cur, Function.update_of_ne (by omega)]

/-- The pivot of the next vertex. -/
lemma putPivot (h : Compact s m adj) (hm : m < s.g.numVertices) :
    Compact (s.putPivot m) (m + 1) adj ∧ Untouched s.g (s.putPivot m).g := by
  have hother : ∀ w, w ≠ m → (s.putPivot m).g.vertices w = s.g.vertices w := fun w hw =>
    Function.update_of_ne hw _ _
  have hself : (s.putPivot m).g.vertices m = { s.g.vertices m with degree := 1, index := s.ii } :=
    Function.update_self ..
  have hsh : SameShape s.g (s.putPivot m).g := ⟨rfl, rfl, rfl, rfl, rfl, rfl⟩
  have hsum : ∀ v ≤ m, (s.putPivot m).g.degreeSum 0 v = s.g.degreeSum 0 v := fun v hv =>
    degreeSum_congr fun w _ hw => by rw [hother w (by omega)]
  refine ⟨⟨hsh.geometry h.geometry, hm, fun v hv => ?_, fun v hv => ?_, fun v hv => ?_,
    fun v hv hn => ?_, fun v hv => h.empty v (by omega), ?_, fun t ht => ?_⟩,
    ⟨hsh, rfl, rfl, rfl, rfl, rfl, fun v hv => hother v (by omega)⟩⟩
  · rcases Nat.lt_succ_iff_lt_or_eq.1 hv with hv | rfl
    · rw [hother v (by omega), h.degree v hv]
    · rw [hself, h.empty v (le_refl _)]
      rfl
  · rw [hsum v (by omega)]
    rcases Nat.lt_succ_iff_lt_or_eq.1 hv with hv | rfl
    · rw [hother v (by omega), h.index v hv]
    · rw [hself]
      exact h.next
  · rcases Nat.lt_succ_iff_lt_or_eq.1 hv with hv | rfl
    · rw [hother v (by omega)]
      exact h.slots_store hv _
    · rw [hself, h.empty v (le_refl _)]
      show [Function.update s.g.edges.cur s.ii (-(v : ℤ)) s.ii] = _
      rw [Function.update_self]
      rfl
  · rw [hother v (by omega)]
    exact h.fresh v (by omega) hn
  · show s.ii + 1 = _
    rw [Graph.degreeSum, Finset.sum_Ico_succ_top (Nat.zero_le m), hself]
    have := hsum m (le_refl _)
    rw [Graph.degreeSum] at this
    rw [this, ← h.next]
  · refine actual_succ h.geometry hsh (v := m) (fun w hw => by rw [hother w hw]) ?_ rfl
      (h.actual t ht)
    rw [hself, h.fresh m (le_refl _) hm]
    rfl

/-- The pivots of the next `k` vertices. -/
lemma putPivots (h : Compact s m adj) (hm : m + k ≤ s.g.numVertices) :
    Compact (Loader.putPivots k m s) (m + k) adj ∧ Untouched s.g (Loader.putPivots k m s).g ∧
      (Loader.putPivots k m s).lastVid = s.lastVid := by
  induction k generalizing m s with
  | zero => exact ⟨h, .refl _, rfl⟩
  | succ k ih =>
    obtain ⟨h1, hu⟩ := h.putPivot (by omega)
    obtain ⟨h2, hu2, hl⟩ := ih h1 (by rw [hu.numVertices]; omega)
    rw [show m + (k + 1) = m + 1 + k by omega]
    exact ⟨h2, hu.trans hu2, hl⟩

/-- An edge of the last vertex. -/
lemma putEdge (h : Compact s (m + 1) adj) (dst : ℕ) :
    Compact (s.putEdge m dst) (m + 1) (Multigraph.insert adj (m, dst)) ∧
      Untouched s.g (s.putEdge m dst).g := by
  have hm := h.le
  have hother : ∀ w, w ≠ m → (s.putEdge m dst).g.vertices w = s.g.vertices w := fun w hw =>
    Function.update_of_ne hw _ _
  have hself : (s.putEdge m dst).g.vertices m =
      { s.g.vertices m with degree := (s.g.vertices m).degree + 1 } := Function.update_self ..
  have hsh : SameShape s.g (s.putEdge m dst).g := ⟨rfl, rfl, rfl, rfl, rfl, rfl⟩
  have hsum : ∀ v ≤ m, (s.putEdge m dst).g.degreeSum 0 v = s.g.degreeSum 0 v := fun v hv =>
    degreeSum_congr fun w _ hw => by rw [hother w (by omega)]
  have hadj : ∀ v, v ≠ m → Multigraph.insert adj (m, dst) v = adj v := fun v hv =>
    Multigraph.insert_of_ne hv
  have hadjm : Multigraph.insert adj (m, dst) m = adj m ++ [dst] := Multigraph.insert_self adj (m, dst)
  refine ⟨⟨hsh.geometry h.geometry, hm, fun v hv => ?_, fun v hv => ?_, fun v hv => ?_,
    fun v hv hn => ?_, fun v hv => ?_, ?_, fun t ht => ?_⟩,
    ⟨hsh, rfl, rfl, rfl, rfl, rfl, fun v hv => hother v (by omega)⟩⟩
  · rcases Nat.lt_succ_iff_lt_or_eq.1 hv with hv | rfl
    · rw [hother v (by omega), hadj v (by omega), h.degree v (by omega)]
    · rw [hself, hadjm, List.length_append]
      push_cast
      rw [h.degree v (by omega)]
      rfl
  · rw [hsum v (by omega), ← h.index v hv]
    rcases Nat.lt_succ_iff_lt_or_eq.1 hv with hv | rfl
    · rw [hother v (by omega)]
    · rw [hself]
  · rcases Nat.lt_succ_iff_lt_or_eq.1 hv with hv | rfl
    · rw [hother v (by omega), hadj v (by omega)]
      exact h.slots_store (by omega) _
    · -- the free slot is right behind the elements of the last vertex
      have hnext : s.ii = (s.g.vertices v).index + (elements v (adj v)).length := by
        have hlast : s.g.degreeSum 0 (v + 1) = s.g.degreeSum 0 v + (s.g.vertices v).degree :=
          Finset.sum_Ico_succ_top (Nat.zero_le v) _
        rw [h.next, hlast, h.index v hv, h.degree v hv, elements_length]
        push_cast
        ring
      rw [hself, hadjm, elements_concat, List.length_append, slice_add]
      congr 1
      · exact h.slots_store hv _
      · show [Function.update s.g.edges.cur s.ii (dst : ℤ) _] = _
        rw [← hnext, Function.update_self]
  · rw [hother v (by omega)]
    exact h.fresh v hv hn
  · rw [hadj v (by omega)]
    exact h.empty v hv
  · show s.ii + 1 = _
    have hlast : ∀ g : Graph, g.degreeSum 0 (m + 1) = g.degreeSum 0 m + (g.vertices m).degree :=
      fun g => Finset.sum_Ico_succ_top (Nat.zero_le m) _
    rw [hlast, hsum m (le_refl _), hself, h.next, hlast]
    ring
  · exact actual_succ h.geometry hsh (v := m) (fun w hw => by rw [hother w hw]) (by rw [hself]) rfl
      (h.actual t ht)

/-- The pivots that precede an edge. -/
lemma openVertex (h : Compact s m adj) (hl : s.lastVid = m - 1) (hm : m ≤ src + 1)
    (hs : src < s.g.numVertices) :
    Compact (s.openVertex src) (src + 1) adj ∧ Untouched s.g (s.openVertex src).g ∧
      (s.openVertex src).lastVid = src := by
  unfold Loader.openVertex
  split
  case isTrue hd =>
    have hle : m ≤ src := by
      by_contra hlt
      have := h.degree src (by omega)
      omega
    -- the skipped vertices, if any
    have hskip : ∀ s', s' = (if (src : ℤ) ≠ s.lastVid + 1 then
        s.putPivots (src - (s.lastVid + 1).toNat) (s.lastVid + 1).toNat else s) →
        Compact s' src adj ∧ Untouched s.g s'.g := by
      intro s' hs'
      by_cases hne : (src : ℤ) ≠ s.lastVid + 1
      · rw [if_pos hne, show (s.lastVid + 1).toNat = m by omega] at hs'
        subst hs'
        obtain ⟨h1, hu, -⟩ := h.putPivots (k := src - m) (by omega)
        rw [show m + (src - m) = src by omega] at h1
        exact ⟨h1, hu⟩
      · rw [if_neg hne] at hs'
        subst hs'
        obtain rfl : m = src := by omega
        exact ⟨h, .refl _⟩
    simp only
    obtain ⟨h1, hu1⟩ := hskip _ rfl
    obtain ⟨h2, hu2⟩ := h1.putPivot (by rw [hu1.numVertices]; exact hs)
    exact ⟨⟨h2.geometry, h2.le, h2.degree, h2.index, h2.slots, h2.fresh, h2.empty, h2.next,
      h2.actual⟩, hu1.trans hu2, trivial⟩
  case isFalse hd =>
    have hlt : src < m := by
      by_contra hge
      exact hd (h.fresh src (by omega) hs)
    obtain rfl : m = src + 1 := by omega
    exact ⟨h, .refl _, by omega⟩

/-- The loop over the base edges. -/
lemma loadEdges {l : List (ℕ × ℕ)} (h : Compact s m adj) (hl : s.lastVid = m - 1)
    (hsorted : l.Pairwise fun e e' => e.1 ≤ e'.1) (hm : ∀ e ∈ l, m ≤ e.1 + 1)
    (hs : ∀ e ∈ l, e.1 < s.g.numVertices) :
    ∃ m', Compact (l.foldl Loader.loadEdge s) m' (l.foldl Multigraph.insert adj) ∧
      Untouched s.g (l.foldl Loader.loadEdge s).g ∧
      (l.foldl Loader.loadEdge s).lastVid = m' - 1 := by
  induction l generalizing s m adj with
  | nil => exact ⟨m, h, .refl _, hl⟩
  | cons e l ih =>
    obtain ⟨src, dst⟩ := e
    rw [List.pairwise_cons] at hsorted
    obtain ⟨h1, hu1, hl1⟩ := h.openVertex hl (hm _ List.mem_cons_self) (hs _ List.mem_cons_self)
    obtain ⟨h2, hu2⟩ := h1.putEdge dst
    have hu := hu1.trans hu2
    obtain ⟨m', h3, hu3, hl3⟩ := ih (s := s.loadEdge (src, dst)) h2
      (by show (s.openVertex src).lastVid = _; rw [hl1]; push_cast; ring) hsorted.2
      (fun e he => by have := hsorted.1 e he; simp only at this; omega)
      (fun e he => by rw [show (s.loadEdge (src, dst)).g.numVertices = s.g.numVertices from
        hu.numVertices]; exact hs e (List.mem_cons_of_mem _ he))
    exact ⟨m', h3, hu.trans hu3, hl3⟩

/-- `vertices_[i].offset = -1` does not move anything. -/
lemma clearOffset (h : Compact s m adj) (hi : i < s.g.numVertices) :
    Compact (s.clearOffset i) m adj ∧ Untouched s.g (s.clearOffset i).g := by
  have hidx : ∀ v, ((s.clearOffset i).g.vertices v).index = (s.g.vertices v).index := by
    intro v
    show (Function.update s.g.vertices i _ v).index = _
    by_cases hv : v = i
    · subst hv
      rw [Function.update_self]
    · rw [Function.update_of_ne hv]
  have hdeg : ∀ v, ((s.clearOffset i).g.vertices v).degree = (s.g.vertices v).degree := by
    intro v
    show (Function.update s.g.vertices i _ v).degree = _
    by_cases hv : v = i
    · subst hv
      rw [Function.update_self]
    · rw [Function.update_of_ne hv]
  have hsum : ∀ a b, (s.clearOffset i).g.degreeSum a b = s.g.degreeSum a b := fun a b =>
    degreeSum_congr fun v _ _ => hdeg v
  have hsh : SameShape s.g (s.clearOffset i).g := ⟨rfl, rfl, rfl, rfl, rfl, rfl⟩
  refine ⟨⟨hsh.geometry h.geometry, h.le, fun v hv => ?_, fun v hv => ?_, fun v hv => ?_,
    fun v hv hn => ?_, h.empty, ?_, fun t ht => ?_⟩,
    ⟨hsh, rfl, rfl, rfl, rfl, rfl, fun v hv => Function.update_of_ne (by omega) _ _⟩⟩
  · rw [hdeg, h.degree v hv]
  · rw [hidx, hsum, h.index v hv]
  · rw [hidx]
    exact h.slots v hv
  · rw [hdeg]
    exact h.fresh v hv hn
  · rw [hsum]
    exact h.next
  · rw [hsum]
    exact h.actual t ht

/-- The loop that gives the remaining vertices their pivots fails no assertion. -/
lemma closeVertices (h : Compact s m adj) (hi : i ≤ m) (hl : s.lastVid < m)
    (hk : i + k = s.g.numVertices) (ho : ∀ v < i, (s.g.vertices v).offset = -1) :
    ∃ s', s.closeVertices k i = some s' ∧ Compact s' s.g.numVertices adj ∧ Untouched s.g s'.g ∧
      ∀ v < s.g.numVertices, (s'.g.vertices v).offset = -1 := by
  induction k generalizing s m i with
  | zero =>
    have hle := h.le
    obtain rfl : m = s.g.numVertices := by omega
    exact ⟨s, rfl, h, .refl _, fun v hv => ho v (by omega)⟩
  | succ k ih =>
    -- once vertex `i` has its pivot, clear its offset and go on
    have hstep : ∀ {s1 m1}, Compact s1 m1 adj → Untouched s.g s1.g → i + 1 ≤ m1 →
        s1.lastVid < m1 → (∀ v < i, (s1.g.vertices v).offset = -1) →
        ∃ s', (s1.clearOffset i).closeVertices k (i + 1) = some s' ∧
          Compact s' s.g.numVertices adj ∧ Untouched s.g s'.g ∧
          ∀ v < s.g.numVertices, (s'.g.vertices v).offset = -1 := by
      intro s1 m1 h1 hu1 hi1 hl1 ho1
      obtain ⟨h2, hu2⟩ := h1.clearOffset (i := i) (by rw [hu1.numVertices]; omega)
      have hu := hu1.trans hu2
      obtain ⟨s', hs', hc, hu3, ho3⟩ := ih h2 hi1 hl1 (by rw [hu.numVertices]; omega) fun v hv => by
        show (Function.update s1.g.vertices i _ v).offset = -1
        by_cases hvi : v = i
        · subst hvi
          rw [Function.update_self]
        · rw [Function.update_of_ne hvi]
          exact ho1 v (by omega)
      rw [hu.numVertices] at hc ho3
      exact ⟨s', hs', hc, hu.trans hu3, ho3⟩
    simp only [Loader.closeVertices]
    split
    case isTrue hd =>
      have hle := h.le
      obtain rfl : m = i := by
        by_contra hne
        have := h.degree i (by omega)
        omega
      obtain ⟨h1, hu1⟩ := h.putPivot (by omega)
      rw [if_pos (by omega)]
      refine hstep h1 hu1 (le_refl _) ?_ fun v hv => ?_
      · show s.lastVid < _
        push_cast
        omega
      · show (Function.update s.g.vertices m _ v).offset = -1
        rw [Function.update_of_ne (by omega)]
        exact ho v hv
    case isFalse hd =>
      have hlt : i < m := by
        by_contra hge
        exact hd (h.fresh i (by omega) (by omega))
      exact hstep h (.refl _) hlt hl ho

end Compact

end Dgap
