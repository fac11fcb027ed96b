import Dgap.Adjacency.Multigraph
import Dgap.Layout.Window

/-!
# Placing one edge keeps the layout

`Inserted g g' src dst` is what happens when `do_insertion` places an edge without moving anything:
either the slot behind the last element of `src` is free and takes the edge, or `src` is full and the
edge goes on top of its log chain (`Placed`). Then the counters count it. The layout survives, for the
adjacency with the new edge (`Inserted.layout`).
-/

namespace Dgap

open Memory

namespace Graph

variable {g g' : Graph} {adj : ℕ → List ℕ} {src dst v : ℕ}

/-- `have_space_onseg` compares with where the next vertex begins. -/
lemma haveSpaceOnseg_iff (h : src < g.numVertices) (loc : ℤ) :
    g.haveSpaceOnseg src loc = true ↔ loc < g.bound (src + 1) := by
  unfold haveSpaceOnseg bound
  simp only [decide_eq_true_eq, Bool.decide_or, Bool.decide_and, Bool.or_eq_true,
    Bool.and_eq_true]
  split <;> constructor <;> intro h' <;> omega

/-- Where the edge goes. -/
inductive Placed (g g' : Graph) (src dst : ℕ) : Prop where
  | slot : g.insertLoc src < g.bound (src + 1) →
      g'.edges.cur = Function.update g.edges.cur (g.insertLoc src) dst →
      (g'.vertices src).offset = (g.vertices src).offset →
      g'.logSegmentIdx = g.logSegmentIdx → g'.logPtr = g.logPtr → Placed g g' src dst
  | log : g.bound (src + 1) ≤ g.insertLoc src → g'.edges = g.edges →
      g.logSegmentIdx (g.leafOf src) < maxLogEntries →
      (g'.vertices src).offset = g.logSegmentIdx (g.leafOf src) →
      g'.logSegmentIdx = Function.update g.logSegmentIdx (g.leafOf src)
        (g.logSegmentIdx (g.leafOf src) + 1) →
      (∀ s, s ≠ g.leafOf src → g'.logPtr s = g.logPtr s) →
      (g'.logPtr (g.leafOf src)).cur = Function.update (g.logPtr (g.leafOf src)).cur
        (g.logSegmentIdx (g.leafOf src)) ⟨src, dst, (g.vertices src).offset⟩ →
      Placed g g' src dst

/-- What placing an edge does. -/
structure Inserted (g g' : Graph) (src dst : ℕ) : Prop extends SameShape g g' where
  numEdges : g'.numEdges = g.numEdges + 1
  elemCapacity : g'.elemCapacity = g.elemCapacity
  bp : g'.bp = g.bp
  total : g'.segmentEdgesTotal = g.segmentEdgesTotal
  index : ∀ v, (g'.vertices v).index = (g.vertices v).index
  degree : (g'.vertices src).degree = (g.vertices src).degree + 1
  other : ∀ v, v ≠ src → g'.vertices v = g.vertices v
  actual : ∀ j, g'.segmentEdgesActual j =
    g.segmentEdgesActual j + if j = g.getSegmentId src then 1 else 0
  placed : Placed g g' src dst

/-- An edge stored on-segment. -/
lemma inserted_slot (hs : src < g.numVertices)
    (h : g.haveSpaceOnseg src (g.insertLoc src) = true) :
    Inserted g ((g.storeEdge (g.insertLoc src) dst).countEdge src (g.getSegmentId src)) src dst := by
  refine ⟨⟨rfl, rfl, rfl, rfl, rfl, rfl⟩, rfl, rfl, rfl, rfl, ?_, ?_, ?_, ?_, ?_⟩
  · intro v
    by_cases hv : v = src
    · subst hv
      simp [countEdge, storeEdge]
    · simp [countEdge, storeEdge, Function.update_of_ne hv]
  · simp [countEdge, storeEdge]
  · intro v hv
    simp [countEdge, storeEdge, Function.update_of_ne hv]
  · intro j
    by_cases hj : j = g.getSegmentId src
    · subst hj
      simp [countEdge, storeEdge]
    · simp [countEdge, storeEdge, hj]
  · exact .slot ((haveSpaceOnseg_iff hs _).1 h) rfl (by simp [countEdge, storeEdge]) rfl rfl

/-- An edge stored in the log. -/
lemma inserted_log (hs : src < g.numVertices)
    (h : ¬g.haveSpaceOnseg src (g.insertLoc src) = true) {g1 : Graph}
    (h1 : g.insertIntoLog (g.getSegmentId src - g.segmentCount) src dst = some g1) :
    Inserted g (g1.countEdge src (g.getSegmentId src)) src dst := by
  have hleaf : g.getSegmentId src - g.segmentCount = g.leafOf src := rfl
  rw [hleaf] at h1
  simp only [insertIntoLog] at h1
  split at h1
  case isFalse => cases h1
  rename_i hcond
  obtain rfl := Option.some.inj h1
  refine ⟨⟨rfl, rfl, rfl, rfl, rfl, rfl⟩, rfl, rfl, rfl, rfl, ?_, ?_, ?_, ?_, ?_⟩
  · intro v
    by_cases hv : v = src
    · subst hv
      simp [countEdge]
    · simp [countEdge, Function.update_of_ne hv]
  · simp [countEdge]
  · intro v hv
    simp [countEdge, Function.update_of_ne hv]
  · intro j
    by_cases hj : j = g.getSegmentId src
    · subst hj
      simp [countEdge]
    · simp [countEdge, hj]
  · refine .log ?_ rfl hcond.1 (by simp [countEdge]) rfl
      (fun s hs => by simp [countEdge, Function.update_of_ne hs]) (by simp [countEdge])
    rw [haveSpaceOnseg_iff hs] at h
    omega

namespace Inserted

/-- No vertex begins elsewhere. -/
lemma bound_eq (h : Inserted g g' src dst) (v : ℕ) : g'.bound v = g.bound v := by
  unfold bound
  rw [h.numVertices, h.elemCapacity, h.index]

/-- How the degree sums grow. -/
lemma degreeSum_eq (h : Inserted g g' src dst) (a b : ℕ) :
    g'.degreeSum a b = g.degreeSum a b + if a ≤ src ∧ src < b then 1 else 0 :=
  degreeSum_succ (fun w _ _ hw => by rw [h.other w hw]) h.degree

/-- A vertex other than the source keeps its elements. -/
lemma holds_other (h : Inserted g g' src dst) (hL : g.Layout adj) (hs : src < g.numVertices)
    (hv : v < g.numVertices) (hne : v ≠ src) : g'.Holds v (elements v (adj v)) := by
  have hh := hL.holds v hv
  refine hh.frame (h.other v hne) (h.bound_eq (v + 1)) ?_ (h.leafOf v) ?_ ?_
  · intro x hx1 hx2
    rcases h.placed with ⟨hlt, he, -⟩ | ⟨-, he, -⟩
    · rw [he, Function.update_of_ne]
      rw [← bound_of_lt hv] at hx1 hx2
      unfold insertLoc at hlt ⊢
      rw [← bound_of_lt hs] at hlt ⊢
      have hd := hL.degree_pos hs
      rcases Nat.lt_or_gt_of_ne hne with hlt' | hgt
      · have := hL.ordered hlt' hs.le
        omega
      · have := hL.bound_le (v := src + 1) (w := v) hgt hv.le
        omega
    · rw [he]
  · rcases h.placed with ⟨-, -, -, hi, -⟩ | ⟨-, -, -, -, hi, -⟩
    · rw [hi]
    · rw [hi]
      by_cases hl : g.leafOf v = g.leafOf src
      · rw [hl, Function.update_self]
        omega
      · rw [Function.update_of_ne hl]
  · intro k hk0 hk
    rcases h.placed with ⟨-, -, -, -, hl⟩ | ⟨-, -, -, -, -, hl, hlog⟩
    · rw [hl]
    · by_cases he : g.leafOf v = g.leafOf src
      · rw [he] at hk ⊢
        rw [hlog, Function.update_of_ne (by omega)]
      · rw [hl _ he]

/-- The source holds its old elements and the new edge. -/
lemma holds_src (h : Inserted g g' src dst) (hL : g.Layout adj) (hs : src < g.numVertices) :
    g'.Holds src (elements src (adj src ++ [dst])) := by
  have hh := hL.holds src hs
  have hpos := hh.onseg_pos
  have hle := hh.onseg_le
  have hb := h.bound_eq (src + 1)
  have hi := h.index src
  rw [elements_concat]
  set c := elements src (adj src) with hc
  have hd : (g'.vertices src).degree = ((c ++ [(dst : ℤ)]).length : ℕ) := by
    rw [h.degree, hh.degree, List.length_append]
    rfl
  rcases h.placed with ⟨hlt, he, ho, hidx, hl⟩ | ⟨hge, he, -, ho, hidx, -, hlog⟩
  · -- on-segment: the source had no log chain
    have hoff : (g.vertices src).offset = -1 := by
      by_contra hne
      have := hh.full hne
      unfold insertLoc at hlt
      omega
    have hon : g.onseg src = c.length := by rw [onseg_of_none hoff, hh.degree]
    refine Holds.of_placed hd (by rw [ho, hoff]) (by simp) ?_ ?_
    · rw [hi, hb]
      unfold insertLoc at hlt
      rw [hh.degree] at hlt
      rw [List.length_append]
      push_cast [List.length_singleton]
      omega
    · have hloc : g.insertLoc src = (g.vertices src).index + c.length := by
        rw [insertLoc, hh.degree]
      rw [hi, List.length_append, slice_add, List.length_singleton]
      congr 1
      · have hs' := hh.slots
        rw [hon, Int.toNat_natCast, List.take_length] at hs'
        rw [← hs', slice_length]
        apply slice_congr
        intro j hj
        rw [he, hloc, Function.update_of_ne (by omega)]
      · simp [slice, he, hloc]
  · -- into the log: everything up to the next vertex is on-segment
    have hroom := hh.room
    have hon : g.onseg src = g.bound (src + 1) - (g.vertices src).index := by
      by_cases hoff : (g.vertices src).offset = -1
      · rw [onseg_of_none hoff] at hroom ⊢
        unfold insertLoc at hge
        omega
      · exact onseg_of_some hoff
    have hidx0 := (hL.logIdx_leafOf hs).1
    have hoff' : (g'.vertices src).offset ≠ -1 := by rw [ho]; omega
    have hon' : g'.onseg src = g.onseg src := by rw [onseg_of_some hoff', hb, hi, hon]
    have hlen : (g.onseg src).toNat ≤ c.length := by omega
    refine ⟨hd, by rw [hon']; exact hpos, ?_, by rw [hon', hi, hb]; exact hroom, ?_, ?_⟩
    · rw [hon', List.length_append]
      push_cast
      omega
    · rw [hi, hon', he, List.take_append_of_le_length hlen]
      exact hh.slots
    · rw [hon', List.drop_append_of_le_length hlen, List.reverse_append, h.leafOf, ho, hlog, hidx,
        Function.update_self]
      exact hh.logged.push hidx0 dst

/-- Placing an edge keeps the layout. -/
lemma layout (h : Inserted g g' src dst) (hL : g.Layout adj) (hs : src < g.numVertices) :
    g'.Layout (Multigraph.insert adj (src, dst)) := by
  have hg := hL.geometry
  have hb := h.bound_eq
  refine ⟨h.geometry hg, by rw [hb, hL.first], ?_, ?_, ?_, ?_, ?_, ?_⟩
  · intro v hv
    rw [h.numVertices] at hv
    by_cases hvs : v = src
    · subst hvs
      rw [show Multigraph.insert adj (v, dst) v = adj v ++ [dst] from
        Multigraph.insert_self adj (v, dst)]
      exact h.holds_src hL hs
    · rw [Multigraph.insert_of_ne hvs]
      exact h.holds_other hL hs hv hvs
  · intro s hs'
    rw [h.segmentCount] at hs'
    have hi := hL.logIdx s hs'
    rcases h.placed with ⟨-, -, -, hidx, -⟩ | ⟨-, -, hlt, -, hidx, -⟩
    · rw [hidx]
      exact hi
    · rw [hidx]
      by_cases hsl : s = g.leafOf src
      · subst hsl
        rw [Function.update_self]
        omega
      · rw [Function.update_of_ne hsl]
        exact hi
  · intro s hs' k hk
    rw [h.segmentCount] at hs'
    rcases h.placed with ⟨-, -, -, hidx, hl⟩ | ⟨-, -, -, -, hidx, hl, hlog⟩
    · rw [hl]
      rw [hidx] at hk
      exact hL.logClear s hs' k hk
    · rw [hidx] at hk
      by_cases hsl : s = g.leafOf src
      · subst hsl
        rw [Function.update_self] at hk
        rw [hlog, Function.update_of_ne (by omega)]
        exact hL.logClear _ hs' k (by omega)
      · rw [Function.update_of_ne hsl] at hk
        rw [hl s hsl]
        exact hL.logClear s hs' k hk
  · intro s hs'
    rw [h.segmentCount] at hs'
    rw [h.actual, h.segmentCount, h.segmentSize, h.degreeSum_eq, hL.actual s hs',
      getSegmentId_eq]
    have := hg.leafOf_iff src s
    congr 1
    exact if_congr (by rw [← this]; omega) rfl rfl
  · intro s hs'
    rw [h.segmentCount] at hs'
    rw [h.total, h.segmentCount, h.segmentSize, hb, hb]
    exact hL.total s hs'
  · rw [h.numEdges, h.numVertices, h.degreeSum_eq, hL.numEdges,
      if_pos ⟨Nat.zero_le _, hs⟩]

end Inserted

end Graph

end Dgap
