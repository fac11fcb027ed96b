import Dgap.Layout.Place
import Dgap.Layout.Resize

/-!
# What one insert does

`Insertion` is the effect of `do_insertion` and `InsertStep` that of `insert`: the edge is placed,
possibly after a rebalance of its leaf; then nothing more happens, or a window around the leaf is
rebalanced, or the array is resized. Every later invariant of sequential runs is derived from these
two. The layout is kept by all of them, and `Fits` by a whole insert: an insert that fills its leaf ends
in a rebalance or a resize, which empties the logs.
-/

namespace Dgap

namespace Graph

variable {g g' : Graph} {adj : ℕ → List ℕ} {tid src dst : ℕ}

/-- What `do_insertion` does. -/
inductive Insertion (g g' : Graph) (src dst : ℕ) : Prop where
  | direct : Inserted g g' src dst → Insertion g g' src dst
  | drained {g1} : g.bound (src + 1) ≤ g.insertLoc src →
      maxLogEntries ≤ g.logSegmentIdx (g.leafOf src) →
      Rebalanced g g1 (g.leafOf src) (g.leafOf src + 1) → Inserted g1 g' src dst →
      Insertion g g' src dst

/-- The vertices of a leaf, as `do_insertion` delimits them. -/
lemma Geometry.leaf_window (hg : g.Geometry) (hs : src < g.numVertices) :
    src / g.segmentSize * g.segmentSize = g.leafOf src * g.segmentSize ∧
      min (src / g.segmentSize * g.segmentSize + g.segmentSize) g.numVertices =
        (g.leafOf src + 1) * g.segmentSize := by
  have hle := hg.mul_le (s := g.leafOf src + 1) (hg.leafOf_lt hs)
  rw [leafOf_eq] at *
  refine ⟨rfl, ?_⟩
  rw [Nat.succ_mul] at *
  exact Nat.min_eq_left hle

/-- The part of `do_insertion` behind the test for a full log. -/
lemma placeEdge_spec (hs : src < g.numVertices) {g1 : Graph}
    (h : g.placeEdge src dst (g.getSegmentId src) = some g1) :
    Inserted g (g1.countEdge src (g.getSegmentId src)) src dst := by
  unfold placeEdge at h
  split at h
  · obtain rfl := Option.some.inj h
    exact inserted_slot hs ‹_›
  · exact inserted_log hs ‹_› h

/-- What `do_insertion` does when none of its assertions fails. -/
lemma Layout.doInsertion_spec (hL : g.Layout adj) (hs : src < g.numVertices)
    (h : g.doInsertion tid src dst (g.getSegmentId src) = some g') : Insertion g g' src dst := by
  unfold doInsertion at h
  split at h
  case isTrue hsp =>
    obtain rfl := Option.some.inj h
    exact .direct (inserted_slot hs hsp)
  case isFalse hsp =>
    obtain ⟨g1, h1, h⟩ := Option.bind_eq_some_iff.1 h
    obtain ⟨g2, h2, h⟩ := Option.bind_eq_some_iff.1 h
    obtain rfl := Option.some.inj h
    unfold makeLogRoom at h1
    split at h1
    case isFalse =>
      obtain rfl := Option.some.inj h1
      exact .direct (placeEdge_spec hs h2)
    case isTrue hfull =>
      obtain ⟨hl, hr⟩ := hL.geometry.leaf_window hs
      simp only at h1
      rw [hl] at hr h1
      rw [hr] at h1
      have hreb := hL.rebalanceWeighted_spec (Nat.lt_succ_self _) (hL.geometry.leafOf_lt hs) h1
      have hseg : g.getSegmentId src = g1.getSegmentId src := by
        rw [getSegmentId_eq, getSegmentId_eq, hreb.leafOf, hreb.segmentCount]
      rw [hseg] at h2 ⊢
      rw [haveSpaceOnseg_iff hs] at hsp
      exact .drained (by omega) hfull hreb (placeEdge_spec (by rw [hreb.numVertices]; exact hs) h2)

namespace Insertion

/-- The shape stays. -/
lemma sameShape (h : Insertion g g' src dst) : SameShape g g' := by
  cases h with
  | direct h => exact h.toSameShape
  | drained _ _ h1 h2 => exact h1.toSameShape.trans h2.toSameShape

/-- `do_insertion` keeps the layout. -/
lemma layout (h : Insertion g g' src dst) (hL : g.Layout adj) (hs : src < g.numVertices) :
    g'.Layout (Multigraph.insert adj (src, dst)) := by
  cases h with
  | direct h => exact h.layout hL hs
  | drained _ _ h1 h2 =>
    have hlt := hL.geometry.leafOf_lt hs
    exact h2.layout (h1.layout hL (Nat.lt_succ_self _) hlt) (by rw [h1.numVertices]; exact hs)

/-- One element more. -/
lemma numEdges (h : Insertion g g' src dst) : g'.numEdges = g.numEdges + 1 := by
  cases h with
  | direct h => exact h.numEdges
  | drained _ _ h1 h2 => rw [h2.numEdges, h1.numEdges]

/-- The capacity stays. -/
lemma elemCapacity (h : Insertion g g' src dst) : g'.elemCapacity = g.elemCapacity := by
  cases h with
  | direct h => exact h.elemCapacity
  | drained _ _ h1 h2 => rw [h2.elemCapacity, h1.elemCapacity]

/-- The persistent root stays. -/
lemma bp (h : Insertion g g' src dst) : g'.bp = g.bp := by
  cases h with
  | direct h => exact h.bp
  | drained _ _ h1 h2 => rw [h2.bp, h1.bp]

/-- Only the leaf of the source counts one element more. -/
lemma actual (h : Insertion g g' src dst) (j : ℕ) : g'.segmentEdgesActual j =
    g.segmentEdgesActual j + if j = g.getSegmentId src then 1 else 0 := by
  cases h with
  | direct h => exact h.actual j
  | drained _ _ h1 h2 =>
    rw [h2.actual, h1.actual, getSegmentId_eq, getSegmentId_eq, h1.leafOf, h1.segmentCount]

end Insertion

/-- A leaf rebalance leaves the extent of its leaf alone. -/
lemma Rebalanced.total_leaf {s : ℕ} (h : Rebalanced g g' s (s + 1)) (hL : g.Layout adj)
    (hs : s < g.segmentCount) :
    g'.segmentEdgesTotal (s + g.segmentCount) = g.segmentEdgesTotal (s + g.segmentCount) := by
  rw [h.total s (le_refl _) (Nat.lt_succ_self _), hL.total s hs, h.bound_eq (.inl (le_refl _)),
    h.bound_eq (.inr (le_refl _))]

/-- `do_insertion` leaves the extent of every leaf alone. -/
lemma Insertion.total (h : Insertion g g' src dst) (hL : g.Layout adj) (hs : src < g.numVertices)
    {t : ℕ} : g'.segmentEdgesTotal (t + g.segmentCount) =
      g.segmentEdgesTotal (t + g.segmentCount) := by
  cases h with
  | direct h => rw [h.total]
  | drained _ _ h1 h2 =>
    rw [h2.total]
    by_cases ht : t = g.leafOf src
    · subst ht
      exact h1.total_leaf hL (hL.geometry.leafOf_lt hs)
    · exact h1.totalFrame t (by omega)

/-- `do_insertion` adds no log entry outside the leaf of its source. -/
lemma Insertion.logIdx (h : Insertion g g' src dst) {t : ℕ} (ht : t ≠ g.leafOf src) :
    g'.logSegmentIdx t = g.logSegmentIdx t := by
  have placed : ∀ {g0 g1 : Graph}, Inserted g0 g1 src dst → t ≠ g0.leafOf src →
      g1.logSegmentIdx t = g0.logSegmentIdx t := by
    intro g0 g1 h0 hne
    rcases h0.placed with ⟨-, -, -, hi, -⟩ | ⟨-, -, -, -, hi, -⟩
    · rw [hi]
    · rw [hi, Function.update_of_ne hne]
  cases h with
  | direct h => exact placed h ht
  | drained _ _ h1 h2 =>
    rw [placed h2 (by rw [h1.leafOf]; exact ht)]
    exact (h1.logFrame t (by omega)).1

/-- After `do_insertion` every leaf but that of the source still fits. -/
lemma Insertion.fits_other (h : Insertion g g' src dst) (hL : g.Layout adj)
    (hs : src < g.numVertices) (hF : g.Fits) {t : ℕ} (ht : t < g.segmentCount)
    (hne : t ≠ g.leafOf src) :
    g'.segmentEdgesActual (t + g.segmentCount) ≤ g'.segmentEdgesTotal (t + g.segmentCount) ∧
      (0 < g'.logSegmentIdx t →
        g'.segmentEdgesActual (t + g.segmentCount) <
          g'.segmentEdgesTotal (t + g.segmentCount)) := by
  rw [h.actual, h.total hL hs, h.logIdx hne, getSegmentId_eq, if_neg (by omega), add_zero]
  exact ⟨hF.le t ht, hF.lt t ht⟩

/-- The window of a vertex at some height as a range of leaves: `2 ^ height` leaves from a multiple of
`2 ^ height` on, cut off at the last leaf. -/
lemma Geometry.segments_eq (hg : g.Geometry) (src height : ℕ) :
    g.leftIndex src height = g.leafOf src / 2 ^ height * 2 ^ height * g.segmentSize ∧
    g.rightIndex src height = min (g.leafOf src / 2 ^ height * 2 ^ height + 2 ^ height)
      g.segmentCount * g.segmentSize ∧
    g.leftSegment src height = g.leafOf src / 2 ^ height * 2 ^ height ∧
    g.rightSegment src height =
      min (g.leafOf src / 2 ^ height * 2 ^ height + 2 ^ height) g.segmentCount := by
  have hdiv : src / (g.segmentSize * 2 ^ height) = g.leafOf src / 2 ^ height := by
    rw [leafOf_eq, Nat.div_div_eq_div_mul]
  -- both ends are multiples of the leaf size
  have hl : g.leftIndex src height = g.leafOf src / 2 ^ height * 2 ^ height * g.segmentSize := by
    rw [leftIndex, hdiv]
    ring
  have hr : g.rightIndex src height = min (g.leafOf src / 2 ^ height * 2 ^ height + 2 ^ height)
      g.segmentCount * g.segmentSize := by
    rw [rightIndex, hl, hg.vertices, ← Nat.mul_min_mul_right]
    congr 1 <;> ring
  exact ⟨hl, hr, by rw [leftSegment, hl, hg.leafOf_mul], by rw [rightSegment, hr, hg.leafOf_mul]⟩

/-- The window of a vertex at some height is a range of leaves around the leaf of the vertex. -/
lemma Geometry.window (hg : g.Geometry) (hs : src < g.numVertices) (height : ℕ) :
    g.leftIndex src height = g.leftSegment src height * g.segmentSize ∧
    g.rightIndex src height = g.rightSegment src height * g.segmentSize ∧
    g.leftSegment src height ≤ g.leafOf src ∧ g.leafOf src < g.rightSegment src height ∧
    g.rightSegment src height ≤ g.segmentCount := by
  obtain ⟨hl, hr, hlseg, hrseg⟩ := hg.segments_eq src height
  have hleaf := hg.leafOf_lt hs
  have hpow : 0 < 2 ^ height := by positivity
  refine ⟨by rw [hl, hlseg], by rw [hr, hrseg], ?_, ?_, ?_⟩
  · rw [hlseg]
    exact Nat.div_mul_le_self _ _
  · rw [hrseg]
    refine lt_min ?_ hleaf
    have := Nat.lt_div_mul_add (a := g.leafOf src) hpow
    omega
  · rw [hrseg]
    exact Nat.min_le_right _ _

/-- The thresholds are at most 1. -/
lemma upHeight_le (height : ℕ) : g.upHeight height ≤ 1 := by
  have : 0 ≤ (height : ℚ) * g.deltaUp := by
    unfold deltaUp up0 upH
    positivity
  unfold upHeight
  rw [up0]
  linarith

/-- The slots of a window of leaves. -/
lemma Layout.segMeta_pos (hL : g.Layout adj) (hs : src < g.numVertices) (height : ℕ) :
    0 < (g.segMeta src height).2 := by
  have hg := hL.geometry
  obtain ⟨-, -, h1, h2, h3⟩ := hg.window hs height
  have hle := hg.mul_le h3
  have hlt : g.leftSegment src height * g.segmentSize < g.rightSegment src height * g.segmentSize :=
    Nat.mul_lt_mul_of_pos_right (by omega) hg.size
  rw [segMeta, hL.lockInBatch_eq (by omega)]
  simp only
  rw [show g.leftSegment src height + (g.rightSegment src height - g.leftSegment src height) =
    g.rightSegment src height by omega]
  have := hL.ordered hlt hle
  have := (hL.holds (g.leftSegment src height * g.segmentSize) (by omega)).onseg_pos
  omega

/-- A window below its threshold has a gap. -/
lemma Layout.gap_of_belowThreshold (hL : g.Layout adj) (hs : src < g.numVertices) {height : ℕ}
    (h : g.belowThreshold src height = true) :
    (g.segMeta src height).1 < (g.segMeta src height).2 := by
  have hpos : (0 : ℚ) < (g.segMeta src height).2 := by exact_mod_cast hL.segMeta_pos hs height
  unfold belowThreshold at h
  have h1 := of_decide_eq_true h
  rw [div_lt_iff₀ hpos] at h1
  have h2 := g.upHeight_le height
  have : ((g.segMeta src height).1 : ℚ) < (g.segMeta src height).2 := by nlinarith
  exact_mod_cast this

/-- The leaf of the source has density at least `up_0` exactly when it is full. -/
lemma Layout.density_ge (hL : g.Layout adj) (hs : src < g.numVertices) :
    g.density (g.getSegmentId src) ≥ up0 ↔
      g.segmentEdgesTotal (g.getSegmentId src) ≤ g.segmentEdgesActual (g.getSegmentId src) := by
  have hpos := hL.total_pos (hL.geometry.leafOf_lt hs)
  rw [← getSegmentId_eq] at hpos
  have hpos' : (0 : ℚ) < g.segmentEdgesTotal (g.getSegmentId src) := by exact_mod_cast hpos
  rw [density, up0, ge_iff_le, one_le_div₀ hpos']
  exact_mod_cast Iff.rfl

/-- The walk from a leaf: all windows it has passed are too dense, the last one is not unless the walk
has left the tree. -/
lemma findWindow_spec (g : Graph) (src fuel window height : ℕ) (hf : window ≤ fuel)
    (hw : 0 < window) :
    let r := g.findWindow src fuel window height
    height < r.2 ∧ r.1 = window / 2 ^ (r.2 - height) ∧
    (r.1 ≠ 0 → g.belowThreshold src r.2 = true) ∧
    ∀ h, height < h → h < r.2 → g.belowThreshold src h = false := by
  induction fuel generalizing window height with
  | zero => omega
  | succ fuel ih =>
    simp only [findWindow, if_pos hw]
    split
    case isTrue hb =>
      refine ⟨Nat.lt_succ_self _, ?_, fun _ => hb, fun h h1 h2 => by omega⟩
      rw [Nat.add_sub_cancel_left, pow_one]
    case isFalse hb =>
      rcases Nat.eq_zero_or_pos (window / 2) with h0 | hpos
      · -- the walk has left the tree
        have hfin : g.findWindow src fuel (window / 2) (height + 1) = (0, height + 1) := by
          rw [h0]
          cases fuel <;> rfl
        rw [hfin]
        refine ⟨Nat.lt_succ_self _, ?_, fun h => absurd rfl h, fun h h1 h2 => ?_⟩
        · rw [Nat.add_sub_cancel_left, pow_one, h0]
        · simp only at h2
          omega
      · obtain ⟨h1, h2, h3, h4⟩ := ih (window / 2) (height + 1) (by omega) hpos
        refine ⟨by omega, ?_, h3, fun h hlt hle => ?_⟩
        · rw [h2, Nat.div_div_eq_div_mul, ← pow_succ']
          congr 2
          omega
        · rcases eq_or_lt_of_le (Nat.succ_le_of_lt hlt) with rfl | hlt'
          · simpa using hb
          · exact h4 h hlt' hle

/-- A walk that has left the tree has passed the root, which was too dense. -/
lemma Geometry.passed_root (hg : g.Geometry)
    (h : (g.findWindow src (g.getSegmentId src) (g.getSegmentId src) 0).1 = 0) :
    g.belowThreshold src g.treeHeight = false := by
  have hcount := hg.getSegmentId_pos src
  obtain ⟨h1, h2, -, h4⟩ :=
    findWindow_spec g src (g.getSegmentId src) (g.getSegmentId src) 0 (le_refl _) hcount
  refine h4 _ hg.height ?_
  by_contra hle
  rw [Nat.sub_zero, h] at h2
  have hpow : 2 ^ (g.findWindow src (g.getSegmentId src) (g.getSegmentId src) 0).2 ≤
      g.getSegmentId src := by
    calc 2 ^ (g.findWindow src (g.getSegmentId src) (g.getSegmentId src) 0).2
        ≤ 2 ^ g.treeHeight := Nat.pow_le_pow_right (by omega) (by omega)
      _ = g.segmentCount := hg.count.symm
      _ ≤ g.getSegmentId src := by rw [getSegmentId_eq]; omega
  have := Nat.div_pos hpow (by positivity)
  omega

/-- What `insert` does: `full` says that the insertion filled the leaf of its source. -/
inductive InsertStep (g g' : Graph) (src dst : ℕ) : Prop where
  | plain : Insertion g g' src dst →
      g'.segmentEdgesActual (g.getSegmentId src) < g'.segmentEdgesTotal (g.getSegmentId src) →
      InsertStep g g' src dst
  | window {g1 l r} : Insertion g g1 src dst →
      g1.segmentEdgesTotal (g.getSegmentId src) ≤ g1.segmentEdgesActual (g.getSegmentId src) →
      l ≤ g.leafOf src → g.leafOf src < r → r ≤ g.segmentCount → Rebalanced g1 g' l r →
      InsertStep g g' src dst
  | resize {g1} : Insertion g g1 src dst →
      g1.segmentEdgesTotal (g.getSegmentId src) ≤ g1.segmentEdgesActual (g.getSegmentId src) →
      g1.belowThreshold src g1.treeHeight = false → Resized g1 g' → InsertStep g g' src dst

/-- What `insert` does when it does not abort. -/
lemma Layout.insert_spec (hL : g.Layout adj) (hs : src < g.numVertices)
    (h : g.insert tid src dst = some g') : InsertStep g g' src dst := by
  unfold insert at h
  simp only at h
  split at h
  case h_1 => cases h
  case h_2 g1 h1 =>
    have hins := hL.doInsertion_spec hs h1
    have hsh := hins.sameShape
    have hL1 := hins.layout hL hs
    have hs1 : src < g1.numVertices := by rw [hsh.numVertices]; exact hs
    have hseg : g1.getSegmentId src = g.getSegmentId src := by
      rw [getSegmentId_eq, getSegmentId_eq, hsh.leafOf, hsh.segmentCount]
    have hdens := hL1.density_ge hs1
    rw [hseg] at hdens
    split at h
    case isFalse hd =>
      obtain rfl := Option.some.inj h
      rw [hdens] at hd
      exact .plain hins (by omega)
    case isTrue hd =>
      have hcount := hL.geometry.getSegmentId_pos src
      obtain ⟨hw1, -, -, -⟩ :=
        findWindow_spec g1 src (g.getSegmentId src) (g.getSegmentId src) 0 (le_refl _) hcount
      have hpassed : (g1.findWindow src (g1.getSegmentId src) (g1.getSegmentId src) 0).1 = 0 →
          g1.belowThreshold src g1.treeHeight = false := hL1.geometry.passed_root
      rw [hseg] at hpassed
      generalize g1.findWindow src (g.getSegmentId src) (g.getSegmentId src) 0 = w at *
      obtain ⟨window, height⟩ := w
      simp only at h hw1 hpassed
      rw [if_neg (by omega)] at h
      split at h
      case isTrue hne =>
        obtain ⟨hl, hr, hll, hlr, hrc⟩ := hL1.geometry.window hs1 height
        rw [hl, hr] at h
        have hreb := hL1.rebalanceWeighted_spec (by omega) hrc h
        rw [hsh.leafOf] at hll hlr
        exact .window hins (hdens.1 hd) hll hlr (by rw [← hsh.segmentCount]; exact hrc) hreb
      case isFalse hne =>
        rw [if_neg (not_lt.2 hd)] at h
        exact .resize hins (hdens.1 hd) (hpassed (not_not.1 hne)) (hL1.resizeV1_spec h)

namespace InsertStep

/-- The shape stays. -/
lemma sameShape (h : InsertStep g g' src dst) : SameShape g g' := by
  cases h with
  | plain h _ => exact h.sameShape
  | window h _ _ _ _ hr => exact h.sameShape.trans hr.toSameShape
  | resize h _ _ hr => exact h.sameShape.trans hr.toSameShape

/-- An insert keeps the layout. -/
lemma layout (h : InsertStep g g' src dst) (hL : g.Layout adj) (hs : src < g.numVertices) :
    g'.Layout (Multigraph.insert adj (src, dst)) := by
  cases h with
  | plain h _ => exact h.layout hL hs
  | window h _ h1 h2 h3 hr =>
    exact hr.layout (h.layout hL hs) (by omega) (by rw [h.sameShape.segmentCount]; exact h3)
  | resize h _ _ hr => exact hr.layout (h.layout hL hs)

/-- One element more. -/
lemma numEdges (h : InsertStep g g' src dst) : g'.numEdges = g.numEdges + 1 := by
  cases h with
  | plain h _ => exact h.numEdges
  | window h _ _ _ _ hr => rw [hr.numEdges, h.numEdges]
  | resize h _ _ hr => rw [hr.numEdges, h.numEdges]

/-- The persistent root follows the capacity. -/
lemma bp (h : InsertStep g g' src dst) (hcap : g.bp.elemCapacity = g.elemCapacity) :
    g'.bp = { g.bp with elemCapacity := g'.elemCapacity } := by
  cases h with
  | plain h _ => rw [h.bp, h.elemCapacity, ← hcap]
  | window h _ _ _ _ hr => rw [hr.bp, h.bp, hr.elemCapacity, h.elemCapacity, ← hcap]
  | resize h _ _ hr => rw [hr.bp, h.bp]

/-- An insert leaves no leaf overfull, and none with a log entry full. -/
lemma fits (h : InsertStep g g' src dst) (hL : g.Layout adj) (hs : src < g.numVertices)
    (hF : g.Fits) : g'.Fits := by
  have hL' := h.layout hL hs
  have hsh := h.sameShape
  have hg := hL.geometry
  -- it is enough to look at one leaf
  suffices hall : ∀ t < g.segmentCount,
      g'.segmentEdgesActual (t + g.segmentCount) ≤ g'.segmentEdgesTotal (t + g.segmentCount) ∧
      (0 < g'.logSegmentIdx t → g'.segmentEdgesActual (t + g.segmentCount) <
        g'.segmentEdgesTotal (t + g.segmentCount)) by
    constructor
    all_goals
      intro t ht
      rw [hsh.segmentCount] at ht ⊢
    · exact (hall t ht).1
    · exact (hall t ht).2
  intro t ht
  cases h with
  | plain h hlt =>
    by_cases hne : t = g.leafOf src
    · subst hne
      rw [getSegmentId_eq] at hlt
      exact ⟨hlt.le, fun _ => hlt⟩
    · exact h.fits_other hL hs hF ht hne
  | @window g1 l r h _ h1 h2 h3 hr =>
    have hc := h.sameShape.segmentCount
    by_cases hin : l ≤ t ∧ t < r
    · refine ⟨?_, fun hpos => by have := hr.logIdx t hin.1 hin.2; omega⟩
      have hle := hL'.actual_le (s := t) (by rw [hsh.segmentCount]; exact ht) fun v hv => by
        have hmem := ((hL'.geometry.leafOf_mem v l r).1 (by omega))
        rw [hr.segmentSize] at hmem
        exact hr.offset v hmem.1 hmem.2
      rwa [hsh.segmentCount] at hle
    · rw [hr.actual, ← hc, hr.totalFrame t (by omega), (hr.logFrame t (by omega)).1, hc]
      exact h.fits_other hL hs hF ht (by omega)
  | @resize g1 h _ _ hr =>
    have hc := h.sameShape.segmentCount
    refine ⟨?_, fun hpos => by have := hr.logIdx t (by omega); omega⟩
    have hle := hL'.actual_le (s := t) (by rw [hsh.segmentCount]; exact ht) fun v hv => by
      refine hr.offset v ?_
      rw [← hr.numVertices, hL'.geometry.vertices, Nat.mul_comm]
      have := ((hL'.geometry.leafOf_iff v t).1 hv).2
      exact lt_of_lt_of_le this (Nat.mul_le_mul_right _ (by rw [hsh.segmentCount]; exact ht))
    rwa [hsh.segmentCount] at hle

end InsertStep

end Graph

end Dgap
