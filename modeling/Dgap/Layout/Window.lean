import Dgap.Layout.Invariant

/-!
# Rebalancing a window keeps the layout

`Rebalanced g g' l r` is everything that `rebalance_weighted` can do to the leaves `[l, r)`
(`rebalanceWeighted_spec`): the vertices of these leaves get new places in the same slots, without log
chains; their logs are empty; their totals are recounted; nothing else changes. The layout survives it
(`Rebalanced.layout`), and every leaf of the window has room for its elements afterwards
(`Rebalanced.actual_le`).
-/

namespace Dgap

open Memory

namespace Graph

/-- The log array of a leaf after `release_log`. -/
def released (log : Image LogEntry) (idx : ℤ) : Image LogEntry :=
  if idx = 0 then log else log.fill 0 idx .zero

/-- `release_log` as one update. -/
lemma releaseLog_eq (g : Graph) (s : ℕ) :
    g.releaseLog s = { g with
      logPtr := Function.update g.logPtr s (released (g.logPtr s) (g.logSegmentIdx s))
      logSegmentIdx := Function.update g.logSegmentIdx s 0 } := by
  unfold releaseLog released
  by_cases h : g.logSegmentIdx s = 0
  · rw [if_pos h, if_pos h, Function.update_eq_self]
    conv_rhs => rw [← h, Function.update_eq_self]
  · rw [if_neg h, if_neg h]

/-- The release loop as one update. -/
lemma releaseLogs_eq (k s : ℕ) (g : Graph) :
    releaseLogs k s g = { g with
      logPtr := fun t => if s ≤ t ∧ t < s + k then released (g.logPtr t) (g.logSegmentIdx t)
        else g.logPtr t
      logSegmentIdx := fun t => if s ≤ t ∧ t < s + k then 0 else g.logSegmentIdx t } := by
  induction k generalizing s g with
  | zero =>
    have hf : ∀ t, ¬(s ≤ t ∧ t < s + 0) := fun t => by omega
    simp only [releaseLogs, hf, if_false]
  | succ k ih =>
    rw [releaseLogs, ih, releaseLog_eq]
    dsimp only
    congr 1 <;> funext t
    all_goals
      by_cases hts : t = s
      · subst hts
        rw [if_neg (by omega), if_pos (by omega), Function.update_self]
      · simp only [Function.update_of_ne hts]
        by_cases ht : s ≤ t ∧ t < s + (k + 1)
        · rw [if_pos ht, if_pos (by omega)]
        · rw [if_neg ht, if_neg (by omega)]

/-- `rebalance_data_V1` as one update. -/
lemma rebalanceDataV1_eq (g : Graph) (tid startVertex endVertex : ℕ) (newIndex : List ℤ) :
    g.rebalanceDataV1 tid startVertex endVertex newIndex =
      let s := g.moved tid startVertex endVertex newIndex
      let l := g.leafOf startVertex
      let r := g.leafOf endVertex
      { g with
        vertices := s.vertices
        edges := s.edges
        ulogPtr := Function.update g.ulogPtr tid s.ulog
        oplogPtr := Function.update g.oplogPtr tid s.oplog
        logPtr := fun t => if l ≤ t ∧ t < l + (r - l)
          then released (g.logPtr t) (g.logSegmentIdx t) else g.logPtr t
        logSegmentIdx := fun t => if l ≤ t ∧ t < l + (r - l) then 0 else g.logSegmentIdx t } := by
  rw [rebalanceDataV1, releaseLogs_eq]
  rfl

/-- A log whose slots above its index are zero is all zero once released. -/
lemma released_cur {g : Graph} {s : ℕ}
    (hc : ∀ k, g.logSegmentIdx s ≤ k → (g.logPtr s).cur k = .zero) {k : ℤ} (hk : 0 ≤ k) :
    (released (g.logPtr s) (g.logSegmentIdx s)).cur k = .zero := by
  unfold released
  split
  · rename_i h
    exact hc k (by omega)
  · rw [Image.fill_cur]
    split
    · rfl
    · exact hc k (by omega)

/-- What `rebalance_weighted` does to the leaves `[l, r)`. -/
structure Rebalanced (g g' : Graph) (l r : ℕ) : Prop extends SameShape g g' where
  numEdges : g'.numEdges = g.numEdges
  elemCapacity : g'.elemCapacity = g.elemCapacity
  actual : g'.segmentEdgesActual = g.segmentEdgesActual
  bp : g'.bp = g.bp
  outside : ∀ v, v < l * g.segmentSize ∨ r * g.segmentSize ≤ v → g'.vertices v = g.vertices v
  degree : ∀ v, (g'.vertices v).degree = (g.vertices v).degree
  offset : ∀ v, l * g.segmentSize ≤ v → v < r * g.segmentSize → (g'.vertices v).offset = -1
  first : (g'.vertices (l * g.segmentSize)).index = (g.vertices (l * g.segmentSize)).index
  room : ∀ v, l * g.segmentSize ≤ v → v < r * g.segmentSize →
    (g'.vertices v).index + (g.vertices v).degree ≤ g'.bound (v + 1)
  slots : ∀ v, l * g.segmentSize ≤ v → v < r * g.segmentSize → ∀ c, g.Holds v c →
    slice g'.edges.cur (g'.vertices v).index c.length = c
  frame : ∀ x, x < g.bound (l * g.segmentSize) ∨ g.bound (r * g.segmentSize) ≤ x →
    g'.edges.cur x = g.edges.cur x
  logIdx : ∀ s, l ≤ s → s < r → g'.logSegmentIdx s = 0
  logClear : ∀ s, l ≤ s → s < r → ∀ k, 0 ≤ k → (g'.logPtr s).cur k = .zero
  logFrame : ∀ s, s < l ∨ r ≤ s → g'.logSegmentIdx s = g.logSegmentIdx s ∧
    g'.logPtr s = g.logPtr s
  total : ∀ s, l ≤ s → s < r → g'.segmentEdgesTotal (s + g.segmentCount) =
    g'.bound ((s + 1) * g.segmentSize) - g'.bound (s * g.segmentSize)
  totalFrame : ∀ s, s < l ∨ r ≤ s → g'.segmentEdgesTotal (s + g.segmentCount) =
    g.segmentEdgesTotal (s + g.segmentCount)

section Spec

variable {g g' : Graph} {adj : ℕ → List ℕ} {tid l r : ℕ} {newIndex : List ℤ}
  {usedSpace totalSpace : ℤ}

/-- The extent of a leaf as `recount_segment_total` computes it. -/
lemma Geometry.segmentTotal_eq (hg : g.Geometry) {s : ℕ} (hs : s < g.segmentCount) :
    g.segmentTotal s = g.bound ((s + 1) * g.segmentSize) - g.bound (s * g.segmentSize) := by
  have hsize := hg.size
  have hlast : (s + 1) * g.segmentSize = g.numVertices ↔ s = g.segmentCount - 1 := by
    rw [hg.vertices, Nat.mul_comm g.segmentSize, Nat.mul_left_inj (by omega)]
    omega
  have hle := hg.mul_le (s := s + 1) (by omega)
  have hlt : s * g.segmentSize < (s + 1) * g.segmentSize := by
    rw [Nat.succ_mul]
    omega
  rw [segmentTotal, bound_of_lt (v := s * g.segmentSize) (by omega)]
  by_cases h : s = g.segmentCount - 1
  · rw [if_pos h, bound_of_ge (by have := hlast.2 h; omega)]
  · rw [if_neg h, bound_of_lt (by
      rcases eq_or_lt_of_le hle with he | hlt'
      · exact absurd (hlast.1 he) h
      · exact hlt')]

/-- `rebalance_data_V1` followed by the recount, for positions the window can take. -/
lemma Layout.rebalanceData (h : g.Layout adj) (hlr : l < r) (hr : r ≤ g.segmentCount)
    (ht : g.Targets (l * g.segmentSize) (r * g.segmentSize) (newAt newIndex (l * g.segmentSize)))
    (hfirst : newAt newIndex (l * g.segmentSize) (l * g.segmentSize) =
      g.bound (l * g.segmentSize)) :
    Rebalanced g ((g.rebalanceDataV1 tid (l * g.segmentSize) (r * g.segmentSize)
      newIndex).recountSegmentTotal (l * g.segmentSize) (r * g.segmentSize)) l r := by
  have hg := h.geometry
  have hn := hg.mul_le hr
  have hlt := ht.lt
  set a := l * g.segmentSize with ha
  set b := r * g.segmentSize with hb
  set new := newAt newIndex a with hnew
  have hc := h.window (a := a) hn
  -- the result of the loops
  have hp := Progress.moved tid ht hc
  rw [← hnew] at hp
  have hleafa : g.leafOf a = l := hg.leafOf_mul l
  have hleafb : g.leafOf b = r := hg.leafOf_mul r
  set s := g.moved tid a b newIndex with hs
  rw [rebalanceDataV1_eq, ← hs, hleafa, hleafb]
  set g' := ({ g with
      vertices := s.vertices
      edges := s.edges
      ulogPtr := Function.update g.ulogPtr tid s.ulog
      oplogPtr := Function.update g.oplogPtr tid s.oplog
      logPtr := fun t => if l ≤ t ∧ t < l + (r - l) then released (g.logPtr t) (g.logSegmentIdx t)
        else g.logPtr t
      logSegmentIdx := fun t => if l ≤ t ∧ t < l + (r - l) then 0 else g.logSegmentIdx t } :
      Graph).recountSegmentTotal a b with hg'
  have hshape : SameShape g g' := ⟨rfl, rfl, rfl, rfl, rfl, rfl⟩
  have hv : g'.vertices = s.vertices := rfl
  have hin : ∀ v, a ≤ v → v < b → s.vertices v = ⟨new v, (g.vertices v).degree, -1⟩ :=
    fun v h1 h2 => (hp.low v h1 h2).1
  have hdeg : ∀ v, (s.vertices v).degree = (g.vertices v).degree := by
    intro v
    by_cases hv1 : a ≤ v ∧ v < b
    · rw [hin v hv1.1 hv1.2]
    · rw [hp.vertices v (by omega)]
  have hboundb : g'.bound b = g.bound b := by
    show (if g.numVertices ≤ b then g.elemCapacity else (s.vertices b).index) = _
    rw [hp.vertices b (by omega)]
    rfl
  have hrange : ∀ j, l ≤ j ∧ j < l + (r - l) ↔ l ≤ j ∧ j < r := fun j => by omega
  refine ⟨hshape, rfl, rfl, rfl, rfl, ?_, ?_, ?_, ?_, ?_, ?_, ?_, ?_, ?_, ?_, ?_, ?_⟩
  · exact fun v hv' => hp.vertices v hv'
  · exact hdeg
  · exact fun v h1 h2 => by rw [hv, hin v h1 h2]
  · rw [hv, hin a (le_refl _) hlt, ← bound_of_lt (g := g) (by omega)]
    exact hfirst
  · intro v h1 h2
    rw [hv, hin v h1 h2]
    rcases eq_or_lt_of_le (Nat.succ_le_of_lt h2) with he | hlt'
    · have := ht.le_bound hc.degree_nonneg h1 h2
      rw [show v + 1 = b from he, hboundb]
      exact this
    · rw [bound_of_lt (by rw [hshape.numVertices]; omega), hv, hin (v + 1) (by omega) hlt']
      exact ht.step v h1 hlt'
  · intro v h1 h2 c hc'
    have hd := (hp.low v h1 h2).2
    have hcv := h.holds v (by omega)
    rw [hv, hin v h1 h2, hc'.unique hcv]
    exact hd
  · exact hp.slots
  · intro t h1 h2
    exact if_pos ((hrange t).2 ⟨h1, h2⟩)
  · intro t h1 h2 k hk
    show (if l ≤ t ∧ t < l + (r - l) then released (g.logPtr t) (g.logSegmentIdx t)
      else g.logPtr t).cur k = .zero
    rw [if_pos ((hrange t).2 ⟨h1, h2⟩)]
    exact released_cur (h.logClear t (by omega)) hk
  · intro t ht'
    have hno : ¬(l ≤ t ∧ t < l + (r - l)) := by omega
    exact ⟨if_neg hno, if_neg hno⟩
  · intro t h1 h2
    have htot : g'.segmentEdgesTotal (t + g.segmentCount) = g'.segmentTotal t := by
      show (if g.leafOf a + g.segmentCount ≤ t + g.segmentCount ∧
        t + g.segmentCount < g.leafOf b + g.segmentCount then _ else _) = _
      rw [if_pos (by rw [hleafa, hleafb]; omega), Nat.add_sub_cancel]
      rfl
    rw [htot]
    exact (hshape.geometry hg).segmentTotal_eq (by rw [hshape.segmentCount]; omega)
  · intro t ht'
    show (if g.leafOf a + g.segmentCount ≤ t + g.segmentCount ∧
      t + g.segmentCount < g.leafOf b + g.segmentCount then _ else _) = _
    rw [if_neg (by rw [hleafa, hleafb]; omega)]

/-- What `rebalance_weighted` does when none of its assertions fails. -/
lemma Layout.rebalanceWeighted_spec (h : g.Layout adj) (hlr : l < r) (hr : r ≤ g.segmentCount)
    (hw : g.rebalanceWeighted tid (l * g.segmentSize) (r * g.segmentSize) usedSpace totalSpace =
      some g') : Rebalanced g g' l r := by
  have hg := h.geometry
  have hn := hg.mul_le hr
  have hsize := hg.size
  have hlt : l * g.segmentSize < r * g.segmentSize := Nat.mul_lt_mul_of_pos_right hlr hsize
  simp only [rebalanceWeighted] at hw
  split at hw
  case isFalse => cases hw
  split at hw
  case isFalse => cases hw
  split at hw
  case h_1 => cases hw
  case h_2 newIndex hpos =>
    split at hw
    case isFalse => cases hw
    obtain rfl := Option.some.inj hw
    obtain ⟨ht, hfirst⟩ := calculatePositions_targets hlt hn
      (h.degree_nonneg hn) hpos
    exact h.rebalanceData hlr hr ht hfirst

/-- No assertion of `rebalance_weighted` fails when its arguments are the sums over its leaves, there is
a gap, and the numbers stay below the precision of the step. -/
lemma Layout.rebalanceWeighted_isSome (h : g.Layout adj) (hlr : l < r) (hr : r ≤ g.segmentCount)
    (tid : ℕ) (hused : usedSpace = g.degreeSum (l * g.segmentSize) (r * g.segmentSize))
    (htotal : totalSpace = g.bound (r * g.segmentSize) - g.bound (l * g.segmentSize))
    (hgap : usedSpace < totalSpace) (hbound : g.numEdges + g.numVertices ≤ 100000000) :
    ∃ g', g.rebalanceWeighted tid (l * g.segmentSize) (r * g.segmentSize) usedSpace totalSpace =
      some g' := by
  have hg := h.geometry
  have hn := hg.mul_le hr
  have hsize := hg.size
  have hlt : l * g.segmentSize < r * g.segmentSize := Nat.mul_lt_mul_of_pos_right hlr hsize
  have hnonneg : ∀ v, l * g.segmentSize ≤ v → v < r * g.segmentSize →
      0 ≤ (g.vertices v).degree := fun v _ hv => by
    have := h.degree_pos (v := v) (by omega)
    omega
  have hsum0 : 0 ≤ usedSpace := by
    have := h.degreeSum_ge (a := l * g.segmentSize) hn
    omega
  have hfrom : (g.vertices (l * g.segmentSize)).index = g.bound (l * g.segmentSize) :=
    (bound_of_lt (by omega)).symm
  have hall : g.degreeSum (l * g.segmentSize) (r * g.segmentSize) ≤ g.numEdges := by
    have h1 := degreeSum_add (g := g) (Nat.zero_le (l * g.segmentSize)) hlt.le
    have h2 := degreeSum_add (g := g) (Nat.zero_le (r * g.segmentSize)) hn
    have h3 := h.degreeSum_ge (a := 0) (b := l * g.segmentSize) (by omega)
    have h4 := h.degreeSum_ge (a := r * g.segmentSize) (le_refl g.numVertices)
    have h5 := h.numEdges
    omega
  obtain ⟨newIndex, hpos⟩ := calculatePositions_isSome _ _ (totalSpace - usedSpace) usedSpace
    hlt hn hnonneg (h.bound_nonneg (by omega)) (by omega) hused
    (by omega) (by omega)
  obtain ⟨ht, -⟩ := calculatePositions_targets hlt hn hnonneg hpos
  refine ⟨(g.rebalanceDataV1 tid (l * g.segmentSize) (r * g.segmentSize)
    newIndex).recountSegmentTotal (l * g.segmentSize) (r * g.segmentSize), ?_⟩
  simp only [rebalanceWeighted]
  rw [if_pos (by omega), if_pos (by omega), hpos]
  simp only
  rw [if_pos]
  have hlast := ht.last
  rw [newAt, show r * g.segmentSize - 1 - l * g.segmentSize =
    r * g.segmentSize - l * g.segmentSize - 1 by omega] at hlast
  exact hlast

end Spec

namespace Rebalanced

variable {g g' : Graph} {adj : ℕ → List ℕ} {l r : ℕ}

/-- Where the vertices outside the window, and the window itself, begin. -/
lemma bound_eq (h : Rebalanced g g' l r) {v : ℕ}
    (hv : v ≤ l * g.segmentSize ∨ r * g.segmentSize ≤ v) : g'.bound v = g.bound v := by
  unfold bound
  rw [h.numVertices, h.elemCapacity]
  split
  · rfl
  · rcases lt_trichotomy v (l * g.segmentSize) with hlt | rfl | hgt
    · rw [h.outside v (.inl hlt)]
    · exact h.first
    · rw [h.outside v (by omega)]

/-- A window rebalance keeps the layout. -/
lemma layout (h : Rebalanced g g' l r) (hL : g.Layout adj) (hlr : l < r)
    (hr : r ≤ g.segmentCount) : g'.Layout adj := by
  have hg := hL.geometry
  have hn := hg.mul_le hr
  have hsize := hg.size
  have hlt : l * g.segmentSize < r * g.segmentSize := Nat.mul_lt_mul_of_pos_right hlr hsize
  have hdsum : ∀ a b, g'.degreeSum a b = g.degreeSum a b := fun a b =>
    degreeSum_congr fun v _ _ => h.degree v
  refine ⟨h.geometry hg, ?_, ?_, ?_, ?_, ?_, ?_, ?_⟩
  · rw [h.bound_eq (.inl (Nat.zero_le _)), hL.first]
  · intro v hv
    rw [h.numVertices] at hv
    have hh := hL.holds v hv
    by_cases hwin : l * g.segmentSize ≤ v ∧ v < r * g.segmentSize
    · -- inside the window everything is on-segment
      refine Holds.of_placed ?_ (h.offset v hwin.1 hwin.2) (by simp [elements]) ?_
        (h.slots v hwin.1 hwin.2 _ hh)
      · rw [h.degree, hh.degree]
      · have := h.room v hwin.1 hwin.2
        rw [hh.degree] at this
        exact this
    · -- outside nothing the vertex depends on has changed
      have hleaf := (not_congr (hg.leafOf_mem v l r)).2 hwin
      have hlf := h.logFrame (g.leafOf v) (by omega)
      refine hh.frame (h.outside v (by omega)) (h.bound_eq (by omega)) ?_ (h.leafOf v)
        hlf.1.ge (fun k _ _ => by rw [hlf.2])
      intro x hx1 hx2
      apply h.frame
      rw [← bound_of_lt hv] at hx1 hx2
      by_cases hvl : v < l * g.segmentSize
      · have := hL.ordered hvl (by omega)
        omega
      · have := hL.bound_le (v := r * g.segmentSize) (w := v) (by omega) hv.le
        omega
  · intro s hs
    rw [h.segmentCount] at hs
    by_cases hin : l ≤ s ∧ s < r
    · rw [h.logIdx s hin.1 hin.2]
      exact ⟨le_refl _, by simp [maxLogEntries]⟩
    · rw [(h.logFrame s (by omega)).1]
      exact hL.logIdx s hs
  · intro s hs k hk
    rw [h.segmentCount] at hs
    by_cases hin : l ≤ s ∧ s < r
    · rw [h.logIdx s hin.1 hin.2] at hk
      exact h.logClear s hin.1 hin.2 k hk
    · have hlf := h.logFrame s (by omega)
      rw [hlf.1] at hk
      rw [hlf.2]
      exact hL.logClear s hs k hk
  · intro s hs
    rw [h.segmentCount] at hs
    rw [h.actual, h.segmentCount, h.segmentSize, hdsum]
    exact hL.actual s hs
  · intro s hs
    rw [h.segmentCount] at hs
    rw [h.segmentCount, h.segmentSize]
    by_cases hin : l ≤ s ∧ s < r
    · exact h.total s hin.1 hin.2
    · rw [h.totalFrame s (by omega), hL.total s hs]
      have h1 : s < l → (s + 1) * g.segmentSize ≤ l * g.segmentSize := fun h' =>
        Nat.mul_le_mul_right _ (by omega)
      have h2 : s < l → s * g.segmentSize ≤ l * g.segmentSize := fun h' =>
        Nat.mul_le_mul_right _ (by omega)
      have h3 : r ≤ s → r * g.segmentSize ≤ s * g.segmentSize := fun h' =>
        Nat.mul_le_mul_right _ h'
      have h4 : r ≤ s → r * g.segmentSize ≤ (s + 1) * g.segmentSize := fun h' =>
        Nat.mul_le_mul_right _ (by omega)
      rcases (by omega : s < l ∨ r ≤ s) with hs' | hs'
      · rw [h.bound_eq (.inl (h1 hs')), h.bound_eq (.inl (h2 hs'))]
      · rw [h.bound_eq (.inr (h4 hs')), h.bound_eq (.inr (h3 hs'))]
  · rw [h.numEdges, h.numVertices, hdsum]
    exact hL.numEdges

end Rebalanced

/-- In a leaf without log chains the elements fit before the next leaf. -/
lemma Layout.actual_le {g : Graph} {adj : ℕ → List ℕ} (hL : g.Layout adj) {s : ℕ}
    (hs : s < g.segmentCount)
    (ho : ∀ v, g.leafOf v = s → (g.vertices v).offset = -1) :
    g.segmentEdgesActual (s + g.segmentCount) ≤ g.segmentEdgesTotal (s + g.segmentCount) := by
  have hg := hL.geometry
  have hle := hg.mul_le (s := s + 1) (by omega)
  rw [hL.actual s hs, hL.total s hs]
  -- the sum up to any vertex of the leaf fits before it
  have hsum : ∀ k, s * g.segmentSize + k ≤ (s + 1) * g.segmentSize →
      g.degreeSum (s * g.segmentSize) (s * g.segmentSize + k) ≤
        g.bound (s * g.segmentSize + k) - g.bound (s * g.segmentSize) := by
    intro k
    induction k with
    | zero => intro _; simp [degreeSum]
    | succ k ih =>
      intro hk
      have h1 := ih (by omega)
      have h2 := hL.ordered (v := s * g.segmentSize + k) (w := s * g.segmentSize + k + 1)
        (by omega) (by omega)
      rw [onseg_of_none (ho _ ((hg.leafOf_iff _ _).2 ⟨by omega, by omega⟩))] at h2
      rw [show s * g.segmentSize + (k + 1) = s * g.segmentSize + k + 1 by omega, degreeSum,
        Finset.sum_Ico_succ_top (by omega)]
      rw [degreeSum] at h1
      omega
  have := hsum g.segmentSize (by rw [Nat.succ_mul])
  rwa [show s * g.segmentSize + g.segmentSize = (s + 1) * g.segmentSize by rw [Nat.succ_mul]] at this

end Graph

end Dgap
