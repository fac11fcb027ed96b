import Dgap.Threads.Data

/-!
# A window rebalance touches only its window

`RebalanceCall` are the calls of `rebalance_weighted` in the states that runs reach, sequential ones and
interleavings: the leaf rebalance of `do_insertion` and the window rebalance of `insert`. `WindowCall` adds the
one of `rebalance_all`. Every such window is a range of leaves of a graph with a layout, whatever the other
threads are doing (`RebalanceCall.window_leaves`, `WindowCall.window_leaves`), so an insert changes nothing
outside its window and leaves the window's extent alone (`rebalance_frame`). Neighbours may read the boundary
indices without the window's locks.
-/

namespace Dgap

/-- `rebalance_weighted(startVertex, endVertex, usedSpace, totalSpace)` is called in the state `g`. -/
inductive RebalanceCall : Graph → ℕ → ℕ → ℤ → ℤ → Prop where
  /-- `do_insertion` in a sequential run, when the log of the leaf is full. -/
  | fullLog {foreign : Foreign} {directed : Bool} {tid nVertices : ℕ} {base ops : List (ℕ × ℕ)}
      {g : Graph} {src : ℕ} :
      Graph.Run foreign directed tid nVertices base ops g → src < g.numVertices →
      g.haveSpaceOnseg src (g.insertLoc src) = false →
      g.logSegmentIdx (g.getSegmentId src - g.segmentCount) ≥ maxLogEntries →
      RebalanceCall g (src / g.segmentSize * g.segmentSize)
        (min (src / g.segmentSize * g.segmentSize + g.segmentSize) g.numVertices)
        (g.segmentEdgesActual (g.getSegmentId src)) (g.segmentEdgesTotal (g.getSegmentId src))
  /-- `insert` in a sequential run, when it has found a window. -/
  | window {foreign : Foreign} {directed : Bool} {tid nVertices : ℕ} {base ops : List (ℕ × ℕ)}
      {g g1 : Graph} {src dst window height : ℕ} :
      Graph.Run foreign directed tid nVertices base ops g → src < g.numVertices →
      g.doInsertion tid src dst (g.getSegmentId src) = some g1 →
      g1.density (g.getSegmentId src) ≥ up0 →
      g1.findWindow src (g.getSegmentId src) (g.getSegmentId src) 0 = (window, height) →
      window ≠ 0 →
      RebalanceCall g1 (g1.leftIndex src height) (g1.rightIndex src height)
        (g1.segMeta src height).1 (g1.segMeta src height).2
  /-- `do_insertion` of a thread. -/
  | threadFullLog {n nVertices : ℕ} {foreign : Foreign} {directed : Bool} {base : List (ℕ × ℕ)}
      {g0 : Graph} {program : Fin n → List (ℕ × ℕ)} {c : Config n} {i : Fin n} :
      2 ≤ nVertices → (base.Pairwise fun e e' => e.1 ≤ e'.1) →
      (∀ e ∈ base, e.1 < nVertices ∧ e.2 < nVertices) →
      Graph.create foreign directed nVertices base = some g0 →
      (∀ i, ∀ e ∈ program i, e.1 < g0.numVertices ∧ e.2 < g0.numVertices) →
      (inserts g0 program).Reach c → (c.threads i).pc = .insertion →
      c.g.haveSpaceOnseg (c.threads i).src (c.g.insertLoc (c.threads i).src) = false →
      c.g.logSegmentIdx (c.threads i).current ≥ maxLogEntries →
      RebalanceCall c.g ((c.threads i).src / c.g.segmentSize * c.g.segmentSize)
        (min ((c.threads i).src / c.g.segmentSize * c.g.segmentSize + c.g.segmentSize)
          c.g.numVertices)
        (c.g.segmentEdgesActual ((c.threads i).current + c.g.segmentCount))
        (c.g.segmentEdgesTotal ((c.threads i).current + c.g.segmentCount))
  /-- `insert` of a thread. -/
  | threadWindow {n nVertices : ℕ} {foreign : Foreign} {directed : Bool} {base : List (ℕ × ℕ)}
      {g0 : Graph} {program : Fin n → List (ℕ × ℕ)} {c : Config n} {i : Fin n} :
      2 ≤ nVertices → (base.Pairwise fun e e' => e.1 ≤ e'.1) →
      (∀ e ∈ base, e.1 < nVertices ∧ e.2 < nVertices) →
      Graph.create foreign directed nVertices base = some g0 →
      (∀ i, ∀ e ∈ program i, e.1 < g0.numVertices ∧ e.2 < g0.numVertices) →
      (inserts g0 program).Reach c → (c.threads i).pc = .rebalance →
      RebalanceCall c.g (c.g.leftIndex (c.threads i).src (c.threads i).height)
        (c.g.rightIndex (c.threads i).src (c.threads i).height)
        (c.threads i).metaActual (c.threads i).metaTotal

/-- `rebalance_weighted(startVertex, endVertex, usedSpace, totalSpace)` is called in the state `g`, by
`insert`, by `do_insertion` or by `rebalance_all`. -/
inductive WindowCall : Graph → ℕ → ℕ → ℤ → ℤ → Prop where
  /-- `insert` and `do_insertion`, in sequential runs and in interleavings. -/
  | insert {g : Graph} {startVertex endVertex : ℕ} {usedSpace totalSpace : ℤ} :
      RebalanceCall g startVertex endVertex usedSpace totalSpace →
      WindowCall g startVertex endVertex usedSpace totalSpace
  /-- `rebalance_all` behind a sequential run. -/
  | all {foreign : Foreign} {directed : Bool} {tid nVertices : ℕ} {base ops : List (ℕ × ℕ)} {g : Graph} :
      Graph.Run foreign directed tid nVertices base ops g →
      WindowCall g 0 g.numVertices (g.lockInBatch (g.leafOf g.numVertices - g.leafOf 0) (g.leafOf 0)).1
        (g.lockInBatch (g.leafOf g.numVertices - g.leafOf 0) (g.leafOf 0)).2
  /-- `rebalance_all` behind any steps of any number of threads. -/
  | threadsAll {n nVertices : ℕ} {foreign : Foreign} {directed : Bool} {base : List (ℕ × ℕ)}
      {g0 : Graph} {program : Fin n → List (ℕ × ℕ)} {c : Config n} :
      2 ≤ nVertices → (base.Pairwise fun e e' => e.1 ≤ e'.1) →
      (∀ e ∈ base, e.1 < nVertices ∧ e.2 < nVertices) →
      Graph.create foreign directed nVertices base = some g0 →
      (∀ i, ∀ e ∈ program i, e.1 < g0.numVertices ∧ e.2 < g0.numVertices) →
      (inserts g0 program).Reach c →
      WindowCall c.g 0 c.g.numVertices
        (c.g.lockInBatch (c.g.leafOf c.g.numVertices - c.g.leafOf 0) (c.g.leafOf 0)).1
        (c.g.lockInBatch (c.g.leafOf c.g.numVertices - c.g.leafOf 0) (c.g.leafOf 0)).2

namespace Graph

/-- What a rebalance of the vertices `[startVertex, endVertex)` leaves alone. -/
structure Touches (g g' : Graph) (startVertex endVertex : ℕ) : Prop where
  edges : ∀ x, x < (g.vertices startVertex).index ∨ g.bound endVertex ≤ x →
    g'.edges.cur x = g.edges.cur x
  vertices : ∀ v, v < startVertex ∨ endVertex ≤ v → g'.vertices v = g.vertices v
  logs : ∀ s, s < g.leafOf startVertex ∨ g.leafOf endVertex ≤ s →
    g'.logSegmentIdx s = g.logSegmentIdx s ∧ g'.logPtr s = g.logPtr s
  total : ∀ s, s < g.leafOf startVertex ∨ g.leafOf endVertex ≤ s →
    g'.segmentEdgesTotal (s + g.segmentCount) = g.segmentEdgesTotal (s + g.segmentCount)
  first : (g'.vertices startVertex).index = (g.vertices startVertex).index
  actual : g'.segmentEdgesActual = g.segmentEdgesActual
  numEdges : g'.numEdges = g.numEdges
  sumTotal : ∑ s ∈ Finset.Ico (g.leafOf startVertex) (g.leafOf endVertex),
    g'.segmentEdgesTotal (s + g.segmentCount) =
      g.bound endVertex - (g.vertices startVertex).index

variable {g g' : Graph} {adj : ℕ → List ℕ} {l r : ℕ}

/-- The totals of a range of leaves sum up to its extent. -/
lemma Layout.sum_total (hL : g.Layout adj) (hlr : l ≤ r) (hr : r ≤ g.segmentCount) :
    ∑ s ∈ Finset.Ico l r, g.segmentEdgesTotal (s + g.segmentCount) =
      g.bound (r * g.segmentSize) - g.bound (l * g.segmentSize) := by
  induction r, hlr using Nat.le_induction with
  | base => simp
  | succ r hlr ih =>
    rw [Finset.sum_Ico_succ_top hlr, ih (by omega), hL.total r (by omega)]
    ring

/-- A rebalance of the leaves `[l, r)` touches only their window. -/
lemma Rebalanced.touches (h : Rebalanced g g' l r) (hL : g.Layout adj) (hlr : l < r)
    (hr : r ≤ g.segmentCount) : Touches g g' (l * g.segmentSize) (r * g.segmentSize) := by
  have hg := hL.geometry
  have hlt : l * g.segmentSize < r * g.segmentSize := Nat.mul_lt_mul_of_pos_right hlr hg.size
  have hn := hg.mul_le hr
  have hfirst : (g.vertices (l * g.segmentSize)).index = g.bound (l * g.segmentSize) :=
    (bound_of_lt (by omega)).symm
  have hsum := (h.layout hL hlr hr).sum_total hlr.le (by rw [h.segmentCount]; exact hr)
  rw [h.segmentCount, h.segmentSize, h.bound_eq (.inl (le_refl _)),
    h.bound_eq (.inr (le_refl _))] at hsum
  refine ⟨?_, h.outside, ?_, ?_, h.first, h.actual, h.numEdges, ?_⟩
  · rw [hfirst]
    exact h.frame
  · rw [hg.leafOf_mul, hg.leafOf_mul]
    exact h.logFrame
  · rw [hg.leafOf_mul, hg.leafOf_mul]
    exact h.totalFrame
  · rw [hg.leafOf_mul, hg.leafOf_mul, hfirst]
    exact hsum

end Graph

variable {g g' : Graph} {startVertex endVertex : ℕ} {usedSpace totalSpace : ℤ}

/-- The window of every call is a range of leaves of a graph with a layout. -/
lemma RebalanceCall.window_leaves (h : RebalanceCall g startVertex endVertex usedSpace totalSpace) :
    ∃ adj l r, g.Layout adj ∧ l < r ∧ r ≤ g.segmentCount ∧ startVertex = l * g.segmentSize ∧
      endVertex = r * g.segmentSize := by
  have leaf : ∀ {g : Graph} {adj : ℕ → List ℕ} {src : ℕ}, g.Layout adj → src < g.numVertices →
      ∃ adj l r, g.Layout adj ∧ l < r ∧ r ≤ g.segmentCount ∧
        src / g.segmentSize * g.segmentSize = l * g.segmentSize ∧
        min (src / g.segmentSize * g.segmentSize + g.segmentSize) g.numVertices =
          r * g.segmentSize := by
    intro g adj src hL hs
    obtain ⟨hl, hr⟩ := hL.geometry.leaf_window hs
    exact ⟨adj, _, _, hL, Nat.lt_succ_self _, hL.geometry.leafOf_lt hs, hl, hr⟩
  have around : ∀ {g : Graph} {adj : ℕ → List ℕ} {src : ℕ} (height : ℕ), g.Layout adj →
      src < g.numVertices → ∃ adj l r, g.Layout adj ∧ l < r ∧ r ≤ g.segmentCount ∧
        g.leftIndex src height = l * g.segmentSize ∧
        g.rightIndex src height = r * g.segmentSize := by
    intro g adj src height hL hs
    obtain ⟨hl, hr, h1, h2, h3⟩ := hL.geometry.window hs height
    exact ⟨adj, _, _, hL, by omega, h3, hl, hr⟩
  cases h with
  | fullLog hrun hs => exact leaf hrun.layout hs
  | @window _ _ _ _ _ _ g _ src dst _ height hrun hs hins =>
    have hstep := hrun.layout.doInsertion_spec hs hins
    exact around height (hstep.layout hrun.layout hs)
      (by rw [hstep.sameShape.numVertices]; exact hs)
  | @threadFullLog _ _ _ _ _ _ _ _ i h2 hsorted hbase hcreate hprogram hc hpc =>
    have hD := inserts_data h2 hsorted hbase hcreate hprogram hc
    obtain ⟨ops, hL, -⟩ := hD.layout
    exact leaf hL ((hD.inRange i).src (by simp [hpc]))
  | @threadWindow _ _ _ _ _ _ _ _ i h2 hsorted hbase hcreate hprogram hc hpc =>
    have hD := inserts_data h2 hsorted hbase hcreate hprogram hc
    obtain ⟨ops, hL, -⟩ := hD.layout
    exact around _ hL ((hD.inRange i).src (by simp [hpc]))

/-- The window of `rebalance_all` is the range of all leaves, so every window is a range of leaves. -/
lemma WindowCall.window_leaves (h : WindowCall g startVertex endVertex usedSpace totalSpace) :
    ∃ adj l r, g.Layout adj ∧ l < r ∧ r ≤ g.segmentCount ∧ startVertex = l * g.segmentSize ∧
      endVertex = r * g.segmentSize := by
  have whole : ∀ {g : Graph} {adj : ℕ → List ℕ}, g.Layout adj → ∃ adj l r, g.Layout adj ∧ l < r ∧
      r ≤ g.segmentCount ∧ 0 = l * g.segmentSize ∧ g.numVertices = r * g.segmentSize := by
    intro g adj hL
    have hg := hL.geometry
    exact ⟨adj, 0, g.segmentCount, hL, Nat.zero_lt_two.trans_le hg.two_le_count, le_refl _,
      (Nat.zero_mul _).symm, hg.vertices.trans (Nat.mul_comm ..)⟩
  cases h with
  | insert h => exact h.window_leaves
  | all h => exact whole h.layout
  | threadsAll h2 hsorted hbase hcreate hprogram hc =>
    obtain ⟨_, hL, -⟩ := (inserts_data h2 hsorted hbase hcreate hprogram hc).layout
    exact whole hL

/-- A check of where a sequence of inserts ends and of how the next one goes on, as a statement about a
call of `rebalance_weighted`. -/
lemma RebalanceCall.of_check (foreign : Foreign) (directed : Bool) (tid nVertices : ℕ)
    (base ops : List (ℕ × ℕ)) (src dst : ℕ) (h2 : 2 ≤ nVertices)
    (hsorted : base.Pairwise fun e e' => e.1 ≤ e'.1)
    (hbase : ∀ e ∈ base, e.1 < nVertices ∧ e.2 < nVertices)
    (hops : ∀ e ∈ ops, e.1 < (Graph.computeCapacity nVertices).2.2 ∧
      e.2 < (Graph.computeCapacity nVertices).2.2)
    (hsrc : src < (Graph.computeCapacity nVertices).2.2) (height : ℕ) (p : Graph → Bool)
    (h : ((Graph.create foreign directed nVertices base).bind (Graph.insertAll tid ops)).any
      (fun g => (g.doInsertion tid src dst (g.getSegmentId src)).any fun g1 =>
        decide (g1.density (g.getSegmentId src) ≥ up0) &&
        (g1.findWindow src (g.getSegmentId src) (g.getSegmentId src) 0).1 != 0 &&
        (g1.findWindow src (g.getSegmentId src) (g.getSegmentId src) 0).2 == height &&
        p g1) = true) :
    ∃ g1, RebalanceCall g1 (g1.leftIndex src height) (g1.rightIndex src height)
      (g1.segMeta src height).1 (g1.segMeta src height).2 ∧ p g1 = true := by
  obtain ⟨g, hg, hp⟩ := Graph.Run.exists_of_check foreign directed tid nVertices base ops h2 hsorted
    hbase hops _ h
  obtain ⟨g1, h1, hp1⟩ := (Option.any_eq_true _ _).1 hp
  simp only [Bool.and_eq_true, decide_eq_true_eq, beq_iff_eq, bne_iff_ne] at hp1
  obtain ⟨⟨⟨hd, hw⟩, hheight⟩, hp⟩ := hp1
  exact ⟨g1, .window hg (by rw [hg.numVertices]; exact hsrc) h1 hd (Prod.ext rfl hheight) hw, hp⟩

/-- A rebalance that `insert` or `do_insertion` calls touches only its window, and the totals of its
leaves still sum up to its capacity. -/
theorem rebalance_frame (h : RebalanceCall g startVertex endVertex usedSpace totalSpace) {tid : ℕ}
    (hr : g.rebalanceWeighted tid startVertex endVertex usedSpace totalSpace = some g') :
    g.Touches g' startVertex endVertex := by
  obtain ⟨adj, l, r, hL, hlr, hrc, rfl, rfl⟩ := h.window_leaves
  exact (hL.rebalanceWeighted_spec hlr hrc hr).touches hL hlr hrc

/-- Thirteen vertices in four leaves. The twelfth edge of the eighth one rebalances its leaf with the one before,
and the leaves behind them stay as they are. -/
theorem rebalance_frame_thirteen : ∃ (g g' : Graph) (usedSpace totalSpace : ℤ),
    RebalanceCall g 0 8 usedSpace totalSpace ∧ g.leafOf 8 < g.segmentCount ∧
    g.rebalanceWeighted 0 0 8 usedSpace totalSpace = some g' ∧
    (g'.vertices 7).index ≠ (g.vertices 7).index ∧ g.Touches g' 0 8 := by
  obtain ⟨g, hcall, hp⟩ := RebalanceCall.of_check ⟨fun _ => 7, fun _ => .zero⟩ true 0 13 []
    (List.replicate 11 (7, 0)) 7 0 (by decide) (by decide) (by decide) (by decide) (by decide) 1
    (fun g => (g.rebalanceWeighted 0 (g.leftIndex 7 1) (g.rightIndex 7 1) (g.segMeta 7 1).1
      (g.segMeta 7 1).2).any (fun g' => (g'.vertices 7).index != (g.vertices 7).index) &&
      g.leftIndex 7 1 == 0 && g.rightIndex 7 1 == 8 && decide (g.leafOf 8 < g.segmentCount))
    (by decide +kernel)
  simp only [Bool.and_eq_true, beq_iff_eq, decide_eq_true_eq] at hp
  obtain ⟨⟨⟨hr, hl⟩, hr'⟩, hleaf⟩ := hp
  obtain ⟨g', hr, hmoved⟩ := (Option.any_eq_true _ _).1 hr
  rw [hl, hr'] at hcall hr
  exact ⟨g, g', _, _, hcall, hleaf, hr, bne_iff_ne.1 hmoved, rebalance_frame hcall hr⟩

end Dgap
