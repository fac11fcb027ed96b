import Dgap.Layout.Run

/-!
# What is durable when an insert returns

An edge that is stored in place or in a log is flushed at once, and `resize_V1` flushes the whole new
array. Two stores are never flushed: what `rebalance_data_V1` moves into the last window of its undo log,
and the zeros that `release_log` writes, whose flush names the address of a pointer in DRAM. So after an
insert that rebalances, the durable array can miss elements that the graph holds
(`durable_at_return_fails`). An insert is `Prompt` if it neither moves an element by a rebalance nor
releases a log with an entry; after a run of prompt inserts everything is durable
(`durable_at_return`).
-/

namespace Dgap

namespace Graph

variable {g g' : Graph} {adj : ℕ → List ℕ} {tid src dst : ℕ}

/-- All stores to the edge array and to the segment logs are durable. -/
structure Durable (g : Graph) : Prop where
  edges : ∀ x, 0 ≤ x → x < g.elemCapacity → g.edges.DurableAt x
  logs : ∀ s < g.segmentCount, ∀ k, (g.logPtr s).DurableAt k

/-- What a crash after a returned insert must not lose: the on-segment slots of the vertices, and the
segment logs. -/
structure DurableAtReturn (g : Graph) : Prop where
  onSegment : ∀ v < g.numVertices, ∀ x, (g.vertices v).index ≤ x →
    x < (g.vertices v).index + g.onseg v → g.edges.DurableAt x
  logs : ∀ s < g.segmentCount, ∀ k : ℤ, 0 ≤ k → k < maxLogEntries → (g.logPtr s).DurableAt k

/-- A rebalance of `[startVertex, endVertex)` finds every vertex in its place and every log empty. -/
def InPlace (g : Graph) (startVertex endVertex : ℕ) (usedSpace totalSpace : ℤ) : Prop :=
  (∀ s, g.leafOf startVertex ≤ s → s < g.leafOf endVertex → g.logSegmentIdx s = 0) ∧
    ∀ newIndex, g.calculatePositions startVertex endVertex (totalSpace - usedSpace) usedSpace =
      some newIndex → ∀ v, startVertex ≤ v → v < endVertex →
        newIndex.getD (v - startVertex) 0 = (g.vertices v).index

/-- The insert of an edge with source `src` leaves no store unflushed: it does not find a full log, and if
it fills its leaf, the edge went in place and the rebalance or the resize that follows has nothing to
move and no log to release. -/
def Prompt (g : Graph) (src : ℕ) : Prop :=
  let seg := g.getSegmentId src
  let counted := g.countEdge src seg
  (g.haveSpaceOnseg src (g.insertLoc src) = true ∨ g.logSegmentIdx (g.leafOf src) < maxLogEntries) ∧
    (up0 ≤ counted.density seg → g.haveSpaceOnseg src (g.insertLoc src) = true ∧
      ∀ window height, counted.findWindow src seg seg 0 = (window, height) →
        if window = 0 then ∀ s < g.segmentCount, g.logSegmentIdx s = 0
        else counted.InPlace (g.leftIndex src height) (g.rightIndex src height)
          (counted.segMeta src height).1 (counted.segMeta src height).2)

/-- Durability of everything is enough. -/
lemma Durable.atReturn (h : g.Durable) (hL : g.Layout adj) : g.DurableAtReturn := by
  refine ⟨fun v hv x h1 h2 => ?_, fun s hs k _ _ => h.logs s hs k⟩
  have hlow := hL.bound_nonneg hv.le
  have hroom := (hL.holds v hv).room
  have hhigh := hL.bound_le (v := v + 1) (by omega) (le_refl g.numVertices)
  rw [bound_of_lt hv] at hlow
  rw [bound_of_ge (le_refl _)] at hhigh
  exact h.edges x (by omega) (by omega)

section Counters

variable (g) (e : Image ℤ)

/-- The search for a window reads the counters only. -/
lemma lockInBatch_edges (k s : ℕ) : ({ g with edges := e } : Graph).lockInBatch k s = g.lockInBatch k s := by
  induction k generalizing s with
  | zero => rfl
  | succ k ih => simp only [lockInBatch, ih]

/-- The sums over a window read the counters only. -/
lemma segMeta_edges (src height : ℕ) :
    ({ g with edges := e } : Graph).segMeta src height = g.segMeta src height :=
  lockInBatch_edges g e _ _

/-- The search for a window reads the counters only. -/
lemma findWindow_edges (src fuel window height : ℕ) :
    ({ g with edges := e } : Graph).findWindow src fuel window height =
      g.findWindow src fuel window height := by
  induction fuel generalizing window height with
  | zero => rfl
  | succ fuel ih =>
    simp only [findWindow, ih, belowThreshold, segMeta_edges]
    rfl

/-- Positions do not depend on the contents of the slots. -/
lemma calculatePositions_edges (startVertex endVertex : ℕ) (gaps totalDegree : ℤ) :
    ({ g with edges := e } : Graph).calculatePositions startVertex endVertex gaps totalDegree =
      g.calculatePositions startVertex endVertex gaps totalDegree := by
  have hloop : ∀ (b : ℤ) (q : ℚ) (k i : ℕ) (d : ℚ),
      ({ g with edges := e } : Graph).positionsLoop b q k i d = g.positionsLoop b q k i d := by
    intro b q k
    induction k with
    | zero => exact fun _ _ => rfl
    | succ k ih => exact fun i d => by simp only [positionsLoop, ih]
  simp only [calculatePositions, hloop]
  rfl

/-- Neither does whether a window is in place. -/
lemma InPlace.edges {g : Graph} {startVertex endVertex : ℕ} {usedSpace totalSpace : ℤ}
    (h : g.InPlace startVertex endVertex usedSpace totalSpace) (e : Image ℤ) :
    ({ g with edges := e } : Graph).InPlace startVertex endVertex usedSpace totalSpace :=
  ⟨h.1, fun newIndex hpos => h.2 newIndex (by rwa [calculatePositions_edges] at hpos)⟩

end Counters

section Rebalance

variable {startVertex endVertex : ℕ} {newIndex : List ℤ} {s : Shifting}

/-- A vertex that stays in its place and has no log chain is left alone. -/
lemma shiftVertex_inPlace {jj : ℕ} {b : ℤ} (ho : (s.vertices jj).offset = -1) :
    g.shiftVertex (s.vertices jj).index jj b s = s := by
  have hv : (⟨(s.vertices jj).index, (s.vertices jj).degree, -1⟩ : VertexElement) = s.vertices jj := by
    rw [← ho]
  simp only [shiftVertex, ho, ne_eq, not_true_eq_false, if_false, lt_irrefl, hv,
    Function.update_eq_self]

/-- A group whose vertices stay in their places is left alone. -/
lemma shiftGroup_inPlace (k jj : ℕ) (b : ℤ) (hk : startVertex + k ≤ jj + 1)
    (h : ∀ v, startVertex ≤ v → v ≤ jj → (s.vertices v).offset = -1 ∧
      newIndex.getD (v - startVertex) 0 = (s.vertices v).index) :
    g.shiftGroup startVertex newIndex k jj b s = s := by
  induction k generalizing jj b with
  | zero => rfl
  | succ k ih =>
    obtain ⟨ho, hi⟩ := h jj (by omega) (le_refl _)
    rw [shiftGroup, hi, shiftVertex_inPlace ho]
    exact ih (jj - 1) _ (by omega) fun v h1 h2 => h v h1 (by omega)

/-- `findSpace` stays in its range. -/
lemma findSpace_le (startVertex : ℕ) (newIndex : List ℤ) (s : Shifting) (k ii : ℕ) :
    findSpace startVertex newIndex s k ii ≤ ii + k ∧ ii ≤ findSpace startVertex newIndex s k ii := by
  induction k generalizing ii with
  | zero => exact ⟨le_refl _, le_refl _⟩
  | succ k ih =>
    rw [findSpace]
    split
    · omega
    · have := ih (ii + 1)
      omega

/-- A window whose vertices stay in their places is left alone. -/
lemma rebalanceLoop_inPlace (fuel curr : ℕ) (hcurr : startVertex ≤ curr)
    (h : ∀ v, startVertex ≤ v → v < endVertex → (s.vertices v).offset = -1 ∧
      newIndex.getD (v - startVertex) 0 = (s.vertices v).index) :
    g.rebalanceLoop startVertex endVertex newIndex fuel curr s = s := by
  induction fuel generalizing curr with
  | zero => rfl
  | succ fuel ih =>
    rw [rebalanceLoop]
    split
    case isFalse => rfl
    case isTrue hlt =>
      obtain ⟨h1, h2⟩ := findSpace_le startVertex newIndex s (endVertex - curr) curr
      simp only
      generalize findSpace startVertex newIndex s (endVertex - curr) curr = ii at h1 h2 ⊢
      obtain ⟨last, hlast⟩ : ∃ last, last = if ii = endVertex then ii - 1 else ii := ⟨_, rfl⟩
      have hrange : curr ≤ last ∧ last < endVertex := by
        rw [hlast]
        split <;> omega
      rw [← hlast, shiftGroup_inPlace _ _ _ (by omega) fun v h3 h4 => h v h3 (by omega)]
      exact ih _ (by omega)

/-- A log without entries has nothing to release. -/
lemma releaseLogs_empty (k s : ℕ) (h : ∀ t, s ≤ t → t < s + k → g.logSegmentIdx t = 0) (t : ℕ) :
    (releaseLogs k s g).logPtr t = g.logPtr t := by
  rw [releaseLogs_eq]
  simp only
  split
  · rename_i ht
    rw [released, if_pos (h t ht.1 ht.2)]
  · rfl

/-- A rebalance that finds everything in its place stores nothing in the edge array or the logs. -/
lemma rebalanceWeighted_inPlace {usedSpace totalSpace : ℤ}
    (hp : g.InPlace startVertex endVertex usedSpace totalSpace)
    (ho : ∀ v, startVertex ≤ v → v < endVertex → (g.vertices v).offset = -1)
    (h : g.rebalanceWeighted tid startVertex endVertex usedSpace totalSpace = some g') :
    g'.edges = g.edges ∧ g'.logPtr = g.logPtr ∧ g'.elemCapacity = g.elemCapacity := by
  simp only [rebalanceWeighted] at h
  split at h
  case isFalse => cases h
  split at h
  case isFalse => cases h
  split at h
  case h_1 => cases h
  case h_2 newIndex hpos =>
    split at h
    case isFalse => cases h
    obtain rfl := Option.some.inj h
    simp only [recountSegmentTotal, rebalanceDataV1]
    rw [rebalanceLoop_inPlace (endVertex - startVertex) startVertex (le_refl _) fun v h1 h2 =>
      ⟨ho v h1 h2, hp.2 newIndex hpos v h1 h2⟩]
    refine ⟨by rw [releaseLogs_eq], ?_, by rw [releaseLogs_eq]⟩
    funext t
    refine (releaseLogs_empty _ _ ?_ t).trans rfl
    intro t h1 h2
    exact hp.1 t h1 (by omega)

end Rebalance

section Step

/-- An edge that went in place is durable, and so is everything that was. -/
lemma Durable.storeEdge (hD : g.Durable) (src : ℕ) (dst seg : ℕ) (loc : ℤ) :
    ((g.storeEdge loc dst).countEdge src seg).Durable :=
  ⟨fun x h1 h2 => (hD.edges x h1 h2).store_flush _ _, hD.logs⟩

/-- An edge that went into a log is durable, and so is everything that was. -/
lemma Durable.insertIntoLog {s : ℕ} (hD : g.Durable) (h : g.insertIntoLog s src dst = some g') :
    g'.Durable := by
  unfold Graph.insertIntoLog at h
  simp only at h
  split at h
  case isFalse => cases h
  case isTrue =>
    obtain rfl := Option.some.inj h
    refine ⟨hD.edges, fun t ht k => ?_⟩
    by_cases hts : t = s
    · subst hts
      simp only [Function.update_self]
      exact (hD.logs t ht k).store_flush _ _
    · simp only [Function.update_of_ne hts]
      exact hD.logs t ht k

/-- The insertion of a prompt insert stores the edge and flushes it, in place or in the log. -/
lemma Prompt.doInsertion (hp : g.Prompt src) {g1 : Graph}
    (h : g.doInsertion tid src dst (g.getSegmentId src) = some g1) :
    (g.haveSpaceOnseg src (g.insertLoc src) = true ∧
      g1 = (g.storeEdge (g.insertLoc src) dst).countEdge src (g.getSegmentId src)) ∨
    (¬g.haveSpaceOnseg src (g.insertLoc src) = true ∧
      ∃ g2, g.insertIntoLog (g.leafOf src) src dst = some g2 ∧
        g1 = g2.countEdge src (g.getSegmentId src)) := by
  unfold Graph.doInsertion at h
  split at h
  case isTrue hspace => exact .inl ⟨hspace, (Option.some.inj h).symm⟩
  case isFalse hspace =>
    have hroom := hp.1.resolve_left hspace
    rw [makeLogRoom, show g.getSegmentId src - g.segmentCount = g.leafOf src from rfl,
      if_neg (not_le.2 hroom), Option.bind_eq_bind, Option.bind_some, placeEdge, if_neg hspace] at h
    obtain ⟨g2, h2, h3⟩ := Option.bind_eq_some_iff.1 h
    exact .inr ⟨hspace, g2, h2, (Option.some.inj h3).symm⟩

/-- An insertion into a log leaves the counters of the leaves alone. -/
lemma insertIntoLog_density {s j : ℕ} (h : g.insertIntoLog s src dst = some g') :
    (g'.countEdge src j).density j = (g.countEdge src j).density j := by
  unfold Graph.insertIntoLog at h
  simp only at h
  split at h
  case isFalse => cases h
  case isTrue =>
    obtain rfl := Option.some.inj h
    rfl

/-- A rebalance that finds everything in its place keeps everything durable. -/
lemma Durable.rebalanceWindow (hD : g.Durable) (hL : g.Layout adj) (hs : src < g.numVertices)
    (height : ℕ) {usedSpace totalSpace : ℤ}
    (hp : g.InPlace (g.leftIndex src height) (g.rightIndex src height) usedSpace totalSpace)
    (h : g.rebalanceWeighted tid (g.leftIndex src height) (g.rightIndex src height) usedSpace
      totalSpace = some g') : g'.Durable := by
  have hg := hL.geometry
  obtain ⟨hl, hr, hll, hlr, hrc⟩ := hg.window hs height
  rw [hl, hr] at hp h
  have hn := hg.mul_le hrc
  have hreb := hL.rebalanceWeighted_spec (by omega) hrc h
  obtain ⟨he, hlog, hcap⟩ := rebalanceWeighted_inPlace hp (fun v h1 h2 => by
    obtain ⟨h3, h4⟩ := (hg.leafOf_mem v _ _).2 ⟨h1, h2⟩
    exact hL.offset_of_empty (by omega) (hp.1 _ (by rwa [hg.leafOf_mul]) (by rwa [hg.leafOf_mul]))) h
  refine ⟨fun x h1 h2 => ?_, fun s hs k => ?_⟩
  · rw [he]
    exact hD.edges x h1 (by rwa [hcap] at h2)
  · rw [hlog]
    exact hD.logs s (by rwa [hreb.segmentCount] at hs) k

/-- A resize with empty logs makes everything durable. -/
lemma Durable.resizeV1 (hD : g.Durable) (hL : g.Layout adj)
    (hempty : ∀ s < g.segmentCount, g.logSegmentIdx s = 0) (h : g.resizeV1 = some g') :
    g'.Durable := by
  have hres := hL.resizeV1_spec h
  refine ⟨hres.durable, fun s hs k => ?_⟩
  rw [hres.segmentCount] at hs
  rw [hres.logPtr s hs, released, if_pos (hempty s hs)]
  exact hD.logs s hs k

/-- A prompt insert keeps everything durable. -/
lemma Durable.insert (hD : g.Durable) (hL : g.Layout adj) (hs : src < g.numVertices)
    (hp : g.Prompt src) (h : g.insert tid src dst = some g') : g'.Durable := by
  unfold Graph.insert at h
  simp only at h
  cases h1 : g.doInsertion tid src dst (g.getSegmentId src) with
  | none => simp [h1] at h
  | some g1 =>
    have hL1 := (hL.doInsertion_spec hs h1).layout hL hs
    simp only [h1] at h
    rcases hp.doInsertion h1 with ⟨hspace, rfl⟩ | ⟨hspace, g2, h2, rfl⟩
    · have hD1 := hD.storeEdge src dst (g.getSegmentId src) (g.insertLoc src)
      split at h
      case isFalse =>
        obtain rfl := Option.some.inj h
        exact hD1
      case isTrue hge =>
        obtain ⟨-, hafter⟩ := hp.2 hge
        have hafter := hafter _ _ rfl
        -- the window is that of the graph before, with the edge counted
        have hfind := findWindow_edges (g.countEdge src (g.getSegmentId src))
          (g.storeEdge (g.insertLoc src) dst).edges src (g.getSegmentId src) (g.getSegmentId src) 0
        rw [show ((g.storeEdge (g.insertLoc src) dst).countEdge src (g.getSegmentId src)).findWindow
          src (g.getSegmentId src) (g.getSegmentId src) 0 = _ from hfind] at h
        generalize (g.countEdge src (g.getSegmentId src)).findWindow src (g.getSegmentId src)
          (g.getSegmentId src) 0 = w at h hafter
        obtain ⟨window, height⟩ := w
        simp only at h hafter
        split at h
        case isTrue => cases h
        split at h
        case isTrue hne =>
          rw [if_neg hne] at hafter
          have hmeta : ((g.storeEdge (g.insertLoc src) dst).countEdge src
              (g.getSegmentId src)).segMeta src height =
              (g.countEdge src (g.getSegmentId src)).segMeta src height :=
            segMeta_edges (g.countEdge src (g.getSegmentId src)) _ src height
          rw [← hmeta] at hafter
          exact hD1.rebalanceWindow hL1 hs height (InPlace.edges hafter _) h
        case isFalse heq =>
          rw [if_pos (not_not.1 heq)] at hafter
          rw [if_neg (not_lt.2 hge)] at h
          exact hD1.resizeV1 hL1 hafter h
    · -- the log is not released, so the leaf is below its threshold
      have hlow : ¬up0 ≤ (g.countEdge src (g.getSegmentId src)).density (g.getSegmentId src) :=
        fun hge => hspace (hp.2 hge).1
      rw [insertIntoLog_density h2, if_neg hlow] at h
      obtain rfl := Option.some.inj h
      have hD2 := hD.insertIntoLog h2
      exact ⟨hD2.edges, hD2.logs⟩

end Step

section Sequential

variable {foreign : Foreign} {directed : Bool} {nVertices : ℕ} {base ops : List (ℕ × ℕ)}

/-- A run ends with an insert on the graph that the run before it ended in. -/
lemma Run.concat {e : ℕ × ℕ} (h : Run foreign directed tid nVertices base (ops ++ [e]) g) :
    ∃ g1, Run foreign directed tid nVertices base ops g1 ∧ g1.insert tid e.1 e.2 = some g := by
  obtain ⟨g0, h0, h1⟩ := Option.bind_eq_some_iff.1 h.run
  obtain ⟨g1, h2, h3⟩ := insertAll_append h1
  obtain ⟨g2, h4, h5⟩ := insertAll_cons h3
  obtain rfl := Option.some.inj h5
  refine ⟨g1, ⟨h.two_le, h.sorted, h.baseIds, fun e' he' => h.opIds e' (List.mem_append_left _ he'), ?_⟩, h4⟩
  exact Option.bind_eq_some_iff.2 ⟨g0, h0, h2⟩

/-- After a run of prompt inserts everything is durable. -/
lemma Run.durable (h : Run foreign directed tid nVertices base ops g)
    (hprompt : ∀ ops1 e ops2 g1, ops = ops1 ++ e :: ops2 →
      Run foreign directed tid nVertices base ops1 g1 → g1.Prompt e.1) : g.Durable := by
  induction ops using List.reverseRecOn generalizing g with
  | nil =>
    obtain ⟨g0, hc, h1, -⟩ := h.created
    obtain rfl := Option.some.inj h1
    exact ⟨hc.durable, fun s _ k => by rw [hc.logPtr s]; rfl⟩
  | append_singleton ops e ih =>
    obtain ⟨g1, h1, hins⟩ := h.concat
    have hD := ih h1 fun ops1 e' ops2 g2 heq => hprompt ops1 e' (ops2 ++ [e]) g2 (by rw [heq]; simp)
    have hsrc : e.1 < g1.numVertices := by
      rw [h1.numVertices]
      exact (h.opIds e (by simp)).1
    exact hD.insert h1.layout hsrc (hprompt ops e [] g1 rfl h1) hins

/-- When every insert of a run is prompt, a crash after it loses no element that is on-segment and
brings back no log entry that was released. -/
theorem durable_at_return (h : Run foreign directed tid nVertices base ops g)
    (hprompt : ∀ ops1 e ops2 g1, ops = ops1 ++ e :: ops2 →
      Run foreign directed tid nVertices base ops1 g1 → g1.Prompt e.1) : g.DurableAtReturn :=
  (h.durable hprompt).atReturn h.layout

/-- A check that the edge goes in place, and either does not fill its leaf or calls for a resize of an array
without log entries. -/
lemma Prompt.of_check {g : Graph} {src : ℕ}
    (h : (g.haveSpaceOnseg src (g.insertLoc src) &&
      (decide ((g.countEdge src (g.getSegmentId src)).density (g.getSegmentId src) < up0) ||
        (((g.countEdge src (g.getSegmentId src)).findWindow src (g.getSegmentId src) (g.getSegmentId src) 0).1 == 0 &&
          (List.range g.segmentCount).all fun s => g.logSegmentIdx s == 0))) = true) : g.Prompt src := by
  rw [Bool.and_eq_true, Bool.or_eq_true, decide_eq_true_iff, Bool.and_eq_true, beq_iff_eq, List.all_eq_true] at h
  obtain ⟨hspace, hfill⟩ := h
  refine ⟨.inl hspace, fun hge => ⟨hspace, fun window height hw => ?_⟩⟩
  rcases hfill with hlt | ⟨hzero, hlogs⟩
  · exact absurd hge (not_le.2 hlt)
  · rw [hw] at hzero
    rw [if_pos hzero]
    exact fun s hs => beq_iff_eq.1 (hlogs s (List.mem_range.2 hs))

/-- The last of five inserts fills the leaf of vertex 1 and resizes the array; the edge went in place and no log
has an entry, so it is prompt, as are the four before. -/
theorem durable_at_return_two : ∃ g, Run ⟨fun _ => 7, fun _ => .zero⟩ true 0 2 []
    [(0, 1), (0, 1), (1, 0), (1, 0), (1, 0)] g ∧ g.elemCapacity = 16 ∧ g.DurableAtReturn := by
  obtain ⟨ops, hops⟩ : ∃ ops : List (ℕ × ℕ), ops = [(0, 1), (0, 1), (1, 0), (1, 0), (1, 0)] := ⟨_, rfl⟩
  obtain ⟨g, hg, hcap⟩ := Run.exists_of_check ⟨fun _ => 7, fun _ => .zero⟩ true 0 2 []
    [(0, 1), (0, 1), (1, 0), (1, 0), (1, 0)] (by decide) (by decide) (by decide) (by decide)
    (fun g => g.elemCapacity == 16) (by decide +kernel)
  -- the states before the inserts, each with the source of the next one
  have hcheck : ∀ k < 5, ((create ⟨fun _ => 7, fun _ => .zero⟩ true 2 []).bind (insertAll 0
      (([(0, 1), (0, 1), (1, 0), (1, 0), (1, 0)] : List (ℕ × ℕ)).take k))).all (fun g =>
        let src := (([(0, 1), (0, 1), (1, 0), (1, 0), (1, 0)] : List (ℕ × ℕ)).getD k (0, 0)).1
        g.haveSpaceOnseg src (g.insertLoc src) &&
          (decide ((g.countEdge src (g.getSegmentId src)).density (g.getSegmentId src) < up0) ||
            (((g.countEdge src (g.getSegmentId src)).findWindow src (g.getSegmentId src)
              (g.getSegmentId src) 0).1 == 0 &&
              (List.range g.segmentCount).all fun s => g.logSegmentIdx s == 0))) = true := by
    decide +kernel
  rw [← hops] at hg hcheck
  refine ⟨g, hops ▸ hg, beq_iff_eq.1 hcap, durable_at_return hg fun ops1 e ops2 g1 heq h1 => .of_check ?_⟩
  have hlt : ops1.length < 5 := by
    have hlen := congrArg List.length heq
    rw [hops, List.length_append, List.length_cons] at hlen
    simp only [List.length_cons, List.length_nil] at hlen
    omega
  have htake : ops.take ops1.length = ops1 := by rw [heq, List.take_left]
  have hget : ops.getD ops1.length (0, 0) = e := by
    rw [heq, List.getD_append_right _ _ _ _ (le_refl _), Nat.sub_self]
    rfl
  have h := hcheck ops1.length hlt
  rw [htake, hget, h1.run] at h
  exact h

/-- The third of three inserts rebalances the array, and the pivot of vertex 1 in its new slot is not
durable when it returns. -/
theorem durable_at_return_fails : ∃ g, Run ⟨fun _ => 0, fun _ => .zero⟩ true 0 2 []
    [(0, 1), (0, 1), (0, 1)] g ∧ ¬g.DurableAtReturn := by
  obtain ⟨g, hg, hp⟩ := Run.exists_of_check ⟨fun _ => 0, fun _ => .zero⟩ true 0 2 []
    [(0, 1), (0, 1), (0, 1)] (by decide) (by decide) (by decide) (by decide)
    (fun g => decide (g.numVertices = 2) && decide (g.vertices 1 = ⟨6, 1, -1⟩) &&
      decide (g.edges.cur 6 = -1) && decide (g.edges.dur 6 = 0)) (by decide +kernel)
  simp only [Bool.and_eq_true, decide_eq_true_iff] at hp
  obtain ⟨⟨⟨hn, hv⟩, hcur⟩, hdur⟩ := hp
  refine ⟨g, hg, fun h => ?_⟩
  have honseg : g.onseg 1 = 1 := by rw [onseg_of_none (by rw [hv]), hv]
  have := h.onSegment 1 (by omega) 6 (by rw [hv]) (by rw [honseg, hv]; decide)
  rw [Image.DurableAt, hcur, hdur] at this
  cases this

end Sequential

end Graph

end Dgap
