import Dgap.Layout.Run

/-!
# The segment logs as unions of chains

An entry goes on top of the chain of its source, and a log is released when the offsets of all vertices of its
leaf are reset. So along a sequential run every slot below the insert index lies on the chain of a vertex
(`Covered`), and on no other one because the entry names its vertex: the log of a leaf is the disjoint union
of finite chains (`segmentLogs`), and every loop along a chain ends.
-/

namespace Memory

namespace Chain

variable {next : ℤ → ℤ} {b o k : ℤ} {l : List ℤ}

/-- A link of a chain is the null link or points further down. -/
lemma next_lt (h : Chain next b o l) (hk : k ∈ l) : next k = -1 ∨ 0 ≤ next k ∧ next k < k := by
  induction h with
  | nil => cases hk
  | @cons b o l _ _ hc ih =>
    rcases List.mem_cons.1 hk with rfl | hk
    · generalize next k = o at hc
      cases hc with
      | nil => exact .inl rfl
      | cons h0 h1 _ => exact .inr ⟨h0, h1⟩
    · exact ih hk

end Chain

end Memory

namespace Dgap

open Memory

section Loops

variable {log : ℤ → LogEntry} {b o : ℤ} {l : List ℤ} {fuel : ℕ}

/-- The loop that drains a chain ends with the chain. -/
lemma Shifting.drainLog_chain (h : Chain (fun k => (log k).prevOffset) b o l) (hf : l.length ≤ fuel)
    (writeIndex : ℤ) (s : Shifting) :
    s.drainLog log fuel o writeIndex = s.drainLog log l.length o writeIndex := by
  induction h generalizing fuel writeIndex s with
  | nil => cases fuel <;> rfl
  | @cons b o l h0 _ _ ih =>
    obtain _ | fuel := fuel
    · cases hf
    · rw [List.length_cons, drainLog, drainLog, if_neg (by omega), if_neg (by omega)]
      exact ih (Nat.le_of_succ_le_succ hf) ..

/-- So does the one of `resize_V1`. -/
lemma Graph.resizeDrain_chain (h : Chain (fun k => (log k).prevOffset) b o l) (hf : l.length ≤ fuel)
    (writeIndex : ℤ) (a : Image ℤ) : resizeLoop.resizeDrain log fuel o writeIndex a =
      resizeLoop.resizeDrain log l.length o writeIndex a := by
  induction h generalizing fuel writeIndex a with
  | nil => cases fuel <;> rfl
  | @cons b o l h0 _ _ ih =>
    obtain _ | fuel := fuel
    · cases hf
    · rw [List.length_cons, resizeLoop.resizeDrain, resizeLoop.resizeDrain, if_neg (by omega),
        if_neg (by omega)]
      exact ih (Nat.le_of_succ_le_succ hf) ..

/-- The links that an iterator follows are those of the chain, and the null link behind it. -/
lemma Neighborhood.skip_get (h : Chain (fun k => (log k).prevOffset) b o l) {m : ℕ} (hm : m ≤ l.length) :
    skip log m o = l.getD m (-1) := by
  induction h generalizing m with
  | nil =>
    obtain rfl := Nat.le_zero.1 hm
    rfl
  | @cons b o l _ _ _ ih =>
    obtain _ | m := m
    · rfl
    · exact ih (Nat.le_of_succ_le_succ hm)

end Loops

namespace Graph

/-- The loop of `print_per_vertex_log`: what it prints, if it ends within `fuel` iterations. -/
def printLoop (log : ℤ → LogEntry) : ℕ → ℤ → Option (List ℤ)
  | 0, currOffset => if currOffset = -1 then some [] else none
  | fuel + 1, currOffset =>
    if currOffset = -1 then some []
    else (printLoop log fuel (log currOffset).prevOffset).map ((log currOffset).v :: ·)

/-- The destinations that `print_per_vertex_log` prints, if its loop ends within `fuel` iterations. -/
def printPerVertexLog (g : Graph) (fuel vid : ℕ) : Option (List ℤ) :=
  let segmentId := g.getSegmentId vid - g.segmentCount
  let currOffset := (g.vertices vid).offset
  if currOffset = -1 then some [] else printLoop (g.logPtr segmentId).cur fuel currOffset

/-- Printing a chain ends with the chain. -/
lemma printLoop_chain {log : ℤ → LogEntry} {b o : ℤ} {l : List ℤ} {fuel : ℕ}
    (h : Chain (fun k => (log k).prevOffset) b o l) (hf : l.length ≤ fuel) :
    printLoop log fuel o = some (l.map fun k => (log k).v) := by
  induction h generalizing fuel with
  | nil => cases fuel <;> rfl
  | @cons b o l h0 _ _ ih =>
    obtain _ | fuel := fuel
    · cases hf
    · rw [printLoop, if_neg (by omega), ih (Nat.le_of_succ_le_succ hf)]
      rfl

variable {g g' : Graph} {adj : ℕ → List ℕ} {tid src dst s : ℕ}

/-- Every slot below the insert index lies on the chain of a vertex of the leaf. -/
def Covered (g : Graph) : Prop :=
  ∀ s < g.segmentCount, ∀ k, 0 ≤ k → k < g.logSegmentIdx s → ∃ v < g.numVertices, g.leafOf v = s ∧
    ∃ slots, Chain (fun k => ((g.logPtr s).cur k).prevOffset) (g.logSegmentIdx s) (g.vertices v).offset slots ∧
      k ∈ slots

/-- A leaf whose log and vertices are not touched stays covered. -/
lemma Covered.frame (h : g.Covered) (hs : s < g.segmentCount) (hsh : SameShape g g')
    (hidx : g'.logSegmentIdx s = g.logSegmentIdx s) (hlog : g'.logPtr s = g.logPtr s)
    (hoff : ∀ v < g.numVertices, g.leafOf v = s → (g'.vertices v).offset = (g.vertices v).offset) {k : ℤ}
    (h0 : 0 ≤ k) (hk : k < g'.logSegmentIdx s) : ∃ v < g'.numVertices, g'.leafOf v = s ∧
      ∃ slots, Chain (fun k => ((g'.logPtr s).cur k).prevOffset) (g'.logSegmentIdx s)
        (g'.vertices v).offset slots ∧ k ∈ slots := by
  rw [hidx] at hk ⊢
  obtain ⟨v, hv, hleaf, slots, hchain, hmem⟩ := h s hs k h0 hk
  refine ⟨v, by rw [hsh.numVertices]; exact hv, by rw [hsh.leafOf, hleaf], slots, ?_, hmem⟩
  rw [hlog, hoff v hv hleaf]
  exact hchain

/-- An edge that is placed goes on top of the chain of its source, or into the array. -/
lemma Inserted.covered (h : Inserted g g' src dst) (hL : g.Layout adj) (hs : src < g.numVertices)
    (hc : g.Covered) : g'.Covered := by
  have hsh := h.toSameShape
  intro s hlt k h0 hk
  rw [hsh.segmentCount] at hlt
  rcases h.placed with ⟨-, -, hoff, hidx, hlog⟩ | ⟨-, -, -, hoff, hidx, hlog, hsrc⟩
  · refine hc.frame hlt hsh (by rw [hidx]) (by rw [hlog]) (fun v _ _ => ?_) h0 hk
    by_cases hv : v = src
    · rw [hv, hoff]
    · rw [h.other v hv]
  · by_cases hleaf : s = g.leafOf src
    · subst hleaf
      have hpos := (hL.logIdx _ hlt).1
      -- the chains from before the step
      have hold : ∀ {v slots}, Chain (fun k => ((g.logPtr (g.leafOf src)).cur k).prevOffset)
          (g.logSegmentIdx (g.leafOf src)) (g.vertices v).offset slots →
          Chain (fun k => ((g'.logPtr (g.leafOf src)).cur k).prevOffset) (g.logSegmentIdx (g.leafOf src))
            (g.vertices v).offset slots := by
        intro v slots hchain
        refine hchain.congr fun i hi => ?_
        have := (hchain.mem hi).2
        rw [hsrc, Function.update_of_ne (by omega)]
      have hidx' : g'.logSegmentIdx (g.leafOf src) = g.logSegmentIdx (g.leafOf src) + 1 := by
        rw [hidx, Function.update_self]
      have htop : ∀ {slots}, Chain (fun k => ((g.logPtr (g.leafOf src)).cur k).prevOffset)
          (g.logSegmentIdx (g.leafOf src)) (g.vertices src).offset slots →
          Chain (fun k => ((g'.logPtr (g.leafOf src)).cur k).prevOffset) (g'.logSegmentIdx (g.leafOf src))
            (g'.vertices src).offset (g.logSegmentIdx (g.leafOf src) :: slots) := by
        intro slots hchain
        rw [hoff, hidx']
        refine .cons hpos (by omega) ?_
        have hprev : ((g'.logPtr (g.leafOf src)).cur (g.logSegmentIdx (g.leafOf src))).prevOffset =
            (g.vertices src).offset := by rw [hsrc, Function.update_self]
        rw [hprev]
        exact hold hchain
      by_cases hnew : k = g.logSegmentIdx (g.leafOf src)
      · obtain ⟨slots, hchain, -, -⟩ := (hL.holds src hs).logged
        exact ⟨src, by rw [hsh.numVertices]; exact hs, hsh.leafOf src, _, htop hchain, by simp [hnew]⟩
      · obtain ⟨v, hv, hvleaf, slots, hchain, hmem⟩ := hc _ hlt k h0 (by omega)
        refine ⟨v, by rw [hsh.numVertices]; exact hv, by rw [hsh.leafOf, hvleaf], ?_⟩
        by_cases hvs : v = src
        · subst hvs
          exact ⟨_, htop hchain, List.mem_cons_of_mem _ hmem⟩
        · rw [h.other v hvs, hidx']
          exact ⟨slots, (hold hchain).mono (by omega), hmem⟩
    · refine hc.frame hlt hsh (by rw [hidx, Function.update_of_ne hleaf]) (hlog s hleaf) (fun v _ hv => ?_) h0 hk
      rw [h.other v (by rintro rfl; exact hleaf hv.symm)]

/-- A rebalance empties the logs of its window and leaves the others alone. -/
lemma Rebalanced.covered {l r : ℕ} (h : Rebalanced g g' l r) (hL : g.Layout adj) (hc : g.Covered) :
    g'.Covered := by
  intro s hlt k h0 hk
  rw [h.segmentCount] at hlt
  by_cases hin : l ≤ s ∧ s < r
  · rw [h.logIdx s hin.1 hin.2] at hk
    omega
  · obtain ⟨hidx, hlog⟩ := h.logFrame s (by omega)
    refine hc.frame hlt h.toSameShape hidx hlog (fun v _ hv => ?_) h0 hk
    have hmem := hL.geometry.leafOf_mem v l r
    rw [h.outside v (by omega)]

/-- A resize empties all logs. -/
lemma Resized.covered (h : Resized g g') : g'.Covered := by
  intro s hlt k h0 hk
  rw [h.segmentCount] at hlt
  rw [h.logIdx s hlt] at hk
  omega

/-- `do_insertion` keeps every log covered. -/
lemma Insertion.covered (h : Insertion g g' src dst) (hL : g.Layout adj) (hs : src < g.numVertices)
    (hc : g.Covered) : g'.Covered := by
  cases h with
  | direct h => exact h.covered hL hs hc
  | drained _ _ h1 h2 =>
    have hL1 := h1.layout hL (Nat.lt_succ_self _) (hL.geometry.leafOf_lt hs)
    exact h2.covered hL1 (by rw [h1.numVertices]; exact hs) (h1.covered hL hc)

/-- So does an insert. -/
lemma InsertStep.covered (h : InsertStep g g' src dst) (hL : g.Layout adj) (hs : src < g.numVertices)
    (hc : g.Covered) : g'.Covered := by
  cases h with
  | plain h _ => exact h.covered hL hs hc
  | window h _ _ _ _ hr => exact hr.covered (h.layout hL hs) (h.covered hL hs hc)
  | resize _ _ _ hr => exact hr.covered

/-- The log of leaf `s` is the disjoint union of the chains of its vertices, and empty above. -/
structure LogForest (g : Graph) (s : ℕ) (chain : ℕ → List ℤ) : Prop where
  bounds : 0 ≤ g.logSegmentIdx s ∧ g.logSegmentIdx s ≤ maxLogEntries
  chains : ∀ v < g.numVertices, g.leafOf v = s → Chain (fun k => ((g.logPtr s).cur k).prevOffset)
    (g.logSegmentIdx s) (g.vertices v).offset (chain v)
  owner : ∀ k, 0 ≤ k → k < g.logSegmentIdx s → ∃ v < g.numVertices, g.leafOf v = s ∧
    ((g.logPtr s).cur k).u = v ∧ ∀ w < g.numVertices, g.leafOf w = s → (k ∈ chain w ↔ w = v)
  prev : ∀ k, 0 ≤ k → k < g.logSegmentIdx s → ((g.logPtr s).cur k).prevOffset = -1 ∨
    0 ≤ ((g.logPtr s).cur k).prevOffset ∧ ((g.logPtr s).cur k).prevOffset < k
  clear : ∀ k, g.logSegmentIdx s ≤ k → (g.logPtr s).cur k = .zero

/-- The loops along the chain `slots` of vertex `v` in leaf `s` stay in the log and end with the chain, after
at most as many steps as the log has entries: the iterator, which follows one link an increment, `drainLog` of
a rebalance, the one of `resize_V1`, and `print_per_vertex_log`. -/
structure LogWalks (g : Graph) (s v : ℕ) (slots : List ℤ) : Prop where
  length : (slots.length : ℤ) ≤ g.logSegmentIdx s
  inside : ∀ k ∈ slots, 0 ≤ k ∧ k < g.logSegmentIdx s
  iterator : ∀ m ≤ slots.length,
    Neighborhood.skip (g.logPtr s).cur m (g.vertices v).offset = slots.getD m (-1)
  rebalance : ∀ fuel : ℕ, g.logSegmentIdx s ≤ fuel → ∀ w (st : Shifting),
    st.drainLog (g.logPtr s).cur fuel (g.vertices v).offset w =
      st.drainLog (g.logPtr s).cur slots.length (g.vertices v).offset w
  resize : ∀ fuel : ℕ, g.logSegmentIdx s ≤ fuel → ∀ w a,
    resizeLoop.resizeDrain (g.logPtr s).cur fuel (g.vertices v).offset w a =
      resizeLoop.resizeDrain (g.logPtr s).cur slots.length (g.vertices v).offset w a
  print : ∀ fuel : ℕ, g.logSegmentIdx s ≤ fuel →
    g.printPerVertexLog fuel v = some (slots.map fun k => ((g.logPtr s).cur k).v)

/-- The loops along a chain. -/
lemma LogWalks.of_chain {v : ℕ} {slots : List ℤ} (hpos : 0 ≤ g.logSegmentIdx (g.leafOf v))
    (h : Chain (fun k => ((g.logPtr (g.leafOf v)).cur k).prevOffset) (g.logSegmentIdx (g.leafOf v))
      (g.vertices v).offset slots) : g.LogWalks (g.leafOf v) v slots := by
  have hlen := h.length_le
  rw [max_eq_left hpos] at hlen
  refine ⟨hlen, fun k hk => h.mem hk, fun m hm => Neighborhood.skip_get h hm, fun fuel hf w st =>
    Shifting.drainLog_chain h (by omega) w st, fun fuel hf w a => resizeDrain_chain h (by omega) w a,
    fun fuel hf => ?_⟩
  rw [printPerVertexLog]
  split_ifs with hnone
  · rw [h.nil_iff.2 hnone]
    rfl
  · exact printLoop_chain h (by omega)

/-- After every base load and every sequence of inserts, the log of each leaf is the disjoint union of finite
chains, one for each vertex of the leaf, and every loop along a chain ends. -/
theorem segmentLogs {foreign : Foreign} {directed : Bool} {nVertices : ℕ} {base ops : List (ℕ × ℕ)}
    (h : Run foreign directed tid nVertices base ops g) (hs : s < g.segmentCount) :
    ∃ chain : ℕ → List ℤ, g.LogForest s chain ∧
      ∀ v < g.numVertices, g.leafOf v = s → g.LogWalks s v (chain v) := by
  have hL := h.layout
  have hpos := hL.logIdx s hs
  have hcovered : g.Covered := h.induct (P := fun g _ => g.Covered)
    (fun hc s _ k h0 hk => by rw [hc.logSegmentIdx s] at hk; omega)
    fun hL _ hs _ hstep hc => hstep.covered hL hs hc
  have hchains : ∀ v, ∃ slots, v < g.numVertices → g.leafOf v = s →
      Chain (fun k => ((g.logPtr s).cur k).prevOffset) (g.logSegmentIdx s) (g.vertices v).offset slots ∧
        ∀ k ∈ slots, ((g.logPtr s).cur k).u = v := by
    intro v
    by_cases hv : v < g.numVertices
    · obtain ⟨slots, hchain, hu, -⟩ := (hL.holds v hv).logged
      exact ⟨slots, fun _ hleaf => hleaf ▸ ⟨hchain, hu⟩⟩
    · exact ⟨[], fun hv' => absurd hv' hv⟩
  choose chain hchain using hchains
  -- a slot is on the chain of some vertex, and its entry says which one
  have howner : ∀ k, 0 ≤ k → k < g.logSegmentIdx s → ∃ v < g.numVertices, g.leafOf v = s ∧ k ∈ chain v := by
    intro k h0 hk
    obtain ⟨v, hv, hleaf, slots, hslots, hmem⟩ := hcovered s hs k h0 hk
    exact ⟨v, hv, hleaf, (hchain v hv hleaf).1.unique hslots ▸ hmem⟩
  refine ⟨chain, ⟨hpos, fun v hv hleaf => (hchain v hv hleaf).1, fun k h0 hk => ?_, fun k h0 hk => ?_,
    hL.logClear s hs⟩, fun v hv hleaf => ?_⟩
  · obtain ⟨v, hv, hleaf, hmem⟩ := howner k h0 hk
    refine ⟨v, hv, hleaf, (hchain v hv hleaf).2 k hmem, fun w hw hwleaf => ⟨fun hwmem => ?_, ?_⟩⟩
    · have := ((hchain w hw hwleaf).2 k hwmem).symm.trans ((hchain v hv hleaf).2 k hmem)
      exact_mod_cast this
    · rintro rfl
      exact hmem
  · obtain ⟨v, hv, hleaf, hmem⟩ := howner k h0 hk
    exact (hchain v hv hleaf).1.next_lt hmem
  · subst hleaf
    exact .of_chain hpos.1 (hchain v hv rfl).1

/-- One vertex has logged two of its edges. -/
theorem segmentLogs_three : ∃ g, Run ⟨fun _ => 7, fun _ => .zero⟩ true 0 3 [(0, 1)] (List.replicate 6 (0, 1)) g ∧
    g.logSegmentIdx 0 = 2 ∧ ∃ chain : ℕ → List ℤ, g.LogForest 0 chain ∧
      ∀ v < g.numVertices, g.leafOf v = 0 → g.LogWalks 0 v (chain v) := by
  obtain ⟨g, hg, hp⟩ := Run.exists_of_check ⟨fun _ => 7, fun _ => .zero⟩ true 0 3 [(0, 1)]
    (List.replicate 6 (0, 1)) (by decide) (by decide) (by decide) (by decide)
    (fun g => decide (g.logSegmentIdx 0 = 2)) (by decide +kernel)
  have hcount := hg.layout.geometry.two_le_count
  exact ⟨g, hg, of_decide_eq_true hp, segmentLogs hg (by omega)⟩

end Graph

end Dgap
