import Dgap.Bc.Working

/-!
# From level to level

A step of the team keeps `Inv` (`Inv.step`). When the window slides, every vertex of the next level is
claimed and the shared queue holds all of it: either that is the new window (`Inv.slide`), or there is none
and the search is over (`Inv.found`).
-/

namespace Dgap

namespace Bc

open Multigraph

/-- What the search leaves: the bits of the tight edges, the numbers of shortest paths, and a queue that
lists the levels, cut by `depthIndex`. -/
structure Found {n : ℕ} (nbrs : ℕ → List ℕ) (prefixes : ℕ → ℤ) (numNodes source : ℕ) (c : Config n) : Prop where
  phase : c.phase = .done
  quiet : c.todo = ∅ ∧ ∀ i, (c.threads i).pc = .flushed ∧ (c.threads i).buffer.copying = none
  bits : ∀ u < numNodes, ∀ k v, (nbrs u)[k]? = some v →
    (c.succ.getBit (getEdgeId prefixes u k).toNat = true ↔ Tight nbrs source u v)
  counts : ∀ v, c.pathCounts v = pathCount nbrs source v
  levels : ∃ d, Levels nbrs source c.depthIndex c.queue.shared d ∧
    (∀ v, Reachable nbrs source v → dist nbrs source v ≤ d) ∧
    Set.InjOn c.queue.shared (Set.Iio (c.depthIndex.getD (d + 2) 0))

section Levels

variable {nbrs : ℕ → List ℕ} {source d : ℕ} {starts : List ℕ} {shared shared' : ℕ → ℕ}

/-- The bounds do not decrease. -/
lemma Levels.le (h : Levels nbrs source starts shared d) {j k : ℕ} (hjk : j ≤ k) (hk : k ≤ d + 2) :
    starts.getD j 0 ≤ starts.getD k 0 := by
  induction k, hjk using Nat.le_induction with
  | base => rfl
  | succ k hjk ih => exact (ih (by omega)).trans (h.mono k (by omega))

/-- What is before the end of the window is in one of the levels. -/
lemma Levels.exists_level (h : Levels nbrs source starts shared d) {m i : ℕ} (hm : m ≤ d + 1)
    (hi : i < starts.getD (m + 1) 0) : ∃ j < m, AtDist nbrs source j (shared i) := by
  induction m with
  | zero =>
    rw [h.first.2] at hi
    cases hi
  | succ m ih =>
    rcases Nat.lt_or_ge i (starts.getD (m + 1) 0) with hlt | hge
    · obtain ⟨j, hj, hat⟩ := ih (by omega) hlt
      exact ⟨j, by omega, hat⟩
    · exact ⟨m, by omega, (h.level m (by omega) _).2 ⟨i, hge, hi, rfl⟩⟩

/-- Only the queue before the end of the window matters. -/
lemma Levels.congr (h : Levels nbrs source starts shared d)
    (hs : ∀ i < starts.getD (d + 2) 0, shared' i = shared i) : Levels nbrs source starts shared' d where
  length := h.length
  first := h.first
  mono := h.mono
  level j hj v := by
    rw [h.level j hj v]
    refine exists_congr fun i => and_congr_right fun _ => and_congr_right fun hi => ?_
    rw [hs i (hi.trans_le (h.le (by omega) le_rfl))]

/-- One more level. -/
lemma Levels.succ (h : Levels nbrs source starts shared d) {bound : ℕ} (hle : starts.getD (d + 2) 0 ≤ bound)
    (hlevel : ∀ v, AtDist nbrs source (d + 1) v ↔ ∃ i, starts.getD (d + 2) 0 ≤ i ∧ i < bound ∧ shared i = v) :
    Levels nbrs source (starts ++ [bound]) shared (d + 1) := by
  have hlen := h.length
  have hold : ∀ j < d + 3, (starts ++ [bound]).getD j 0 = starts.getD j 0 := fun j hj =>
    List.getD_append _ _ _ _ (by omega)
  have hnew : (starts ++ [bound]).getD (d + 3) 0 = bound := by
    rw [List.getD_append_right _ _ _ _ (by omega), show d + 3 - starts.length = 0 by omega]
    rfl
  refine ⟨by rw [List.length_append, hlen]; rfl, ?_, fun j hj => ?_, fun j hj v => ?_⟩
  · rw [hold 0 (by omega), hold 1 (by omega)]
    exact h.first
  · rcases Nat.lt_or_ge j (d + 2) with hlt | hge
    · rw [hold j (by omega), hold (j + 1) (by omega)]
      exact h.mono j (by omega)
    · obtain rfl : j = d + 2 := by omega
      rw [hold _ (by omega), hnew]
      exact hle
  · rcases Nat.lt_or_ge j (d + 1) with hlt | hge
    · rw [hold (j + 1) (by omega), hold (j + 2) (by omega)]
      exact h.level j (by omega) v
    · obtain rfl : j = d + 1 := by omega
      rw [hold _ (by omega), hnew]
      exact hlevel v

end Levels

variable {n : ℕ} {nbrs : ℕ → List ℕ} {prefixes : ℕ → ℤ} {numNodes source d : ℕ} {prog : ℕ → ℕ}
  {order : List ℕ} {c c' : Config n} {i : Fin n} {u k v : ℕ}

/-- A reachable vertex is a vertex of the graph. -/
lemma Input.lt (h : Input nbrs prefixes numNodes source) {j : ℕ} (hu : AtDist nbrs source j u) :
    u < numNodes := by
  obtain ⟨p, hp⟩ := hu.1
  exact Finset.mem_range.1 (hp.mem_vertices h.source_mem h.range_closed)

/-- A vertex all of whose predecessors are done is credited with all its shortest paths. -/
lemma Input.credits_eq (h : Input nbrs prefixes numNodes source)
    (hdone : ∀ u, Tight nbrs source u v → prog u = (nbrs u).length) :
    (if v = source then 1 else 0) + credits nbrs numNodes source prog v = pathCount nbrs source v := by
  rw [pathCount, numShortestPaths_eq h.source_mem h.range_closed, ← BitVec.natCast_eq_ofNat]
  push_cast
  rw [credits]
  congr 1
  classical
  refine Finset.sum_congr rfl fun u hu => ?_
  rw [hdone u (Finset.mem_filter.1 hu).2, List.take_length]
  rfl

/-- The bounds of the window. -/
lemma Inv.starts (h : Inv nbrs prefixes numNodes source order prog d c) :
    (c.depthIndex ++ [c.queue.sharedOutEnd]).getD (d + 1) 0 = c.queue.sharedOutStart ∧
      (c.depthIndex ++ [c.queue.sharedOutEnd]).getD (d + 2) 0 = c.queue.sharedOutEnd := by
  have hlen := h.levels.length
  rw [List.length_append, List.length_singleton] at hlen
  rw [List.getD_append _ _ _ _ (by omega), List.getD_append_right _ _ _ _ (by omega), h.last,
    show d + 2 - c.depthIndex.length = 0 by omega]
  exact ⟨rfl, rfl⟩

/-- The window is the frontier. -/
lemma Inv.window (h : Inv nbrs prefixes numNodes source order prog d c) :
    AtDist nbrs source d v ↔ ∃ pos, c.queue.sharedOutStart ≤ pos ∧ pos < c.queue.sharedOutEnd ∧
      c.queue.shared pos = v := by
  rw [h.levels.level d le_rfl, h.starts.1, h.starts.2]

/-- An edge of the frontier is tight if and only if its end is claimed for the next level. -/
lemma Inv.tight_iff (h : Inv nbrs prefixes numNodes source order prog d c) (hu : AtDist nbrs source d u)
    (hv : c.depths v ≠ -1) : Tight nbrs source u v ↔ c.depths v = (d + 1 : ℕ) := by
  constructor
  · intro ht
    obtain ⟨i, -, hd, hat⟩ := h.distances.atDist hv
    rw [hd, ← hat.2, ht.2, hu.2]
  · intro hd
    exact hu.tight (h.distances.far v hd)

/-- The paths to a vertex of the frontier are counted. -/
lemma Inv.pathCounts_eq (hin : Input nbrs prefixes numNodes source)
    (h : Inv nbrs prefixes numNodes source order prog d c) (hu : AtDist nbrs source d u) :
    c.pathCounts u = pathCount nbrs source u := by
  rw [h.counted.counts u]
  refine hin.credits_eq fun w hw => h.working.before w (dist nbrs source w) ?_ ⟨hw.1, rfl⟩
  have := hw.2
  rw [hu.2] at this
  omega

/-- A step of the queue, or of a thread within its iteration. -/
lemma Inv.move {order' : List ℕ} {prog' : ℕ → ℕ} (h : Inv nbrs prefixes numNodes source order prog d c)
    (hdepth : c'.depth = c.depth) (hphase : c'.phase = c.phase)
    (hdistances : Distances nbrs source d c'.depths) (hqueued : Queued nbrs numNodes order' c')
    (hindex : c'.depthIndex = c.depthIndex) (hstart : c'.queue.sharedOutStart = c.queue.sharedOutStart)
    (hend : c'.queue.sharedOutEnd = c.queue.sharedOutEnd)
    (hshared : ∀ j < c.queue.sharedOutEnd, c'.queue.shared j = c.queue.shared j)
    (hworking : Working nbrs source prog' d c') (hcounted : Counted nbrs prefixes numNodes source prog' c') :
    Inv nbrs prefixes numNodes source order' prog' d c' where
  depth := by rw [hdepth, h.depth]
  phase := by
    rw [hphase]
    exact h.phase
  distances := hdistances
  queued := hqueued
  levels := by
    rw [hindex, hend]
    exact h.levels.congr (by rw [h.starts.2]; exact hshared)
  last := by rw [hindex, hstart, h.last]
  working := hworking
  counted := hcounted

/-- A statement of the body of the loop. -/
lemma Inv.edge (hin : Input nbrs prefixes numNodes source)
    (h : Inv nbrs prefixes numNodes source order prog d c) {stage : Stage}
    (hcopy : (c.threads i).buffer.copying = none) (hpc : (c.threads i).pc = .edge u k stage)
    (hv : (nbrs u)[k]? = some v) :
    ∃ order' prog', Inv nbrs prefixes numNodes source order' prog' d
      (c.edgeStep nbrs prefixes i u k v stage) := by
  obtain ⟨hu, hk, v', hv', hok⟩ := (h.working.threads i).edge u k stage hpc
  obtain rfl : v' = v := Option.some.inj (hv'.symm.trans hv)
  have hult := hin.lt hu
  have hmem := List.mem_of_getElem? hv
  -- a statement that only moves the thread on
  have hgoto : ∀ {stage' : Stage}, StageOk nbrs source d c.depths u v' stage' →
      (Pc.edge u k stage').claimed nbrs = (Pc.edge u k stage).claimed nbrs →
      (Pc.edge u k stage').marked? = (Pc.edge u k stage).marked? →
      Inv nbrs prefixes numNodes source order prog d (c.goto i (.edge u k stage')) := by
    intro stage' hok' hclaimed hmarked
    refine h.move rfl rfl h.distances (h.queued.goto _ (by rw [hpc, hclaimed])) rfl rfl rfl (fun _ _ => rfl)
      (h.working.goto hpc hcopy hv hok') (h.counted.congr rfl rfl (setThread_same (·.pc.marked?) ?_))
    rw [hpc, ← hmarked]
  cases stage with
  | check =>
    refine ⟨order, prog, ?_⟩
    rw [Config.edgeStep]
    split_ifs with hnew
    · exact hgoto trivial rfl rfl
    · exact hgoto hnew rfl rfl
  | cas =>
    refine ⟨order, prog, ?_⟩
    rw [Config.edgeStep]
    split_ifs with hnew
    · have hx : c.depth ≠ -1 := by
        rw [h.depth]
        omega
      refine h.move rfl rfl ?_ (h.queued.claim hv (hin.closed u hult _ hmem) hnew hpc hx) rfl rfl rfl
        (fun _ _ => rfl) (h.working.claim hpc hcopy hv hnew hx)
        (h.counted.congr rfl rfl (setThread_same (·.pc.marked?) (by rw [hpc]; rfl)))
      show Distances nbrs source d (Function.update c.depths v' c.depth)
      rw [h.depth]
      exact h.distances.claim (h.distances.next hu hmem hnew)
    · exact hgoto hnew rfl rfl
  | push =>
    rw [Config.edgeStep]
    split_ifs with hfull
    · refine ⟨_, prog, h.move rfl rfl h.distances (h.queued.flush hcopy (by rw [hpc])) rfl rfl rfl
        (fun _ _ => rfl) (h.working.move ?_ (setThread_same (·.pc.vertex?) (by rw [hpc])) rfl (fun _ _ => rfl)
          rfl rfl (fun _ hne => hne) rfl fun hphase => ?_)
        (h.counted.congr rfl rfl (setThread_same (·.pc.marked?) (by rw [hpc])))⟩
      · exact forall_setThread (.of_edge rfl hu hk hv hok (.inr rfl)) fun j _ => h.working.threads j
      · exact forall_setThread (p := fun t => t.pc ≠ .flushed) (by simp) fun j _ => h.working.loop hphase j
    · refine ⟨order, prog, h.move rfl rfl h.distances (h.queued.append hv hcopy hpc) rfl rfl rfl
        (fun _ _ => rfl) (h.working.move ?_ (setThread_same (·.pc.vertex?) (by rw [hpc]; rfl)) rfl
          (fun _ _ => rfl) rfl rfl (fun _ hne => hne) rfl fun hphase => ?_)
        (h.counted.congr rfl rfl (setThread_same (·.pc.marked?) (by rw [hpc]; rfl)))⟩
      · exact forall_setThread (.of_edge rfl hu hk hv hok (.inl hcopy)) fun j _ => h.working.threads j
      · exact forall_setThread (p := fun t => t.pc ≠ .flushed) (by simp) fun j _ => h.working.loop hphase j
  | test =>
    rw [Config.edgeStep]
    split_ifs with htest
    · exact ⟨order, prog, hgoto (by rw [h.depth] at htest; exact htest) rfl rfl⟩
    · have htight : ¬ Tight nbrs source u v' := fun ht =>
        htest (((h.tight_iff hu hok).1 ht).trans h.depth.symm)
      exact ⟨order, _, h.move rfl rfl h.distances (h.queued.goto _ (by rw [hpc, visit_claimed]; rfl)) rfl rfl
        rfl (fun _ _ => rfl) (h.working.advance hpc hcopy hv hok) (h.counted.skip hult hk hpc hv htight)⟩
  | setBit =>
    have htight := (h.tight_iff hu (by rw [show c.depths v' = _ from hok]; omega)).2 hok
    have hload : Working nbrs source prog d (c.goto i (.edge u k .load)) := h.working.goto hpc hcopy hv hok
    exact ⟨order, prog, h.move rfl rfl h.distances
      ((h.queued.goto (.edge u k .load) (by rw [hpc]; rfl)).congr rfl rfl (fun _ => rfl) fun _ => rfl) rfl rfl
      rfl (fun _ _ => rfl)
      (hload.move hload.threads (fun _ => rfl) rfl (fun _ _ => rfl) rfl rfl (fun _ hne => hne) rfl hload.loop)
      (h.counted.setBit hin.numbered hult hpc hv htight)⟩
  | load =>
    refine ⟨order, prog, hgoto ⟨hok, h.pathCounts_eq hin hu⟩ rfl rfl⟩
  | add x =>
    obtain ⟨hd, rfl⟩ := hok
    have hne : c.depths v' ≠ -1 := by omega
    have hadv := h.working.advance hpc hcopy hv hne
    exact ⟨order, _, h.move rfl rfl h.distances
      ((h.queued.goto (visit nbrs u (k + 1)) (by rw [hpc, visit_claimed]; rfl)).congr rfl rfl (fun _ => rfl)
        fun _ => rfl) rfl rfl rfl (fun _ _ => rfl)
      (hadv.move hadv.threads (fun _ => rfl) rfl (fun _ _ => rfl) rfl rfl (fun _ hne => hne) rfl hadv.loop)
      (h.counted.add hult hk hpc hv ((h.tight_iff hu hne).2 hd))⟩

/-- A thread starts a position of the frontier. -/
lemma Inv.take (h : Inv nbrs prefixes numNodes source order prog d c) (hpc : (c.threads i).pc = .idle)
    {pos : ℕ} (hpos : pos ∈ c.todo) :
    Inv nbrs prefixes numNodes source order prog d
      { c.goto i (visit nbrs (c.queue.shared pos) 0) with todo := c.todo.erase pos } := by
  obtain ⟨hstart, hend, -⟩ := h.working.todo pos hpos
  refine h.move rfl rfl h.distances ?_ rfl rfl rfl (fun _ _ => rfl)
    (h.working.take h.queued hpc hpos (h.window.2 ⟨pos, hstart, hend, rfl⟩)) ?_
  · exact (h.queued.goto (visit nbrs (c.queue.shared pos) 0) (by rw [hpc, visit_claimed]; rfl)).congr rfl rfl
      (fun _ => rfl) fun _ => rfl
  · exact h.counted.congr rfl rfl (setThread_same (·.pc.marked?) (by rw [hpc, visit_marked]; rfl))

/-- A step of the queue leaves the threads where they are. -/
lemma Inv.moveQueue {order' : List ℕ} (h : Inv nbrs prefixes numNodes source order prog d c)
    (hqueued : Queued nbrs numNodes order' c') (hc : c' = { c with queue := c'.queue, threads := c'.threads })
    (hstart : c'.queue.sharedOutStart = c.queue.sharedOutStart)
    (hend : c'.queue.sharedOutEnd = c.queue.sharedOutEnd)
    (hshared : ∀ j < c.queue.sharedOutEnd, c'.queue.shared j = c.queue.shared j)
    (hok : ∀ j, ThreadOk nbrs source prog d c.depths (c'.threads j))
    (hpc : ∀ j, (c'.threads j).pc = (c.threads j).pc) :
    Inv nbrs prefixes numNodes source order' prog d c' := by
  rw [hc] at hqueued ⊢
  refine h.move rfl rfl h.distances hqueued rfl hstart hend hshared ?_ ?_
  · exact h.working.move hok (fun j => by rw [hpc j]) rfl hshared hstart hend (fun _ hne => hne) rfl
      fun hphase j => by rw [hpc j]; exact h.working.loop hphase j
  · exact h.counted.congr rfl rfl fun j => by rw [hpc j]

/-- A step of a copy. -/
lemma Inv.copy (h : Inv nbrs prefixes numNodes source order prog d c) {r : SlidingQueue ℕ × QueueBuffer ℕ}
    (hcopy : (c.threads i).buffer.copyStep c.queue = some r) :
    Inv nbrs prefixes numNodes source order prog d (c.setBuffer i (c.threads i).pc r) := by
  obtain ⟨-, hstart, hend⟩ := QueueBuffer.copyStep_window hcopy
  refine h.moveQueue (h.queued.copy hcopy) rfl hstart hend (fun j hj => h.queued.copy_seen hcopy hj) ?_
    (setThread_same (·.pc) rfl)
  refine forall_setThread ?_ fun j _ => h.working.threads j
  have hi := h.working.threads i
  refine ⟨hi.edge, fun _ => hi.copying (QueueBuffer.copyStep_copying hcopy), fun _ hnone => ?_⟩
  rw [QueueBuffer.copyStep_none hcopy hnone]
  rfl

/-- A thread begins its flush. -/
lemma Inv.flush (h : Inv nbrs prefixes numNodes source order prog d c) (hcopy : (c.threads i).buffer.copying = none)
    (hpc : (c.threads i).pc = .idle) (hphase : c.phase = .flush) :
    Inv nbrs prefixes numNodes source (order ++ (c.threads i).buffer.localQueue) prog d (c.flush i .flushed) := by
  refine h.move rfl rfl h.distances (h.queued.flush hcopy (by rw [hpc]; rfl)) rfl rfl rfl (fun _ _ => rfl)
    (h.working.move ?_ (setThread_same (·.pc.vertex?) (by rw [hpc]; rfl)) rfl (fun _ _ => rfl) rfl rfl
      (fun _ hne => hne) rfl fun hloop => ?_)
    (h.counted.congr rfl rfl (setThread_same (·.pc.marked?) (by rw [hpc]; rfl)))
  · exact forall_setThread (.of_vertex_none rfl (fun _ => rfl) fun _ hnone => by cases hnone) fun j _ =>
      h.working.threads j
  · have hloop' : c.phase = .loop := hloop
    rw [hphase] at hloop'
    cases hloop'

/-- The loop over the frontier ends. -/
lemma Inv.endLoop (h : Inv nbrs prefixes numNodes source order prog d c) (htodo : c.todo = ∅)
    (hpc : ∀ i, (c.threads i).pc = .idle) :
    Inv nbrs prefixes numNodes source order prog d { c with phase := .flush } where
  depth := h.depth
  phase := by simp
  distances := h.distances
  queued := h.queued.congr rfl rfl (fun _ => rfl) fun _ => rfl
  levels := h.levels
  last := h.last
  working := ⟨h.working.threads, h.working.todo, h.working.apart, h.working.fresh, h.working.status,
    h.working.before, h.working.after, h.working.seen, fun hphase => (by cases hphase),
    fun _ => ⟨htodo, fun j => by rw [hpc j]; rfl⟩⟩
  counted := h.counted.congr rfl rfl fun _ => rfl

section Slide

variable (hin : Input nbrs prefixes numNodes source) (h : Inv nbrs prefixes numNodes source order prog d c)
  (hphase : c.phase = .flush) (hall : ∀ i, (c.threads i).pc = .flushed ∧ (c.threads i).buffer.copying = none)

include h hphase

/-- At the barrier every vertex up to the frontier is done. -/
lemma Inv.done {j : ℕ} (hj : j ≤ d) (hu : AtDist nbrs source j u) : prog u = (nbrs u).length :=
  h.working.done (h.working.flush hphase).1 (h.working.flush hphase).2 hj hu

/-- At the barrier the next level is claimed. -/
lemma Inv.claimed (hv : AtDist nbrs source (d + 1) v) : c.depths v ≠ -1 := by
  obtain ⟨u, hu, hmem⟩ := hv.pred
  obtain ⟨k, hk⟩ := List.getElem?_of_mem hmem
  have hlt := (List.getElem?_eq_some_iff.1 hk).1
  rw [← h.done hphase le_rfl hu] at hlt
  exact h.working.seen u k v hlt hk

omit hphase in
include hall in
/-- At the barrier the shared queue holds exactly the claimed vertices. -/
lemma Inv.mem_order : v ∈ order ↔ v < numNodes ∧ c.depths v ≠ -1 := by
  have hnone : ∀ i, (c.threads i).held nbrs = 0 := by
    intro i
    have hempty := (h.working.threads i).flushed (hall i).1 (hall i).2
    rw [Thread.held, QueueBuffer.pending, if_pos (hall i).2, hempty, (hall i).1]
    rfl
  rw [← h.queued.mem_iff, or_iff_left]
  rintro ⟨i, hi⟩
  rw [hnone i] at hi
  exact absurd hi (Multiset.notMem_zero v)

omit hphase in
include hall in
/-- At the barrier the cells of the shared queue are filled. -/
lemma Inv.order_eq {j : ℕ} (hj : j < c.queue.sharedIn) : order[j]? = some (c.queue.shared j) := by
  rw [← h.queued.settled.length] at hj
  have hcell := List.getElem?_eq_getElem hj
  rw [hcell, h.queued.filled.cell (fun i => (hall i).2) hcell]

include hin hall

/-- At the barrier the queue behind the window is the next level. -/
lemma Inv.next_level : AtDist nbrs source (d + 1) v ↔
    ∃ j, c.queue.sharedOutEnd ≤ j ∧ j < c.queue.sharedIn ∧ c.queue.shared j = v := by
  have hend : c.queue.sharedOutEnd ≤ c.queue.sharedIn := h.queued.settled.length ▸ h.queued.settled.outEnd_le
  constructor
  · intro hv
    have hmem := (h.mem_order hall).2 ⟨hin.lt hv, h.claimed hphase hv⟩
    obtain ⟨j, hj⟩ := List.getElem?_of_mem hmem
    have hlt := (List.getElem?_eq_some_iff.1 hj).1
    rw [h.queued.settled.length] at hlt
    rw [h.order_eq hall hlt] at hj
    obtain rfl := Option.some.inj hj
    refine ⟨j, ?_, hlt, rfl⟩
    by_contra hlow
    have hj' : j < (c.depthIndex ++ [c.queue.sharedOutEnd]).getD (d + 1 + 1) 0 := by
      rw [h.starts.2]
      omega
    obtain ⟨i, hi, hat⟩ := h.levels.exists_level le_rfl hj'
    exact hi.ne (hat.unique hv)
  · rintro ⟨j, hle, hlt, rfl⟩
    have hj := h.order_eq hall hlt
    obtain ⟨i, hi, hd, hat⟩ := h.distances.atDist
      ((h.mem_order hall).1 (List.mem_of_getElem? hj)).2
    rcases hi.lt_or_eq with hlow | rfl
    · -- a vertex of an earlier level is in the queue before
      obtain ⟨j', -, hj', heq⟩ := (h.levels.level i (by omega) _).1 hat
      have hj'' := hj'.trans_le (h.levels.le (show i + 2 ≤ d + 2 by omega) le_rfl)
      rw [h.starts.2] at hj''
      have hsame : order[j']? = order[j]? := by
        rw [hj, h.order_eq hall (hj''.trans_le hend), heq]
      have := (List.getElem?_inj (h.queued.settled.length ▸ hj''.trans_le hend) h.queued.nodup).1 hsame
      omega
    · exact hat

/-- At the barrier the queue is cut into one level more. -/
lemma Inv.next_levels :
    Levels nbrs source (c.depthIndex ++ [c.queue.sharedOutEnd] ++ [c.queue.sharedIn]) c.queue.shared (d + 1) := by
  refine h.levels.succ ?_ fun v => ?_
  · rw [h.starts.2, ← h.queued.settled.length]
    exact h.queued.settled.outEnd_le
  · rw [h.starts.2]
    exact h.next_level hin hphase hall

/-- The window slides to the next level. -/
lemma Inv.slide (hne : c.queue.sharedOutEnd ≠ c.queue.sharedIn) :
    Inv nbrs prefixes numNodes source order prog (d + 1)
      { c with queue := c.queue.slideWindow }.loopHead := by
  have hloop : ({ c with queue := c.queue.slideWindow } : Config n).loopHead =
      { c with
        queue := c.queue.slideWindow
        depthIndex := c.depthIndex ++ [c.queue.sharedOutEnd]
        depth := c.depth + 1
        phase := .loop
        todo := Finset.Ico c.queue.sharedOutEnd c.queue.sharedIn
        threads := fun i => { c.threads i with pc := .idle } } := if_neg hne
  have hlevel : ∀ {v}, AtDist nbrs source (d + 1) v ↔ _ := h.next_level hin hphase hall
  rw [hloop]
  refine ⟨?_, by simp, h.distances.succ fun v hv => h.claimed hphase hv, ?_, h.next_levels hin hphase hall, ?_,
    ?_, ?_⟩
  · show c.depth + 1 = _
    rw [h.depth]
    push_cast
    ring
  · refine ⟨h.queued.settled.slideWindow h.queued.filled fun i => (hall i).2, ?_,
      fun i => .of_none (hall i).2, h.queued.filled⟩
    · have hheld : ∀ j, ({ c.threads j with pc := .idle } : Thread).held nbrs = (c.threads j).held nbrs :=
        fun j => by simp only [Thread.held, (hall j).1, Pc.claimed]
      simp only [hheld]
      exact h.queued.members
  · have hstarts := h.starts.2
    exact hstarts
  · refine ⟨fun i => ?_, fun pos hpos => ?_, fun i j u hi => (by cases hi), fun i u hi => (by cases hi),
      fun u hu => ?_, fun u j hj hu => h.done hphase (Nat.le_of_lt_succ hj) hu, fun u hu => ?_, h.working.seen,
      fun _ i => by simp, fun hflush => by cases hflush⟩
    · exact .of_vertex_none rfl (fun hne => absurd (hall i).2 hne) fun hfl => by cases hfl
    · obtain ⟨hlow, hhigh⟩ := Finset.mem_Ico.1 hpos
      refine ⟨hlow, hhigh, ?_⟩
      by_contra hne
      obtain ⟨j, hj, hat⟩ := h.working.after _ (Nat.pos_of_ne_zero hne)
      have := hat.unique (hlevel.2 ⟨pos, hlow, hhigh, rfl⟩)
      omega
    · obtain ⟨pos, hlow, hhigh, heq⟩ := hlevel.1 hu
      exact .inr (.inl ⟨pos, Finset.mem_Ico.2 ⟨hlow, hhigh⟩, heq⟩)
    · obtain ⟨j, hj, hat⟩ := h.working.after u hu
      exact ⟨j, by omega, hat⟩
  · exact h.counted.congr rfl rfl fun j => by rw [(hall j).1]; rfl

/-- There is no next level: the search is over. -/
lemma Inv.found (heq : c.queue.sharedOutEnd = c.queue.sharedIn) :
    Found nbrs prefixes numNodes source { c with queue := c.queue.slideWindow }.loopHead := by
  have hloop : ({ c with queue := c.queue.slideWindow } : Config n).loopHead =
      { c with
        queue := c.queue.slideWindow
        depthIndex := c.depthIndex ++ [c.queue.sharedOutEnd]
        phase := .done } := if_pos heq
  -- nothing is further away than the last window
  have hempty : ∀ m v, ¬ AtDist nbrs source (d + 1 + m) v := by
    intro m
    induction m with
    | zero =>
      intro v hv
      obtain ⟨j, hlow, hhigh, -⟩ := (h.next_level hin hphase hall).1 hv
      omega
    | succ m ih =>
      intro v hv
      obtain ⟨u, hu, -⟩ := AtDist.pred (d := d + 1 + m) hv
      exact ih u hu
  have hfar : ∀ v, Reachable nbrs source v → dist nbrs source v ≤ d := by
    intro v hv
    by_contra hlt
    exact hempty (dist nbrs source v - (d + 1)) v ⟨hv, by omega⟩
  have hdone : ∀ u v, Tight nbrs source u v → prog u = (nbrs u).length := fun u v ht =>
    h.done hphase (hfar u ht.1) ⟨ht.1, rfl⟩
  rw [hloop]
  refine ⟨rfl, ⟨(h.working.flush hphase).1, hall⟩, fun u hu k v hv => ?_, fun v => ?_, d, h.levels, hfar,
    fun j hj k hk hjk => ?_⟩
  · rw [show _ = c.succ from rfl, h.counted.bits u hu k v hv, and_iff_left_iff_imp]
    intro ht
    rw [hdone u v ht]
    exact .inl (List.getElem?_eq_some_iff.1 hv).1
  · exact (h.counted.counts v).trans (hin.credits_eq fun u ht => hdone u v ht)
  · have hstarts := h.starts.2
    exact h.queued.inj (lt_of_lt_of_eq hj hstarts) (lt_of_lt_of_eq hk hstarts) hjk

end Slide

end Bc

end Dgap
