import Dgap.Bc.Level

/-!
# The result of the search

In every run of `PBFS` each step keeps `Inv` until the search is over (`step_inv`), and lowers what is left
of the levels or of the work in the level (`step_lt`); a team that has a thread is never stuck
(`exists_step`). So every run ends, with the edges of the shortest paths as the successor bits, the numbers
of shortest paths as the counts and the levels as the slices of the queue (`pbfs_shortest_paths`).
-/

namespace Dgap

namespace Bc

open Multigraph

variable {n : ℕ} {nbrs : ℕ → List ℕ} {prefixes : ℕ → ℤ} {numNodes source d : ℕ} {prog : ℕ → ℕ}
  {order : List ℕ} {c c' : Config n}

section Init

variable (shared : ℕ → ℕ)

/-- The queue in which the source is pushed. -/
lemma start_cell : (Config.start n source shared).queue.shared 0 = source := by
  show Function.update shared 0 source 0 = source
  rw [Function.update_self]

/-- At the start the source is queued. -/
lemma Queued.init (hin : Input nbrs prefixes numNodes source) :
    Queued nbrs numNodes [source] (Config.start n source shared) := by
  have hcells : ∀ j x, [source][j]? = some x → (Config.start n source shared).queue.shared j = x := by
    intro j x hx
    obtain _ | j := j
    · cases hx
      exact start_cell shared
    · cases hx
  refine ⟨⟨rfl, le_rfl, fun j _ => hcells j⟩, ?_, fun i => .of_none rfl, fun j x hx => .inl (hcells j x hx)⟩
  have hfilter : (Finset.range numNodes).filter
      (fun v => Function.update (fun _ => (-1 : ℤ)) source 0 v ≠ -1) = {source} := by
    ext v
    rw [Finset.mem_filter, Finset.mem_range, Finset.mem_singleton]
    by_cases hv : v = source
    · subst hv
      rw [Function.update_self]
      exact ⟨fun _ => rfl, fun _ => ⟨hin.source, by decide⟩⟩
    · rw [Function.update_of_ne hv]
      exact ⟨fun h => absurd rfl h.2, fun h => absurd h hv⟩
  refine Eq.trans ?_ (congrArg Finset.val hfilter).symm
  refine (congrArg (_ + ·) (Finset.sum_eq_zero fun i _ => ?_)).trans (add_zero _)
  rfl

/-- The source is the first level. -/
lemma Levels.init : Levels nbrs source [0, 0, 1] (Config.start n source shared).queue.shared 0 := by
  refine ⟨rfl, ⟨rfl, rfl⟩, fun j hj => ?_, fun j hj v => ?_⟩
  · interval_cases j
    · exact Nat.le_refl 0
    · exact Nat.zero_le 1
  · obtain rfl := Nat.le_zero.1 hj
    rw [atDist_zero]
    constructor
    · rintro rfl
      exact ⟨0, le_rfl, Nat.zero_lt_one, start_cell shared⟩
    · rintro ⟨i, -, hi, rfl⟩
      obtain rfl : i = 0 := Nat.lt_one_iff.1 hi
      exact start_cell shared

/-- At the start only the source is counted. -/
lemma Counted.init :
    Counted nbrs prefixes numNodes source (fun _ => 0) (Config.start n source shared) := by
  refine ⟨fun u _ k v _ => ?_, fun v => ?_⟩
  · rw [show (Config.start n source shared).succ = .reset from rfl, Bitmap.getBit_reset]
    refine ⟨fun h => (by cases h), ?_⟩
    rintro ⟨-, hlt | ⟨i, hi⟩⟩
    · exact absurd hlt (Nat.not_lt_zero k)
    · cases hi
  · have hcredits : credits nbrs numNodes source (fun _ => 0) v = 0 := by
      refine Finset.sum_eq_zero fun u _ => ?_
      rw [List.take_zero, List.count_nil, Nat.cast_zero, zero_mul]
    rw [hcredits, add_zero]
    exact Function.update_apply (fun _ => (0 : BitVec 32)) source 1 v

/-- The state in which the team begins. -/
lemma Inv.init (hin : Input nbrs prefixes numNodes source) :
    Inv nbrs prefixes numNodes source [source] (fun _ => 0) 0 (Config.start n source shared).loopHead := by
  have hloop : (Config.start n source shared).loopHead =
      { Config.start n source shared with
        depthIndex := [0, 0]
        depth := 0 + 1
        phase := .loop
        todo := Finset.Ico 0 1 } := rfl
  rw [hloop]
  refine ⟨by norm_num, by simp, .init, (Queued.init shared hin).congr rfl rfl (fun _ => rfl) fun _ => rfl,
    Levels.init (n := n) shared, rfl, ?_, (Counted.init shared).congr rfl rfl fun _ => rfl⟩
  refine ⟨fun i => .of_vertex_none rfl (fun hne => absurd rfl hne) fun hfl => (by cases hfl),
    fun pos hpos => ?_, fun i j u hi => (by cases hi), fun i u hi => (by cases hi), fun u hu => ?_,
    fun u j hj => absurd hj (Nat.not_lt_zero j), fun u hu => absurd hu (lt_irrefl 0),
    fun u k v hk => absurd hk (Nat.not_lt_zero k), fun _ i => by simp [Config.start],
    fun hflush => by cases hflush⟩
  · obtain ⟨hlow, hhigh⟩ := Finset.mem_Ico.1 hpos
    exact ⟨hlow, hhigh, rfl⟩
  · obtain rfl := atDist_zero.1 hu
    exact .inr (.inl ⟨0, Finset.mem_Ico.2 ⟨le_rfl, Nat.zero_lt_one⟩, start_cell (n := n) shared⟩)

end Init

/-- A step goes on with the search, or ends it. -/
lemma step_inv (hin : Input nbrs prefixes numNodes source)
    (h : Inv nbrs prefixes numNodes source order prog d c) (hstep : Step nbrs prefixes c c') :
    (∃ order prog d, Inv nbrs prefixes numNodes source order prog d c') ∨
      Found nbrs prefixes numNodes source c' := by
  cases hstep with
  | take hpc hpos => exact .inl ⟨_, _, _, h.take hpc hpos⟩
  | copy hcopy => exact .inl ⟨_, _, _, h.copy hcopy⟩
  | edge hcopy hpc hv =>
    obtain ⟨order', prog', h'⟩ := h.edge hin hcopy hpc hv
    exact .inl ⟨_, _, _, h'⟩
  | flush hcopy hpc hphase => exact .inl ⟨_, _, _, h.flush hcopy hpc hphase⟩
  | endLoop hphase htodo hpc => exact .inl ⟨_, _, _, h.endLoop htodo hpc⟩
  | slide hphase hall =>
    by_cases heq : c.queue.sharedOutEnd = c.queue.sharedIn
    · exact .inr (h.found hin hphase hall heq)
    · exact .inl ⟨_, _, _, h.slide hin hphase hall heq⟩

/-- When the search is over no step is possible. -/
lemma Found.no_step (h : Found nbrs prefixes numNodes source c) : ¬ Step nbrs prefixes c c' := by
  intro hstep
  cases hstep with
  | @take i pos hpc hpos =>
    rw [h.quiet.1] at hpos
    cases hpos
  | @copy i r hcopy => exact QueueBuffer.copyStep_copying hcopy (h.quiet.2 i).2
  | @edge i u k v stage hcopy hpc hv =>
    rw [(h.quiet.2 i).1] at hpc
    cases hpc
  | @flush i hcopy hpc hphase =>
    rw [h.phase] at hphase
    cases hphase
  | endLoop hphase htodo hpc =>
    rw [h.phase] at hphase
    cases hphase
  | slide hphase hall =>
    rw [h.phase] at hphase
    cases hphase

/-- A state of a run: the search goes on, or it is over. -/
lemma reach_inv (hin : Input nbrs prefixes numNodes source) (h : (pbfs n nbrs prefixes source).Reach c) :
    (∃ order prog d, Inv nbrs prefixes numNodes source order prog d c) ∨
      Found nbrs prefixes numNodes source c := by
  induction h with
  | init hinit =>
    obtain ⟨shared, rfl⟩ := hinit
    exact .inl ⟨_, _, _, .init shared hin⟩
  | @step c a c' _ hstep ih =>
    have hstep' := act_step.1 ⟨a, hstep⟩
    rcases ih with ⟨order, prog, d, h⟩ | h
    · exact step_inv hin h hstep'
    · exact absurd hstep' h.no_step

section Ends

/-- How many steps are left of a statement and those behind it. -/
def Stage.rank : Stage → ℕ
  | .check => 9
  | .cas => 8
  | .push => 7
  | .test => 3
  | .setBit => 2
  | .load => 1
  | .add _ => 0

/-- How many steps of a thread are left in the level, but for its buffer. -/
def Pc.work (nbrs : ℕ → List ℕ) : Pc → ℕ
  | .edge u k stage => 10 * ((nbrs u).length - k) + stage.rank + 2
  | .idle => 2
  | .flushed => 0

/-- How many steps of a thread are left in the level. -/
def Thread.work (nbrs : ℕ → List ℕ) (t : Thread) : ℕ := t.pc.work nbrs + t.buffer.work

/-- What is left of the level. -/
def Config.work (nbrs : ℕ → List ℕ) (c : Config n) : ℕ :=
  ∑ pos ∈ c.todo, (10 * (nbrs (c.queue.shared pos)).length + 12) + ∑ i, (c.threads i).work nbrs +
    if c.phase = .loop then 1 else 0

/-- What is left of the levels. -/
def Config.levelsLeft (numNodes : ℕ) (c : Config n) : ℕ :=
  if c.phase = .done then 0 else numNodes + 1 - c.queue.sharedOutEnd

/-- What is left of the search. -/
def Config.measure (nbrs : ℕ → List ℕ) (numNodes : ℕ) (c : Config n) : ℕ ×ₗ ℕ :=
  toLex (c.levelsLeft numNodes, c.work nbrs)

/-- The iteration over the next destination is less than the one that ends. -/
lemma visit_work {u k : ℕ} (hk : k < (nbrs u).length) :
    (visit nbrs u (k + 1)).work nbrs < 10 * ((nbrs u).length - k) + 2 := by
  rw [visit]
  split_ifs with hk'
  · show 10 * ((nbrs u).length - (k + 1)) + 9 + 2 < _
    omega
  · show 2 < _
    omega

variable {i : Fin n} {t : Thread}

/-- A step of a thread leaves it less to do. -/
lemma measure_lt (ht : t.work nbrs < (c.threads i).work nbrs)
    (hthreads : c'.threads = (c.setThread i t).threads) (htodo : c'.todo = c.todo) (hphase : c'.phase = c.phase)
    (hend : c'.queue.sharedOutEnd = c.queue.sharedOutEnd)
    (hshared : ∀ pos ∈ c.todo, c'.queue.shared pos = c.queue.shared pos) :
    c'.measure nbrs numNodes < c.measure nbrs numNodes := by
  have hsum := sum_setThread (·.work nbrs) c i t
  have hpos : ∑ pos ∈ c.todo, (10 * (nbrs (c'.queue.shared pos)).length + 12) =
      ∑ pos ∈ c.todo, (10 * (nbrs (c.queue.shared pos)).length + 12) :=
    Finset.sum_congr rfl fun pos hpos => by rw [hshared pos hpos]
  refine Prod.Lex.toLex_lt_toLex.2 (.inr ⟨?_, ?_⟩)
  · simp only [Config.levelsLeft, hphase, hend]
  · simp only [Config.work, hthreads, htodo, hphase, hpos]
    omega

/-- A statement of the body of the loop lowers what is left. -/
lemma edge_lt {u k v : ℕ} {stage : Stage} (hcopy : (c.threads i).buffer.copying = none)
    (hpc : (c.threads i).pc = .edge u k stage) (hv : (nbrs u)[k]? = some v) :
    (c.edgeStep nbrs prefixes i u k v stage).measure nbrs numNodes < c.measure nbrs numNodes := by
  have hk := (List.getElem?_eq_some_iff.1 hv).1
  have hwork : (c.threads i).work nbrs = 10 * ((nbrs u).length - k) + stage.rank + 2 +
      (c.threads i).buffer.work := by
    rw [Thread.work, hpc]
    rfl
  -- a statement that only moves the thread on
  have hgoto : ∀ {pc : Pc}, pc.work nbrs < 10 * ((nbrs u).length - k) + stage.rank + 2 →
      ({ c.threads i with pc } : Thread).work nbrs < (c.threads i).work nbrs := by
    intro pc hlt
    rw [hwork]
    exact Nat.add_lt_add_right hlt _
  have hstage : ∀ {stage' : Stage}, stage'.rank < stage.rank →
      (Pc.edge u k stage').work nbrs < 10 * ((nbrs u).length - k) + stage.rank + 2 := by
    intro stage' hlt
    rw [Pc.work]
    omega
  have hvisit := visit_work hk
  cases stage with
  | check =>
    rw [Config.edgeStep]
    refine measure_lt (hgoto ?_) rfl rfl rfl rfl fun _ _ => rfl
    split_ifs <;> exact hstage (by decide)
  | cas =>
    rw [Config.edgeStep]
    split_ifs
    · exact measure_lt (hgoto (hstage (by decide))) rfl rfl rfl rfl fun _ _ => rfl
    · exact measure_lt (hgoto (hstage (by decide))) rfl rfl rfl rfl fun _ _ => rfl
  | push =>
    rw [Config.edgeStep]
    split_ifs with hfull
    · refine measure_lt ?_ rfl rfl rfl rfl fun _ _ => rfl
      obtain ⟨hnew, hold⟩ := QueueBuffer.work_reserve hcopy c.queue
      have hsize : (c.threads i).buffer.localQueue.length = 16384 := hfull
      rw [hwork, Thread.work, Pc.work, hnew, hold]
      omega
    · refine measure_lt ?_ rfl rfl rfl rfl fun _ _ => rfl
      rw [hwork, Thread.work, Pc.work, QueueBuffer.work_append hcopy]
      simp only [Stage.rank]
      omega
  | test =>
    rw [Config.edgeStep]
    refine measure_lt (hgoto ?_) rfl rfl rfl rfl fun _ _ => rfl
    split_ifs
    · exact hstage (by decide)
    · exact hvisit.trans_le (by omega)
  | setBit => exact measure_lt (hgoto (hstage (by decide))) rfl rfl rfl rfl fun _ _ => rfl
  | load => exact measure_lt (hgoto (hstage (by simp [Stage.rank]))) rfl rfl rfl rfl fun _ _ => rfl
  | add x => exact measure_lt (hgoto (hvisit.trans_le (by omega))) rfl rfl rfl rfl fun _ _ => rfl

/-- An iteration that starts is less than the position of the frontier it takes. -/
lemma take_lt (hpc : (c.threads i).pc = .idle) {pos : ℕ} (hpos : pos ∈ c.todo) :
    ({ c.goto i (visit nbrs (c.queue.shared pos) 0) with todo := c.todo.erase pos } : Config n).measure nbrs
      numNodes < c.measure nbrs numNodes := by
  have hsum := sum_setThread (·.work nbrs) c i ⟨visit nbrs (c.queue.shared pos) 0, (c.threads i).buffer⟩
  have htodo := Finset.add_sum_erase c.todo
    (fun pos => 10 * (nbrs (c.queue.shared pos)).length + 12) hpos
  have hvisit : (visit nbrs (c.queue.shared pos) 0).work nbrs ≤
      10 * (nbrs (c.queue.shared pos)).length + 11 := by
    rw [visit]
    split_ifs
    · exact le_rfl
    · exact Nat.le_add_left_of_le (Nat.le_add_left 2 9)
  have hold : (c.threads i).work nbrs = 2 + (c.threads i).buffer.work := by
    rw [Thread.work, hpc]
    rfl
  have hnew : Thread.work nbrs ⟨visit nbrs (c.queue.shared pos) 0, (c.threads i).buffer⟩ =
      (visit nbrs (c.queue.shared pos) 0).work nbrs + (c.threads i).buffer.work := rfl
  rw [hnew, hold] at hsum
  refine Prod.Lex.toLex_lt_toLex.2 (.inr ⟨rfl, ?_⟩)
  show ∑ p ∈ c.todo.erase pos, (10 * (nbrs (c.queue.shared p)).length + 12) +
    ∑ j, ((c.setThread i ⟨visit nbrs (c.queue.shared pos) 0, (c.threads i).buffer⟩).threads j).work nbrs +
      (if c.phase = .loop then 1 else 0) < c.work nbrs
  rw [Config.work]
  omega

/-- A level that ends leaves fewer levels. -/
lemma slide_lt (h : Inv nbrs prefixes numNodes source order prog d c) (hphase : c.phase = .flush) :
    ({ c with queue := c.queue.slideWindow } : Config n).loopHead.measure nbrs numNodes <
      c.measure nbrs numNodes := by
  have hend := h.queued.settled.outEnd_le
  have hlen := h.queued.settled.length
  have hle := h.queued.length_le
  refine Prod.Lex.toLex_lt_toLex.2 (.inl ?_)
  have hold : c.levelsLeft numNodes = numNodes + 1 - c.queue.sharedOutEnd := by
    rw [Config.levelsLeft, hphase]
    rfl
  by_cases heq : c.queue.sharedOutEnd = c.queue.sharedIn
  · have hnew : ({ c with queue := c.queue.slideWindow } : Config n).loopHead.levelsLeft numNodes = 0 := by
      rw [Config.loopHead]
      exact (congrArg (Config.levelsLeft numNodes) (if_pos heq)).trans rfl
    show _ < c.levelsLeft numNodes
    rw [hold]
    refine lt_of_eq_of_lt hnew ?_
    omega
  · have hnew : ({ c with queue := c.queue.slideWindow } : Config n).loopHead.levelsLeft numNodes =
        numNodes + 1 - c.queue.sharedIn := by
      rw [Config.loopHead]
      exact (congrArg (Config.levelsLeft numNodes) (if_neg heq)).trans rfl
    show _ < c.levelsLeft numNodes
    rw [hold]
    refine lt_of_eq_of_lt hnew ?_
    omega

/-- Every step lowers what is left. -/
lemma step_lt (h : Inv nbrs prefixes numNodes source order prog d c) (hstep : Step nbrs prefixes c c') :
    c'.measure nbrs numNodes < c.measure nbrs numNodes := by
  cases hstep with
  | take hpc hpos => exact take_lt hpc hpos
  | @copy i r hcopy =>
    refine measure_lt (Nat.add_lt_add_left (QueueBuffer.copyStep_work hcopy) _) rfl rfl rfl
      (QueueBuffer.copyStep_window hcopy).2.2 fun p hp => ?_
    exact h.queued.copy_seen hcopy (h.working.todo p hp).2.1
  | edge hcopy hpc hv => exact edge_lt hcopy hpc hv
  | @flush i hcopy hpc hphase =>
    refine measure_lt (i := i) ?_ rfl rfl rfl rfl fun _ _ => rfl
    obtain ⟨hnew, hold⟩ := QueueBuffer.work_reserve hcopy c.queue
    rw [Thread.work, Thread.work, hpc, Pc.work, Pc.work, hnew, hold]
    omega
  | endLoop hphase htodo hpc =>
    refine Prod.Lex.toLex_lt_toLex.2 (.inr ⟨?_, ?_⟩)
    · simp [Config.levelsLeft, hphase]
    · simp [Config.work, hphase]
  | slide hphase _ => exact slide_lt h hphase

/-- A team that has a thread can go on until the search is over. -/
lemma exists_step (hn : 0 < n) (h : Inv nbrs prefixes numNodes source order prog d c) :
    ∃ c', Step nbrs prefixes c c' := by
  by_cases hcopy : ∀ i, (c.threads i).buffer.copying = none
  · by_cases hedge : ∀ i, (c.threads i).pc.vertex? = none
    · cases hphase : c.phase with
      | loop =>
        have hidle : ∀ i, (c.threads i).pc = .idle := by
          intro i
          have hi := hedge i
          have hfl := h.working.loop hphase i
          generalize (c.threads i).pc = pc at hi hfl
          cases pc with
          | idle => rfl
          | edge => cases hi
          | flushed => exact absurd rfl hfl
        rcases c.todo.eq_empty_or_nonempty with htodo | ⟨pos, hpos⟩
        · exact ⟨_, .endLoop hphase htodo hidle⟩
        · exact ⟨_, .take (hidle ⟨0, hn⟩) hpos⟩
      | flush =>
        by_cases hall : ∀ i, (c.threads i).pc = .flushed
        · exact ⟨_, .slide hphase fun i => ⟨hall i, hcopy i⟩⟩
        · push Not at hall
          obtain ⟨i, hi⟩ := hall
          have hnone := hedge i
          refine ⟨_, .flush (i := i) (hcopy i) ?_ hphase⟩
          generalize (c.threads i).pc = pc at hi hnone
          cases pc with
          | idle => rfl
          | edge => cases hnone
          | flushed => exact absurd rfl hi
      | done => exact absurd hphase h.phase
    · push Not at hedge
      obtain ⟨i, hi⟩ := hedge
      obtain ⟨u, hu⟩ := Option.ne_none_iff_exists'.1 hi
      obtain ⟨k, stage, hpc⟩ := Pc.exists_edge hu
      obtain ⟨-, -, v, hv, -⟩ := (h.working.threads i).edge u k stage hpc
      exact ⟨_, .edge (hcopy i) hpc hv⟩
  · push Not at hcopy
    obtain ⟨i, hi⟩ := hcopy
    rw [← QueueBuffer.copyStep_eq_none (q := c.queue).ne] at hi
    obtain ⟨r, hr⟩ := Option.ne_none_iff_exists'.1 hi
    exact ⟨_, .copy hr⟩

/-- No run goes on forever. -/
lemma reach_acc (hin : Input nbrs prefixes numNodes source) (h : (pbfs n nbrs prefixes source).Reach c) :
    Acc (fun c' c => ∃ a, (pbfs n nbrs prefixes source).step c a c') c := by
  refine h.acc (m := Config.measure nbrs numNodes) fun c a c' hc hstep => ?_
  have hstep' := act_step.1 ⟨a, hstep⟩
  rcases reach_inv hin hc with ⟨order, prog, d, hinv⟩ | hfound
  · exact step_lt hinv hstep'
  · exact absurd hstep' hfound.no_step

/-- A run that cannot go on is over. -/
lemma reach_exists_step (hn : 0 < n) (hin : Input nbrs prefixes numNodes source)
    (h : (pbfs n nbrs prefixes source).Reach c) (hphase : c.phase ≠ .done) :
    ∃ a c', (pbfs n nbrs prefixes source).step c a c' := by
  rcases reach_inv hin h with ⟨order, prog, d, hinv⟩ | hfound
  · obtain ⟨c', hstep⟩ := exists_step hn hinv
    obtain ⟨a, ha⟩ := act_step.2 hstep
    exact ⟨a, c', ha⟩
  · exact absurd hfound.phase hphase

/-- Every run can be continued to the end of the search. -/
lemma exists_done (hn : 0 < n) (hin : Input nbrs prefixes numNodes source)
    (h : (pbfs n nbrs prefixes source).Reach c) :
    ∃ c', (pbfs n nbrs prefixes source).Reach c' ∧ c'.phase = .done := by
  induction reach_acc hin h with
  | intro c _ ih =>
    by_cases hphase : c.phase = .done
    · exact ⟨c, h, hphase⟩
    · obtain ⟨a, c', hstep⟩ := reach_exists_step hn hin h hphase
      exact ih c' ⟨a, hstep⟩ (.step h hstep)

end Ends

/-- The slice of the queue between two entries of `depthIndex`. -/
def Config.slice (c : Config n) (j : ℕ) : List ℕ :=
  (List.range' (c.depthIndex.getD j 0) (c.depthIndex.getD (j + 1) 0 - c.depthIndex.getD j 0)).map
    c.queue.shared

/-- What `PBFS` is for: the successor bits are the edges that lead one level on, the counts are the numbers
of shortest paths modulo 2^32, and the slices of the queue are an empty one and then the levels, each
vertex once. -/
structure Searched (nbrs : ℕ → List ℕ) (prefixes : ℕ → ℤ) (numNodes source : ℕ) (c : Config n) : Prop where
  bits : ∀ u < numNodes, ∀ k v, (nbrs u)[k]? = some v →
    (c.succ.getBit (getEdgeId prefixes u k).toNat = true ↔
      Reachable nbrs source u ∧ dist nbrs source v = dist nbrs source u + 1)
  counts : ∀ v < numNodes, Reachable nbrs source v →
    c.pathCounts v = BitVec.ofNat 32 (numShortestPaths nbrs source v)
  zero : ∀ v < numNodes, ¬ Reachable nbrs source v → c.pathCounts v = 0
  first : c.slice 0 = []
  slices : ∀ j, j + 2 < c.depthIndex.length → (c.slice (j + 1)).Nodup ∧
    ∀ v, v ∈ c.slice (j + 1) ↔ Reachable nbrs source v ∧ dist nbrs source v = j
  all : ∀ v, Reachable nbrs source v → dist nbrs source v + 2 < c.depthIndex.length

/-- The end of the search. -/
lemma Found.searched (hin : Input nbrs prefixes numNodes source)
    (h : Found nbrs prefixes numNodes source c) : Searched nbrs prefixes numNodes source c := by
  obtain ⟨d, hlevels, hfar, hinj⟩ := h.levels
  have hlen := hlevels.length
  refine ⟨h.bits, fun v _ _ => h.counts v, fun v _ hv => ?_, ?_, fun j hj => ⟨?_, fun v => ?_⟩, fun v hv => ?_⟩
  · rw [h.counts v, pathCount, numShortestPaths_of_not_reachable hin.source_mem hin.range_closed hv]
    rfl
  · rw [Config.slice, hlevels.first.1, hlevels.first.2]
    rfl
  · have hle := hlevels.le (show j + 1 + 1 ≤ d + 2 by omega) le_rfl
    refine List.Nodup.map_on (fun x hx y hy hxy => hinj ?_ ?_ hxy) (List.nodup_range' ..)
    · rw [List.mem_range'_1] at hx
      rw [Set.mem_Iio]
      omega
    · rw [List.mem_range'_1] at hy
      rw [Set.mem_Iio]
      omega
  · have hle := hlevels.mono (j + 1) (by omega)
    refine Iff.trans ?_ (hlevels.level j (by omega) v).symm
    rw [Config.slice, List.mem_map, show j + 2 = j + 1 + 1 from rfl]
    refine exists_congr fun i => ?_
    rw [List.mem_range'_1, and_assoc]
    refine and_congr_right fun hi => and_congr_left fun _ => ?_
    omega
  · have := hfar v hv
    omega

/-- In every DGAP graph the ids of the edges are different numbers below `num_edges_directed`, and `PBFS`
ends in every run with the successors, the path counts and the levels of the source. -/
theorem pbfs_shortest_paths {g : Graph} {adj : ℕ → List ℕ} (h : g.Layout adj)
    (hids : ∀ u < g.numVertices, ∀ v ∈ adj u, v < g.numVertices) {s : PrefixSum.Schedule ℤ}
    (hs : s.Covers blockSize g.numVertices) {source : ℕ} (hsource : source < g.numVertices)
    {numThreads : ℕ} (hthreads : 0 < numThreads) :
    (∀ u < g.numVertices, (g.outNeigh u 0).Yields ((g.neighbors u).map (↑)) ∧ (g.neighbors u).Perm (adj u) ∧
      g.outDegree u = (g.neighbors u).length) ∧
    (∀ u < g.numVertices, ∀ k : ℕ, k < g.outDegree u → 0 ≤ getEdgeId (edgePrefix g s) u k ∧
      getEdgeId (edgePrefix g s) u k < g.numEdgesDirected) ∧
    (∀ u < g.numVertices, ∀ k : ℕ, k < g.outDegree u → ∀ u' < g.numVertices, ∀ k' : ℕ, k' < g.outDegree u' →
      getEdgeId (edgePrefix g s) u k = getEdgeId (edgePrefix g s) u' k' → u = u' ∧ k = k') ∧
    ∀ c, (pbfs numThreads g.neighbors (edgePrefix g s) source).Reach c →
      Acc (fun c' c => ∃ a, (pbfs numThreads g.neighbors (edgePrefix g s) source).step c a c') c ∧
      (c.phase ≠ .done → ∃ a c', (pbfs numThreads g.neighbors (edgePrefix g s) source).step c a c') ∧
      (c.phase = .done → Searched g.neighbors (edgePrefix g s) g.numVertices source c) := by
  have hnbrs := fun u hu => h.neighbors (u := u) hu
  have hsums := fun i hi => edgePrefix_eq h hs (i := i) hi
  have hnum : Numbered g.neighbors (edgePrefix g s) g.numVertices := .of_sums hsums
  have hin : Input g.neighbors (edgePrefix g s) g.numVertices source :=
    ⟨hsource, fun u hu v hv => hids u hu v ((hnbrs u hu).2.1.subset hv), hnum⟩
  have hlt : ∀ u < g.numVertices, ∀ k : ℕ, k < g.outDegree u → k < (g.neighbors u).length := by
    intro u hu k hk
    rw [(hnbrs u hu).2.2] at hk
    exact_mod_cast hk
  refine ⟨hnbrs, fun u hu k hk => ⟨hnum.nonneg u hu k (hlt u hu k hk), ?_⟩, fun u hu k hk u' hu' k' hk' =>
    hnum.inj u hu k (hlt u hu k hk) u' hu' k' (hlt u' hu' k' hk'), fun c hc => ⟨reach_acc hin hc,
      reach_exists_step hthreads hin hc, fun hphase => ?_⟩⟩
  · exact (getEdgeId_lt hsums hu (hlt u hu k hk) hu le_rfl).trans_le (edgePrefix_le h hs)
  · rcases reach_inv hin hc with ⟨order, prog, d, hinv⟩ | hfound
    · exact absurd hphase hinv.phase
    · exact hfound.searched hin

/-- Two vertices with two parallel edges between them, one of them inserted, and two threads. -/
theorem pbfs_shortest_paths_two : ∃ g c, Graph.Run ⟨fun _ => 7, fun _ => .zero⟩ true 0 2 [(0, 1)] [(0, 1)] g ∧
    (pbfs 2 g.neighbors (edgePrefix g ⟨[0], [0], 0, 0, 0⟩) 0).Reach c ∧ c.phase = .done ∧
    Searched g.neighbors (edgePrefix g ⟨[0], [0], 0, 0, 0⟩) 2 0 c := by
  obtain ⟨g, hg⟩ : ∃ g, Graph.Run ⟨fun _ => 7, fun _ => .zero⟩ true 0 2 [(0, 1)] [(0, 1)] g :=
    Graph.Run.exists_of_bound _ _ _ (by decide) (by decide) (by decide) (by decide) (by decide)
  have hn : g.numVertices = 2 := by
    rw [hg.numVertices]
    decide
  have hids : ∀ u < g.numVertices, ∀ v ∈ Multigraph.ofEdges ([(0, 1)] ++ [(0, 1)]) u, v < g.numVertices := by
    rw [hn]
    decide
  have hcovers : (⟨[0], [0], 0, 0, 0⟩ : PrefixSum.Schedule ℤ).Covers blockSize g.numVertices := by
    rw [hn]
    exact ⟨by decide, by decide⟩
  have hsource : 0 < g.numVertices := by omega
  obtain ⟨hnbrs, -, -, hruns⟩ := pbfs_shortest_paths hg.layout hids hcovers hsource
    (show 0 < 2 by decide)
  have hin : Input g.neighbors (edgePrefix g ⟨[0], [0], 0, 0, 0⟩) g.numVertices 0 :=
    ⟨hsource, fun u hu v hv => hids u hu v ((hnbrs u hu).2.1.subset hv),
      .of_sums fun i hi => edgePrefix_eq hg.layout hcovers hi⟩
  obtain ⟨c, hc, hdone⟩ := exists_done (n := 2) (by decide) hin (.init ⟨fun _ => 0, rfl⟩)
  have hsearched := (hruns c hc).2.2 hdone
  rw [hn] at hsearched
  exact ⟨g, c, hg, hc, hdone, hsearched⟩

end Bc

end Dgap
