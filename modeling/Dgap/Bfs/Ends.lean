import Dgap.Bfs.Levels

/-!
# Every run of the search ends

What is left of an iteration is counted in statements; a pushed vertex brings the copy that it will need, and a
flush trades three of these for each cell against one copy (`Thread.rank`). What is left of the run is counted
in levels, and each level is nonempty, so there are fewer levels than vertices.
-/

namespace Dgap

namespace Bfs

open Multigraph

variable (inp : Input)

/-- What is left of the loop over `out_neigh(u)` at a statement of its body. -/
def Stage.rank : Stage → ℕ
  | .load => 3
  | .cas _ => 2
  | .push _ => 1

/-- What is left of a chunk from a vertex on. -/
def chunkRank (chunk u : ℕ) : ℕ :=
  ∑ w ∈ Finset.Ico u (min ((chunk + 1) * chunkSize) inp.numNodes), ((inp.inNeigh w).length + 8)

/-- The number of edges at a position of the queue. -/
def State.edgesAt (s : State) (pos : ℕ) : ℕ := (inp.outNeigh ((s.order[pos]?).getD 0)).length

/-- What is left of an iteration. -/
def Pc.rank (s : State) : Pc → ℕ
  | .idle => 0
  | .init _ => 1
  | .dequeue pos => 7 * s.edgesAt inp pos + 4
  | .edge _ u e stage => 7 * ((inp.outNeigh u).length - e) + stage.rank
  | .flush _ => 3
  | .flushed _ => 1
  | .markLoad _ => 2
  | .mark _ _ => 1
  | .scan chunk u => chunkRank inp chunk u + 1
  | .find chunk u e => chunkRank inp chunk (u + 1) + ((inp.inNeigh u).length - e) + 5
  | .adopt chunk u _ => chunkRank inp chunk (u + 1) + 4
  | .loadWord chunk u => chunkRank inp chunk (u + 1) + 3
  | .storeWord chunk u _ => chunkRank inp chunk (u + 1) + 2
  | .collect _ => 5
  | .enqueue _ => 4
  | .test _ => 2
  | .clear _ => 1

/-- What is left of an iteration, with the copies of what is in the buffer. -/
def Thread.rank (s : State) (t : Thread) : ℕ := t.pc.rank inp s + t.buffer.work

/-- What is left of the loops from a loop on. -/
def left (s : State) : Loop → ℕ
  | .init => 10 * inp.numNodes + 20
  | .topDown _ _ => 10 * (inp.numNodes - s.level) + 5
  | .flushTopDown => 10 * (inp.numNodes - s.level) + 4
  | .toBitmap _ _ => 10 * (inp.numNodes - s.level) + 7
  | .bottomUp => 10 * (inp.numNodes - s.level) + 6
  | .toQueue => 10 * (inp.numNodes - s.level) + 9
  | .flushToQueue => 10 * (inp.numNodes - s.level) + 8
  | .final => 0

variable {inp} {k : Loop} {s s' : State} {t t' : Thread} {x : ℕ}

/-- A vertex of a chunk, and those behind it. -/
lemma chunkRank_succ {chunk u : ℕ} (h : u < min ((chunk + 1) * chunkSize) inp.numNodes) :
    chunkRank inp chunk u = (inp.inNeigh u).length + 8 + chunkRank inp chunk (u + 1) := by
  rw [chunkRank, Finset.sum_eq_sum_Ico_succ_bot h]
  rfl

/-- Pushing a vertex leaves less, if going on leaves less by more than its copy. -/
lemma pushBack_rank (hcopy : t.buffer.copying = none) {v : ℕ} {pc : Pc} (hpc : pc.rank inp s + 3 < t.pc.rank inp s)
    (hsame : ∀ order, t.pc.rank inp { s with order } = t.pc.rank inp s) :
    (s.pushBack t v pc).2.rank inp (s.pushBack t v pc).1 < t.rank inp s := by
  rw [State.pushBack]
  split_ifs with hfull
  · obtain ⟨hnew, hold⟩ := QueueBuffer.work_reserve hcopy s.queue
    have hpc' : t.pc.rank inp { s with
        queue := (t.buffer.reserve s.queue).1, order := s.order ++ t.buffer.localQueue } = t.pc.rank inp s :=
      hsame _
    have hsize : t.buffer.localQueue.length = 16384 := hfull
    rw [Thread.rank, Thread.rank, hpc', hnew, hold]
    omega
  · show pc.rank inp s + (t.buffer.append v).work < t.pc.rank inp s + t.buffer.work
    rw [QueueBuffer.work_append hcopy]
    omega

/-- A statement of the body of the loop over `out_neigh(u)` leaves less. -/
lemma edgeStep_rank {pos u e v : ℕ} {stage : Stage} (hpc : t.pc = .edge pos u e stage)
    (hcopy : t.buffer.copying = none) (hv : (inp.outNeigh u)[e]? = some v) :
    (s.edgeStep t pos u e v stage).2.rank inp (s.edgeStep t pos u e v stage).1 < t.rank inp s := by
  have hlt := (List.getElem?_eq_some_iff.1 hv).1
  have hold : t.rank inp s = 7 * ((inp.outNeigh u).length - e) + stage.rank + t.buffer.work := by
    rw [Thread.rank, hpc]
    rfl
  -- at the next edge
  have hnext : 7 * ((inp.outNeigh u).length - (e + 1)) + 7 = 7 * ((inp.outNeigh u).length - e) := by omega
  cases stage with
  | load =>
    rw [State.edgeStep, hold]
    split_ifs
    · show 7 * ((inp.outNeigh u).length - e) + 2 + t.buffer.work < _ + 3 + _
      omega
    · show 7 * ((inp.outNeigh u).length - (e + 1)) + 3 + t.buffer.work < _ + 3 + _
      omega
  | cas currVal =>
    rw [State.edgeStep, hold]
    split_ifs
    · show 7 * ((inp.outNeigh u).length - e) + 1 + t.buffer.work < _ + 2 + _
      omega
    · show 7 * ((inp.outNeigh u).length - (e + 1)) + 3 + t.buffer.work < _ + 2 + _
      omega
  | push currVal =>
    rw [State.edgeStep]
    split_ifs with hfull
    · refine pushBack_rank hcopy ?_ fun order => by rw [hpc]; rfl
      rw [hpc]
      show 0 + 3 < 7 * ((inp.outNeigh u).length - e) + 1
      omega
    · rw [hold]
      show 7 * ((inp.outNeigh u).length - (e + 1)) + 3 + (t.buffer.append v).work < _ + 1 + _
      rw [QueueBuffer.work_append hcopy]
      omega

/-- A statement of the loop over a chunk leaves less. -/
lemma scan_rank {chunk u : ℕ} (hpc : t.pc = .scan chunk u) :
    (s.pcStep inp t).2.rank inp (s.pcStep inp t).1 < t.rank inp s := by
  have hold : t.rank inp s = chunkRank inp chunk u + 1 + t.buffer.work := by
    rw [Thread.rank, hpc]
    rfl
  rw [State.pcStep, hpc, hold]
  dsimp only
  split_ifs with hlt hneg
  · show chunkRank inp chunk (u + 1) + ((inp.inNeigh u).length - 0) + 5 + t.buffer.work < _
    rw [chunkRank_succ hlt]
    omega
  · show chunkRank inp chunk (u + 1) + 1 + t.buffer.work < _
    rw [chunkRank_succ hlt]
    omega
  · show 0 + t.buffer.work < _
    omega

/-- A statement of the loop over `in_neigh(u)` leaves less. -/
lemma find_rank {chunk u e : ℕ} (hpc : t.pc = .find chunk u e) :
    (s.pcStep inp t).2.rank inp (s.pcStep inp t).1 < t.rank inp s := by
  have hold : t.rank inp s = chunkRank inp chunk (u + 1) + ((inp.inNeigh u).length - e) + 5 + t.buffer.work := by
    rw [Thread.rank, hpc]
    rfl
  rw [State.pcStep, hpc, hold]
  cases hv : (inp.inNeigh u)[e]? with
  | none =>
    simp only [hv]
    show chunkRank inp chunk (u + 1) + 1 + t.buffer.work < _
    omega
  | some v =>
    have hlt := (List.getElem?_eq_some_iff.1 hv).1
    simp only [hv]
    split_ifs
    · show chunkRank inp chunk (u + 1) + 4 + t.buffer.work < _
      omega
    · show chunkRank inp chunk (u + 1) + ((inp.inNeigh u).length - (e + 1)) + 5 + t.buffer.work < _
      omega

/-- A step of a thread whose buffer is not being copied leaves less. -/
lemma pcStep_rank (hg : Glob inp s k) (hok : t.Ok inp k s) (hcur : t.pc.cur = some x)
    (hcopy : t.buffer.copying = none) : (s.pcStep inp t).2.rank inp (s.pcStep inp t).1 < t.rank inp s := by
  have hpcOk := hok.pc
  cases hpc : t.pc with
  | idle =>
    rw [hpc] at hcur
    cases hcur
  | dequeue pos =>
    rw [hpc] at hpcOk
    obtain ⟨lo, hi, rfl, hlo, hhi⟩ := Loop.TopDownAt.elim hpcOk
    have hget := hg.2.get hg.1.settled hhi
    rw [State.pcStep, Thread.rank, Thread.rank, hpc]
    show 7 * ((inp.outNeigh (s.queue.shared pos)).length - 0) + 3 + t.buffer.work <
      7 * s.edgesAt inp pos + 4 + t.buffer.work
    rw [State.edgesAt, hget, Option.getD_some]
    omega
  | edge pos u e stage =>
    rw [State.pcStep, hpc]
    cases hv : (inp.outNeigh u)[e]? with
    | none =>
      simp only [hv]
      have hstage : 0 < stage.rank := by cases stage <;> exact Nat.succ_pos _
      rw [Thread.rank, Thread.rank, hpc]
      show 0 + t.buffer.work < 7 * ((inp.outNeigh u).length - e) + stage.rank + t.buffer.work
      omega
    | some v =>
      simp only [hv]
      exact edgeStep_rank hpc hcopy hv
  | flush i =>
    obtain ⟨hnew, hold⟩ := QueueBuffer.work_reserve hcopy s.queue
    rw [State.pcStep, Thread.rank, Thread.rank, hpc]
    show 1 + (t.buffer.reserve s.queue).2.work < 3 + t.buffer.work
    omega
  | scan chunk u => exact scan_rank hpc
  | find chunk u e => exact find_rank hpc
  | collect v =>
    rw [State.pcStep, Thread.rank, Thread.rank, hpc]
    dsimp only
    refine Nat.add_lt_add_right ?_ _
    split_ifs
    · exact (by decide : 4 < 5)
    · exact (by decide : 0 < 5)
  | enqueue v =>
    rw [State.pcStep, hpc]
    refine pushBack_rank hcopy ?_ fun order => by rw [hpc]; rfl
    rw [hpc]
    exact (by decide : 3 < 4)
  | test v =>
    rw [State.pcStep, Thread.rank, Thread.rank, hpc]
    dsimp only
    refine Nat.add_lt_add_right ?_ _
    split_ifs
    · exact (by decide : 1 < 2)
    · exact (by decide : 0 < 2)
  | _ =>
    rw [State.pcStep, Thread.rank, Thread.rank, hpc]
    exact Nat.add_lt_add_right (Nat.lt_succ_self _) _

/-- A step of a thread leaves less of its iteration. -/
lemma step_rank (hg : Glob inp s k) (hok : t.Ok inp k s) (hcur : t.pc.cur = some x) :
    (s.step inp t).2.rank inp (s.step inp t).1 < t.rank inp s := by
  rw [State.step]
  cases hcopy : t.buffer.copyStep s.queue with
  | some r =>
    have hpc : t.pc.rank inp { s with queue := r.1 } = t.pc.rank inp s := by cases t.pc <;> rfl
    exact Nat.add_lt_add_of_le_of_lt hpc.le (QueueBuffer.copyStep_work hcopy)
  | none => exact pcStep_rank hg hok hcur (QueueBuffer.copyStep_eq_none.1 hcopy)

/-- The steps of other threads leave what is left of an iteration of the loop. -/
lemma Moves.rank (m : Moves inp k s t x s' t') (hg : Glob inp s k) {pc : Pc}
    (hpc : ∀ pos, pc = .dequeue pos → k.TopDownAt pos) : pc.rank inp s' = pc.rank inp s := by
  cases pc with
  | dequeue pos =>
    obtain ⟨lo, hi, rfl, -, hhi⟩ := (hpc pos rfl).elim
    have hget := hg.2.get hg.1.settled hhi
    show 7 * s'.edgesAt inp pos + 4 = 7 * s.edgesAt inp pos + 4
    rw [State.edgesAt, State.edgesAt, m.get hget, hget]
  | _ => rfl

/-- The serial code behind a loop leaves fewer loops. -/
lemma loopHead_left (hs : ¬ s.queue.isEmpty → s.level < inp.numNodes) :
    (s.loopHead inp).2 = .final ∨
      ((s.loopHead inp).1.level = s.level ∧ s.level < inp.numNodes ∧
        left inp (s.loopHead inp).1 (s.loopHead inp).2 ≤ 10 * (inp.numNodes - s.level) + 7) := by
  rw [State.loopHead]
  by_cases hempty : s.queue.isEmpty
  · rw [if_pos hempty]
    exact .inl rfl
  rw [if_neg hempty]
  split_ifs with hup
  · exact .inr ⟨rfl, hs hempty, le_rfl⟩
  · refine .inr ⟨rfl, hs hempty, ?_⟩
    show 10 * (inp.numNodes - s.level) + 5 ≤ _
    omega

end Bfs

end Dgap
