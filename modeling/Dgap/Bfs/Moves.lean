import Dgap.Bfs.Invariant

/-!
# The steps of a thread in the search

`Moves` says what a step of a thread does, with what the thread knows then; every step is one (`step_moves`).
-/

namespace Dgap

namespace Bfs

open Multigraph

variable (inp : Input)

/-- What an iteration has achieved when a thread leaves it without a last access. -/
def Thread.Leaves (k : Loop) (s : State) (t : Thread) (x : ℕ) : Prop :=
  match k with
  | .topDown _ _ => ∀ u, s.order[x]? = some u → ∀ v ∈ inp.outNeigh u, 0 ≤ s.parent v
  | .flushTopDown | .flushToQueue => t.buffer = .fresh
  | .bottomUp => ∀ u, InChunk inp x u → inp.At (s.level + 1) u → 0 ≤ s.parent u ∧ s.curr.getBit u = true
  | .toQueue => ¬ inp.At s.level x
  | .final => -1 ≤ s.parent x
  | _ => False

/-- A step of a thread that is at iteration `x`. -/
inductive Moves (k : Loop) (s : State) (t : Thread) (x : ℕ) : State → Thread → Prop where
  | copy {queue : SlidingQueue ℕ} {buffer : QueueBuffer ℕ} : t.buffer.copyStep s.queue = some (queue, buffer) →
      Moves k s t x { s with queue } { t with buffer }
  | reserve {pc : Pc} : t.buffer.copying = none → k.Queues → pc.MayFlush → pc.cur = some x →
      pc.claimed inp = t.pc.claimed inp → (pc = t.pc ∨ t.pc = .flush x ∧ pc = .flushed x) →
      Moves k s t x
        { s with queue := (t.buffer.reserve s.queue).1, order := s.order ++ t.buffer.localQueue }
        { t with buffer := (t.buffer.reserve s.queue).2, pc }
  | goto {pc : Pc} : t.buffer.copying = none → pc.Ok inp k s → pc.claimed inp = [] → t.pc.claimed inp = [] →
      (∀ i, pc ≠ .flushed i) → (pc.cur = none → t.Leaves inp k s x) → Moves k s t x s (t.goto pc)
  | pushEdge {u e v : ℕ} {currVal : ℤ} : t.buffer.copying = none → t.pc = .edge x u e (.push currVal) →
      (inp.outNeigh u)[e]? = some v → t.buffer.localQueue.length ≠ QueueBuffer.localSize → Moves k s t x s
        { t with
          buffer := t.buffer.append v
          scoutCount := t.scoutCount + -currVal
          pc := .edge x u (e + 1) .load }
  | pushVertex : t.buffer.copying = none → t.pc = .enqueue x → Moves k s t x s
      { t with buffer := t.buffer.append x, pc := .idle }
  | init {value : ℤ} : t.buffer.copying = none → k = .init → value < 0 →
      Moves k s t x { s with parent := Function.update s.parent x value } (t.goto .idle)
  | claim {u e v : ℕ} {currVal : ℤ} : t.buffer.copying = none → t.pc = .edge x u e (.cas currVal) →
      (inp.outNeigh u)[e]? = some v → inp.At s.level u → s.parent v < 0 → inp.At (s.level + 1) v →
      Moves k s t x { s with parent := Function.update s.parent v u } (t.goto (.edge x u e (.push currVal)))
  | mark {u : ℕ} : t.buffer.copying = none → k.ToBitmapAt x → s.order[x]? = some u → inp.At s.level u →
      Moves k s t x { s with front := s.front.setBit u } (t.goto .idle)
  | adopt {u v j : ℕ} : t.buffer.copying = none → k = .bottomUp → s.Scans inp x u → s.parent u < 0 →
      inp.At j v → j ≤ s.level → u ∈ inp.outNeigh v → inp.At (s.level + 1) u →
      Moves k s t x { s with parent := Function.update s.parent u v }
        { t with awakeCount := t.awakeCount + 1, pc := .loadWord x u }
  | setBit {u : ℕ} : t.buffer.copying = none → k = .bottomUp → s.Scans inp x u → 0 ≤ s.parent u →
      inp.At (s.level + 1) u → Moves k s t x { s with curr := s.curr.setBit u } (t.goto (.scan x (u + 1)))
  | clear : t.buffer.copying = none → k = .final → s.parent x < -1 →
      Moves k s t x { s with parent := Function.update s.parent x (-1) } (t.goto .idle)

variable {inp} {k : Loop} {s : State} {t : Thread} {x lo hi pos u v : ℕ}

/-- A vertex of the window is in the frontier. -/
lemma Window.at_of_get (h : Window inp s lo hi) (hlo : lo ≤ pos) (hhi : pos < hi) (hu : s.order[pos]? = some u) :
    inp.At s.level u := (h.mem u).2 ⟨pos, hlo, hhi, hu⟩

/-- The loop over the queue loads what the queue is to hold. -/
lemma Window.get (h : Window inp s lo hi) (hs : QueueBuffer.Settled s.queue s.order) (hhi : pos < hi) :
    s.order[pos]? = some (s.queue.shared pos) := by
  have hlt : pos < s.queue.sharedOutEnd := h.outEnd.symm ▸ hhi
  have hu := List.getElem?_eq_getElem (hlt.trans_le hs.outEnd_le)
  rw [hu, hs.seen pos hlt _ hu]

/-- A loop over a window, and its window. -/
lemma Loop.TopDownAt.elim (h : k.TopDownAt pos) : ∃ lo hi, k = .topDown lo hi ∧ lo ≤ pos ∧ pos < hi := by
  cases k with
  | topDown lo hi => exact ⟨lo, hi, rfl, h.1, h.2⟩
  | _ => exact h.elim

/-- A loop over a window, and its window. -/
lemma Loop.ToBitmapAt.elim (h : k.ToBitmapAt pos) : ∃ lo hi, k = .toBitmap lo hi ∧ lo ≤ pos ∧ pos < hi := by
  cases k with
  | toBitmap lo hi => exact ⟨lo, hi, rfl, h.1, h.2⟩
  | _ => exact h.elim

/-- A step of a thread that pushes a vertex. -/
lemma pushBack_moves (hcopy : t.buffer.copying = none) (hk : k.Queues) (hflush : t.pc.MayFlush)
    (hcur : t.pc.cur = some x) (hfull : t.buffer.localQueue.length = QueueBuffer.localSize) (pc : Pc) :
    Moves inp k s t x (s.pushBack t v pc).1 (s.pushBack t v pc).2 := by
  rw [State.pushBack, if_pos hfull]
  exact .reserve hcopy hk hflush hcur rfl (.inl rfl)

section Steps

variable (hin : inp.Valid) (hg : Glob inp s k) (h : t.Ok inp k s)

include hin hg h

/-- A statement of the body of the loop over `out_neigh(u)`. -/
lemma edge_moves {e : ℕ} {stage : Stage} (hpc : t.pc = .edge x u e stage) (hcopy : t.buffer.copying = none) :
    Moves inp k s t x (s.pcStep inp t).1 (s.pcStep inp t).2 := by
  have hok := h.pc
  rw [hpc] at hok
  obtain ⟨htop, hu, hseen, hstage⟩ := hok
  obtain ⟨lo, hi, rfl, hlo, hhi⟩ := htop.elim
  obtain ⟨hbase, hwindow⟩ := hg
  have hat := hwindow.at_of_get hlo hhi hu
  have hult := hin.lt_of_at hat
  -- the thread goes on to the next edge
  have hnext : ∀ v, (inp.outNeigh u)[e]? = some v → 0 ≤ s.parent v →
      (Pc.edge x u e stage).claimed inp = [] →
      Moves inp (.topDown lo hi) s t x s (t.goto (.edge x u (e + 1) .load)) := by
    intro v hv hparent hclaimed
    refine .goto hcopy ⟨⟨hlo, hhi⟩, hu, fun j hj w hw => ?_, trivial⟩ rfl (hpc ▸ hclaimed)
      (fun i hi => (by cases hi)) fun hc => by cases hc
    rcases Nat.lt_succ_iff_lt_or_eq.1 hj with hj | rfl
    · exact hseen j hj w hw
    · obtain rfl : v = w := Option.some.inj (hv.symm.trans hw)
      exact hparent
  rw [State.pcStep, hpc]
  cases hv : (inp.outNeigh u)[e]? with
  | none =>
    simp only [hv]
    have hclaimed : t.pc.claimed inp = [] := by
      rw [hpc]
      cases stage with
      | push currVal => simp [Pc.claimed, hv]
      | load => rfl
      | cas currVal => rfl
    refine .goto hcopy trivial rfl hclaimed (fun i hi => by cases hi) fun _ w hw v hv' => ?_
    obtain rfl : u = w := Option.some.inj (hu.symm.trans hw)
    obtain ⟨j, hj⟩ := List.getElem?_of_mem hv'
    have hlt := (List.getElem?_eq_some_iff.1 hj).1
    have hle := List.getElem?_eq_none_iff.1 hv
    exact hseen j (by omega) v hj
  | some v =>
    simp only [hv]
    have hmem := List.mem_of_getElem? hv
    cases stage with
    | load =>
      rw [State.edgeStep]
      dsimp only
      split_ifs with hneg
      · exact .goto hcopy ⟨⟨hlo, hhi⟩, hu, hseen, hneg, v, hv, .inl rfl⟩ rfl (hpc ▸ rfl)
          (fun i hi => (by cases hi)) fun hc => by cases hc
      · exact hnext v hv (not_lt.1 hneg) rfl
    | cas currVal =>
      rw [State.edgeStep]
      split_ifs with heq
      · have hneg : s.parent v < 0 := heq ▸ hstage.1
        obtain ⟨-, hatv⟩ := hbase.tree.level_eq hat le_rfl hmem hneg
        exact .claim hcopy hpc hv hat hneg hatv
      · -- somebody has visited it meanwhile
        obtain ⟨-, w, hw, hparent⟩ := hstage
        obtain rfl : v = w := Option.some.inj (hv.symm.trans hw)
        exact hnext v hv (hparent.resolve_left heq) rfl
    | push currVal =>
      rw [State.edgeStep]
      split_ifs with hfull
      · exact pushBack_moves hcopy (show Loop.Queues (.topDown lo hi) from trivial) (hpc ▸ trivial) (hpc ▸ rfl) hfull _
      · exact .pushEdge hcopy hpc hv hfull

omit hin in
/-- A statement of the loop over a chunk. -/
lemma scan_moves {chunk : ℕ} (hpc : t.pc = .scan chunk u) (hcopy : t.buffer.copying = none) :
    Moves inp k s t chunk (s.pcStep inp t).1 (s.pcStep inp t).2 := by
  have hok := h.pc
  rw [hpc] at hok
  obtain ⟨rfl, hle, hscanned, hunscanned⟩ := hok
  have hclaimed : t.pc.claimed inp = [] := hpc ▸ rfl
  rw [State.pcStep, hpc]
  dsimp only
  split_ifs with hlt hneg
  · have hmem : InChunk inp chunk u := ⟨hle, hlt.trans_le (min_le_left _ _), hlt.trans_le (min_le_right _ _)⟩
    refine .goto hcopy ⟨rfl, ⟨hmem, hscanned, fun w hw => hunscanned w (by omega)⟩, hneg, fun j hj => ?_⟩ rfl
      hclaimed (fun i hi => (by cases hi)) fun hc => by cases hc
    exact absurd hj (Nat.not_lt_zero j)
  · have hmem : InChunk inp chunk u := ⟨hle, hlt.trans_le (min_le_left _ _), hlt.trans_le (min_le_right _ _)⟩
    refine .goto hcopy ⟨rfl, by omega, fun w hw hmem' hat => ?_, fun w hw => hunscanned w (by omega)⟩ rfl
      hclaimed (fun i hi => (by cases hi)) fun hc => by cases hc
    rcases Nat.lt_succ_iff_lt_or_eq.1 hw with hw | rfl
    · exact hscanned w hw hmem' hat
    · exact absurd (hunscanned w le_rfl hmem hat) hneg
  · refine .goto hcopy trivial rfl hclaimed (fun i hi => by cases hi) fun _ w hmem hat => ?_
    have hw : w < min ((chunk + 1) * chunkSize) inp.numNodes := lt_min hmem.lt hmem.vertex
    exact hscanned w (by omega) hmem hat

/-- A statement of the loop over `in_neigh(u)`. -/
lemma find_moves {chunk e : ℕ} (hpc : t.pc = .find chunk u e) (hcopy : t.buffer.copying = none) :
    Moves inp k s t chunk (s.pcStep inp t).1 (s.pcStep inp t).2 := by
  have hok := h.pc
  rw [hpc] at hok
  obtain ⟨rfl, hscans, hneg, hseen⟩ := hok
  obtain ⟨hbase, hscanning⟩ := hg
  have hclaimed : t.pc.claimed inp = [] := hpc ▸ rfl
  have hinverse := hin.inverse u hscans.mem.vertex
  rw [State.pcStep, hpc]
  cases hv : (inp.inNeigh u)[e]? with
  | none =>
    simp only [hv]
    refine .goto hcopy ⟨rfl, by have := hscans.mem.le; omega, fun w hw hmem hat => ?_, hscans.unscanned⟩ rfl
      hclaimed (fun i hi => (by cases hi)) fun hc => by cases hc
    rcases Nat.lt_succ_iff_lt_or_eq.1 hw with hw | rfl
    · exact hscans.scanned w hw hmem hat
    · -- a vertex of the next level has an in-neighbour in the frontier
      obtain ⟨p, hp, hedge⟩ := hat.pred
      obtain ⟨j, hj⟩ := List.getElem?_of_mem ((hinverse p).2 ⟨hin.lt_of_at hp, hedge⟩)
      have hlt := (List.getElem?_eq_some_iff.1 hj).1
      have hle := List.getElem?_eq_none_iff.1 hv
      have hfalse := hseen j (by omega) p hj
      rw [hscanning.front p hp] at hfalse
      cases hfalse
  | some v =>
    simp only [hv]
    split_ifs with hbit
    · exact .goto hcopy ⟨rfl, hscans, hneg, List.mem_of_getElem? hv, hbit⟩ rfl hclaimed
        (fun i hi => (by cases hi)) fun hc => by cases hc
    · refine .goto hcopy ⟨rfl, hscans, hneg, fun j hj w hw => ?_⟩ rfl hclaimed
        (fun i hi => (by cases hi)) fun hc => by cases hc
      rcases Nat.lt_succ_iff_lt_or_eq.1 hj with hj | rfl
      · exact hseen j hj w hw
      · obtain rfl : v = w := Option.some.inj (hv.symm.trans hw)
        exact Bool.eq_false_iff.2 hbit

/-- A step of a thread whose buffer is not being copied. -/
lemma pcStep_moves (hcur : t.pc.cur = some x) (hcopy : t.buffer.copying = none) :
    Moves inp k s t x (s.pcStep inp t).1 (s.pcStep inp t).2 := by
  have hok := h.pc
  cases hpc : t.pc with
  | idle =>
    rw [hpc] at hcur
    cases hcur
  | init v =>
    rw [hpc] at hok hcur
    cases hcur
    rw [State.pcStep, hpc]
    refine .init hcopy hok.1 ?_
    have hdeg := hin.outDegree x hok.2
    split_ifs <;> omega
  | dequeue pos =>
    rw [hpc] at hok hcur
    cases hcur
    obtain ⟨lo, hi, rfl, hlo, hhi⟩ := Loop.TopDownAt.elim hok
    rw [State.pcStep, hpc]
    refine .goto hcopy ⟨⟨hlo, hhi⟩, hg.2.get hg.1.settled hhi, fun j hj => ?_, trivial⟩ rfl (hpc ▸ rfl)
      (fun i hi => (by cases hi)) fun hc => by cases hc
    exact absurd hj (Nat.not_lt_zero j)
  | edge pos u e stage =>
    rw [hpc] at hcur
    cases hcur
    exact edge_moves hin hg h hpc hcopy
  | flush i =>
    rw [hpc] at hok hcur
    cases hcur
    rw [State.pcStep, hpc]
    refine .reserve hcopy ?_ trivial rfl (hpc ▸ rfl) (.inr ⟨hpc, rfl⟩)
    rcases (show k.Flushes from hok) with rfl | rfl <;> trivial
  | flushed i =>
    rw [hpc] at hok hcur
    cases hcur
    rw [State.pcStep, hpc]
    have hfresh := h.flushed x hpc hcopy
    refine .goto hcopy trivial rfl (hpc ▸ rfl) (fun i hi => by cases hi) fun _ => ?_
    rcases (show k.Flushes from hok) with rfl | rfl <;> exact hfresh
  | markLoad pos =>
    rw [hpc] at hok hcur
    cases hcur
    obtain ⟨lo, hi, rfl, hlo, hhi⟩ := Loop.ToBitmapAt.elim hok
    rw [State.pcStep, hpc]
    exact .goto hcopy ⟨⟨hlo, hhi⟩, hg.2.1.get hg.1.settled hhi⟩ rfl (hpc ▸ rfl) (fun i hi => (by cases hi))
      fun hc => by cases hc
  | mark pos u =>
    rw [hpc] at hok hcur
    cases hcur
    obtain ⟨hat, hu⟩ := hok
    obtain ⟨lo, hi, rfl, hlo, hhi⟩ := hat.elim
    rw [State.pcStep, hpc]
    exact .mark hcopy ⟨hlo, hhi⟩ hu (hg.2.1.at_of_get hlo hhi hu)
  | scan chunk u =>
    rw [hpc] at hcur
    cases hcur
    exact scan_moves hg h hpc hcopy
  | find chunk u e =>
    rw [hpc] at hcur
    cases hcur
    exact find_moves hin hg h hpc hcopy
  | adopt chunk u v =>
    rw [hpc] at hok hcur
    cases hcur
    obtain ⟨rfl, hscans, hneg, hv, hbit⟩ := hok
    obtain ⟨j, hj, hatv⟩ := hg.1.bits v hbit
    have hedge := ((hin.inverse u hscans.mem.vertex v).1 hv).2
    rw [State.pcStep, hpc]
    exact .adopt hcopy rfl hscans hneg hatv hj hedge (hg.1.tree.level_eq hatv hj hedge hneg).2
  | loadWord chunk u =>
    rw [hpc] at hok hcur
    cases hcur
    obtain ⟨rfl, hscans, hparent, hat⟩ := hok
    rw [State.pcStep, hpc]
    exact .goto hcopy ⟨rfl, hscans, hparent, hat, rfl⟩ rfl (hpc ▸ rfl) (fun i hi => (by cases hi))
      fun hc => by cases hc
  | storeWord chunk u word =>
    rw [hpc] at hok hcur
    cases hcur
    obtain ⟨rfl, hscans, hparent, hat, rfl⟩ := hok
    rw [State.pcStep, hpc]
    exact .setBit hcopy rfl hscans hparent hat
  | collect v =>
    rw [hpc] at hok hcur
    cases hcur
    obtain rfl : k = .toQueue := hok
    rw [State.pcStep, hpc]
    dsimp only
    split_ifs with hbit
    · exact .goto hcopy ⟨rfl, (hg.2.front x).1 hbit⟩ rfl (hpc ▸ rfl) (fun i hi => (by cases hi))
        fun hc => by cases hc
    · exact .goto hcopy trivial rfl (hpc ▸ rfl) (fun i hi => (by cases hi)) fun _ hat => hbit ((hg.2.front x).2 hat)
  | enqueue v =>
    rw [hpc] at hok hcur
    cases hcur
    obtain ⟨rfl, -⟩ := hok
    rw [State.pcStep, hpc]
    dsimp only
    by_cases hfull : t.buffer.localQueue.length = QueueBuffer.localSize
    · exact pushBack_moves hcopy (show Loop.Queues .toQueue from trivial) (hpc ▸ trivial) (hpc ▸ rfl) hfull _
    · rw [State.pushBack, if_neg hfull]
      exact .pushVertex hcopy hpc
  | test v =>
    rw [hpc] at hok hcur
    cases hcur
    obtain rfl : k = .final := hok
    rw [State.pcStep, hpc]
    dsimp only
    split_ifs with hneg
    · exact .goto hcopy ⟨rfl, hneg⟩ rfl (hpc ▸ rfl) (fun i hi => (by cases hi)) fun hc => by cases hc
    · exact .goto hcopy trivial rfl (hpc ▸ rfl) (fun i hi => (by cases hi)) fun _ => not_lt.1 hneg
  | clear v =>
    rw [hpc] at hok hcur
    cases hcur
    obtain ⟨rfl, hneg⟩ := hok
    rw [State.pcStep, hpc]
    exact .clear hcopy rfl hneg

/-- Every step of a thread is one of the moves. -/
theorem step_moves (hcur : t.pc.cur = some x) : Moves inp k s t x (s.step inp t).1 (s.step inp t).2 := by
  rw [State.step]
  cases hcopy : t.buffer.copyStep s.queue with
  | some r => exact .copy hcopy
  | none => exact pcStep_moves hin hg h hcur (QueueBuffer.copyStep_eq_none.1 hcopy)

end Steps

end Bfs

end Dgap
