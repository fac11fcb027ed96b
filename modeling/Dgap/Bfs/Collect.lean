import Dgap.Bfs.Keeps

/-!
# The queue and the buffers together

A vertex comes into a buffer once: in `TDStep` when a compare-and-swap has claimed it, in `BitmapToQueue` when
its thread has found its bit. From then on it is in the buffer or behind the window of the queue, whatever the
flushes do (`Moves.members`). So what the queue gets in a step of the search is the next level, each vertex
once (`Moves.team`).
-/

namespace Dgap

namespace Bfs

open Multigraph

variable {inp : Input} {k : Loop} {s s' : State} {t' : Thread} {x : ℕ} {n : ℕ} {ts : Fin n → Thread} {i : Fin n}

/-- The buffers after a step of one thread. -/
lemma buffers_update : (fun j => (Function.update ts i t' j).buffer) =
    Function.update (fun j => (ts j).buffer) i t'.buffer := by
  funext j
  by_cases hj : j = i
  · subst hj
    rw [Function.update_self, Function.update_self]
  · rw [Function.update_of_ne hj, Function.update_of_ne hj]

/-- What the queue takes, and what one thread holds instead. -/
lemma members_update {ext : List ℕ} (hs : s.queue.sharedOutEnd ≤ s.order.length) (hext : s'.order = s.order ++ ext)
    (hend : s'.queue.sharedOutEnd = s.queue.sharedOutEnd) :
    members inp s' (Function.update ts i t') + ((ts i).held inp : Multiset ℕ) =
      members inp s ts + (ext : Multiset ℕ) + (t'.held inp : Multiset ℕ) := by
  have hsum := ForkJoin.sum_update (fun t : Thread => (t.held inp : Multiset ℕ)) ts i t'
  rw [members, members, hext, hend, List.drop_append_of_le_length hs, ← Multiset.coe_add, add_assoc, add_assoc,
    hsum]
  ac_rfl

/-- A thread takes an iteration. -/
lemma members_goto {pc : Pc} (hold : (ts i).pc.claimed inp = []) (hnew : pc.claimed inp = []) :
    members inp s (Function.update ts i ((ts i).goto pc)) = members inp s ts := by
  rw [members, members]
  refine congrArg _ (Finset.sum_congr rfl fun j _ => ?_)
  by_cases hj : j = i
  · subst hj
    rw [Function.update_self, Thread.held, Thread.held, hold]
    exact congrArg (fun l : List ℕ => (((ts j).buffer.pending ++ l : List ℕ) : Multiset ℕ)) hnew
  · rw [Function.update_of_ne hj]

/-- What a thread holds. -/
lemma mem_members_of_held {v : ℕ} (h : v ∈ (ts i).held inp) : v ∈ members inp s ts :=
  Multiset.mem_add.2 (.inr (Multiset.mem_sum.2 ⟨i, Finset.mem_univ i, Multiset.mem_coe.2 h⟩))

/-- Every loop with buffers has a settled window. -/
lemma Glob.settled (hg : Glob inp s k) (hk : k.Queues) : QueueBuffer.Settled s.queue s.order := by
  cases k with
  | topDown => exact hg.1.settled
  | flushTopDown => exact hg.1.settled
  | toQueue => exact hg.1.settled
  | flushToQueue => exact hg.1.settled
  | _ => exact hk.elim

namespace Moves

variable (m : Moves inp k s (ts i) x s' t')

include m

/-- The cells of the queue that are not right yet are those of some copy. -/
lemma filled (hs : QueueBuffer.Settled s.queue s.order) (hok : (ts i).Ok inp k s)
    (h : QueueBuffer.Filled s.queue s.order fun j => (ts j).buffer) :
    QueueBuffer.Filled s'.queue s'.order fun j => (Function.update ts i t' j).buffer := by
  rw [buffers_update]
  cases m with
  | copy hcopy => exact h.copyStep hcopy rfl hok.copies
  | reserve hcopy => exact h.reserve hs hcopy
  | goto hcopy => exact h.update hcopy _
  | pushEdge hcopy => exact h.update hcopy _
  | pushVertex hcopy => exact h.update hcopy _
  | init hcopy => exact h.update hcopy _
  | claim hcopy => exact h.update hcopy _
  | mark hcopy => exact h.update hcopy _
  | adopt hcopy => exact h.update hcopy _
  | setBit hcopy => exact h.update hcopy _
  | clear hcopy => exact h.update hcopy _

/-- A step adds a vertex when it has claimed one or has found its bit, and else moves them on. -/
lemma members (hs : QueueBuffer.Settled s.queue s.order) (hk : k.Queues) :
    (∃ u e v currVal, (ts i).pc = .edge x u e (.cas currVal) ∧ s.parent v < 0 ∧ inp.At (s.level + 1) v ∧
      s'.parent = Function.update s.parent v u ∧
      Bfs.members inp s' (Function.update ts i t') = Bfs.members inp s ts + {v}) ∨
    ((ts i).pc = .enqueue x ∧ t'.pc = .idle ∧ s'.parent = s.parent ∧
      Bfs.members inp s' (Function.update ts i t') = Bfs.members inp s ts + {x}) ∨
    (s'.parent = s.parent ∧ Bfs.members inp s' (Function.update ts i t') = Bfs.members inp s ts) := by
  obtain ⟨ext, hext⟩ := m.order
  have hupdate : Bfs.members inp s' (Function.update ts i t') + ((ts i).held inp : Multiset ℕ) =
      Bfs.members inp s ts + (ext : Multiset ℕ) + (t'.held inp : Multiset ℕ) :=
    members_update hs.outEnd_le hext m.window.2
  -- what the queue gets and what the thread holds then is what it held, and what is new
  have hnew : ∀ new : Multiset ℕ,
      (ext : Multiset ℕ) + (t'.held inp : Multiset ℕ) = ((ts i).held inp : Multiset ℕ) + new →
      Bfs.members inp s' (Function.update ts i t') = Bfs.members inp s ts + new := by
    intro new h
    rw [add_assoc, h, add_comm ((ts i).held inp : Multiset ℕ), ← add_assoc] at hupdate
    exact add_right_cancel hupdate
  have hsame : s'.order = s.order → ∀ new : List ℕ, (t'.held inp).Perm ((ts i).held inp ++ new) →
      Bfs.members inp s' (Function.update ts i t') = Bfs.members inp s ts + (new : Multiset ℕ) := by
    intro heq new h
    rw [heq] at hext
    rw [List.self_eq_append_right.1 hext] at hnew
    refine hnew _ ?_
    rw [Multiset.coe_nil, zero_add, Multiset.coe_add, Multiset.coe_eq_coe]
    exact h
  have hstay : s'.order = s.order → t'.held inp = (ts i).held inp →
      Bfs.members inp s' (Function.update ts i t') = Bfs.members inp s ts := fun heq h =>
    (hsame heq [] (by rw [h, List.append_nil])).trans (add_zero _)
  cases m with
  | copy hcopy =>
    refine .inr (.inr ⟨rfl, hstay rfl ?_⟩)
    rw [Thread.held, Thread.held, QueueBuffer.copyStep_pending hcopy]
  | reserve hcopy _ _ _ hclaimed =>
    refine .inr (.inr ⟨rfl, (hnew 0 ?_).trans (add_zero _)⟩)
    rw [← List.append_cancel_left hext, add_zero, Multiset.coe_add, Thread.held, Thread.held, hclaimed]
    simp [QueueBuffer.pending, QueueBuffer.reserve, hcopy]
  | goto _ _ hnone hnone' =>
    refine .inr (.inr ⟨rfl, hstay rfl ?_⟩)
    rw [Thread.held, Thread.held, hnone']
    exact congrArg _ hnone
  | pushEdge hcopy hpc hv =>
    refine .inr (.inr ⟨rfl, hstay rfl ?_⟩)
    simp [Thread.held, QueueBuffer.pending, QueueBuffer.append, Pc.claimed, hcopy, hpc, hv]
  | pushVertex hcopy hpc =>
    refine .inr (.inl ⟨hpc, rfl, rfl, hsame rfl [x] (.of_eq ?_)⟩)
    simp [Thread.held, QueueBuffer.pending, QueueBuffer.append, Pc.claimed, hcopy, hpc]
  | init _ hinit =>
    subst hinit
    exact hk.elim
  | @claim u e v currVal _ hpc hv _ hneg hat =>
    refine .inl ⟨u, e, v, currVal, hpc, hneg, hat, rfl, hsame rfl [v] (.of_eq ?_)⟩
    simp [Thread.held, Thread.goto, Pc.claimed, hpc, hv]
  | mark _ hmark =>
    obtain ⟨lo, hi, rfl, -⟩ := hmark.elim
    exact hk.elim
  | adopt _ hup =>
    subst hup
    exact hk.elim
  | setBit _ hup =>
    subst hup
    exact hk.elim
  | clear _ hfinal =>
    subst hfinal
    exact hk.elim

end Moves

/-- The vertices of the next level that have been found. -/
lemma mem_found {v : ℕ} : v ∈ s.found inp ↔ v < inp.numNodes ∧ 0 ≤ s.parent v ∧ inp.At (s.level + 1) v := by
  classical
  exact Finset.mem_filter.trans (and_congr_left' Finset.mem_range)

/-- A claimed vertex is found. -/
lemma found_claim {v : ℕ} {value : ℕ} (hin : inp.Valid) (hneg : s.parent v < 0) (hat : inp.At (s.level + 1) v)
    (hparent : s'.parent = Function.update s.parent v value) (hlevel : s'.level = s.level) :
    (s'.found inp).val = (s.found inp).val + {v} := by
  have hnot : v ∉ s.found inp := fun hmem => by
    have := (mem_found.1 hmem).2.1
    omega
  have hinsert : s'.found inp = insert v (s.found inp) := by
    ext w
    rw [Finset.mem_insert, mem_found, mem_found, hparent, hlevel]
    by_cases hw : w = v
    · subst hw
      rw [Function.update_self]
      exact ⟨fun _ => .inl rfl, fun _ => ⟨hin.lt_of_at hat, Int.natCast_nonneg _, hat⟩⟩
    · rw [Function.update_of_ne hw]
      exact ⟨fun h => .inr h, fun h => h.resolve_left hw⟩
  rw [hinsert, Finset.insert_val_of_notMem hnot, ← Multiset.singleton_add, add_comm]

/-- The vertices found depend on the parents and the depth alone. -/
lemma found_congr (hparent : s'.parent = s.parent) (hlevel : s'.level = s.level) : s'.found inp = s.found inp := by
  rw [State.found, State.found, hparent, hlevel]

/-- A step keeps what the queue and the buffers hold together. -/
lemma Moves.team (m : Moves inp k s (ts i) x s' t') (hin : inp.Valid) (hg : Glob inp s k) (hok : (ts i).Ok inp k s)
    (halone : ∀ j, j ≠ i → (ts j).pc.cur ≠ some x) (hcur : (ts i).pc.cur = some x)
    (hcur' : t'.pc.cur = none ∨ t'.pc.cur = some x) (h : Team inp s ts k) :
    Team inp s' (Function.update ts i t') k := by
  have hpc := hok.pc
  -- in `TDStep` what is held is what has been found
  have hfound : k ≠ .toQueue → k.Queues → Bfs.members inp s ts = (s.found inp).val →
      Bfs.members inp s' (Function.update ts i t') = (s'.found inp).val := by
    intro hk hq hmem
    rcases m.members (hg.settled hq) hq with ⟨u, e, v, c, hedge, hneg, hat, hparent, heq⟩ | ⟨he, -⟩ | ⟨hparent, heq⟩
    · rw [heq, hmem, found_claim hin hneg hat hparent m.level]
    · rw [he] at hpc
      exact absurd hpc.1 hk
    · rw [heq, hmem, found_congr hparent m.level]
  cases k with
  | topDown lo hi => exact ⟨m.filled hg.1.settled hok h.1, hfound (by simp) trivial h.2⟩
  | flushTopDown => exact ⟨m.filled hg.1.settled hok h.1, hfound (by simp) trivial h.2⟩
  | toQueue =>
    obtain ⟨hfilled, hnodup, hat, hfresh⟩ := h
    refine ⟨m.filled hg.1.settled hok hfilled, ?_⟩
    rcases m.members hg.1.settled trivial with ⟨u, e, v, c, hedge, -⟩ | ⟨he, hidle, -, heq⟩ | ⟨-, heq⟩
    · rw [hedge] at hpc
      exact (show False from hpc.1).elim
    · rw [he] at hpc
      have hx := hfresh i x hcur
      rw [heq, add_comm, Multiset.singleton_add]
      refine ⟨Multiset.nodup_cons.2 ⟨hx, hnodup⟩, fun v hv => ?_, fun j v hv hmem => ?_⟩
      · rw [m.level]
        rcases Multiset.mem_cons.1 hv with rfl | hv
        · exact hpc.2
        · exact hat v hv
      · by_cases hj : j = i
        · subst hj
          rw [Function.update_self, hidle] at hv
          cases hv
        · rw [Function.update_of_ne hj] at hv
          rcases Multiset.mem_cons.1 hmem with rfl | hmem
          · exact halone j hj hv
          · exact hfresh j v hv hmem
    · rw [heq]
      refine ⟨hnodup, by rw [m.level]; exact hat, fun j v hv => ?_⟩
      by_cases hj : j = i
      · subst hj
        rw [Function.update_self] at hv
        rcases hcur' with hnone | hsome
        · rw [hnone] at hv
          cases hv
        · rw [hsome] at hv
          cases hv
          exact hfresh j x hcur
      · rw [Function.update_of_ne hj] at hv
        exact hfresh j v hv
  | flushToQueue =>
    obtain ⟨hfilled, hmem⟩ := h
    refine ⟨m.filled hg.1.settled hok hfilled, ?_⟩
    rcases m.members hg.1.settled trivial with ⟨u, e, v, c, hedge, -⟩ | ⟨he, -⟩ | ⟨-, heq⟩
    · rw [hedge] at hpc
      exact (show False from hpc.1).elim
    · rw [he] at hpc
      cases hpc.1
    · rw [heq, m.level]
      exact hmem
  | _ => trivial

end Bfs

end Dgap
