import Dgap.Bc.Invariant

/-!
# The queue of the search

The steps that fill the buffers and the shared queue keep `Queued`: a claimed vertex goes into the buffer
(`Queued.append`), a flush takes cells of the shared queue (`Queued.flush`) and copies the buffer into them
(`Queued.copy`), in any interleaving with the copies of other threads.
-/

namespace Dgap

namespace Bc

open Multigraph

section Threads

variable {n : ℕ} {c : Config n} {i : Fin n} {t : Thread}

/-- Another thread is not changed. -/
lemma setThread_of_ne {j : Fin n} (h : j ≠ i) : (c.setThread i t).threads j = c.threads j :=
  Function.update_of_ne h ..

/-- The thread that is changed. -/
lemma setThread_self : (c.setThread i t).threads i = t := Function.update_self ..

/-- The thread that goes on is there. -/
lemma goto_self {pc : Pc} : ((c.goto i pc).threads i).pc = pc := congrArg Thread.pc setThread_self

/-- Another thread stays where it is. -/
lemma goto_of_ne {j : Fin n} {pc : Pc} (h : j ≠ i) : (c.goto i pc).threads j = c.threads j := setThread_of_ne h

/-- What a change of a thread leaves as it is is the same for all threads. -/
lemma setThread_same {β : Type*} (f : Thread → β) (h : f t = f (c.threads i)) (j : Fin n) :
    f ((c.setThread i t).threads j) = f (c.threads j) := by
  by_cases hj : j = i
  · rw [hj, setThread_self, h]
  · rw [setThread_of_ne hj]

/-- What holds of the changed thread and of all others holds of all threads. -/
lemma forall_setThread {p : Thread → Prop} (ht : p t) (h : ∀ j, j ≠ i → p (c.threads j)) (j : Fin n) :
    p ((c.setThread i t).threads j) := by
  by_cases hj : j = i
  · rw [hj, setThread_self]
    exact ht
  · rw [setThread_of_ne hj]
    exact h j hj

/-- The buffers when one of them changes. -/
lemma buffer_setThread :
    (fun j => ((c.setThread i t).threads j).buffer) =
      Function.update (fun j => (c.threads j).buffer) i t.buffer := by
  funext j
  by_cases hj : j = i
  · rw [hj, setThread_self, Function.update_self]
  · rw [setThread_of_ne hj, Function.update_of_ne hj]

/-- A change of a thread shows in a sum over the threads. -/
lemma sum_setThread {M : Type*} [AddCommMonoid M] (f : Thread → M) (c : Config n) (i : Fin n) (t : Thread) :
    ∑ j, f ((c.setThread i t).threads j) + f (c.threads i) = ∑ j, f (c.threads j) + f t := by
  have hother : ∑ j ∈ Finset.univ.erase i, f ((c.setThread i t).threads j) =
      ∑ j ∈ Finset.univ.erase i, f (c.threads j) :=
    Finset.sum_congr rfl fun j hj => by rw [setThread_of_ne (Finset.ne_of_mem_erase hj)]
  rw [← Finset.add_sum_erase _ _ (Finset.mem_univ i), ← Finset.add_sum_erase _ _ (Finset.mem_univ i), hother,
    setThread_self]
  ac_rfl

end Threads

variable {n : ℕ} {nbrs : ℕ → List ℕ} {numNodes : ℕ} {order : List ℕ} {c c' : Config n} {i : Fin n}

/-- No vertex is queued twice. -/
lemma Queued.nodup (h : Queued nbrs numNodes order c) : order.Nodup := by
  have hle : (order : Multiset ℕ) ≤ ((Finset.range numNodes).filter fun v => c.depths v ≠ -1).val :=
    h.members ▸ Multiset.le_add_right ..
  exact Multiset.coe_nodup.1 (Multiset.nodup_of_le hle (Finset.nodup _))

/-- What is queued or held is claimed. -/
lemma Queued.mem_iff (h : Queued nbrs numNodes order c) {v : ℕ} :
    v ∈ order ∨ (∃ i, v ∈ (c.threads i).held nbrs) ↔ v < numNodes ∧ c.depths v ≠ -1 := by
  have hmem := congrArg (v ∈ ·) h.members
  simp only [Multiset.mem_add, Multiset.mem_coe, Multiset.mem_sum, Finset.mem_univ, true_and, Finset.mem_val,
    Finset.mem_filter, Finset.mem_range, eq_iff_iff] at hmem
  exact hmem

/-- The queue has room for all vertices. -/
lemma Queued.length_le (h : Queued nbrs numNodes order c) : order.length ≤ numNodes := by
  have hcard := congrArg Multiset.card h.members
  rw [Multiset.card_add, Multiset.coe_card, Finset.card_val] at hcard
  have hle := Finset.card_filter_le (Finset.range numNodes) fun v => c.depths v ≠ -1
  rw [Finset.card_range] at hle
  omega

/-- Different positions of the window hold different vertices. -/
lemma Queued.inj (h : Queued nbrs numNodes order c) {j k : ℕ} (hj : j < c.queue.sharedOutEnd)
    (hk : k < c.queue.sharedOutEnd) (heq : c.queue.shared j = c.queue.shared k) : j = k := by
  have hjk : order[j]? = order[k]? := by rw [h.settled.get hj, h.settled.get hk, heq]
  exact (List.getElem?_inj (hj.trans_le h.settled.outEnd_le) h.nodup).1 hjk

/-- A step that moves nothing keeps the queue. -/
lemma Queued.congr (h : Queued nbrs numNodes order c) (hq : c'.queue = c.queue) (hd : c'.depths = c.depths)
    (hheld : ∀ j, (c'.threads j).held nbrs = (c.threads j).held nbrs)
    (hbuffer : ∀ j, (c'.threads j).buffer = (c.threads j).buffer) : Queued nbrs numNodes order c' where
  settled := by
    rw [hq]
    exact h.settled
  members := by
    simp only [hheld, hd]
    exact h.members
  copies j := by
    rw [hbuffer, hq]
    exact h.copies j
  filled := by
    simp only [hbuffer, hq]
    exact h.filled

/-- A step of a thread that moves nothing. -/
lemma Queued.goto (h : Queued nbrs numNodes order c) (pc : Pc)
    (hclaimed : pc.claimed nbrs = (c.threads i).pc.claimed nbrs) :
    Queued nbrs numNodes order (c.goto i pc) :=
  h.congr rfl rfl
    (setThread_same (·.held nbrs) (by simp only [Thread.held, hclaimed]))
    (setThread_same (·.buffer) rfl)

/-- A vertex is claimed. -/
lemma Queued.claim (h : Queued nbrs numNodes order c) {u k v : ℕ} (hv : (nbrs u)[k]? = some v)
    (hlt : v < numNodes) (hnew : c.depths v = -1) (hpc : (c.threads i).pc = .edge u k .cas) {x : ℤ}
    (hx : x ≠ -1) :
    Queued nbrs numNodes order
      { c.goto i (.edge u k .push) with depths := Function.update c.depths v x } where
  settled := h.settled
  members := by
    have hfilter : (Finset.range numNodes).filter (fun w => Function.update c.depths v x w ≠ -1) =
        insert v ((Finset.range numNodes).filter fun w => c.depths w ≠ -1) := by
      ext w
      rw [Finset.mem_insert, Finset.mem_filter, Finset.mem_filter, Finset.mem_range]
      by_cases hw : w = v
      · subst hw
        rw [Function.update_self]
        exact ⟨fun _ => .inl rfl, fun _ => ⟨hlt, hx⟩⟩
      · rw [Function.update_of_ne hw]
        exact ⟨.inr, fun h => h.resolve_left hw⟩
    have hheld : ({ c.threads i with pc := .edge u k .push } : Thread).held nbrs =
        (c.threads i).held nbrs + {v} := by
      rw [Thread.held, Thread.held, hpc, Pc.claimed, Pc.claimed, hv, Option.toList_some]
      · rw [Multiset.coe_nil, add_zero, Multiset.coe_singleton]
      · intro u k heq
        cases heq
    have hsum := sum_setThread (·.held nbrs) c i { c.threads i with pc := .edge u k .push }
    rw [hheld] at hsum
    have hsum' : ∑ j, ((c.goto i (.edge u k .push)).threads j).held nbrs =
        ∑ j, (c.threads j).held nbrs + {v} :=
      add_right_cancel (hsum.trans (by ac_rfl))
    refine (congrArg ((order : Multiset ℕ) + ·) hsum').trans ?_
    dsimp only
    rw [hfilter, ← add_assoc, h.members, Finset.insert_val_of_notMem, add_comm, Multiset.singleton_add]
    exact fun hmem => (Finset.mem_filter.1 hmem).2 hnew
  copies := forall_setThread (p := fun t => t.buffer.Copies c.queue order) (h.copies i) fun j _ => h.copies j
  filled := by
    have hsame : ∀ j, ((c.goto i (.edge u k .push)).threads j).buffer = (c.threads j).buffer :=
      setThread_same (·.buffer) rfl
    simp only [hsame]
    exact h.filled

/-- A claimed vertex goes into the buffer. -/
lemma Queued.append (h : Queued nbrs numNodes order c) {u k v : ℕ} (hv : (nbrs u)[k]? = some v)
    (hcopy : (c.threads i).buffer.copying = none) (hpc : (c.threads i).pc = .edge u k .push) :
    Queued nbrs numNodes order (c.append i v (.edge u k .test)) where
  settled := h.settled
  members := by
    have hheld : ∀ j, ((c.append i v (.edge u k .test)).threads j).held nbrs = (c.threads j).held nbrs := by
      refine setThread_same (·.held nbrs) ?_
      simp only [Thread.held, QueueBuffer.pending_append hcopy, hpc, Pc.claimed, hv, Option.toList_some]
      rw [← Multiset.coe_add, Multiset.coe_nil, add_zero]
    simp only [hheld]
    exact h.members
  copies := forall_setThread (p := fun t => t.buffer.Copies c.queue order) (.of_none hcopy) fun j _ => h.copies j
  filled := by
    rw [Config.append, buffer_setThread]
    exact h.filled.update hcopy _

/-- A flush takes cells of the shared queue. -/
lemma Queued.flush (h : Queued nbrs numNodes order c) (hcopy : (c.threads i).buffer.copying = none) {pc : Pc}
    (hclaimed : pc.claimed nbrs = (c.threads i).pc.claimed nbrs) :
    Queued nbrs numNodes (order ++ (c.threads i).buffer.localQueue) (c.flush i pc) where
  settled := h.settled.reserve
  members := by
    set t : Thread := ⟨pc, ((c.threads i).buffer.reserve c.queue).2⟩ with ht
    have hnew : t.held nbrs = (pc.claimed nbrs : Multiset ℕ) := by
      rw [Thread.held, QueueBuffer.pending_reserve, Multiset.coe_nil, zero_add]
    have hold : (c.threads i).held nbrs = (c.threads i).buffer.localQueue + (pc.claimed nbrs : Multiset ℕ) := by
      rw [Thread.held, QueueBuffer.pending, if_pos hcopy, hclaimed]
    have hsum := sum_setThread (·.held nbrs) c i t
    rw [hnew, hold, ← add_assoc] at hsum
    have hmembers := h.members
    rw [← add_right_cancel hsum] at hmembers
    rw [← Multiset.coe_add]
    refine Eq.trans ?_ hmembers
    ac_rfl
  copies := by
    refine forall_setThread (p := fun t => t.buffer.Copies (c.flush i pc).queue _) ?_ fun j _ => ?_
    · exact .reserve h.settled
    · exact (h.copies j).reserve_other
  filled := by
    rw [Config.flush, Config.setBuffer]
    dsimp only
    rw [buffer_setThread]
    exact h.filled.reserve h.settled hcopy

section Copy

variable {r : SlidingQueue ℕ × QueueBuffer ℕ} (hcopy : (c.threads i).buffer.copyStep c.queue = some r)

include hcopy

/-- A step of a copy. -/
lemma Queued.copy (h : Queued nbrs numNodes order c) :
    Queued nbrs numNodes order (c.setBuffer i (c.threads i).pc r) where
  settled := h.settled.copyStep hcopy (h.copies i)
  members := by
    have hheld : ∀ j, ((c.setBuffer i (c.threads i).pc r).threads j).held nbrs = (c.threads j).held nbrs :=
      setThread_same (·.held nbrs) (by simp only [Thread.held, QueueBuffer.copyStep_pending hcopy])
    simp only [hheld]
    exact h.members
  copies := by
    refine forall_setThread (p := fun t => t.buffer.Copies r.1 order) ?_ fun j _ => ?_
    · exact (h.copies i).copyStep hcopy
    · exact (h.copies j).copyStep_other hcopy
  filled := by
    rw [Config.setBuffer]
    dsimp only
    rw [buffer_setThread]
    exact h.filled.copyStep hcopy rfl (h.copies i)

/-- A copy leaves the window alone. -/
lemma Queued.copy_seen (h : Queued nbrs numNodes order c) {j : ℕ} (hj : j < c.queue.sharedOutEnd) :
    r.1.shared j = c.queue.shared j :=
  QueueBuffer.copyStep_shared hcopy (h.copies i) hj

end Copy

end Bc

end Dgap
