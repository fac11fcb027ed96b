import Dgap.Bal.Section

/-!
# Who owns a block

Every block of the pool belongs to exactly one vertex, or is in the hands of the one thread that has
allocated it and not linked it yet (`Owns`). What a statement may touch (`Touched`) is what its thread and
its vertex own, so a statement keeps this (`Owns.step`).
-/

namespace Dgap

namespace Bal

variable {n : ℕ} {heap heap' : ℕ → Option EdgeBlock} {hand : Fin n → Option ℕ} {bs : ℕ → List ℕ}

/-- The blocks of the pool are the blocks `bs v` of the vertices and the blocks in the hands of the
threads, and none of them belongs to two. -/
structure Owns (heap : ℕ → Option EdgeBlock) (hand : Fin n → Option ℕ) (bs : ℕ → List ℕ) : Prop where
  live : ∀ v, ∀ o ∈ bs v, heap o ≠ none
  nonzero : ∀ v, ∀ o ∈ bs v, o ≠ 0
  disjoint : ∀ v w, v ≠ w → ∀ o ∈ bs v, o ∉ bs w
  handLive : ∀ i o, hand i = some o → heap o ≠ none
  handNonzero : ∀ i o, hand i = some o → o ≠ 0
  handApart : ∀ i o, hand i = some o → ∀ v, o ∉ bs v
  handOnce : ∀ i j o, hand i = some o → hand j = some o → i = j
  owned : ∀ o b, heap o = some b → (∃ v, o ∈ bs v) ∨ ∃ i, hand i = some o

/-- Whose block `o` is when the blocks of one vertex change. -/
lemma mem_update {s v o : ℕ} {l' : List ℕ} :
    o ∈ Function.update bs s l' v ↔ v = s ∧ o ∈ l' ∨ v ≠ s ∧ o ∈ bs v := by
  by_cases hv : v = s
  · subst hv
    simp
  · simp [hv]

/-- In whose hands block `o` is when what one thread has in its hands changes. -/
lemma update_eq_some {i j : Fin n} {x : Option ℕ} {o : ℕ} :
    Function.update hand i x j = some o ↔ j = i ∧ x = some o ∨ j ≠ i ∧ hand j = some o := by
  by_cases hj : j = i
  · subst hj
    simp
  · simp [hj]

namespace Touched

variable {g g' : Graph} {v o : ℕ} {l l' : List ℕ} {pc pc' : Pc} (h : Touched g g' v l l' pc pc')

include h

/-- The blocks of the vertex grow at most by the block in the hands of the thread. -/
lemma mem_grow (ho : o ∈ l') : o ∈ l ∨ pc.block? = some o ∧ pc'.block? = none := by
  rcases h.blocks with ⟨rfl, -⟩ | ⟨p, hp, rfl, hnone⟩
  · exact .inl ho
  · rcases List.mem_append.1 ho with ho | ho
    · exact .inl ho
    · rw [List.mem_singleton.1 ho]
      exact .inr ⟨hp, hnone⟩

/-- The vertex keeps its blocks. -/
lemma mem_keep (ho : o ∈ l) : o ∈ l' := by
  rcases h.blocks with ⟨rfl, -⟩ | ⟨p, -, rfl, -⟩
  · exact ho
  · exact List.mem_append_left _ ho

/-- The thread keeps the block in its hands, or the vertex gets it. -/
lemma mem_hand (ho : pc.block? = some o) : pc'.block? = some o ∨ o ∈ l' := by
  rcases h.blocks with ⟨-, hkeep⟩ | ⟨p, hp, rfl, -⟩
  · exact .inl (hkeep o ho)
  · obtain rfl := Option.some.inj (hp.symm.trans ho)
    exact .inr (List.mem_append_right _ (List.mem_singleton_self p))

end Touched

namespace Owns

variable (h : Owns heap hand bs) {g g' : Graph} {s : ℕ} {l' : List ℕ} {pc pc' : Pc} {i : Fin n}

include h

/-- A block that a vertex has after a statement was nobody else's. -/
lemma not_mem_of_grow (hT : Touched g g' s (bs s) l' pc pc') (hi : hand i = pc.block?) {o v : ℕ}
    (ho : o ∈ l') (hv : v ≠ s) : o ∉ bs v := by
  intro hov
  rcases hT.mem_grow ho with hs | ⟨hp, -⟩
  · exact h.disjoint v s hv o hov hs
  · exact h.handApart i o (hi.trans hp) v hov

/-- The block that a thread has in its hands after a statement is nobody else's. -/
lemma hand_step (hheap : g.heap = heap) (hT : Touched g g' s (bs s) l' pc pc')
    (hi : hand i = pc.block?) {o : ℕ} (ho : pc'.block? = some o) :
    o ≠ 0 ∧ (∀ v, o ∉ bs v) ∧ o ∉ l' ∧ ∀ j, hand j = some o → j = i := by
  have hl' : (∀ v, o ∉ bs v) → o ∉ l' := fun hv hm => by
    rcases hT.mem_grow hm with hm | ⟨-, hnone⟩
    · exact hv s hm
    · rw [ho] at hnone
      cases hnone
  rcases hT.fresh o ho with hp | ⟨hfree, hzero⟩
  · have hv := h.handApart i o (hi.trans hp)
    exact ⟨h.handNonzero i o (hi.trans hp), hv, hl' hv, fun j hj => h.handOnce j i o hj (hi.trans hp)⟩
  · rw [hheap] at hfree
    have hv : ∀ v, o ∉ bs v := fun v hm => h.live v o hm hfree
    exact ⟨hzero, hv, hl' hv, fun j hj => absurd hfree (h.handLive j o hj)⟩

/-- A statement of the thread `i` at the vertex `s`. -/
lemma step (hheap : g.heap = heap) (hT : Touched g g' s (bs s) l' pc pc') (hi : hand i = pc.block?)
    (hlive : ∀ o ∈ l', g'.heap o ≠ none) (hblock : ∀ o, pc'.block? = some o → g'.heap o ≠ none) :
    Owns g'.heap (Function.update hand i pc'.block?) (Function.update bs s l') := by
  -- what is neither of the vertex nor of the thread stays live
  have hframe : ∀ o, o ∉ bs s → hand i ≠ some o → heap o ≠ none → g'.heap o ≠ none := by
    intro o hs hio ho
    rw [hT.heap o hs (by rw [← hi]; exact hio) (by rw [hheap]; exact ho), hheap]
    exact ho
  refine ⟨fun v o hov => ?_, fun v o hov => ?_, fun v w hvw o hov how => ?_, fun j o hoj => ?_,
    fun j o hoj => ?_, fun j o hoj v hov => ?_, fun j k o hoj hok => ?_, fun o b hb => ?_⟩
  · rcases mem_update.1 hov with ⟨rfl, ho⟩ | ⟨hv, ho⟩
    · exact hlive o ho
    · exact hframe o (h.disjoint v s hv o ho) (fun hio => h.handApart i o hio v ho) (h.live v o ho)
  · rcases mem_update.1 hov with ⟨rfl, ho⟩ | ⟨-, ho⟩
    · rcases hT.mem_grow ho with ho | ⟨hp, -⟩
      · exact h.nonzero v o ho
      · exact h.handNonzero i o (hi.trans hp)
    · exact h.nonzero v o ho
  · rcases mem_update.1 hov with ⟨rfl, hv⟩ | ⟨hvs, hv⟩ <;> rcases mem_update.1 how with ⟨rfl, hw⟩ | ⟨hws, hw⟩
    · exact hvw rfl
    · exact h.not_mem_of_grow hT hi hv hws hw
    · exact h.not_mem_of_grow hT hi hw hvs hv
    · exact h.disjoint v w hvw o hv hw
  · rcases update_eq_some.1 hoj with ⟨rfl, hj⟩ | ⟨hji, hj⟩
    · exact hblock o hj
    · exact hframe o (h.handApart j o hj s) (fun hio => hji (h.handOnce j i o hj hio))
        (h.handLive j o hj)
  · rcases update_eq_some.1 hoj with ⟨rfl, hj⟩ | ⟨-, hj⟩
    · exact (h.hand_step hheap hT hi hj).1
    · exact h.handNonzero j o hj
  · rcases update_eq_some.1 hoj with ⟨rfl, hj⟩ | ⟨hji, hj⟩
    · obtain ⟨-, hbs, hl', -⟩ := h.hand_step hheap hT hi hj
      rcases mem_update.1 hov with ⟨rfl, hv⟩ | ⟨-, hv⟩
      · exact hl' hv
      · exact hbs v hv
    · rcases mem_update.1 hov with ⟨rfl, hv⟩ | ⟨-, hv⟩
      · rcases hT.mem_grow hv with hv | ⟨hp, -⟩
        · exact h.handApart j o hj v hv
        · exact hji (h.handOnce j i o hj (hi.trans hp))
      · exact h.handApart j o hj v hv
  · rcases update_eq_some.1 hoj with ⟨rfl, hj⟩ | ⟨-, hj⟩ <;>
      rcases update_eq_some.1 hok with ⟨rfl, hk⟩ | ⟨-, hk⟩
    · rfl
    · exact ((h.hand_step hheap hT hi hj).2.2.2 k hk).symm
    · exact (h.hand_step hheap hT hi hk).2.2.2 j hj
    · exact h.handOnce j k o hj hk
  · rcases hT.live o b hb with hold | hnew
    · obtain ⟨b', hb'⟩ := Option.ne_none_iff_exists'.1 hold
      rw [hheap] at hb'
      rcases h.owned o b' hb' with ⟨v, hv⟩ | ⟨j, hj⟩
      · by_cases hvs : v = s
        · subst hvs
          exact .inl ⟨v, mem_update.2 (.inl ⟨rfl, hT.mem_keep hv⟩)⟩
        · exact .inl ⟨v, mem_update.2 (.inr ⟨hvs, hv⟩)⟩
      · by_cases hji : j = i
        · subst hji
          -- a block that the thread has linked is the vertex' now
          rcases hT.mem_hand (hi.symm.trans hj) with hp | hp
          · exact .inr ⟨j, update_eq_some.2 (.inl ⟨rfl, hp⟩)⟩
          · exact .inl ⟨s, mem_update.2 (.inl ⟨rfl, hp⟩)⟩
        · exact .inr ⟨j, update_eq_some.2 (.inr ⟨hji, hj⟩)⟩
    · exact .inr ⟨i, update_eq_some.2 (.inl ⟨rfl, hnew⟩)⟩

end Owns

end Bal

end Dgap
