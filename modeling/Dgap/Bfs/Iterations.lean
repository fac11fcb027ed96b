import Dgap.Bfs.Collect

/-!
# The iterations of the loops of the search

An iteration that is open when a thread takes it gives the thread what it has to know (`Thread.Ok.start`), the
steps of other threads leave it open and leave done what it has done (`Moves.still_open`, `Moves.done`), and a thread
that leaves it has done it (`Moves.finish`).
-/

namespace Dgap

namespace Bfs

open Multigraph

variable {inp : Input} {k : Loop} {s s' : State} {t' : Thread} {x y : ℕ} {n : ℕ} {ts : Fin n → Thread} {i : Fin n}

/-- A free thread is nowhere. -/
lemma Pc.eq_idle {pc : Pc} (h : pc.cur = none) : pc = .idle := by
  cases pc with
  | idle => rfl
  | _ => cases h

/-- A thread that enters an iteration has claimed nothing. -/
lemma Loop.claimed_start (k : Loop) (x : ℕ) : (k.start x).claimed inp = [] := by
  cases k <;> rfl

section Take

variable (hcur : (ts i).pc.cur = none)

include hcur

/-- A thread takes an iteration, and what is held stays the same. -/
lemma members_start : members inp s (Function.update ts i ((ts i).goto (k.start x))) = members inp s ts :=
  members_goto (by rw [Pc.eq_idle hcur]; rfl) (k.claimed_start x)

/-- A thread that takes an iteration knows what it has to. -/
lemma Thread.Ok.start (h : (ts i).Ok inp k s) (hx : x ∈ k.items n inp.numNodes) (hopen : Open inp s ts x k) :
    ((ts i).goto (k.start x)).Ok inp k s where
  copies := h.copies
  calm _ := h.calm (by rw [Pc.eq_idle hcur]; exact id)
  flushed j hj := by cases k <;> cases hj
  quiet := h.quiet
  awake := h.awake
  pc := by
    cases k with
    | init => exact ⟨rfl, Finset.mem_range.1 hx⟩
    | topDown lo hi => exact Finset.mem_Ico.1 hx
    | flushTopDown => exact .inl rfl
    | toBitmap lo hi => exact Finset.mem_Ico.1 hx
    | bottomUp =>
      refine ⟨rfl, le_rfl, fun w hw hmem => ?_, fun w _ hmem => hopen w hmem⟩
      exact absurd hmem.le (not_le.2 hw)
    | toQueue => rfl
    | flushToQueue => exact .inr rfl
    | final => rfl

/-- An iteration stays open when another one is taken. -/
lemma Open.start (h : Open inp s ts y k) : Open inp s (Function.update ts i ((ts i).goto (k.start x))) y k := by
  cases k with
  | bottomUp => exact h
  | toQueue =>
    show y ∉ members inp s _
    rwa [members_start hcur]
  | _ => trivial

/-- A buffer stays when its thread takes an iteration. -/
lemma buffer_start (j : Fin n) : (Function.update ts i ((ts i).goto (k.start x)) j).buffer = (ts j).buffer := by
  by_cases hj : j = i
  · subst hj
    rw [Function.update_self]
    rfl
  · rw [Function.update_of_ne hj]

/-- What is done stays done when an iteration is taken. -/
lemma Done.start (h : Done inp s ts y k) : Done inp s (Function.update ts i ((ts i).goto (k.start x))) y k := by
  cases k with
  | flushTopDown => exact fun hy => (buffer_start hcur ⟨y, hy⟩).trans (h hy)
  | flushToQueue => exact fun hy => (buffer_start hcur ⟨y, hy⟩).trans (h hy)
  | toQueue =>
    intro hat
    rw [members_start hcur]
    exact h hat
  | _ => exact h

/-- What the queue and the buffers hold stays the same when an iteration is taken. -/
lemma Team.start (h : Team inp s ts k) (hopen : Open inp s ts x k) :
    Team inp s (Function.update ts i ((ts i).goto (k.start x))) k := by
  have hmembers : members inp s (Function.update ts i ((ts i).goto (k.start x))) = members inp s ts :=
    members_start hcur
  have hbuffers : (fun j => (Function.update ts i ((ts i).goto (k.start x)) j).buffer) = fun j => (ts j).buffer :=
    funext (buffer_start hcur)
  cases k with
  | topDown lo hi => exact ⟨hbuffers ▸ h.1, hmembers.trans h.2⟩
  | flushTopDown => exact ⟨hbuffers ▸ h.1, hmembers.trans h.2⟩
  | toQueue =>
    refine ⟨hbuffers ▸ h.1, hmembers ▸ h.2.1, hmembers ▸ h.2.2.1, fun j v hv => ?_⟩
    rw [hmembers]
    by_cases hj : j = i
    · subst hj
      rw [Function.update_self] at hv
      cases hv
      exact hopen
    · rw [Function.update_of_ne hj] at hv
      exact h.2.2.2 j v hv
  | flushToQueue => exact ⟨hbuffers ▸ h.1, hmembers ▸ h.2.1, hmembers ▸ h.2.2⟩
  | _ => trivial

end Take

namespace Moves

section Step

variable (m : Moves inp k s (ts i) x s' t') (hg : Glob inp s k) (hok : (ts i).Ok inp k s)

include m hg hok

/-- `BitmapToQueue` holds what it held, and at most the vertex of the iteration more. -/
lemma collected_members (hk : k = .toQueue) : Bfs.members inp s' (Function.update ts i t') = Bfs.members inp s ts ∨
    Bfs.members inp s' (Function.update ts i t') = Bfs.members inp s ts + {x} := by
  subst hk
  have hpc := hok.pc
  rcases m.members hg.1.settled trivial with ⟨u, e, v, c, hedge, -⟩ | ⟨-, -, -, heq⟩ | ⟨-, heq⟩
  · rw [hedge] at hpc
    exact (show False from hpc.1).elim
  · exact .inr heq
  · exact .inl heq

/-- Another iteration stays open. -/
lemma still_open (hne : y ≠ x) (h : Open inp s ts y k) : Open inp s' (Function.update ts i t') y k := by
  cases k with
  | bottomUp =>
    intro u hmem hat
    rw [m.level] at hat
    rw [m.parent_chunk hok hmem hne]
    exact h u hmem hat
  | toQueue =>
    rcases m.collected_members hg hok rfl with heq | heq
    · exact fun hy => h (heq ▸ hy)
    · intro hy
      rw [heq] at hy
      rcases Multiset.mem_add.1 hy with hy | hy
      · exact h hy
      · exact hne (Multiset.mem_singleton.1 hy)
  | _ => trivial

omit hg in
/-- The loops over the vertices store the parent of the vertex alone. -/
lemma parent_item (hk : k = .init ∨ k = .final) (hne : y ≠ x) : s'.parent y = s.parent y := by
  cases m with
  | init => exact Function.update_of_ne hne _ _
  | claim _ hpc =>
    have hedge := hok.pc
    rw [hpc] at hedge
    rcases hk with rfl | rfl <;> exact (show False from hedge.1).elim
  | adopt _ hup =>
    subst hup
    rcases hk with hk | hk <;> cases hk
  | clear => exact Function.update_of_ne hne _ _
  | _ => rfl

/-- What another iteration has done stays done. -/
lemma done (hown : ∀ j, k.owner (n := n) x = some j → j = i) (hx : x ∈ k.items n inp.numNodes)
    (hy : y ∈ k.items n inp.numNodes) (hne : y ≠ x) (h : Done inp s ts y k) :
    Done inp s' (Function.update ts i t') y k := by
  have hflush : (∀ hlt : y < n, (ts ⟨y, hlt⟩).buffer = .fresh) → k.Flushes →
      ∀ hlt : y < n, (Function.update ts i t' ⟨y, hlt⟩).buffer = .fresh := by
    intro hfresh hk hlt
    have hself : i.val = x := by
      rcases hk with rfl | rfl
      · exact (congrArg Fin.val (hown ⟨x, Finset.mem_range.1 hx⟩ (dif_pos _))).symm
      · exact (congrArg Fin.val (hown ⟨x, Finset.mem_range.1 hx⟩ (dif_pos _))).symm
    rw [Function.update_of_ne]
    · exact hfresh hlt
    · rintro rfl
      exact hne hself
  cases k with
  | init =>
    show s'.parent y < 0
    rw [m.parent_item hok (.inl rfl) hne]
    exact h
  | topDown lo hi =>
    intro u hu v hv
    have hpos : y < s.queue.sharedOutEnd := hg.2.outEnd.symm ▸ (Finset.mem_Ico.1 hy).2
    have hparent := h u ((m.get_iff hg.1.settled hpos).1 hu) v hv
    rwa [m.parent_nonneg (by simp) hparent]
  | flushTopDown => exact hflush h (.inl rfl)
  | toBitmap lo hi =>
    intro u hu
    have hpos : y < s.queue.sharedOutEnd := hg.2.1.outEnd.symm ▸ (Finset.mem_Ico.1 hy).2
    exact m.front_mono (h u ((m.get_iff hg.1.settled hpos).1 hu))
  | bottomUp =>
    intro u hmem hat
    rw [m.level] at hat
    obtain ⟨hparent, hbit⟩ := h u hmem hat
    exact ⟨by rwa [m.parent_nonneg (by simp) hparent], m.curr_mono hbit⟩
  | toQueue =>
    intro hat
    rw [m.level] at hat
    rcases m.collected_members hg hok rfl with heq | heq
    · exact heq ▸ h hat
    · exact heq ▸ Multiset.mem_add.2 (.inl (h hat))
  | flushToQueue => exact hflush h (.inr rfl)
  | final =>
    show -1 ≤ s'.parent y
    rw [m.parent_item hok (.inr rfl) hne]
    exact h

omit hg in
/-- A thread that leaves its iteration has done it. -/
lemma finish (hown : ∀ j, k.owner (n := n) x = some j → j = i) (hcur : (ts i).pc.cur = some x)
    (hcur' : t'.pc.cur = none) : Done inp s' (Function.update ts i t') x k := by
  have howner : ∀ hlt : x < n, k.Flushes → ⟨x, hlt⟩ = i := by
    intro hlt hk
    rcases hk with rfl | rfl
    · exact hown _ (dif_pos hlt)
    · exact hown _ (dif_pos hlt)
  cases m with
  | copy =>
    have hnone : (ts i).pc.cur = none := hcur'
    rw [hcur] at hnone
    cases hnone
  | @reserve pc _ _ _ hsome =>
    have hnone : pc.cur = none := hcur'
    rw [hsome] at hnone
    cases hnone
  | goto _ _ _ _ _ hleaves =>
    have hleft := hleaves hcur'
    cases k with
    | init => exact hleft.elim
    | topDown lo hi => exact hleft
    | flushTopDown =>
      intro hlt
      rw [howner hlt (.inl rfl), Function.update_self]
      exact hleft
    | toBitmap lo hi => exact hleft.elim
    | bottomUp => exact hleft
    | toQueue => exact fun hat => absurd hat hleft
    | flushToQueue =>
      intro hlt
      rw [howner hlt (.inr rfl), Function.update_self]
      exact hleft
    | final => exact hleft
  | pushEdge => cases hcur'
  | pushVertex hcopy hpc =>
    have henqueue := hok.pc
    rw [hpc] at henqueue
    obtain ⟨rfl, -⟩ := henqueue
    refine fun _ => mem_members_of_held (i := i) ?_
    rw [Function.update_self]
    simp [Thread.held, QueueBuffer.pending, QueueBuffer.append, hcopy]
  | @init value _ hk hneg =>
    subst hk
    exact (Function.update_self x value s.parent).trans_lt hneg
  | claim => cases hcur'
  | @mark u _ hmark hu =>
    obtain ⟨lo, hi, rfl, -⟩ := hmark.elim
    intro w hw
    obtain rfl : u = w := Option.some.inj (hu.symm.trans hw)
    simp [Bitmap.getBit_setBit]
  | adopt => cases hcur'
  | setBit => cases hcur'
  | clear _ hk =>
    subst hk
    exact (Function.update_self x (-1 : ℤ) s.parent).ge

end Step

end Moves

end Bfs

end Dgap
