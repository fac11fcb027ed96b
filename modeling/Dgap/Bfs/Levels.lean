import Dgap.Bfs.Iterations

/-!
# From level to level

The serial code of `DOBFS` between its loops. At the head of `while (!queue.empty())` the window of the queue is
the frontier and nothing behind it is visited (`Ready`); so it is after `TDStep`, and after the loops that go
bottom up and collect the frontier again. The queue never has a vertex twice, so it never has more cells than
there are vertices (`Team.length_le`).
-/

namespace Dgap

namespace Bfs

open Multigraph

variable (inp : Input)

/-- At the head of the loop: all the queue is settled, and its window is the frontier. -/
structure Ready (s : State) : Prop where
  base : Base inp s
  full : s.order.length = s.queue.sharedOutEnd
  le : s.queue.sharedOutStart ≤ s.queue.sharedOutEnd
  mem : ∀ v, inp.At s.level v ↔
    ∃ pos, s.queue.sharedOutStart ≤ pos ∧ pos < s.queue.sharedOutEnd ∧ s.order[pos]? = some v
  clean : s.Clean inp

variable {inp} {n : ℕ} {k : Loop} {s : State} {ts : Fin n → Thread} {v : ℕ}

/-- A thread that enters a parallel region knows what it has to. -/
lemma ok_fresh (k : Loop) (s : State) : Thread.fresh.Ok inp k s where
  copies := .of_none rfl
  calm _ := rfl
  flushed _ _ _ := rfl
  quiet _ := rfl
  awake := ⟨le_rfl, fun h => absurd h (lt_irrefl 0)⟩
  pc := trivial

/-- What is behind the window, by its positions. -/
lemma mem_drop_iff {l : List ℕ} {d : ℕ} : v ∈ l.drop d ↔ ∃ pos, d ≤ pos ∧ l[pos]? = some v := by
  rw [List.mem_iff_getElem?]
  constructor
  · rintro ⟨m, hm⟩
    rw [List.getElem?_drop] at hm
    exact ⟨d + m, Nat.le_add_right d m, hm⟩
  · rintro ⟨pos, hpos, hv⟩
    refine ⟨pos - d, ?_⟩
    rw [List.getElem?_drop, Nat.add_sub_cancel' hpos]
    exact hv

/-- Fresh threads hold nothing. -/
lemma members_fresh (hfull : s.order.length = s.queue.sharedOutEnd) :
    members inp s (fun _ : Fin n => .fresh) = 0 := by
  have hheld : (Thread.fresh.held inp : Multiset ℕ) = 0 := rfl
  rw [members, List.drop_of_length_le hfull.le, hheld, Finset.sum_const_zero]
  rfl

/-- Threads whose buffers are flushed hold nothing. -/
lemma members_flushed (hidle : ∀ i, (ts i).pc.cur = none) (hfresh : ∀ i, (ts i).buffer = .fresh) :
    members inp s ts = (s.order.drop s.queue.sharedOutEnd : Multiset ℕ) := by
  have hheld : ∀ i, ((ts i).held inp : Multiset ℕ) = 0 := fun i => by
    rw [Thread.held, hfresh i, Pc.eq_idle (hidle i)]
    rfl
  rw [members, Finset.sum_congr rfl fun i _ => hheld i, Finset.sum_const_zero, add_zero]

/-- A settled queue without cells behind its window needs no copies. -/
lemma filled_full (hs : QueueBuffer.Settled s.queue s.order) (hfull : s.order.length = s.queue.sharedOutEnd)
    (bs : Fin n → QueueBuffer ℕ) : QueueBuffer.Filled s.queue s.order bs := fun j x hx =>
  .inl (hs.seen j (hfull ▸ (List.getElem?_eq_some_iff.1 hx).1) x hx)

/-- The two parts of the queue. -/
lemma nodup_order (hnodup : (s.order.take s.queue.sharedOutEnd).Nodup)
    (hdrop : (s.order.drop s.queue.sharedOutEnd).Nodup)
    (hdisjoint : ∀ v ∈ s.order.take s.queue.sharedOutEnd, v ∉ s.order.drop s.queue.sharedOutEnd) :
    s.order.Nodup := by
  rw [← List.take_append_drop s.queue.sharedOutEnd s.order]
  exact List.nodup_append.2 ⟨hnodup, hdrop, fun a ha b hb hab => hdisjoint a ha (hab ▸ hb)⟩

/-- A queue without repetitions has at most as many cells as there are vertices. -/
lemma length_le (h : s.order.Nodup) (hlt : ∀ v ∈ s.order, v < inp.numNodes) : s.order.length ≤ inp.numNodes := by
  have hsub := h.subperm fun v hv => List.mem_range.2 (hlt v hv)
  exact hsub.length_le.trans_eq List.length_range

/-- What is behind the window is held. -/
lemma drop_le_members : (s.order.drop s.queue.sharedOutEnd : Multiset ℕ) ≤ members inp s ts :=
  Multiset.le_add_right _ _

/-- Where the threads flush their buffers the vertices behind the window are new and in none of the cells
before, and they are vertices. -/
lemma Team.drop (hg : Glob inp s k) (h : Team inp s ts k) (hk : k.Queues) :
    (s.order.drop s.queue.sharedOutEnd).Nodup ∧ ∀ v ∈ s.order.drop s.queue.sharedOutEnd,
      v ∉ s.order.take s.queue.sharedOutEnd ∧ ∃ d, inp.At d v := by
  have hle : (s.order.drop s.queue.sharedOutEnd : Multiset ℕ) ≤ members inp s ts := drop_le_members
  have hmem : ∀ v ∈ s.order.drop s.queue.sharedOutEnd, v ∈ members inp s ts := fun v hv =>
    Multiset.mem_of_le hle (Multiset.mem_coe.2 hv)
  -- in `TDStep` they are of the next level
  have hfound : Base inp s → members inp s ts = (s.found inp).val →
      (s.order.drop s.queue.sharedOutEnd).Nodup ∧ ∀ v ∈ s.order.drop s.queue.sharedOutEnd,
        v ∉ s.order.take s.queue.sharedOutEnd ∧ ∃ d, inp.At d v := by
    intro hbase heq
    rw [heq] at hle hmem
    refine ⟨Multiset.coe_nodup.1 (Multiset.nodup_of_le hle (s.found inp).nodup), fun v hv => ?_⟩
    have hat := (mem_found.1 (show v ∈ s.found inp from hmem v hv)).2.2
    refine ⟨fun htake => ?_, _, hat⟩
    obtain ⟨j, hj, hold⟩ := hbase.old v htake
    have := hold.unique hat
    omega
  -- in `BitmapToQueue` they are of the frontier, of which the queue has nothing yet
  have hcollected : Collected inp s → (members inp s ts).Nodup → (∀ v ∈ members inp s ts, inp.At s.level v) →
      (s.order.drop s.queue.sharedOutEnd).Nodup ∧ ∀ v ∈ s.order.drop s.queue.sharedOutEnd,
        v ∉ s.order.take s.queue.sharedOutEnd ∧ ∃ d, inp.At d v := by
    intro hc hnodup hat
    refine ⟨Multiset.coe_nodup.1 (Multiset.nodup_of_le hle hnodup), fun v hv => ?_⟩
    refine ⟨fun htake => ?_, _, hat v (hmem v hv)⟩
    obtain ⟨j, hj, hold⟩ := hc.former v htake
    have := hold.unique (hat v (hmem v hv))
    omega
  cases k with
  | topDown lo hi => exact hfound hg.1 h.2
  | flushTopDown => exact hfound hg.1 h.2
  | toQueue => exact hcollected hg.2 h.2.1 h.2.2.1
  | flushToQueue => exact hcollected hg.2 h.2.1 fun v hv => (h.2.2 v).1 hv
  | _ => exact hk.elim

/-- Every loop with buffers has what holds while there is a frontier. -/
lemma Glob.base (hg : Glob inp s k) (hk : k.Queues) : Base inp s := by
  cases k with
  | topDown => exact hg.1
  | flushTopDown => exact hg.1
  | toQueue => exact hg.1
  | flushToQueue => exact hg.1
  | _ => exact hk.elim

/-- The queue has no vertex twice. -/
lemma Team.nodup (hg : Glob inp s k) (h : Team inp s ts k) (hk : k.Queues) : s.order.Nodup := by
  obtain ⟨hdrop, hold⟩ := h.drop hg hk
  exact nodup_order (hg.base hk).nodup hdrop fun v hv hv' => (hold v hv').1 hv

/-- The queue has at most as many cells as there are vertices. -/
lemma Team.length_le (hin : inp.Valid) (hg : Glob inp s k) (h : Team inp s ts k) (hk : k.Queues) :
    s.queue.sharedIn ≤ inp.numNodes := by
  have hbase := hg.base hk
  rw [← hbase.settled.length]
  refine Bfs.length_le (h.nodup hg hk) fun v hv => ?_
  rw [← List.take_append_drop s.queue.sharedOutEnd s.order] at hv
  rcases List.mem_append.1 hv with hv | hv
  · obtain ⟨j, -, hat⟩ := hbase.old v hv
    exact hin.lt_of_at hat
  · obtain ⟨-, d, hat⟩ := (h.drop hg hk).2 v hv
    exact hin.lt_of_at hat

/-- What is two levels deeper than the frontier has not been found. -/
lemma Tree.unvisited {d : ℕ} {parent : ℕ → ℤ} (h : Tree inp parent d) (hin : inp.Valid) (hat : inp.At (d + 2) v) :
    parent v < 0 := by
  have hfar : ∀ j ≤ d, ¬ inp.At j v := fun j hj hat' => by
    have := hat'.unique hat
    omega
  rcases h.far v (hin.lt_of_at hat) hfar with hneg | ⟨hat', -⟩
  · exact hneg
  · have := hat'.unique hat
    omega

variable (inp) in
/-- What holds at the entry of a loop, for threads that enter a parallel region. -/
structure Enters (n : ℕ) (s : State) (k : Loop) : Prop where
  glob : Glob inp s k
  team : Team inp s (fun _ : Fin n => .fresh) k
  opens : ∀ x ∈ k.items n inp.numNodes, Open inp s (fun _ : Fin n => .fresh) x k

/-- A window that is not empty has a vertex. -/
lemma Ready.nonempty (h : Ready inp s) (hempty : ¬ s.queue.isEmpty) : ∃ v, inp.At s.level v := by
  have hlt : s.queue.sharedOutStart < s.queue.sharedOutEnd := lt_of_le_of_ne h.le hempty
  have hpos : s.queue.sharedOutStart < s.order.length := h.full.symm ▸ hlt
  exact ⟨_, (h.mem _).2 ⟨_, le_rfl, hlt, List.getElem?_eq_getElem hpos⟩⟩

/-- The head of the loop, and the loop it enters. -/
lemma Ready.loopHead (h : Ready inp s) : Enters inp n (s.loopHead inp).1 (s.loopHead inp).2 := by
  rw [State.loopHead]
  by_cases hempty : s.queue.isEmpty
  · rw [if_pos hempty]
    refine ⟨fun v hv => h.base.tree.ended (fun w hw => ?_) hv, trivial, fun _ _ => trivial⟩
    obtain ⟨pos, hlo, hhi, -⟩ := (h.mem w).1 hw
    have heq : s.queue.sharedOutStart = s.queue.sharedOutEnd := hempty
    omega
  rw [if_neg hempty]
  split_ifs with hup
  · exact ⟨⟨h.base, ⟨rfl, rfl, h.mem, h.nonempty hempty⟩, h.full, h.clean⟩, trivial, fun _ _ => trivial⟩
  · refine ⟨⟨⟨h.base.settled, h.base.tree, h.base.nodup, h.base.old, h.base.bits⟩,
      ⟨rfl, rfl, h.mem, h.nonempty hempty⟩⟩, ⟨filled_full h.base.settled h.full _, ?_⟩, fun _ _ => trivial⟩
    -- nothing of the next level has been found
    have hnone : State.found inp { s with edgesToCheck := s.edgesToCheck - s.scoutCount } = ∅ := by
      refine Finset.eq_empty_of_forall_notMem fun v hv => ?_
      obtain ⟨-, hparent, hat⟩ := mem_found.1 hv
      have hneg : s.parent v < 0 := h.clean v hat
      exact absurd hneg (not_lt.2 hparent)
    rw [hnone]
    exact members_fresh h.full

section Joins

variable (hin : inp.Valid)

include hin

/-- Behind `InitParent` the source is the frontier. -/
lemma setUp_ready (hneg : ∀ v < inp.numNodes, s.parent v < 0) : Ready inp (s.setUp inp) where
  base :=
    { settled := ⟨rfl, le_rfl, fun j hj x hx => by
        obtain rfl : j = 0 := Nat.lt_one_iff.1 hj
        cases hx
        exact Function.update_self 0 inp.source s.queue.reset.shared⟩
      tree := .start hneg
      nodup := List.nodup_singleton _
      old := fun v hv => ⟨0, le_rfl, by
        obtain rfl := List.mem_singleton.1 hv
        exact atDist_start⟩
      bits := fun v hv => by
        have hreset : Bitmap.reset.getBit v = true := hv
        rw [Bitmap.getBit_reset] at hreset
        cases hreset }
  full := rfl
  le := Nat.zero_le _
  mem v := by
    have hzero : inp.At 0 v ↔ v = inp.source := atDist_zero
    show inp.At 0 v ↔ ∃ pos, 0 ≤ pos ∧ pos < 1 ∧ [inp.source][pos]? = some v
    rw [hzero]
    constructor
    · rintro rfl
      exact ⟨0, le_rfl, Nat.zero_lt_one, rfl⟩
    · rintro ⟨pos, -, hpos, hv⟩
      obtain rfl := Nat.lt_one_iff.1 hpos
      exact (Option.some.inj hv).symm
  clean v hv := by
    have hne : v ≠ inp.source := by
      rintro rfl
      have := hv.unique atDist_start
      cases this
    exact (Function.update_of_ne hne (inp.source : ℤ) s.parent).trans_lt (hneg v (hin.lt_of_at hv))

/-- Behind `TDStep` the window slides to the next level. -/
lemma flushTopDown_ready (hg : Glob inp s .flushTopDown) (ht : Team inp s ts .flushTopDown)
    (hidle : ∀ i, (ts i).pc.cur = none) (hfresh : ∀ i, (ts i).buffer = .fresh) :
    Ready inp { s with queue := s.queue.slideWindow, level := s.level + 1 } := by
  have hnodup := ht.nodup hg trivial
  obtain ⟨hbase, -, hall⟩ := hg
  obtain ⟨hfilled, hmembers⟩ := ht
  rw [members_flushed hidle hfresh] at hmembers
  have hlength : s.order.length = s.queue.sharedIn := hbase.settled.length
  -- what is behind the window is the next level
  have hnext : ∀ v, v ∈ s.order.drop s.queue.sharedOutEnd ↔ inp.At (s.level + 1) v := fun v => by
    rw [← Multiset.mem_coe, hmembers, Finset.mem_val, mem_found]
    exact ⟨fun h => h.2.2, fun h => ⟨hin.lt_of_at h, hall v h, h⟩⟩
  refine
    { base :=
        { settled := hbase.settled.slideWindow hfilled fun i => by rw [hfresh i]; rfl
          tree := hbase.tree.next hin hall
          nodup := hnodup.sublist (List.take_sublist _ _)
          old := fun v hv => ?_
          bits := fun v hv => ?_ }
      full := hlength
      le := hbase.settled.outEnd_le.trans_eq hlength
      mem := fun v => ?_
      clean := fun v hv => hbase.tree.unvisited hin hv }
  · have hv' := List.mem_of_mem_take hv
    rw [← List.take_append_drop s.queue.sharedOutEnd s.order] at hv'
    rcases List.mem_append.1 hv' with hv' | hv'
    · obtain ⟨j, hj, hat⟩ := hbase.old v hv'
      exact ⟨j, Nat.le_succ_of_le hj, hat⟩
    · exact ⟨s.level + 1, le_rfl, (hnext v).1 hv'⟩
  · obtain ⟨j, hj, hat⟩ := hbase.bits v hv
    exact ⟨j, Nat.le_succ_of_le hj, hat⟩
  · show inp.At (s.level + 1) v ↔ ∃ pos, s.queue.sharedOutEnd ≤ pos ∧ pos < s.queue.sharedIn ∧ s.order[pos]? = some v
    rw [← hnext, mem_drop_iff]
    refine exists_congr fun pos => and_congr_right fun _ => ⟨fun h => ⟨?_, h⟩, fun h => h.2⟩
    exact hlength ▸ (List.getElem?_eq_some_iff.1 h).1

omit hin in
/-- Behind `BitmapToQueue` the window slides to the frontier. -/
lemma flushToQueue_ready (hg : Glob inp s .flushToQueue) (ht : Team inp s ts .flushToQueue)
    (hidle : ∀ i, (ts i).pc.cur = none) (hfresh : ∀ i, (ts i).buffer = .fresh) :
    Ready inp { s with queue := s.queue.slideWindow, scoutCount := 1 } := by
  have hnodup := ht.nodup hg trivial
  obtain ⟨hbase, hcollected⟩ := hg
  obtain ⟨hfilled, -, hmembers⟩ := ht
  rw [members_flushed hidle hfresh] at hmembers
  have hlength : s.order.length = s.queue.sharedIn := hbase.settled.length
  refine
    { base :=
        { settled := hbase.settled.slideWindow hfilled fun i => by rw [hfresh i]; rfl
          tree := hbase.tree
          nodup := hnodup.sublist (List.take_sublist _ _)
          old := fun v hv => ?_
          bits := hbase.bits }
      full := hlength
      le := hbase.settled.outEnd_le.trans_eq hlength
      mem := fun v => ?_
      clean := hcollected.clean }
  · have hv' := List.mem_of_mem_take hv
    rw [← List.take_append_drop s.queue.sharedOutEnd s.order] at hv'
    rcases List.mem_append.1 hv' with hv' | hv'
    · exact hbase.old v hv'
    · exact ⟨s.level, le_rfl, (hmembers v).1 (Multiset.mem_coe.2 hv')⟩
  · show inp.At s.level v ↔ ∃ pos, s.queue.sharedOutEnd ≤ pos ∧ pos < s.queue.sharedIn ∧ s.order[pos]? = some v
    rw [← hmembers, Multiset.mem_coe, mem_drop_iff]
    refine exists_congr fun pos => and_congr_right fun _ => ⟨fun h => ⟨?_, h⟩, fun h => h.2⟩
    exact hlength ▸ (List.getElem?_eq_some_iff.1 h).1

omit hin in
/-- Behind `QueueToBitmap` the bitmap is the frontier, and the search goes bottom up. -/
lemma toBitmap_enters {lo hi : ℕ} (hg : Glob inp s (.toBitmap lo hi))
    (hdone : ∀ x ∈ (Loop.toBitmap lo hi).items n inp.numNodes, Done inp s ts x (.toBitmap lo hi)) :
    Enters inp n { s with awakeCount := s.windowSize, queue := s.queue.slideWindow, curr := .reset } .bottomUp := by
  obtain ⟨hbase, hwindow, hfull, hclean⟩ := hg
  have hin' : s.queue.sharedIn = s.queue.sharedOutEnd := hbase.settled.length.symm.trans hfull
  have hslide : s.queue.slideWindow.sharedOutEnd = s.queue.sharedOutEnd := hin'
  refine ⟨⟨⟨?_, hbase.tree, ?_, ?_, hbase.bits⟩, ?_⟩, trivial, fun x _ u _ hat => hclean u hat⟩
  · exact hbase.settled.slideWindow (filled_full hbase.settled hfull fun _ : Fin n => .fresh) fun _ => rfl
  · show (s.order.take s.queue.slideWindow.sharedOutEnd).Nodup
    rw [hslide]
    exact hbase.nodup
  · show ∀ v ∈ s.order.take s.queue.slideWindow.sharedOutEnd, ∃ j ≤ s.level, inp.At j v
    rw [hslide]
    exact hbase.old
  · refine ⟨hfull.trans hslide.symm, fun v hv => ?_, fun v hv => ?_, ?_, hwindow.nonempty⟩
    · obtain ⟨pos, hlo, hhi, hpos⟩ := (hwindow.mem v).1 hv
      exact hdone pos (Finset.mem_Ico.2 ⟨hlo, hhi⟩) v hpos
    · have hreset : Bitmap.reset.getBit v = true := hv
      rw [Bitmap.getBit_reset] at hreset
      cases hreset
    · obtain ⟨v, hv⟩ := hwindow.nonempty
      obtain ⟨pos, hlo, hhi, -⟩ := (hwindow.mem v).1 hv
      show 1 ≤ (s.queue.sharedOutEnd : ℤ) - (s.queue.sharedOutStart : ℤ)
      rw [hwindow.outStart, hwindow.outEnd]
      omega

omit hin in
/-- A vertex that a thread has counted is in the next level. -/
lemma exists_next (hok : ∀ i, (ts i).Ok inp k s) (hsum : 1 ≤ ∑ i, (ts i).awakeCount) :
    ∃ v, inp.At (s.level + 1) v := by
  by_contra hnone
  have hzero : ∀ i, (ts i).awakeCount = 0 := fun i => by
    by_contra hne
    have hnonneg := (hok i).awake.1
    exact hnone ((hok i).awake.2 (by omega))
  rw [Finset.sum_eq_zero fun i _ => hzero i] at hsum
  omega

/-- Behind `BUStep` the next level is complete, and the bitmap is the next level. -/
lemma bottomUp_base (hg : Glob inp s .bottomUp) (awakeCount : ℤ)
    (hdone : ∀ x ∈ Loop.bottomUp.items n inp.numNodes, Done inp s ts x .bottomUp) :
    Base inp { s with awakeCount, front := s.curr, curr := s.front, level := s.level + 1 } ∧
      (∀ v, s.curr.getBit v = true ↔ inp.At (s.level + 1) v) := by
  obtain ⟨hbase, hscan⟩ := hg
  have hall : ∀ v, inp.At (s.level + 1) v → 0 ≤ s.parent v ∧ s.curr.getBit v = true := by
    intro v hv
    have hlt := hin.lt_of_at hv
    have hsize : chunkSize = 1024 := rfl
    have hchunk : InChunk inp (v / chunkSize) v :=
      ⟨Nat.div_mul_le_self v _, Nat.lt_mul_of_div_lt (by omega) (by decide), hlt⟩
    exact hdone _ (Finset.mem_range.2 (by rw [hsize]; omega)) v hchunk hv
  have hcurr : ∀ v, s.curr.getBit v = true ↔ inp.At (s.level + 1) v := fun v =>
    ⟨fun h => (hscan.curr v h).1, fun h => (hall v h).2⟩
  refine ⟨⟨hbase.settled, hbase.tree.next hin fun v hv => (hall v hv).1, hbase.nodup, fun v hv => ?_, fun v hv => ?_⟩,
    hcurr⟩
  · obtain ⟨j, hj, hat⟩ := hbase.old v hv
    exact ⟨j, Nat.le_succ_of_le hj, hat⟩
  · exact ⟨s.level + 1, le_rfl, (hcurr v).1 hv⟩

/-- The search goes bottom up again. -/
lemma bottomUp_enters (hg : Glob inp s .bottomUp) (hok : ∀ i, (ts i).Ok inp .bottomUp s) {awakeCount : ℤ}
    (hawake : awakeCount = ∑ i, (ts i).awakeCount)
    (hdone : ∀ x ∈ Loop.bottomUp.items n inp.numNodes, Done inp s ts x .bottomUp)
    (hmany : awakeCount ≥ s.awakeCount ∨ awakeCount > (inp.numNodes : ℤ).tdiv inp.beta) :
    Enters inp n { s with awakeCount, front := s.curr, curr := .reset, level := s.level + 1 } .bottomUp := by
  have hpos : 1 ≤ awakeCount := by
    rcases hmany with hmany | hmany
    · exact hg.2.awake.trans hmany
    · have hnonneg : 0 ≤ (inp.numNodes : ℤ).tdiv inp.beta :=
        Int.tdiv_nonneg (Int.natCast_nonneg _) hin.beta.le
      omega
  obtain ⟨hbase, hcurr⟩ := bottomUp_base hin hg awakeCount hdone
  refine ⟨⟨⟨hbase.settled, hbase.tree, hbase.nodup, hbase.old, hbase.bits⟩, hg.2.full, fun v hv => (hcurr v).2 hv,
    fun v hv => ?_, hpos, exists_next hok (hawake ▸ hpos)⟩, trivial, fun x _ u _ hat => ?_⟩
  · have hreset : Bitmap.reset.getBit v = true := hv
    rw [Bitmap.getBit_reset] at hreset
    cases hreset
  · exact hg.1.tree.unvisited hin hat

/-- The frontier is small, and the threads collect it from the bitmap. -/
lemma bottomUp_collects (hg : Glob inp s .bottomUp) (awakeCount : ℤ)
    (hdone : ∀ x ∈ Loop.bottomUp.items n inp.numNodes, Done inp s ts x .bottomUp) :
    Enters inp n { s with awakeCount, front := s.curr, curr := s.front, level := s.level + 1 } .toQueue := by
  obtain ⟨hbase, hcurr⟩ := bottomUp_base hin hg awakeCount hdone
  have hmembers : members inp { s with awakeCount, front := s.curr, curr := s.front, level := s.level + 1 }
      (fun _ : Fin n => .fresh) = 0 := members_fresh hg.2.full
  refine ⟨⟨hbase, hcurr, fun v hv => ?_, fun v hv => hg.1.tree.unvisited hin hv⟩,
    ⟨filled_full hbase.settled hg.2.full _, ?_, ?_, fun i v hv => (by cases hv)⟩, fun x _ hx => ?_⟩
  · obtain ⟨j, hj, hat⟩ := hg.1.old v hv
    exact ⟨j, Nat.lt_succ_of_le hj, hat⟩
  · rw [hmembers]
    exact Multiset.nodup_zero
  · rw [hmembers]
    exact fun v hv => absurd hv (Multiset.notMem_zero v)
  · rw [hmembers] at hx
    exact Multiset.notMem_zero x hx

omit hin in
/-- Behind the loop of `TDStep` the next level has been found. -/
lemma topDown_enters {lo hi : ℕ} (hg : Glob inp s (.topDown lo hi)) (ht : Team inp s ts (.topDown lo hi))
    (scoutCount : ℤ) (hdone : ∀ x ∈ (Loop.topDown lo hi).items n inp.numNodes, Done inp s ts x (.topDown lo hi)) :
    Glob inp { s with scoutCount } .flushTopDown ∧ Team inp { s with scoutCount } ts .flushTopDown := by
  obtain ⟨hbase, hwindow⟩ := hg
  refine ⟨⟨⟨hbase.settled, hbase.tree, hbase.nodup, hbase.old, hbase.bits⟩, hwindow.nonempty, fun v hv => ?_⟩, ht⟩
  obtain ⟨u, hu, hedge⟩ := hv.pred
  obtain ⟨pos, hlo, hhi, hpos⟩ := (hwindow.mem u).1 hu
  exact hdone pos (Finset.mem_Ico.2 ⟨hlo, hhi⟩) u hpos v hedge

/-- Behind the loop of `BitmapToQueue` the frontier is held. -/
lemma toQueue_team (ht : Team inp s ts .toQueue)
    (hdone : ∀ x ∈ Loop.toQueue.items n inp.numNodes, Done inp s ts x .toQueue) : Team inp s ts .flushToQueue := by
  obtain ⟨hfilled, hnodup, hat, -⟩ := ht
  exact ⟨hfilled, hnodup, fun v => ⟨hat v, fun hv => hdone v (Finset.mem_range.2 (hin.lt_of_at hv)) hv⟩⟩

end Joins

end Bfs

end Dgap
