import Dgap.Bfs.Moves

/-!
# What the steps of the search keep

A step changes one of the parents, the queue and the two bitmaps, and only so far: the queue only grows, a
visited vertex keeps its parent, a bit stays set, and in `BUStep` a thread touches the parents and the words of
its own chunk alone, since 1024 is a multiple of the 64 bits of a word. So the shared state keeps `Glob`
(`Moves.glob`), the thread that moves knows what it has to (`Moves.loc`), and what another thread knows stays
true (`Moves.other`).
-/

namespace Dgap

namespace Bfs

open Multigraph

variable {inp : Input} {k : Loop} {s s' : State} {t t' : Thread} {x v y lo hi : ℕ}

namespace Moves

section Parts

variable (m : Moves inp k s t x s' t')

include m

/-- The depth of the frontier does not change within a loop. -/
lemma level : s'.level = s.level := by
  cases m <;> rfl

/-- The count of the last `BUStep` does not change within a loop. -/
lemma awakeCount : s'.awakeCount = s.awakeCount := by
  cases m <;> rfl

/-- The queue only grows. -/
lemma order : ∃ ext, s'.order = s.order ++ ext := by
  cases m with
  | reserve => exact ⟨_, rfl⟩
  | _ => exact ⟨[], (List.append_nil _).symm⟩

/-- What the queue is to hold stays. -/
lemma get {pos u : ℕ} (hu : s.order[pos]? = some u) : s'.order[pos]? = some u := by
  obtain ⟨ext, hext⟩ := m.order
  rw [hext, List.getElem?_append_left (List.getElem?_eq_some_iff.1 hu).1]
  exact hu

/-- The window stays. -/
lemma window : s'.queue.sharedOutStart = s.queue.sharedOutStart ∧ s'.queue.sharedOutEnd = s.queue.sharedOutEnd := by
  cases m with
  | copy hcopy => exact (QueueBuffer.copyStep_window hcopy).2
  | _ => exact ⟨rfl, rfl⟩

/-- The part of the queue up to the end of the window stays. -/
lemma take (hs : QueueBuffer.Settled s.queue s.order) :
    s'.order.take s'.queue.sharedOutEnd = s.order.take s.queue.sharedOutEnd := by
  obtain ⟨ext, hext⟩ := m.order
  rw [hext, m.window.2, List.take_append_of_le_length hs.outEnd_le]

/-- What the queue is to hold at a position of the window. -/
lemma get_iff (hs : QueueBuffer.Settled s.queue s.order) {pos u : ℕ} (hpos : pos < s.queue.sharedOutEnd) :
    s'.order[pos]? = some u ↔ s.order[pos]? = some u := by
  obtain ⟨ext, hext⟩ := m.order
  rw [hext, List.getElem?_append_left (hpos.trans_le hs.outEnd_le)]

/-- The window of the queue stays settled. -/
lemma settled (hok : t.Ok inp k s) (hs : QueueBuffer.Settled s.queue s.order) :
    QueueBuffer.Settled s'.queue s'.order := by
  cases m with
  | copy hcopy => exact hs.copyStep hcopy hok.copies
  | reserve => exact hs.reserve
  | _ => exact hs

/-- The copies of another thread stay what they are. -/
lemma copies {b : QueueBuffer ℕ} (hb : b.Copies s.queue s.order) : b.Copies s'.queue s'.order := by
  cases m with
  | copy hcopy => exact hb.copyStep_other hcopy
  | reserve => exact hb.reserve_other
  | _ => exact hb

/-- A visited vertex keeps its parent. -/
lemma parent_nonneg (hk : k ≠ .init) (hv : 0 ≤ s.parent v) : s'.parent v = s.parent v := by
  -- what is stored to is unvisited
  have hne : ∀ {w}, s.parent w < 0 → v ≠ w := by
    rintro w hw rfl
    omega
  cases m with
  | init _ hinit => exact absurd hinit hk
  | claim _ _ _ _ hneg => exact Function.update_of_ne (hne hneg) _ _
  | adopt _ _ _ hneg => exact Function.update_of_ne (hne hneg) _ _
  | clear _ _ hneg => exact Function.update_of_ne (hne (by omega)) _ _
  | _ => rfl

/-- Only the loops that search or clean up store parents. -/
lemma parent_eq (h1 : k ≠ .init) (h2 : ∀ lo hi, k ≠ .topDown lo hi) (h3 : k ≠ .bottomUp) (h4 : k ≠ .final)
    (hok : t.Ok inp k s) : s'.parent = s.parent := by
  cases m with
  | init _ hk => exact absurd hk h1
  | claim _ hpc =>
    have hedge := hok.pc
    rw [hpc] at hedge
    obtain ⟨lo, hi, hk, -⟩ := hedge.1.elim
    exact absurd hk (h2 lo hi)
  | adopt _ hk => exact absurd hk h3
  | clear _ hk => exact absurd hk h4
  | _ => rfl

/-- A bit of the frontier stays set. -/
lemma front_mono (hv : s.front.getBit v = true) : s'.front.getBit v = true := by
  cases m with
  | mark => rw [Bitmap.getBit_setBit, hv, Bool.or_true]
  | _ => exact hv

/-- Only `QueueToBitmap` changes the bitmap of the frontier. -/
lemma front_eq (hk : ∀ pos, ¬ k.ToBitmapAt pos) : s'.front = s.front := by
  cases m with
  | mark _ hat => exact absurd hat (hk x)
  | _ => rfl

/-- A bit of the next frontier stays set. -/
lemma curr_mono (hv : s.curr.getBit v = true) : s'.curr.getBit v = true := by
  cases m with
  | setBit => rw [Bitmap.getBit_setBit, hv, Bool.or_true]
  | _ => exact hv

end Parts

/-- A vertex is in one chunk. -/
lemma chunk_unique {c c' : ℕ} (h : InChunk inp c v) (h' : InChunk inp c' v) : c = c' := by
  have hpos : 0 < chunkSize := by decide
  have hdiv : ∀ {c}, InChunk inp c v → v / chunkSize = c := fun {c} h =>
    Nat.div_eq_of_lt_le h.le h.lt
  rw [← hdiv h, hdiv h']

/-- Vertices of different chunks have their bits in different words. -/
lemma word_ne {c c' w : ℕ} (h : InChunk inp c v) (h' : InChunk inp c' w) (hne : c ≠ c') :
    Bitmap.wordOffset v ≠ Bitmap.wordOffset w := by
  intro heq
  refine hne ?_
  have hword : ∀ {c u}, InChunk inp c u → Bitmap.wordOffset u / 16 = c := by
    intro c u h
    have h1 := h.le
    have h2 := h.lt
    rw [chunkSize] at h1 h2
    rw [Bitmap.wordOffset, Bitmap.bitsPerWord]
    omega
  rw [← hword h, heq, hword h']

section BottomUp

variable (m : Moves inp .bottomUp s t x s' t')

include m

/-- A thread stores parents of its chunk only. -/
lemma parent_chunk (hok : t.Ok inp .bottomUp s) (hv : InChunk inp y v) (hne : y ≠ x) :
    s'.parent v = s.parent v := by
  cases m with
  | init _ hk => cases hk
  | claim _ hpc =>
    have hedge := hok.pc
    rw [hpc] at hedge
    exact (show False from hedge.1).elim
  | adopt _ _ hscans =>
    refine Function.update_of_ne ?_ _ _
    rintro rfl
    exact hne (chunk_unique hv hscans.mem)
  | clear _ hk => cases hk
  | _ => rfl

/-- A thread stores words of its chunk only. -/
lemma word_chunk (hv : InChunk inp y v) (hne : y ≠ x) :
    s'.curr.words (Bitmap.wordOffset v) = s.curr.words (Bitmap.wordOffset v) := by
  cases m with
  | setBit _ _ hscans => exact Function.update_of_ne (word_ne hv hscans.mem hne) _ _
  | _ => rfl

/-- What a thread has scanned of another chunk. -/
lemma scanned (hs : s.Scanned inp y v) : s'.Scanned inp y v := by
  intro w hw hmem hat
  rw [m.level] at hat
  obtain ⟨hparent, hbit⟩ := hs w hw hmem hat
  exact ⟨by rwa [m.parent_nonneg (by simp) hparent], m.curr_mono hbit⟩

/-- What is left of another chunk. -/
lemma unscanned (hok : t.Ok inp .bottomUp s) (hne : y ≠ x) (hs : s.Unscanned inp y v) : s'.Unscanned inp y v := by
  intro w hw hmem hat
  rw [m.level] at hat
  rw [m.parent_chunk hok hmem hne]
  exact hs w hw hmem hat

/-- A thread in another chunk. -/
lemma scans (hok : t.Ok inp .bottomUp s) (hne : y ≠ x) (hs : s.Scans inp y v) : s'.Scans inp y v :=
  ⟨hs.mem, m.scanned hs.scanned, m.unscanned hok hne hs.unscanned⟩

end BottomUp

section Shared

variable (m : Moves inp k s t x s' t') (hok : t.Ok inp k s)

include m

/-- Only the loops with buffers fill the queue. -/
lemma order_eq (hk : ¬ k.Queues) : s'.order = s.order := by
  cases m with
  | reserve _ hq => exact absurd hq hk
  | _ => rfl

/-- The window is still the frontier. -/
lemma window_keeps (hs : QueueBuffer.Settled s.queue s.order) (h : Window inp s lo hi) : Window inp s' lo hi where
  outStart := m.window.1.trans h.outStart
  outEnd := m.window.2.trans h.outEnd
  mem v := by
    rw [m.level, h.mem]
    refine exists_congr fun pos => and_congr_right fun _ => and_congr_right fun hpos => ?_
    exact (m.get_iff hs (h.outEnd.symm ▸ hpos)).symm
  nonempty := by
    rw [m.level]
    exact h.nonempty

include hok

/-- What holds while there is a frontier. -/
lemma base (h1 : k ≠ .init) (h2 : k ≠ .final) (hb : Base inp s) : Base inp s' where
  settled := m.settled hok hb.settled
  tree := by
    rw [m.level]
    cases m with
    | init _ hk => exact absurd hk h1
    | claim _ _ hv hat hneg => exact hb.tree.claim hat le_rfl (List.mem_of_getElem? hv) hneg
    | adopt _ _ _ hneg hat hj hmem => exact hb.tree.claim hat hj hmem hneg
    | clear _ hk => exact absurd hk h2
    | _ => exact hb.tree
  nodup := by
    rw [m.take hb.settled]
    exact hb.nodup
  old := by
    rw [m.take hb.settled, m.level]
    exact hb.old
  bits := by
    rw [m.level]
    cases m with
    | mark _ _ _ hat =>
      intro v hv
      rw [Bitmap.getBit_setBit, Bool.or_eq_true, decide_eq_true_iff] at hv
      rcases hv with rfl | hv
      · exact ⟨s.level, le_rfl, hat⟩
      · exact hb.bits v hv
    | _ => exact hb.bits

/-- The collected frontier. -/
lemma collected (hs : QueueBuffer.Settled s.queue s.order) (hk : k = .toQueue ∨ k = .flushToQueue)
    (h : Collected inp s) : Collected inp s' where
  front := by
    rw [m.level, m.front_eq (by rcases hk with rfl | rfl <;> exact fun _ => id)]
    exact h.front
  former := by
    rw [m.take hs, m.level]
    exact h.former
  clean := by
    rw [State.Clean, m.level]
    rw [m.parent_eq (by rcases hk with rfl | rfl <;> simp) (by rcases hk with rfl | rfl <;> simp)
      (by rcases hk with rfl | rfl <;> simp) (by rcases hk with rfl | rfl <;> simp) hok]
    exact h.clean

/-- A step keeps what holds of the shared state. -/
lemma glob (hg : Glob inp s k) : Glob inp s' k := by
  cases k with
  | init => trivial
  | topDown lo hi => exact ⟨m.base hok (by simp) (by simp) hg.1, m.window_keeps hg.1.settled hg.2⟩
  | flushTopDown =>
    refine ⟨m.base hok (by simp) (by simp) hg.1, by rw [m.level]; exact hg.2.1, fun v hv => ?_⟩
    rw [m.level] at hv
    have hparent := hg.2.2 v hv
    rwa [m.parent_nonneg (by simp) hparent]
  | toBitmap lo hi =>
    refine ⟨m.base hok (by simp) (by simp) hg.1, m.window_keeps hg.1.settled hg.2.1, ?_, ?_⟩
    · rw [m.order_eq id, m.window.2]
      exact hg.2.2.1
    · rw [State.Clean, m.level, m.parent_eq (by simp) (by simp) (by simp) (by simp) hok]
      exact hg.2.2.2
  | bottomUp =>
    obtain ⟨hb, hscan⟩ := hg
    refine ⟨m.base hok (by simp) (by simp) hb, ?_, ?_, ?_, ?_, ?_⟩
    · rw [m.order_eq id, m.window.2]
      exact hscan.full
    · rw [m.level, m.front_eq fun _ => id]
      exact hscan.front
    · rw [m.level]
      have hkeep : ∀ v, s.curr.getBit v = true → inp.At (s.level + 1) v ∧ 0 ≤ s'.parent v := fun v hv => by
        obtain ⟨hat, hparent⟩ := hscan.curr v hv
        exact ⟨hat, by rwa [m.parent_nonneg (by simp) hparent]⟩
      cases m with
      | setBit _ _ _ hparent hat =>
        intro v hv
        rw [Bitmap.getBit_setBit, Bool.or_eq_true, decide_eq_true_iff] at hv
        rcases hv with rfl | hv
        · exact ⟨hat, hparent⟩
        · exact hkeep v hv
      | _ => exact hkeep
    · rw [m.awakeCount]
      exact hscan.awake
    · rw [m.level]
      exact hscan.nonempty
  | toQueue => exact ⟨m.base hok (by simp) (by simp) hg.1, m.collected hok hg.1.settled (.inl rfl) hg.2⟩
  | flushToQueue => exact ⟨m.base hok (by simp) (by simp) hg.1, m.collected hok hg.1.settled (.inr rfl) hg.2⟩
  | final =>
    cases m with
    | init _ hk => cases hk
    | claim _ hpc =>
      have hedge := hok.pc
      rw [hpc] at hedge
      exact (show False from hedge.1).elim
    | adopt _ hk => cases hk
    | clear _ _ hneg =>
      intro v hv
      obtain ⟨hreach, hunreach⟩ := hg v hv
      by_cases hvx : v = x
      · subst hvx
        refine ⟨fun hr => ?_, fun _ => ?_⟩
        · have := (hreach hr).nonneg
          omega
        · exact (Function.update_self v (-1 : ℤ) s.parent).trans_lt (show (-1 : ℤ) < 0 by decide)
      · have heq : Function.update s.parent x (-1) v = s.parent v := Function.update_of_ne hvx _ _
        exact ⟨fun hr => (hreach hr).congr heq, fun hr => heq.trans_lt (hunreach hr)⟩
    | _ => exact hg

end Shared

section Threads

/-- What a thread knows where it is stays so when only the queue grows. -/
lemma ok_queue {pc : Pc} {queue : SlidingQueue ℕ} {order : List ℕ} (h : pc.Ok inp k s)
    (horder : ∀ pos u : ℕ, s.order[pos]? = some u → order[pos]? = some u) :
    pc.Ok inp k { s with queue, order } := by
  cases pc with
  | edge pos u e stage => exact ⟨h.1, horder pos u h.2.1, h.2.2⟩
  | mark pos u => exact ⟨h.1, horder pos u h.2⟩
  | scan chunk u => exact h
  | find chunk u e => exact ⟨h.1, ⟨h.2.1.mem, h.2.1.scanned, h.2.1.unscanned⟩, h.2.2⟩
  | adopt chunk u v => exact ⟨h.1, ⟨h.2.1.mem, h.2.1.scanned, h.2.1.unscanned⟩, h.2.2⟩
  | loadWord chunk u => exact ⟨h.1, ⟨h.2.1.mem, h.2.1.scanned, h.2.1.unscanned⟩, h.2.2⟩
  | storeWord chunk u word => exact ⟨h.1, ⟨h.2.1.mem, h.2.1.scanned, h.2.1.unscanned⟩, h.2.2⟩
  | _ => exact h

variable (m : Moves inp k s t x s' t') (hok : t.Ok inp k s) (hg : Glob inp s k)

include m hok hg

/-- A thread that moves knows what it has to. -/
lemma loc : t'.Ok inp k s' := by
  cases m with
  | copy hcopy =>
    have hne := QueueBuffer.copyStep_copying hcopy
    refine ⟨hok.copies.copyStep hcopy, fun hpc => absurd (hok.calm hpc) hne, fun _ _ => QueueBuffer.copyStep_none hcopy,
      fun hk => ?_, hok.awake, ok_queue hok.pc fun _ _ => id⟩
    have hfresh := hok.quiet hk
    rw [hfresh] at hne
    exact absurd rfl hne
  | @reserve pc hcopy hk hflush hcur hclaimed hpc =>
    have hs : QueueBuffer.Settled s.queue s.order := by
      cases k with
      | topDown => exact hg.1.settled
      | flushTopDown => exact hg.1.settled
      | toQueue => exact hg.1.settled
      | flushToQueue => exact hg.1.settled
      | _ => exact hk.elim
    refine ⟨.reserve hs, fun hno => absurd hflush hno, fun i _ hnone => (by cases hnone), fun hno => absurd hk hno,
      hok.awake, ok_queue ?_ fun pos u hu => ?_⟩
    · rcases hpc with rfl | ⟨htpc, rfl⟩
      · exact hok.pc
      · have hfl := hok.pc
        rw [htpc] at hfl
        exact hfl
    · rw [List.getElem?_append_left (List.getElem?_eq_some_iff.1 hu).1]
      exact hu
  | goto hcopy hpc _ _ hne =>
    exact ⟨hok.copies, fun _ => hcopy, fun i hi => absurd hi (hne i), hok.quiet, hok.awake, hpc⟩
  | @pushEdge u e v currVal hcopy hpc hv =>
    have hedge := hok.pc
    rw [hpc] at hedge
    obtain ⟨htop, hu, hseen, w, hw, hparent⟩ := hedge
    obtain rfl : v = w := Option.some.inj (hv.symm.trans hw)
    refine ⟨.of_none hcopy, fun _ => hcopy, fun i hi => (by cases hi), fun hk => ?_, hok.awake, htop, hu,
      fun j hj w' hw' => ?_, trivial⟩
    · obtain ⟨lo, hi, rfl, -⟩ := htop.elim
      exact absurd trivial hk
    · rcases Nat.lt_succ_iff_lt_or_eq.1 hj with hj | rfl
      · exact hseen j hj w' hw'
      · obtain rfl : v = w' := Option.some.inj (hv.symm.trans hw')
        exact hparent
  | pushVertex hcopy hpc =>
    have henqueue := hok.pc
    rw [hpc] at henqueue
    obtain ⟨rfl, -⟩ := henqueue
    exact ⟨.of_none hcopy, fun _ => hcopy, fun i hi => (by cases hi), fun hk => absurd trivial hk, hok.awake, trivial⟩
  | init hcopy => exact ⟨hok.copies, fun _ => hcopy, fun i hi => (by cases hi), hok.quiet, hok.awake, trivial⟩
  | @claim u e v currVal hcopy hpc hv _ hneg =>
    have hedge := hok.pc
    rw [hpc] at hedge
    obtain ⟨htop, hu, hseen, -⟩ := hedge
    refine ⟨hok.copies, fun _ => hcopy, fun i hi => (by cases hi), hok.quiet, hok.awake, htop, hu,
      fun j hj w hw => ?_, v, hv, ?_⟩
    · have hparent := hseen j hj w hw
      have hne : w ≠ v := by
        rintro rfl
        omega
      exact hparent.trans_eq (Function.update_of_ne hne _ _).symm
    · exact (Int.natCast_nonneg u).trans_eq (Function.update_self v (u : ℤ) s.parent).symm
  | mark hcopy => exact ⟨hok.copies, fun _ => hcopy, fun i hi => (by cases hi), hok.quiet, hok.awake, trivial⟩
  | @adopt u v j hcopy hk hscans _ _ _ _ hat =>
    have hof : ∀ {w}, w ≠ u → Function.update s.parent u (v : ℤ) w = s.parent w := fun hw =>
      Function.update_of_ne hw _ _
    refine ⟨hok.copies, fun _ => hcopy, fun i hi => (by cases hi), hok.quiet, ⟨?_, fun _ => ⟨u, hat⟩⟩, hk,
      ⟨hscans.mem, fun w hw hmem hat' => ?_, fun w hw hmem hat' => ?_⟩, ?_, hat⟩
    · have := hok.awake.1
      show 0 ≤ t.awakeCount + 1
      omega
    · obtain ⟨hparent, hbit⟩ := hscans.scanned w hw hmem hat'
      exact ⟨hparent.trans_eq (hof hw.ne).symm, hbit⟩
    · exact (hof (by omega)).trans_lt (hscans.unscanned w hw hmem hat')
    · exact (Int.natCast_nonneg v).trans_eq (Function.update_self u (v : ℤ) s.parent).symm
  | @setBit u hcopy hk hscans hparent hat =>
    refine ⟨hok.copies, fun _ => hcopy, fun i hi => (by cases hi), hok.quiet, hok.awake, hk,
      by have := hscans.mem.le; omega, fun w hw hmem hat' => ?_, hscans.unscanned⟩
    rcases Nat.lt_succ_iff_lt_or_eq.1 hw with hw | rfl
    · obtain ⟨hparent', hbit⟩ := hscans.scanned w hw hmem hat'
      exact ⟨hparent', by rw [Bitmap.getBit_setBit, hbit, Bool.or_true]⟩
    · exact ⟨hparent, by simp [Bitmap.getBit_setBit]⟩
  | clear hcopy => exact ⟨hok.copies, fun _ => hcopy, fun i hi => (by cases hi), hok.quiet, hok.awake, trivial⟩

omit hg

/-- What another thread knows where it is stays so. -/
lemma other_pc {pc : Pc} (hpc : pc.Ok inp k s) (hne : pc.cur ≠ some x) : pc.Ok inp k s' := by
  cases pc with
  | idle => trivial
  | init v => exact hpc
  | dequeue pos => exact hpc
  | edge pos u e stage =>
    obtain ⟨htop, hu, hseen, hstage⟩ := hpc
    obtain ⟨lo, hi, rfl, -⟩ := htop.elim
    have hkeep : ∀ {w}, 0 ≤ s.parent w → 0 ≤ s'.parent w := fun hw => by rwa [m.parent_nonneg (by simp) hw]
    refine ⟨htop, m.get hu, fun j hj w hw => hkeep (hseen j hj w hw), ?_⟩
    cases stage with
    | load => trivial
    | cas currVal =>
      obtain ⟨hneg, w, hw, hparent⟩ := hstage
      refine ⟨hneg, w, hw, ?_⟩
      rcases hparent with heq | hparent
      · cases m with
        | init _ hk => cases hk
        | @claim u' e' v' currVal' =>
          by_cases hwv : w = v'
          · subst hwv
            exact .inr ((Int.natCast_nonneg u').trans_eq (Function.update_self w (u' : ℤ) s.parent).symm)
          · exact .inl ((Function.update_of_ne hwv _ _).trans heq)
        | adopt _ hk => cases hk
        | clear _ hk => cases hk
        | _ => exact .inl heq
      · exact .inr (hkeep hparent)
    | push currVal =>
      obtain ⟨w, hw, hparent⟩ := hstage
      exact ⟨w, hw, hkeep hparent⟩
  | flush i => exact hpc
  | flushed i => exact hpc
  | markLoad pos => exact hpc
  | mark pos u => exact ⟨hpc.1, m.get hpc.2⟩
  | scan chunk u =>
    obtain ⟨rfl, hle, hscanned, hunscanned⟩ := hpc
    exact ⟨rfl, hle, m.scanned hscanned, m.unscanned hok (fun he => hne (he ▸ rfl)) hunscanned⟩
  | find chunk u e =>
    obtain ⟨rfl, hscans, hneg, hseen⟩ := hpc
    have hchunk : chunk ≠ x := fun he => hne (he ▸ rfl)
    refine ⟨rfl, m.scans hok hchunk hscans, by rwa [m.parent_chunk hok hscans.mem hchunk], ?_⟩
    rw [m.front_eq fun _ => id]
    exact hseen
  | adopt chunk u v =>
    obtain ⟨rfl, hscans, hneg, hv, hbit⟩ := hpc
    have hchunk : chunk ≠ x := fun he => hne (he ▸ rfl)
    exact ⟨rfl, m.scans hok hchunk hscans, by rwa [m.parent_chunk hok hscans.mem hchunk], hv, m.front_mono hbit⟩
  | loadWord chunk u =>
    obtain ⟨rfl, hscans, hparent, hat⟩ := hpc
    have hchunk : chunk ≠ x := fun he => hne (he ▸ rfl)
    exact ⟨rfl, m.scans hok hchunk hscans, by rwa [m.parent_chunk hok hscans.mem hchunk], by rwa [m.level]⟩
  | storeWord chunk u word =>
    obtain ⟨rfl, hscans, hparent, hat, hword⟩ := hpc
    have hchunk : chunk ≠ x := fun he => hne (he ▸ rfl)
    exact ⟨rfl, m.scans hok hchunk hscans, by rwa [m.parent_chunk hok hscans.mem hchunk], by rwa [m.level],
      hword.trans (m.word_chunk hscans.mem hchunk).symm⟩
  | collect v => exact hpc
  | enqueue v => exact ⟨hpc.1, by rw [m.level]; exact hpc.2⟩
  | test v => exact hpc
  | clear v =>
    obtain ⟨rfl, hneg⟩ := hpc
    refine ⟨rfl, ?_⟩
    have hvx : v ≠ x := fun he => hne (he ▸ rfl)
    cases m with
    | init _ hk => cases hk
    | claim _ htpc =>
      have hedge := hok.pc
      rw [htpc] at hedge
      exact (show False from hedge.1).elim
    | adopt _ hk => cases hk
    | clear => exact (Function.update_of_ne hvx (-1 : ℤ) s.parent).trans_lt hneg
    | _ => exact hneg

/-- What another thread knows stays so. -/
lemma other {d : Thread} (hd : d.Ok inp k s) (hne : d.pc.cur ≠ some x) : d.Ok inp k s' where
  copies := m.copies hd.copies
  calm := hd.calm
  flushed := hd.flushed
  quiet := hd.quiet
  awake := by
    rw [m.level]
    exact hd.awake
  pc := m.other_pc hok hd.pc hne

end Threads

end Moves

end Bfs

end Dgap
