import Dgap.Bc.Queued

/-!
# The progress of the search

Only the end of an iteration over a destination (`Working.advance`, `Counted.advance`), the start of a
position (`Working.take`) and the barriers change how far the vertices are; every other step moves a thread
within an iteration (`Working.move`). The destination of a tight edge is credited with the paths of its
source when the iteration ends, its bit is set before (`Counted.setBit`).
-/

namespace Dgap

namespace Bc

open Multigraph

section Visit

variable {nbrs : ℕ → List ℕ} {u k : ℕ}

/-- An iteration that begins is at the first statement. -/
lemma visit_eq_edge {u' k' : ℕ} {stage : Stage} (h : visit nbrs u k = .edge u' k' stage) :
    u' = u ∧ k' = k ∧ stage = .check ∧ k < (nbrs u).length := by
  rw [visit] at h
  split_ifs at h with hk
  cases h
  exact ⟨rfl, rfl, rfl, hk⟩

/-- An iteration that begins has set no bit. -/
@[simp] lemma visit_marked : (visit nbrs u k).marked? = none := by
  rw [visit]
  split_ifs <;> rfl

/-- An iteration that begins has claimed nothing. -/
@[simp] lemma visit_claimed : (visit nbrs u k).claimed nbrs = [] := by
  rw [visit]
  split_ifs <;> rfl

/-- The vertex that is visited. -/
lemma visit_vertex {w : ℕ} (h : (visit nbrs u k).vertex? = some w) : w = u := by
  rw [visit] at h
  split_ifs at h
  · exact (Option.some.inj h).symm
  · cases h

/-- Behind the last destination no vertex is visited. -/
lemma visit_vertex_or (nbrs : ℕ → List ℕ) (u k : ℕ) : (visit nbrs u k).vertex? = some u ∨ (nbrs u).length ≤ k := by
  rw [visit]
  split_ifs with hk
  · exact .inl rfl
  · exact .inr (not_lt.1 hk)

/-- A visit is not a flush. -/
lemma visit_ne_flushed : visit nbrs u k ≠ .flushed := by
  rw [visit]
  split_ifs <;> simp

end Visit

section Ok

variable {nbrs : ℕ → List ℕ} {source d : ℕ} {prog prog' : ℕ → ℕ} {depths depths' : ℕ → ℤ} {t : Thread}

/-- What a thread knows stays true when other vertices are claimed. -/
lemma StageOk.mono {u v : ℕ} {stage : Stage} (h : StageOk nbrs source d depths u v stage)
    (hd : ∀ w, depths w ≠ -1 → depths' w = depths w) : StageOk nbrs source d depths' u v stage := by
  have hclaimed : depths v = (d + 1 : ℕ) → depths' v = (d + 1 : ℕ) := fun hv => by rw [hd v (by omega), hv]
  cases stage with
  | check => trivial
  | cas => trivial
  | push => exact fun heq => h ((hd v h).symm.trans heq)
  | test => exact fun heq => h ((hd v h).symm.trans heq)
  | setBit => exact hclaimed h
  | load => exact hclaimed h
  | add x => exact ⟨hclaimed h.1, h.2⟩

/-- A thread where nothing has happened. -/
lemma ThreadOk.mono (h : ThreadOk nbrs source prog d depths t)
    (hd : ∀ w, depths w ≠ -1 → depths' w = depths w)
    (hprog : ∀ u, t.pc.vertex? = some u → prog' u = prog u) : ThreadOk nbrs source prog' d depths' t where
  edge u k stage hpc := by
    obtain ⟨hu, hk, v, hv, hok⟩ := h.edge u k stage hpc
    exact ⟨hu, by rw [hprog u (by rw [hpc]; rfl), hk], v, hv, hok.mono hd⟩
  copying := h.copying
  flushed := h.flushed

/-- A thread at a statement has a vertex. -/
lemma Pc.exists_edge {pc : Pc} {u : ℕ} (h : pc.vertex? = some u) : ∃ k stage, pc = .edge u k stage := by
  cases pc with
  | edge u' k stage => exact ⟨k, stage, by rw [Option.some.inj h]⟩
  | idle => cases h
  | flushed => cases h

/-- A thread at a statement of an iteration. -/
lemma ThreadOk.of_edge {u k v : ℕ} {stage : Stage} (hpc : t.pc = .edge u k stage) (hu : AtDist nbrs source d u)
    (hk : prog u = k) (hv : (nbrs u)[k]? = some v) (hok : StageOk nbrs source d depths u v stage)
    (hcopy : t.buffer.copying = none ∨ stage = .push) : ThreadOk nbrs source prog d depths t where
  edge u' k' stage' hpc' := by
    rw [hpc] at hpc'
    cases hpc'
    exact ⟨hu, hk, v, hv, hok⟩
  copying hne := .inr ⟨u, k, by rw [hpc, hcopy.resolve_left hne]⟩
  flushed hfl := by
    rw [hpc] at hfl
    cases hfl

/-- A thread that begins the iteration over a destination. -/
lemma ThreadOk.of_visit {u k : ℕ} (hpc : t.pc = visit nbrs u k) (hu : AtDist nbrs source d u)
    (hk : prog u = k) (hcopy : t.buffer.copying = none) : ThreadOk nbrs source prog d depths t where
  edge u' k' stage hpc' := by
    obtain ⟨rfl, rfl, rfl, hlt⟩ := visit_eq_edge (hpc.symm.trans hpc')
    exact ⟨hu, hk, _, List.getElem?_eq_getElem hlt, trivial⟩
  copying hne := absurd hcopy hne
  flushed hfl := absurd (hpc.symm.trans hfl) visit_ne_flushed

/-- A thread that is idle or done. -/
lemma ThreadOk.of_vertex_none (hpc : t.pc.vertex? = none) (hcopy : t.buffer.copying ≠ none → t.pc = .flushed)
    (hqueue : t.pc = .flushed → t.buffer.copying = none → t.buffer.localQueue = []) :
    ThreadOk nbrs source prog d depths t where
  edge u k stage hpc' := by
    rw [hpc'] at hpc
    cases hpc
  copying hne := .inl (hcopy hne)
  flushed := hqueue

/-- A thread that is not in a flush copies nothing. -/
lemma ThreadOk.copying_none (h : ThreadOk nbrs source prog d depths t) (hpc : t.pc = .idle) :
    t.buffer.copying = none := by
  by_contra hne
  rcases h.copying hne with h | ⟨u, k, h⟩ <;> · rw [hpc] at h; cases h

end Ok

variable {n : ℕ} {nbrs : ℕ → List ℕ} {prefixes : ℕ → ℤ} {numNodes source d : ℕ} {prog : ℕ → ℕ}
  {c c' : Config n} {i : Fin n} {u k v : ℕ} {stage : Stage}

/-- A step within an iteration, or a step of the queue. -/
lemma Working.move (h : Working nbrs source prog d c)
    (hok : ∀ j, ThreadOk nbrs source prog d c'.depths (c'.threads j))
    (hvertex : ∀ j, (c'.threads j).pc.vertex? = (c.threads j).pc.vertex?) (htodo : c'.todo = c.todo)
    (hshared : ∀ j < c.queue.sharedOutEnd, c'.queue.shared j = c.queue.shared j)
    (hstart : c'.queue.sharedOutStart = c.queue.sharedOutStart)
    (hend : c'.queue.sharedOutEnd = c.queue.sharedOutEnd)
    (hdepths : ∀ v, c.depths v ≠ -1 → c'.depths v ≠ -1) (hphase : c'.phase = c.phase)
    (hloop : c'.phase = .loop → ∀ j, (c'.threads j).pc ≠ .flushed) : Working nbrs source prog d c' where
  threads := hok
  todo pos hpos := by
    rw [htodo] at hpos
    have hold := h.todo pos hpos
    rwa [hstart, hend, hshared pos hold.2.1]
  apart := by
    simp only [hvertex]
    exact h.apart
  fresh j w hj pos hpos := by
    rw [hvertex] at hj
    rw [htodo] at hpos
    rw [hshared pos (h.todo pos hpos).2.1]
    exact h.fresh j w hj pos hpos
  status w hw := by
    simp only [hvertex, htodo]
    refine (h.status w hw).imp_right (Or.imp_left ?_)
    rintro ⟨pos, hpos, rfl⟩
    exact ⟨pos, hpos, hshared pos (h.todo pos hpos).2.1⟩
  before := h.before
  after := h.after
  seen w l x hl hx := hdepths x (h.seen w l x hl hx)
  loop := hloop
  flush hfl := by
    simp only [htodo, hvertex]
    exact h.flush (hphase ▸ hfl)

/-- A thread goes on to another statement of its iteration. -/
lemma Working.goto (h : Working nbrs source prog d c) (hpc : (c.threads i).pc = .edge u k stage)
    {stage' : Stage} (hcopy : (c.threads i).buffer.copying = none) (hv : (nbrs u)[k]? = some v)
    (hok : StageOk nbrs source d c.depths u v stage') :
    Working nbrs source prog d (c.goto i (.edge u k stage')) := by
  obtain ⟨hu, hk, -⟩ := (h.threads i).edge u k stage hpc
  refine h.move ?_ (setThread_same (·.pc.vertex?) (by rw [hpc]; rfl)) rfl (fun _ _ => rfl) rfl rfl
    (fun _ hne => hne) rfl fun hphase => ?_
  · exact forall_setThread (.of_edge rfl hu hk hv hok (.inl hcopy)) fun j _ => h.threads j
  · exact forall_setThread (p := fun t => t.pc ≠ .flushed) (by simp) fun j _ => h.loop hphase j

/-- A thread claims a vertex. -/
lemma Working.claim (h : Working nbrs source prog d c) (hpc : (c.threads i).pc = .edge u k stage)
    (hcopy : (c.threads i).buffer.copying = none) (hv : (nbrs u)[k]? = some v) (hnew : c.depths v = -1) {x : ℤ}
    (hx : x ≠ -1) :
    Working nbrs source prog d
      { c.goto i (.edge u k .push) with depths := Function.update c.depths v x } := by
  obtain ⟨hu, hk, -⟩ := (h.threads i).edge u k stage hpc
  have hold : ∀ w, c.depths w ≠ -1 → Function.update c.depths v x w = c.depths w := fun w hw =>
    Function.update_of_ne (by rintro rfl; exact hw hnew) ..
  refine h.move ?_ (setThread_same (·.pc.vertex?) (by rw [hpc]; rfl)) rfl (fun _ _ => rfl) rfl rfl
    (fun w hw => ?_) rfl fun hphase => ?_
  · refine forall_setThread (.of_edge rfl hu hk hv ?_ (.inl hcopy)) fun j _ =>
      (h.threads j).mono hold fun _ _ => rfl
    show Function.update c.depths v x v ≠ -1
    rwa [Function.update_self]
  · dsimp only
    rwa [hold w hw]
  · exact forall_setThread (p := fun t => t.pc ≠ .flushed) (by simp) fun j _ => h.loop hphase j

/-- A thread is done with a destination. -/
lemma Working.advance (h : Working nbrs source prog d c) (hpc : (c.threads i).pc = .edge u k stage)
    (hcopy : (c.threads i).buffer.copying = none) (hv : (nbrs u)[k]? = some v) (hseen : c.depths v ≠ -1) :
    Working nbrs source (Function.update prog u (k + 1)) d (c.goto i (visit nbrs u (k + 1))) := by
  obtain ⟨hu, hk, -⟩ := (h.threads i).edge u k stage hpc
  have hvertex : (c.threads i).pc.vertex? = some u := by rw [hpc]; rfl
  have hne : ∀ j w, j ≠ i → (c.threads j).pc.vertex? = some w → w ≠ u := by
    rintro j w hj hw rfl
    exact hj (h.apart j i w hw hvertex)
  -- whoever works on a vertex afterwards worked on it before
  have hback : ∀ j w, ((c.goto i (visit nbrs u (k + 1))).threads j).pc.vertex? = some w →
      (c.threads j).pc.vertex? = some w := by
    intro j w hw
    by_cases hj : j = i
    · subst hj
      rw [goto_self] at hw
      rw [visit_vertex hw, hvertex]
    · rwa [goto_of_ne hj] at hw
  refine ⟨?_, fun pos hpos => ?_, fun j l w hj hl => h.apart j l w (hback j w hj) (hback l w hl),
    fun j w hj => h.fresh j w (hback j w hj), fun w hw => ?_, fun w j hj hw => ?_, fun w hw => ?_,
    fun w l x hl hx => ?_, fun hphase => ?_, fun hphase => ?_⟩
  · refine forall_setThread (.of_visit rfl hu (Function.update_self ..) hcopy) fun j hj =>
      (h.threads j).mono (fun _ _ => rfl) fun w hw => Function.update_of_ne (hne j w hj hw) ..
  · obtain ⟨h1, h2, h3⟩ := h.todo pos hpos
    exact ⟨h1, h2, by rw [← h3]; exact Function.update_of_ne (h.fresh i u hvertex pos hpos) ..⟩
  · by_cases hwu : w = u
    · subst hwu
      rw [Function.update_self]
      rcases visit_vertex_or nbrs w (k + 1) with hvis | hlen
      · exact .inr (.inr ⟨i, by rw [goto_self, hvis]⟩)
      · have := (List.getElem?_eq_some_iff.1 hv).1
        exact .inl (by omega)
    · rw [Function.update_of_ne hwu]
      refine (h.status w hw).imp_right (Or.imp_right ?_)
      rintro ⟨j, hj⟩
      have hji : j ≠ i := by
        rintro rfl
        exact hwu (Option.some.inj (hj.symm.trans hvertex))
      exact ⟨j, by rw [goto_of_ne hji, hj]⟩
  · have hwu : w ≠ u := by
      rintro rfl
      exact hj.ne (hw.unique hu)
    rw [Function.update_of_ne hwu]
    exact h.before w j hj hw
  · by_cases hwu : w = u
    · exact ⟨d, le_rfl, hwu ▸ hu⟩
    · rw [Function.update_of_ne hwu] at hw
      exact h.after w hw
  · by_cases hwu : w = u
    · subst hwu
      rw [Function.update_self] at hl
      rcases Nat.lt_succ_iff_lt_or_eq.1 hl with hlt | rfl
      · exact h.seen w l x (hk.symm ▸ hlt) hx
      · rw [hv] at hx
        exact Option.some.inj hx ▸ hseen
    · rw [Function.update_of_ne hwu] at hl
      exact h.seen w l x hl hx
  · exact forall_setThread (p := fun t => t.pc ≠ .flushed) visit_ne_flushed fun j _ => h.loop hphase j
  · have hnone := (h.flush hphase).2 i
    rw [hvertex] at hnone
    cases hnone

/-- A thread starts a position of the frontier. -/
lemma Working.take {order : List ℕ} (h : Working nbrs source prog d c)
    (hqueue : Queued nbrs numNodes order c) (hpc : (c.threads i).pc = .idle) {pos : ℕ} (hpos : pos ∈ c.todo)
    (hu : AtDist nbrs source d (c.queue.shared pos)) :
    Working nbrs source prog d
      { c.goto i (visit nbrs (c.queue.shared pos) 0) with todo := c.todo.erase pos } := by
  obtain ⟨hstart, hend, hzero⟩ := h.todo pos hpos
  have hidle : (c.threads i).pc.vertex? = none := by rw [hpc]; rfl
  have hvertex : ∀ j w, ((c.goto i (visit nbrs (c.queue.shared pos) 0)).threads j).pc.vertex? = some w →
      j = i ∧ w = c.queue.shared pos ∨ j ≠ i ∧ (c.threads j).pc.vertex? = some w := by
    intro j w hw
    by_cases hj : j = i
    · subst hj
      rw [goto_self] at hw
      exact .inl ⟨rfl, visit_vertex hw⟩
    · rw [goto_of_ne hj] at hw
      exact .inr ⟨hj, hw⟩
  refine ⟨?_, fun p hp => h.todo p (Finset.mem_of_mem_erase hp), fun j l w hj hl => ?_,
    fun j w hj p hp => ?_, fun w hw => ?_, h.before, h.after, h.seen, fun hphase => ?_, fun hphase => ?_⟩
  · exact forall_setThread (.of_visit rfl hu hzero ((h.threads i).copying_none hpc)) fun j _ => h.threads j
  · rcases hvertex j w hj with ⟨hji, hwj⟩ | ⟨-, hwj⟩ <;> rcases hvertex l w hl with ⟨hli, hwl⟩ | ⟨-, hwl⟩
    · rw [hji, hli]
    · exact absurd hwj.symm (h.fresh l w hwl pos hpos)
    · exact absurd hwl.symm (h.fresh j w hwj pos hpos)
    · exact h.apart j l w hwj hwl
  · obtain ⟨hne, hp⟩ := Finset.mem_erase.1 hp
    rcases hvertex j w hj with ⟨-, rfl⟩ | ⟨-, hwj⟩
    · exact fun heq => hne (hqueue.inj (h.todo p hp).2.1 hend heq)
    · exact h.fresh j w hwj p hp
  · by_cases hwu : w = c.queue.shared pos
    · subst hwu
      rcases visit_vertex_or nbrs (c.queue.shared pos) 0 with hvis | hlen
      · exact .inr (.inr ⟨i, (congrArg Pc.vertex? goto_self).trans hvis⟩)
      · exact .inl (by omega)
    · rcases h.status w hw with hlen | ⟨p, hp, rfl⟩ | ⟨j, hj⟩
      · exact .inl hlen
      · exact .inr (.inl ⟨p, Finset.mem_erase.2 ⟨fun heq => hwu (by rw [heq]), hp⟩, rfl⟩)
      · have hji : j ≠ i := by
          rintro rfl
          rw [hidle] at hj
          cases hj
        exact .inr (.inr ⟨j, (congrArg (·.pc.vertex?) (goto_of_ne hji)).trans hj⟩)
  · exact forall_setThread (p := fun t => t.pc ≠ .flushed) visit_ne_flushed fun j _ => h.loop hphase j
  · rw [(h.flush hphase).1] at hpos
    cases hpos

/-- Behind the loop every vertex of the frontier is done. -/
lemma Working.done (h : Working nbrs source prog d c) (htodo : c.todo = ∅)
    (hpc : ∀ i, (c.threads i).pc.vertex? = none) {j : ℕ} (hj : j ≤ d) (hu : AtDist nbrs source j u) :
    prog u = (nbrs u).length := by
  rcases hj.lt_or_eq with hlt | rfl
  · exact h.before u j hlt hu
  · rcases h.status u hu with hlen | ⟨pos, hpos, -⟩ | ⟨i, hi⟩
    · exact hlen
    · rw [htodo] at hpos
      cases hpos
    · rw [hpc i] at hi
      cases hi

open Classical in
/-- One more destination of a vertex. -/
lemma credits_advance (hu : u < numNodes) (hk : prog u = k) (hv : (nbrs u)[k]? = some v) (w : ℕ) :
    credits nbrs numNodes source (Function.update prog u (k + 1)) w = credits nbrs numNodes source prog w +
      if w = v ∧ Tight nbrs source u v then pathCount nbrs source u else 0 := by
  have hterm : ∀ x, (((nbrs x).take (Function.update prog u (k + 1) x)).count w : BitVec 32) =
      ((nbrs x).take (prog x)).count w + if x = u ∧ w = v then 1 else 0 := by
    intro x
    by_cases hx : x = u
    · subst hx
      rw [Function.update_self, hk, List.take_add_one, hv, List.count_append, Option.toList_some,
        List.count_singleton]
      by_cases hw : w = v
      · simp [hw]
      · simp [hw, Ne.symm hw]
    · rw [Function.update_of_ne hx, if_neg fun h => hx h.1, add_zero]
  rw [credits, credits]
  simp only [hterm, add_mul, Finset.sum_add_distrib, ite_mul, one_mul, zero_mul]
  congr 1
  by_cases hw : w = v
  · subst hw
    simp only [and_true, true_and]
    rw [Finset.sum_ite_eq']
    simp [hu]
  · simp [hw]

/-- A step that sets no bit and adds no paths. -/
lemma Counted.congr (h : Counted nbrs prefixes numNodes source prog c) (hsucc : c'.succ = c.succ)
    (hcounts : c'.pathCounts = c.pathCounts)
    (hmarked : ∀ j, (c'.threads j).pc.marked? = (c.threads j).pc.marked?) :
    Counted nbrs prefixes numNodes source prog c' where
  bits := by
    simp only [hsucc, hmarked]
    exact h.bits
  counts := by
    rw [hcounts]
    exact h.counts

/-- The ids of different edges are different positions of the bitmap. -/
lemma Numbered.toNat_inj (h : Numbered nbrs prefixes numNodes) {u' k' v' : ℕ} (hu : u < numNodes)
    (hv : (nbrs u)[k]? = some v) (hu' : u' < numNodes) (hv' : (nbrs u')[k']? = some v') :
    (getEdgeId prefixes u' k').toNat = (getEdgeId prefixes u k).toNat ↔ u' = u ∧ k' = k := by
  have hk := (List.getElem?_eq_some_iff.1 hv).1
  have hk' := (List.getElem?_eq_some_iff.1 hv').1
  constructor
  · intro heq
    have h0 := h.nonneg u hu k hk
    have h0' := h.nonneg u' hu' k' hk'
    exact h.inj u' hu' k' hk' u hu k hk (by omega)
  · rintro ⟨rfl, rfl⟩
    rfl

/-- The bit of a tight edge is set. -/
lemma Counted.setBit (h : Counted nbrs prefixes numNodes source prog c)
    (hnum : Numbered nbrs prefixes numNodes) (hu : u < numNodes) (hpc : (c.threads i).pc = .edge u k .setBit)
    (hv : (nbrs u)[k]? = some v) (htight : Tight nbrs source u v) :
    Counted nbrs prefixes numNodes source prog
      { c.goto i (.edge u k .load) with succ := c.succ.setBit (getEdgeId prefixes u k).toNat } where
  bits u' hu' k' v' hv' := by
    have hid := hnum.toNat_inj hu hv hu' hv'
    dsimp only
    rw [Bitmap.getBit_setBit, Bool.or_eq_true, decide_eq_true_iff, hid, h.bits u' hu' k' v' hv']
    constructor
    · rintro (⟨rfl, rfl⟩ | ⟨ht, hlt | ⟨j, hj⟩⟩)
      · rw [hv] at hv'
        exact ⟨Option.some.inj hv' ▸ htight,
          .inr ⟨i, congrArg Pc.marked? goto_self⟩⟩
      · exact ⟨ht, .inl hlt⟩
      · have hji : j ≠ i := by
          rintro rfl
          rw [hpc] at hj
          cases hj
        exact ⟨ht, .inr ⟨j, (congrArg (·.pc.marked?) (goto_of_ne hji)).trans hj⟩⟩
    · rintro ⟨ht, hlt | ⟨j, hj⟩⟩
      · exact .inr ⟨ht, .inl hlt⟩
      · by_cases hji : j = i
        · subst hji
          rw [goto_self] at hj
          cases hj
          exact .inl ⟨rfl, rfl⟩
        · rw [goto_of_ne hji] at hj
          exact .inr ⟨ht, .inr ⟨j, hj⟩⟩
  counts := h.counts

/-- The bits when a thread is done with a destination: it has set the bit if the edge is tight. -/
lemma Counted.bits_advance (h : Counted nbrs prefixes numNodes source prog c) (hk : prog u = k)
    (hv : (nbrs u)[k]? = some v)
    (hmark : ∀ u' k', (c.threads i).pc.marked? = some (u', k') → u' = u ∧ k' = k)
    (htight : Tight nbrs source u v → (c.threads i).pc.marked? = some (u, k)) :
    ∀ u' < numNodes, ∀ k' v', (nbrs u')[k']? = some v' →
      (c.succ.getBit (getEdgeId prefixes u' k').toNat = true ↔
        Tight nbrs source u' v' ∧ (k' < Function.update prog u (k + 1) u' ∨
          ∃ j, ((c.goto i (visit nbrs u (k + 1))).threads j).pc.marked? = some (u', k'))) := by
  intro u' hu' k' v' hv'
  rw [h.bits u' hu' k' v' hv', and_congr_right_iff]
  intro ht
  have hmarked : ∀ j, ((c.goto i (visit nbrs u (k + 1))).threads j).pc.marked? = some (u', k') ↔
      j ≠ i ∧ (c.threads j).pc.marked? = some (u', k') := by
    intro j
    by_cases hj : j = i
    · rw [hj, goto_self, visit_marked]
      exact ⟨fun h => (by cases h), fun h => absurd rfl h.1⟩
    · rw [goto_of_ne hj]
      exact ⟨fun h => ⟨hj, h⟩, fun h => h.2⟩
  simp only [hmarked]
  by_cases hu : u' = u ∧ k' = k
  · obtain ⟨rfl, rfl⟩ := hu
    rw [hv] at hv'
    obtain rfl := Option.some.inj hv'
    rw [Function.update_self]
    exact ⟨fun _ => .inl k'.lt_succ_self, fun _ => .inr ⟨i, htight ht⟩⟩
  · have hlt : k' < Function.update prog u (k + 1) u' ↔ k' < prog u' := by
      by_cases huu : u' = u
      · rw [huu, Function.update_self, hk]
        have : k' ≠ k := fun hkk => hu ⟨huu, hkk⟩
        omega
      · rw [Function.update_of_ne huu]
    rw [hlt]
    refine or_congr_right ⟨?_, ?_⟩
    · rintro ⟨j, hj⟩
      exact ⟨j, fun hji => hu (hmark u' k' (hji ▸ hj)), hj⟩
    · rintro ⟨j, -, hj⟩
      exact ⟨j, hj⟩

/-- A thread is done with a destination that is not in the next level. -/
lemma Counted.skip (h : Counted nbrs prefixes numNodes source prog c) (hu : u < numNodes) (hk : prog u = k)
    (hpc : (c.threads i).pc = .edge u k .test) (hv : (nbrs u)[k]? = some v)
    (htight : ¬ Tight nbrs source u v) :
    Counted nbrs prefixes numNodes source (Function.update prog u (k + 1))
      (c.goto i (visit nbrs u (k + 1))) where
  bits := h.bits_advance hk hv (by rw [hpc]; intro u' k' heq; cases heq) fun ht => absurd ht htight
  counts w := by
    have hno : ¬(w = v ∧ Tight nbrs source u v) := fun hw => htight hw.2
    rw [credits_advance hu hk hv, if_neg hno, add_zero]
    exact h.counts w

/-- A thread adds the paths of a vertex to the destination of a tight edge. -/
lemma Counted.add (h : Counted nbrs prefixes numNodes source prog c) (hu : u < numNodes) (hk : prog u = k)
    (hpc : (c.threads i).pc = .edge u k (.add (pathCount nbrs source u))) (hv : (nbrs u)[k]? = some v)
    (htight : Tight nbrs source u v) :
    Counted nbrs prefixes numNodes source (Function.update prog u (k + 1))
      { c.goto i (visit nbrs u (k + 1)) with
        pathCounts := Function.update c.pathCounts v (c.pathCounts v + pathCount nbrs source u) } where
  bits := by
    refine h.bits_advance hk hv ?_ fun _ => by rw [hpc]; rfl
    rw [hpc]
    intro u' k' heq
    cases heq
    exact ⟨rfl, rfl⟩
  counts w := by
    rw [credits_advance hu hk hv, ← add_assoc, ← h.counts w]
    by_cases hw : w = v
    · rw [if_pos ⟨hw, htight⟩, hw]
      exact Function.update_self ..
    · rw [if_neg fun hc => hw hc.1, add_zero]
      exact Function.update_of_ne hw ..

end Bc

end Dgap
