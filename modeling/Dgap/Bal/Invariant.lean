import Dgap.Bal.Owns

/-!
# The invariant of all runs

`Stores g adj bs` says that a graph at rest stores the adjacency `adj`, every vertex in its own blocks
`bs v`. `Inv` is what holds while threads are at work: a vertex whose mutex is free is stored, a vertex whose
mutex is held is as the statement its holder is at needs it (`At`), every block has one owner, and the edges
that have run and those that are still to do are the edges given. Every step keeps it (`Inv.next`), so it
holds in every run (`Inv.reach`).
-/

namespace Dgap

namespace Bal

/-- A graph at rest stores the adjacency `adj`, vertex `v` in the blocks `bs v`. -/
structure Stores (g : Graph) (adj bs : ℕ → List ℕ) : Prop where
  settled : ∀ v < g.numNodes, Settled g v (bs v) (adj v)
  outside : ∀ v, g.numNodes ≤ v → bs v = []
  nonzero : ∀ v, ∀ o ∈ bs v, o ≠ 0
  disjoint : ∀ v w, v ≠ w → ∀ o ∈ bs v, o ∉ bs w
  owned : ∀ o b, g.heap o = some b → ∃ v, o ∈ bs v

/-- The new graph stores no edge. -/
lemma stores_create (directed : Bool) (numNodes : ℕ) (numEdges : ℤ) (pop : ℕ)
    (foreign : ℕ → VertexElement) :
    Stores (create directed numNodes numEdges pop foreign) (fun _ => []) fun _ => [] := by
  refine ⟨fun v hv => ⟨Memory.Unrolled.nil blockSize_pos, fun o ho => (nomatch ho),
    fun o ho => (nomatch ho), ?_⟩, fun _ _ => rfl, fun _ o ho => (nomatch ho),
    fun _ _ _ o ho => (nomatch ho), fun o b hb => (nomatch hb)⟩
  exact congrArg VertexElement.degree (if_pos hv)

/-- The edges a thread has not counted yet. -/
def Thread.pending (t : Thread) : Multiset (ℕ × ℕ) :=
  (if t.pc.opens then {(t.src, t.dst)} else 0) + (t.todo + t.inserts : Multiset (ℕ × ℕ))

variable {n : ℕ} {c c' : Config n} {adj bs : ℕ → List ℕ} {total : Multiset (ℕ × ℕ)} {i : Fin n}
  {off : ℕ} {t : Thread}

/-- What holds of the threads, the blocks `bs` and the graph in every state of a run. -/
structure Inv (adj : ℕ → List ℕ) (total : Multiset (ℕ × ℕ)) (c : Config n) (bs : ℕ → List ℕ) :
    Prop where
  lock : ∀ v i, c.lock v = some i ↔ (c.threads i).pc.holds = true ∧ (c.threads i).src = v
  src : ∀ i, (c.threads i).pc.holds = true → (c.threads i).src < c.g.numNodes
  todo : ∀ i, ∀ e ∈ (c.threads i).todo ++ (c.threads i).inserts, e.1 < c.g.numNodes
  free : ∀ v < c.g.numNodes, c.lock v = none →
    Settled c.g v (bs v) (adj v ++ Multigraph.ofEdges c.ran v)
  held : ∀ i, (c.threads i).pc.holds = true → At c.g (c.threads i).src (c.threads i).dst
    (bs (c.threads i).src) (adj (c.threads i).src ++ Multigraph.ofEdges c.ran (c.threads i).src)
    (c.threads i).pc
  outside : ∀ v, c.g.numNodes ≤ v → bs v = []
  owns : Owns c.g.heap (fun i => (c.threads i).pc.block?) bs
  count : (c.ran : Multiset (ℕ × ℕ)) + ∑ i, (c.threads i).pending = total

/-- What the threads pend when one of them changes. -/
lemma sum_pending (c : Config n) (i : Fin n) (t : Thread) :
    ∑ j, ((c.setThread i t).threads j).pending + (c.threads i).pending =
      ∑ j, (c.threads j).pending + t.pending := by
  have hothers : ∑ j ∈ Finset.univ.erase i, ((c.setThread i t).threads j).pending =
      ∑ j ∈ Finset.univ.erase i, (c.threads j).pending :=
    Finset.sum_congr rfl fun j hj => by
      rw [Config.setThread_of_ne _ (Finset.ne_of_mem_erase hj)]
  rw [← Finset.add_sum_erase _ _ (Finset.mem_univ i), hothers,
    ← Finset.add_sum_erase _ (fun j => (c.threads j).pending) (Finset.mem_univ i),
    Config.setThread_self]
  abel

/-- A step of one thread that moves edges from pending to run keeps the account. -/
lemma count_step {ran : List (ℕ × ℕ)}
    (h : (c.ran : Multiset (ℕ × ℕ)) + ∑ i, (c.threads i).pending = total)
    (he : (ran : Multiset (ℕ × ℕ)) + t.pending = c.ran + (c.threads i).pending) :
    (ran : Multiset (ℕ × ℕ)) + ∑ j, ((c.setThread i t).threads j).pending = total := by
  have hsum := sum_pending c i t
  refine add_right_cancel (b := (c.threads i).pending) ?_
  rw [add_assoc, hsum, ← h, add_left_comm, he, add_left_comm, add_assoc]

/-- The blocks of a vertex are live at every statement. -/
lemma At.live {g : Graph} {v dst : ℕ} {bs l : List ℕ} {pc : Pc} (h : At g v dst bs l pc) :
    ∀ o ∈ bs, g.heap o ≠ none := by
  intro o ho
  have hlive : ∃ b, g.heap o = some b := by
    cases pc with
    | zalloced p => exact h.1.blocks.live o ho
    | filled p => exact h.1.blocks.live o ho
    | linked p => exact h.1.live o ho
    | placed => exact h.1.live o ho
    | idle => exact Memory.Unrolled.live (Settled.blocks h) o ho
    | locked => exact Memory.Unrolled.live (Settled.blocks h) o ho
    | counted => exact Memory.Unrolled.live (Settled.blocks h) o ho
    | readEdges => exact Memory.Unrolled.live (Settled.blocks h) o ho
    | swapEdges => exact Memory.Unrolled.live (Settled.blocks h) o ho
  obtain ⟨b, hb⟩ := hlive
  rw [hb]
  exact Option.some_ne_none b

/-- The block in the hands of a thread is live. -/
lemma At.block_live {g : Graph} {v dst o : ℕ} {bs l : List ℕ} {pc : Pc} (h : At g v dst bs l pc)
    (ho : pc.block? = some o) : g.heap o ≠ none := by
  have hlive : ∃ b, g.heap o = some b := by
    cases pc with
    | zalloced p =>
      obtain rfl := Option.some.inj ho
      obtain ⟨-, -, b, hb, -⟩ := h
      exact ⟨b, hb⟩
    | filled p =>
      obtain rfl := Option.some.inj ho
      obtain ⟨-, -, b, hb, -⟩ := h
      exact ⟨b, hb⟩
    | _ => cases ho
  obtain ⟨b, hb⟩ := hlive
  rw [hb]
  exact Option.some_ne_none b

namespace Inv

variable (h : Inv adj total c bs)

include h

/-- Two threads never hold the same mutex. -/
lemma exclusive {j : Fin n} (hi : (c.threads i).pc.holds = true) (hj : (c.threads j).pc.holds = true)
    (hs : (c.threads j).src = (c.threads i).src) : j = i :=
  Option.some.inj (((h.lock _ j).2 ⟨hj, hs⟩).symm.trans ((h.lock _ i).2 ⟨hi, rfl⟩))

/-- The blocks that a thread works with. -/
lemma apart (i : Fin n) : Apart c.g (bs (c.threads i).src) (c.threads i).pc :=
  ⟨h.owns.nonzero _, fun o ho => ⟨h.owns.handNonzero i o ho, h.owns.handApart i o ho _⟩⟩

/-- The edges that have run at a vertex and the one that is under way are below the bound. -/
lemma small (hsmall : ∀ v < c.g.numNodes, (adj v).length + total.countP (fun e => e.1 = v) < 2 ^ 32)
    (hi : (c.threads i).pc.opens = true) (hs : (c.threads i).src < c.g.numNodes) :
    (adj (c.threads i).src ++ Multigraph.ofEdges c.ran (c.threads i).src).length + 1 < 2 ^ 32 := by
  have hlen : (Multigraph.ofEdges c.ran (c.threads i).src).length + 1 ≤
      total.countP fun e => e.1 = (c.threads i).src := by
    rw [← h.count, Multiset.countP_add, Multigraph.ofEdges, List.length_map, Multiset.coe_countP,
      ← List.countP_eq_length_filter]
    refine Nat.add_le_add_left ?_ _
    have hle : (c.threads i).pending ≤ ∑ j, (c.threads j).pending :=
      Finset.single_le_sum (fun _ _ => Multiset.zero_le _) (Finset.mem_univ i)
    refine le_trans ?_ (Multiset.countP_le_of_le _ hle)
    rw [Thread.pending, if_pos hi, Multiset.countP_add]
    exact Nat.le_add_right_of_le (Multiset.countP_pos.2 ⟨_, Multiset.mem_singleton_self _, rfl⟩)
  have := hsmall (c.threads i).src hs
  rw [List.length_append]
  omega

/-- The edges of a vertex are below the bound. -/
lemma length_lt (hsmall : ∀ v < c.g.numNodes, (adj v).length + total.countP (fun e => e.1 = v) < 2 ^ 32)
    {v : ℕ} (hv : v < c.g.numNodes) : (adj v ++ Multigraph.ofEdges c.ran v).length < 2 ^ 32 := by
  refine lt_of_le_of_lt ?_ (hsmall v hv)
  rw [List.length_append, Multigraph.ofEdges, List.length_map, ← List.countP_eq_length_filter,
    ← Multiset.coe_countP, ← h.count, Multiset.countP_add]
  exact Nat.add_le_add_left (Nat.le_add_right _ _) _

/-- A step of one thread, by what it leaves of the graph, the mutexes and the blocks. -/
lemma setThread {g' : Graph} {lock' : ℕ → Option (Fin n)} {ran' : List (ℕ × ℕ)} {bs' : ℕ → List ℕ}
    (hnum : g'.numNodes = c.g.numNodes)
    (hlock : ∀ v j, lock' v = some j ↔ ((c.setThread i t).threads j).pc.holds = true ∧
      ((c.setThread i t).threads j).src = v)
    (htodo : ∀ e ∈ t.todo ++ t.inserts, e.1 < c.g.numNodes)
    (hfree : ∀ v < c.g.numNodes, lock' v = none →
      Settled g' v (bs' v) (adj v ++ Multigraph.ofEdges ran' v))
    (hheld : t.pc.holds = true → t.src < c.g.numNodes ∧
      At g' t.src t.dst (bs' t.src) (adj t.src ++ Multigraph.ofEdges ran' t.src) t.pc)
    (hother : ∀ j, j ≠ i → (c.threads j).pc.holds = true → At g' (c.threads j).src (c.threads j).dst
      (bs' (c.threads j).src) (adj (c.threads j).src ++ Multigraph.ofEdges ran' (c.threads j).src)
      (c.threads j).pc)
    (houtside : ∀ v, c.g.numNodes ≤ v → bs' v = [])
    (howns : Owns g'.heap (Function.update (fun j => (c.threads j).pc.block?) i t.pc.block?) bs')
    (hpending : (ran' : Multiset (ℕ × ℕ)) + t.pending = c.ran + (c.threads i).pending) :
    Inv adj total { c.setThread i t with g := g', lock := lock', ran := ran' } bs' := by
  refine ⟨hlock, fun j hj => ?_, fun j e he => ?_, fun v hv hl => ?_, fun j hj => ?_, fun v hv => ?_,
    ?_, count_step h.count hpending⟩
  · rw [hnum]
    by_cases hji : j = i
    · subst hji
      rw [Config.setThread_self] at hj ⊢
      exact (hheld hj).1
    · rw [Config.setThread_of_ne _ hji] at hj ⊢
      exact h.src j hj
  · rw [hnum]
    by_cases hji : j = i
    · subst hji
      rw [Config.setThread_self] at he
      exact htodo e he
    · rw [Config.setThread_of_ne _ hji] at he
      exact h.todo j e he
  · rw [hnum] at hv
    exact hfree v hv hl
  · by_cases hji : j = i
    · subst hji
      rw [Config.setThread_self] at hj ⊢
      exact (hheld hj).2
    · rw [Config.setThread_of_ne _ hji] at hj ⊢
      exact hother j hji hj
  · rw [hnum] at hv
    exact houtside v hv
  · convert howns using 1
    funext j
    by_cases hji : j = i
    · subst hji
      rw [Config.setThread_self, Function.update_self]
    · rw [Config.setThread_of_ne _ hji, Function.update_of_ne hji]

/-- A statement of a critical section. -/
lemma critical (hsmall : ∀ v < c.g.numNodes, (adj v).length + total.countP (fun e => e.1 = v) < 2 ^ 32)
    {g' : Graph} {pc' : Pc} (hstep : c.g.criticalStep (c.threads i).src (c.threads i).dst off
      (c.threads i).pc = some (g', pc')) :
    ∃ bs', Inv adj total { c.setThread i { c.threads i with pc := pc' } with
      g := g'
      ran := if (c.threads i).pc = .placed then c.ran ++ [((c.threads i).src, (c.threads i).dst)]
        else c.ran } bs' := by
  obtain ⟨hopens, hholds, hholds', hopens', -⟩ := Graph.criticalStep_frame hstep
  have hsrc := h.src i hholds
  have hat := h.held i hholds
  obtain ⟨bs1, hat', hT⟩ := hat.step (h.apart i) (h.small hsmall hopens hsrc) hstep
  have howns := h.owns.step rfl hT rfl hat'.live fun o ho => hat'.block_live ho
  generalize hs : (c.threads i).src = s at *
  generalize hd : (c.threads i).dst = d at *
  generalize hpc : (c.threads i).pc = pc at *
  -- no other vertex is touched
  have hframe : ∀ w o, w ≠ s → o ∈ bs w → g'.heap o = c.g.heap o := fun w o hw ho =>
    hT.heap o (h.owns.disjoint w s hw o ho)
      (fun hb => h.owns.handApart i o (by rw [hpc]; exact hb) w ho) (h.owns.live w o ho)
  have hran : ∀ w, Multigraph.ofEdges (if pc = .placed then c.ran ++ [(s, d)] else c.ran) w =
      Multigraph.ofEdges c.ran w ++ if pc = .placed ∧ s = w then [d] else [] := by
    intro w
    by_cases hp : pc = .placed
    · rw [if_pos hp, Multigraph.ofEdges_append, Multigraph.ofEdges_singleton]
      simp [hp]
    · rw [if_neg hp, if_neg (fun hh => hp hh.1), List.append_nil]
  have hranOther : ∀ w, w ≠ s → Multigraph.ofEdges
      (if pc = .placed then c.ran ++ [(s, d)] else c.ran) w = Multigraph.ofEdges c.ran w := fun w hw => by
    rw [hran, if_neg (fun hh => hw hh.2.symm), List.append_nil]
  refine ⟨Function.update bs s bs1, h.setThread hT.numNodes (fun v j => ?_) (h.todo i)
    (fun v hv hl => ?_) (fun _ => ?_) (fun j hji hj => ?_) (fun v hv => ?_) howns ?_⟩
  · show c.lock v = some j ↔ _
    rw [h.lock]
    by_cases hji : j = i
    · subst hji
      simp only [Config.setThread_self, hpc, hholds, hholds']
    · rw [Config.setThread_of_ne _ hji]
  · -- a free vertex is another one
    have hvs : v ≠ s := by
      rintro rfl
      have hheld : c.lock v = some i := (h.lock v i).2 ⟨by rw [hpc]; exact hholds, hs⟩
      exact absurd (hheld.symm.trans hl) (Option.some_ne_none i)
    rw [Function.update_of_ne hvs, hranOther v hvs]
    have hfree : At c.g v 0 (bs v) (adj v ++ Multigraph.ofEdges c.ran v) .idle := h.free v hv hl
    exact hfree.frame hT.pop (hT.vertices v hvs) (fun o ho => hframe v o hvs ho)
      fun o ho => by cases ho
  · simp only [hs, hd, Function.update_self, hran]
    refine ⟨hsrc, ?_⟩
    by_cases hp : pc = .placed
    · rw [if_pos hp] at hat'
      rwa [if_pos ⟨hp, trivial⟩, ← List.append_assoc]
    · rw [if_neg hp] at hat'
      rwa [if_neg (fun hh => hp hh.1), List.append_nil]
  · have hjs : (c.threads j).src ≠ s := fun he => hji (h.exclusive (by rw [hpc]; exact hholds) hj
      (by rw [he, hs]))
    rw [Function.update_of_ne hjs, hranOther _ hjs]
    refine (h.held j hj).frame hT.pop (hT.vertices _ hjs) (fun o ho => hframe _ o hjs ho)
      fun o ho => hT.heap o (h.owns.handApart j o ho s) (fun hb => ?_) (h.owns.handLive j o ho)
    exact hji (h.owns.handOnce j i o ho (by rw [hpc]; exact hb))
  · rw [Function.update_of_ne (by omega)]
    exact h.outside v hv
  · rw [Thread.pending, Thread.pending, hpc, hopens, if_pos rfl, hs, hd]
    by_cases hp : pc = .placed
    · rw [if_pos hp, if_neg (fun ho => hopens'.1 ho hp), zero_add, ← Multiset.coe_add,
        Multiset.coe_singleton, add_assoc]
    · rw [if_neg hp, if_pos (hopens'.2 hp)]

/-- A step of a thread that leaves the vertices and the blocks alone. -/
lemma passive {g' : Graph} {lock' : ℕ → Option (Fin n)} (hpop : g'.pop = c.g.pop)
    (hnum : g'.numNodes = c.g.numNodes) (hver : g'.vertices = c.g.vertices)
    (hheap : g'.heap = c.g.heap)
    (hlock : ∀ v j, lock' v = some j ↔ ((c.setThread i t).threads j).pc.holds = true ∧
      ((c.setThread i t).threads j).src = v)
    (htodo : ∀ e ∈ t.todo ++ t.inserts, e.1 < c.g.numNodes)
    (hfree : ∀ v < c.g.numNodes, lock' v = none →
      Settled c.g v (bs v) (adj v ++ Multigraph.ofEdges c.ran v))
    (hheld : t.pc.holds = true → t.src < c.g.numNodes ∧
      At c.g t.src t.dst (bs t.src) (adj t.src ++ Multigraph.ofEdges c.ran t.src) t.pc)
    (hhand : t.pc.block? = (c.threads i).pc.block?) (hpending : t.pending = (c.threads i).pending) :
    Inv adj total { c.setThread i t with g := g', lock := lock' } bs := by
  have hat : ∀ {v dst : ℕ} {l : List ℕ} {pc : Pc}, At c.g v dst (bs v) l pc →
      At g' v dst (bs v) l pc := fun ha =>
    ha.frame hpop (congrFun hver _) (fun o _ => congrFun hheap o) fun o _ => congrFun hheap o
  refine h.setThread hnum hlock htodo (fun v hv hl => ?_) (fun hh => ⟨(hheld hh).1, hat (hheld hh).2⟩)
    (fun j _ hj => hat (h.held j hj)) h.outside ?_ (congrArg _ hpending)
  · have hidle : At c.g v 0 (bs v) (adj v ++ Multigraph.ofEdges c.ran v) .idle := hfree v hv hl
    exact hat hidle
  · rw [hheap, hhand, Function.update_eq_self]
    exact h.owns

/-- Taking the mutex of the source. -/
lemma take {src dst : ℕ} {todo : List (ℕ × ℕ)} (hpc : (c.threads i).pc = .idle)
    (htodo : (c.threads i).todo = (src, dst) :: todo) (hl : c.lock src = none) :
    Inv adj total { c.setThread i { c.threads i with todo, pc := .locked, src, dst } with
      lock := Function.update c.lock src (some i) } bs := by
  have hsrc : src < c.g.numNodes := h.todo i (src, dst) (by rw [htodo]; simp)
  refine h.passive rfl rfl rfl rfl (fun v j => ?_) (fun e he => h.todo i e ?_) (fun v hv hv' => ?_)
    (fun _ => ⟨hsrc, h.free src hsrc hl⟩) (by rw [hpc]; rfl) ?_
  · by_cases hvs : v = src
    · subst hvs
      rw [Function.update_self]
      by_cases hji : j = i
      · subst hji
        rw [Config.setThread_self]
        exact ⟨fun _ => ⟨rfl, rfl⟩, fun _ => rfl⟩
      · rw [Config.setThread_of_ne _ hji, ← h.lock, hl]
        exact ⟨fun he => absurd (Option.some.inj he).symm hji, fun he => (nomatch he)⟩
    · rw [Function.update_of_ne hvs, h.lock]
      by_cases hji : j = i
      · subst hji
        rw [Config.setThread_self, hpc]
        exact ⟨fun hh => (nomatch hh.1), fun hh => absurd hh.2.symm hvs⟩
      · rw [Config.setThread_of_ne _ hji]
  · rw [htodo]
    exact List.mem_cons_of_mem _ he
  · refine h.free v hv ?_
    by_cases hvs : v = src
    · rw [hvs, hl]
    · rwa [Function.update_of_ne hvs] at hv'
  · rw [Thread.pending, Thread.pending, hpc, htodo, ← Multiset.cons_coe]
    simp [Pc.opens, Multiset.singleton_add]

/-- Releasing the mutex of the source. -/
lemma release {pc : Pc} (hpc : (c.threads i).pc = .counted) (hnext : pc = .idle ∨ pc = .readEdges) :
    Inv adj total { c.setThread i { c.threads i with pc } with
      lock := Function.update c.lock (c.threads i).src none } bs := by
  have hholds : pc.holds = false := by
    rcases hnext with rfl | rfl <;> rfl
  have hi : c.lock (c.threads i).src = some i := (h.lock _ i).2 ⟨by rw [hpc]; rfl, rfl⟩
  refine h.passive rfl rfl rfl rfl (fun v j => ?_) (h.todo i) (fun v hv hv' => ?_)
    (fun hh => ?_) ?_ ?_
  · by_cases hji : j = i
    · subst hji
      rw [Config.setThread_self]
      refine ⟨fun hh => ?_, fun hh => absurd hh.1 (by rw [hholds]; exact Bool.false_ne_true)⟩
      by_cases hvs : v = (c.threads j).src
      · rw [hvs, Function.update_self] at hh
        cases hh
      · rw [Function.update_of_ne hvs] at hh
        exact absurd ((h.lock v j).1 hh).2.symm hvs
    · rw [Config.setThread_of_ne _ hji, ← h.lock]
      by_cases hvs : v = (c.threads i).src
      · rw [hvs, Function.update_self, hi]
        exact ⟨fun he => (nomatch he), fun he => absurd (Option.some.inj he).symm hji⟩
      · rw [Function.update_of_ne hvs]
  · by_cases hvs : v = (c.threads i).src
    · have hat := h.held i (by rw [hpc]; rfl)
      rw [hpc] at hat
      rw [hvs]
      exact hat
    · rw [Function.update_of_ne hvs] at hv'
      exact h.free v hv hv'
  · exact absurd hh (by rw [hholds]; exact Bool.false_ne_true)
  · rcases hnext with rfl | rfl <;> rw [hpc] <;> rfl
  · rw [Thread.pending, Thread.pending, hpc]
    rcases hnext with rfl | rfl <;> rfl

/-- The update of the number of edges. -/
lemma counter {pc : Pc} {numEdges : ℤ}
    (hpc : (c.threads i).pc = .readEdges ∨ ∃ oldVal, (c.threads i).pc = .swapEdges oldVal)
    (hholds : pc.holds = false) (hopens : pc.opens = false) (hblock : pc.block? = none) :
    Inv adj total { c.setThread i { c.threads i with pc } with g := { c.g with numEdges } } bs := by
  have hold : (c.threads i).pc.holds = false ∧ (c.threads i).pc.opens = false ∧
      (c.threads i).pc.block? = none := by
    rcases hpc with hpc | ⟨_, hpc⟩ <;> rw [hpc] <;> exact ⟨rfl, rfl, rfl⟩
  refine h.passive rfl rfl rfl rfl (fun v j => ?_) (h.todo i) h.free (fun hh => ?_)
    (by rw [hblock, hold.2.2]) ?_
  · show c.lock v = some j ↔ _
    rw [h.lock]
    by_cases hji : j = i
    · subst hji
      rw [Config.setThread_self]
      simp only [hold.1, hholds]
    · rw [Config.setThread_of_ne _ hji]
  · exact absurd hh (by rw [hholds]; exact Bool.false_ne_true)
  · rw [Thread.pending, Thread.pending, hopens, hold.2.1]

/-- A step of a thread. -/
lemma next (hsmall : ∀ v < c.g.numNodes, (adj v).length + total.countP (fun e => e.1 = v) < 2 ^ 32)
    (hstep : c.next i off = some c') : ∃ bs', Inv adj total c' bs' := by
  rcases Config.next_cases hstep with ⟨src, dst, todo, hpc, htodo, hl, rfl⟩ | ⟨hpc, pc, hnext, rfl⟩ |
    ⟨hpc, pc, numEdges, hholds, hopens, hblock, rfl⟩ | ⟨g, pc', hcrit, rfl⟩
  · exact ⟨bs, h.take hpc htodo hl⟩
  · exact ⟨bs, h.release hpc (hnext.imp And.right And.right)⟩
  · exact ⟨bs, h.counter hpc hholds hopens hblock⟩
  · exact h.critical hsmall hcrit

/-- The end of the base load. -/
lemma endLoad (hquiet : c.Quiet) (htodo : ∀ i, (c.threads i).todo = []) :
    Inv adj total c.endLoad bs := by
  have hpc : ∀ i, (c.endLoad.threads i).pc = .idle := hquiet
  refine ⟨h.lock, h.src, fun i e he => h.todo i e ?_, fun v hv hl => ?_, fun i hi => ?_, h.outside,
    h.owns, ?_⟩
  · simpa [Config.endLoad, htodo] using he
  · have hfree : At c.g v 0 (bs v) (adj v ++ Multigraph.ofEdges c.ran v) .idle := h.free v hv hl
    exact hfree.frame rfl rfl (fun _ _ => rfl) fun _ _ => rfl
  · rw [hpc] at hi
    cases hi
  · have hsame : ∀ i, (c.endLoad.threads i).pending = (c.threads i).pending := fun i => by
      rw [Thread.pending, Thread.pending, hpc, hquiet, htodo]
      simp [Config.endLoad]
    rw [Finset.sum_congr rfl fun i _ => hsame i]
    exact h.count

/-- When no thread is at work no mutex is taken. -/
lemma lock_free (hquiet : c.Quiet) (v : ℕ) : c.lock v = none := by
  by_contra hne
  obtain ⟨i, hi⟩ := Option.ne_none_iff_exists'.1 hne
  have hholds := ((h.lock v i).1 hi).1
  rw [hquiet i] at hholds
  cases hholds

/-- A graph that no thread is at work on stores its edges. -/
lemma stores (hquiet : c.Quiet) :
    Stores c.g (fun v => adj v ++ Multigraph.ofEdges c.ran v) bs := by
  refine ⟨fun v hv => h.free v hv (h.lock_free hquiet v), h.outside, h.owns.nonzero, h.owns.disjoint, fun o b hb => ?_⟩
  rcases h.owns.owned o b hb with hv | ⟨i, hi⟩
  · exact hv
  · rw [hquiet i] at hi
    cases hi

/-- A thread in the middle of its work is never stuck: the allocator only has to return a free block. -/
lemma moves (hpc : (c.threads i).pc ≠ .idle) (hoff : off ≠ 0) (hfree : c.g.heap off = none) :
    ∃ c', c.next i off = some c' := by
  cases hcur : (c.threads i).pc with
  | idle => exact absurd hcur hpc
  | counted =>
    simp only [Config.next, hcur]
    exact ⟨_, rfl⟩
  | readEdges =>
    simp only [Config.next, hcur]
    exact ⟨_, rfl⟩
  | swapEdges oldVal =>
    simp only [Config.next, hcur]
    split
    · exact ⟨_, rfl⟩
    · exact ⟨_, rfl⟩
  | _ =>
    obtain ⟨g', pc', hstep⟩ := (h.held i (by rw [hcur]; rfl)).moves (h.apart i)
      (by rw [hcur]; rfl) hoff hfree
    rw [hcur] at hstep
    simp only [Config.next, hcur, hstep, Option.map_some]
    exact ⟨_, rfl⟩

omit h

/-- Threads that begin with a graph that stores `adj`. -/
lemma start {g : Graph} (hg : Stores g adj bs) (phase : Phase) {share program : Fin n → List (ℕ × ℕ)}
    (hids : ∀ i, ∀ e ∈ share i ++ program i, e.1 < g.numNodes) :
    Inv adj (∑ i, (share i + program i : Multiset (ℕ × ℕ))) (start g phase share program) bs := by
  refine ⟨fun v i => ⟨fun hl => (nomatch hl), fun hh => (nomatch hh.1)⟩, fun i hi => (nomatch hi), hids,
    fun v hv _ => ?_, fun i hi => (nomatch hi), hg.outside, ?_, ?_⟩
  · rw [show Multigraph.ofEdges (Bal.start g phase share program).ran v = [] from rfl, List.append_nil]
    exact hg.settled v hv
  · refine ⟨fun v o ho => ?_, hg.nonzero, hg.disjoint, fun i o ho => (nomatch ho),
      fun i o ho => (nomatch ho), fun i o ho => (nomatch ho), fun i j o ho => (nomatch ho),
      fun o b hb => .inl (hg.owned o b hb)⟩
    by_cases hv : v < g.numNodes
    · have hidle : At g v 0 (bs v) (adj v) .idle := hg.settled v hv
      exact hidle.live o ho
    · rw [hg.outside v (by omega)] at ho
      cases ho
  · rw [show ((Bal.start g phase share program).ran : Multiset (ℕ × ℕ)) = 0 from rfl, zero_add]
    refine Finset.sum_congr rfl fun i _ => ?_
    rw [Thread.pending, if_neg (by exact Bool.false_ne_true), zero_add]
    rfl

/-- In every state of a run. -/
theorem reach {g : Graph} (hg : Stores g adj bs) {phase : Phase}
    {share program : Fin n → List (ℕ × ℕ)} (hids : ∀ i, ∀ e ∈ share i ++ program i, e.1 < g.numNodes)
    (hsmall : ∀ v < g.numNodes, (adj v).length + (∑ i, (share i + program i : Multiset (ℕ × ℕ))).countP
      (fun e => e.1 = v) < 2 ^ 32) (hc : (runs g phase share program).Reach c) :
    ∃ bs', Inv adj (∑ i, (share i + program i : Multiset (ℕ × ℕ))) c bs' := by
  suffices hinv : c.g.numNodes = g.numNodes ∧
      ∃ bs', Inv adj (∑ i, (share i + program i : Multiset (ℕ × ℕ))) c bs' from hinv.2
  refine hc.inv (I := fun c => c.g.numNodes = g.numNodes ∧
    ∃ bs', Inv adj (∑ i, (share i + program i : Multiset (ℕ × ℕ))) c bs') ?_ ?_
  · rintro _ rfl
    exact ⟨rfl, bs, start hg phase hids⟩
  · rintro c a c' ⟨hnum, bs', h⟩ hstep
    refine ⟨(Config.act_frame hstep).1.trans hnum, ?_⟩
    cases a with
    | thread i off => exact h.next (by rw [hnum]; exact hsmall) hstep
    | endLoad =>
      simp only [runs, Config.act] at hstep
      split at hstep
      case isTrue hend =>
        obtain rfl := Option.some.inj hstep
        exact ⟨bs', h.endLoad hend.2.1 hend.2.2⟩
      case isFalse => cases hstep

end Inv

end Bal

end Dgap
