import Dgap.Bal.Adjacency

/-!
# Close and reopen of the blocked adjacency list

What the destructor leaves in the pool (`close`), and the constructor on an existing file whose pool is
mapped at `pop` (`reopen`). The vertices come back with the addresses that `head_offset` and `tail_offset`
held; `next_offset` is an offset and is translated on every use. At the old address the graph stores what it
stored (`Stores.reopen`). At another address, reading the vertices that have the most blocks follows as many
links as before, so it has to begin at the heads of such vertices again, and no shift does that to a finite
set (`eq_of_shift`).
-/

namespace Dgap

namespace Bal

/-- What a closed file holds: the root record and the edge blocks. -/
structure Pool where
  bp : Base
  heap : ℕ → Option EdgeBlock

namespace Graph

/-- The destructor. -/
def close (g : Graph) : Pool where
  bp :=
    { g.bp with
      numNodes := g.numNodes
      numEdges := g.numEdges
      vertices := fun v => if v < g.numNodes then g.vertices v else g.bp.vertices v }
  heap := g.heap

/-- The constructor on an existing file; `foreign` is what memory holds behind the last vertex. -/
def reopen (pool : Pool) (pop : ℕ) (foreign : ℕ → VertexElement) : Graph where
  directed := pool.bp.directed
  numNodes := pool.bp.numNodes
  numEdges := pool.bp.numEdges
  vertices := fun v => if v < pool.bp.numNodes then pool.bp.vertices v else foreign v
  pop := pop
  heap := pool.heap
  bp := pool.bp

/-- The vertices come back as they were. -/
lemma reopen_vertices (g : Graph) (pop : ℕ) (foreign : ℕ → VertexElement) {v : ℕ}
    (hv : v < g.numNodes) : (reopen g.close pop foreign).vertices v = g.vertices v := by
  have h : (reopen g.close pop foreign).vertices v = g.close.bp.vertices v := if_pos hv
  exact h.trans (if_pos hv)

end Graph

/-- The graph `g'` has the degrees and the neighborhoods of `g`, and inserts append to them. -/
structure Survives (g g' : Graph) : Prop where
  degree : ∀ v < g.numNodes, g'.outDegree v = g.outDegree v
  reads : ∀ v < g.numNodes, ∀ l, g.Yields (g.outNeigh v 0) l → g'.Yields (g'.outNeigh v 0) l
  appends : ∀ {m : ℕ} (program : Fin m → List (ℕ × ℕ)),
    (∀ i, ∀ e ∈ program i, e.1 < g.numNodes) →
    (∀ v < g.numNodes, g.outDegree v + (List.ofFn program).flatten.countP (fun e => e.1 = v) < 2 ^ 32) →
    ∀ c, (runs g' .dynamic program fun _ => []).Reach c → c.Quiet → ∀ v < g.numNodes, ∀ l,
      g.Yields (g.outNeigh v 0) l →
      c.g.Yields (c.g.outNeigh v 0) (l ++ Multigraph.ofEdges c.ran v) ∧
        c.g.outDegree v = (l ++ Multigraph.ofEdges c.ran v).length

variable {g g' : Graph} {adj bs bs' : ℕ → List ℕ} {pop : ℕ}

/-- A graph survives as any graph that stores the same. -/
lemma Survives.of_stores (hg : Stores g adj bs) (hg' : Stores g' adj bs')
    (hnum : g'.numNodes = g.numNodes) (hsmall : ∀ v < g.numNodes, (adj v).length < 2 ^ 32) :
    Survives g g' := by
  have hread : ∀ v < g.numNodes, ∀ l, g.Yields (g.outNeigh v 0) l → l = adj v := fun v hv l hl =>
    hl.unique ((hg.settled v hv).yields (hg.nonzero v) (hsmall v hv))
  refine ⟨fun v hv => ?_, fun v hv l hl => ?_, fun {m} program hids hdeg c hc hquiet v hv l hl => ?_⟩
  · exact ((hg'.settled v (by rw [hnum]; exact hv)).degree).trans (hg.settled v hv).degree.symm
  · rw [hread v hv l hl]
    exact (hg'.settled v (by rw [hnum]; exact hv)).yields (hg'.nonzero v) (hsmall v hv)
  · have hbound : ∀ w < g.numNodes, (adj w).length + (∑ i, (program i + ([] : List (ℕ × ℕ)) :
        Multiset (ℕ × ℕ))).countP (fun e => e.1 = w) < 2 ^ 32 := fun w hw => by
      rw [← (hg.settled w hw).degree]
      simp only [Multiset.coe_nil, add_zero, ← coe_flatten_ofFn, Multiset.coe_countP]
      exact hdeg w hw
    have hstart : c.g.numNodes = g.numNodes := (reach_frame hc).1.trans hnum
    obtain ⟨bs1, h⟩ := Inv.reach hg' (fun i e he => by
      rw [hnum]
      exact hids i e (by simpa using he)) (by rw [hnum]; exact hbound) hc
    rw [hread v hv l hl]
    exact h.reads (by rw [hstart]; exact hbound) hquiet (by rw [hstart]; exact hv)

/-- A graph that is reopened at the old address, or that has no block, stores what it stored. -/
lemma Stores.reopen (hg : Stores g adj bs) (foreign : ℕ → VertexElement)
    (hpop : ∀ v < g.numNodes, ∀ o ∈ bs v, pop = g.pop) :
    Stores (Graph.reopen g.close pop foreign) adj bs := by
  refine ⟨fun v hv => ?_, hg.outside, hg.nonzero, hg.disjoint, hg.owned⟩
  have hs := hg.settled v hv
  have hver := g.reopen_vertices pop foreign hv
  refine ⟨hs.blocks, fun o ho => ?_, fun o ho => ?_, ?_⟩
  · rw [hver, hs.head o ho, show (Graph.reopen g.close pop foreign).pop = g.pop from
      hpop v hv o (List.mem_of_head? ho)]
  · rw [hver, hs.tail o ho, show (Graph.reopen g.close pop foreign).pop = g.pop from
      hpop v hv o (List.mem_of_getLast? ho)]
  · rw [hver, hs.degree]

/-- A block that can be read is live. -/
lemma Graph.deref_some {p : ℕ} {b : EdgeBlock} (h : g.deref p = some b) :
    ∃ o, p = g.pop + o ∧ g.heap o = some b := by
  unfold Graph.deref at h
  split at h
  case isTrue hp => exact ⟨p - g.pop, by omega, h⟩
  case isFalse => cases h

/-- A block that another one leads to is the next one of the same vertex. -/
lemma Stores.next_block (hg : Stores g adj bs) {o o' w w' k k' : ℕ} {b : EdgeBlock}
    (hk : (bs w)[k]? = some o) (hb : g.heap o = some b) (hk' : (bs w')[k']? = some o')
    (hlink : b.nextOffset = o') : w' = w ∧ k' = k + 1 := by
  have hw' : o' ∈ bs w' := List.mem_of_getElem? hk'
  have hwn : w < g.numNodes := by
    by_contra hge
    rw [hg.outside w (by omega)] at hk
    cases hk
  have hnext := (hg.settled w hwn).blocks.link k o b hk hb
  rw [hlink, List.getD_eq_getElem?_getD] at hnext
  have hk1 : (bs w)[k + 1]? = some o' := by
    cases hn : (bs w)[k + 1]? with
    | none =>
      rw [hn] at hnext
      exact absurd hnext (hg.nonzero w' o' hw')
    | some o1 =>
      rw [hn] at hnext
      rw [hnext]
      rfl
  obtain rfl : w' = w := by
    by_contra hne
    exact hg.disjoint w' w hne o' hw' (List.mem_of_getElem? hk1)
  exact ⟨rfl, (List.getElem?_inj (List.getElem?_eq_some_iff.1 hk').1
    (hg.settled w' hwn).blocks.nodup).1 (hk'.trans hk1.symm)⟩

/-- A loop that reads as many values as the degree says has followed as many links. -/
lemma Stores.collect_chain (hg : Stores g adj bs) (hheap : g'.heap = g.heap) {fuel i : ℕ} {it : Iterator}
    {l : List ℕ} (hc : g'.collect fuel it = some l) (hptr : it.gIndex = some (it.currEdgeBlock, i))
    (hl : it.currIdx + l.length = it.degree) (hdeg : it.degree < 2 ^ 32) :
    ∃ o w k, it.currEdgeBlock = g'.pop + o ∧ (bs w)[k]? = some o ∧
      (it.degree - 1) / blockSize - it.currIdx / blockSize + k < (bs w).length := by
  induction fuel generalizing it l i with
  | zero =>
    obtain ⟨_, _, _, _, he, -⟩ := Graph.collect_some hptr hc
    cases he
  | succ fuel ih =>
    obtain ⟨f, b, it', rest, he, hb, hnext, hrest, rfl⟩ := Graph.collect_some hptr hc
    obtain rfl := Nat.succ.inj he
    rw [List.length_cons] at hl
    obtain ⟨o, hp, ho⟩ := Graph.deref_some hb
    rw [hheap] at ho
    obtain ⟨w, hw⟩ := hg.owned o b ho
    obtain ⟨k, hk, hget⟩ := List.getElem_of_mem hw
    have hkget : (bs w)[k]? = some o := List.getElem?_eq_some_iff.2 ⟨hk, hget⟩
    have hsucc : succ32 it.currIdx = it.currIdx + 1 := Nat.mod_eq_of_lt (by omega)
    rw [Graph.next, hsucc] at hnext
    by_cases hend : it.currIdx + 1 = it.degree
    · refine ⟨o, w, k, hp, hkget, ?_⟩
      rw [← hend, Nat.add_sub_cancel, Nat.sub_self, Nat.zero_add]
      exact hk
    rw [if_neg hend] at hnext
    by_cases hfull : (it.currIdx + 1) % blockSize = 0
    · -- the next block is the one that `next_offset` names
      rw [if_pos hfull, hb, Option.map_some] at hnext
      obtain rfl := Option.some.inj hnext
      -- it is not null, for the loop does not end here
      have hptr' : slot (direct g'.pop b.nextOffset) ((it.currIdx + 1) % blockSize) =
          some (direct g'.pop b.nextOffset, (it.currIdx + 1) % blockSize) := by
        by_cases hz : direct g'.pop b.nextOffset = 0 ∧ (it.currIdx + 1) % blockSize = 0
        · rw [Graph.collect_none g' (if_pos hz)] at hrest
          obtain rfl := Option.some.inj hrest
          exact absurd hl hend
        · exact slot_eq hz
      obtain ⟨o', w', k', hp', hk', hlen⟩ := ih hrest hptr'
        (show it.currIdx + 1 + rest.length = it.degree by omega) hdeg
      dsimp only at hp' hlen
      have hlink : b.nextOffset = o' := by
        by_cases hz : b.nextOffset = 0
        · rw [hz, direct, if_pos rfl] at hp'
          exact absurd (show o' = 0 by omega) (hg.nonzero w' o' (List.mem_of_getElem? hk'))
        · rw [Graph.direct_eq hz] at hp'
          omega
      obtain ⟨rfl, rfl⟩ := hg.next_block hkget ho hk' hlink
      have hdiv : (it.currIdx + 1) / blockSize = it.currIdx / blockSize + 1 := by
        rw [Nat.succ_div, if_pos (Nat.dvd_of_mod_eq_zero hfull)]
      refine ⟨o, w', k, hp, hkget, ?_⟩
      rw [hdiv] at hlen
      omega
    · rw [if_neg hfull] at hnext
      obtain rfl := Option.some.inj hnext
      obtain ⟨o', w', k', hp', hk', hlen⟩ := ih hrest (slot_eq fun hz => hfull hz.2)
        (show it.currIdx + 1 + rest.length = it.degree by omega) hdeg
      dsimp only at hp' hlen
      have hdiv : (it.currIdx + 1) / blockSize = it.currIdx / blockSize := by
        rw [Nat.succ_div, if_neg fun hd => hfull (Nat.mod_eq_zero_of_dvd hd), Nat.add_zero]
      rw [hdiv] at hlen
      exact ⟨o', w', k', hp', hk', hlen⟩

/-- A finite set of numbers that a shift maps into itself is not shifted. -/
lemma eq_of_shift {ι : Type*} {s : Finset ι} (hs : s.Nonempty) {f : ι → ℕ} {a b : ℕ}
    (h : ∀ v ∈ s, ∃ w ∈ s, a + f v = b + f w) : a = b := by
  obtain ⟨v, hv, hmax⟩ := s.exists_max_image f hs
  obtain ⟨u, hu, hmin⟩ := s.exists_min_image f hs
  obtain ⟨v', hv', hve⟩ := h v hv
  obtain ⟨u', hu', hue⟩ := h u hu
  have h1 := hmax v' hv'
  have h2 := hmin u' hu'
  omega

/-- A vertex that reads the same at another address begins at a block of a vertex with as many more blocks
as there are before it. -/
lemma Stores.reads_shift (hg : Stores g adj bs) {foreign : ℕ → VertexElement} {v o : ℕ}
    (hv : v < g.numNodes) (hsmall : (adj v).length < 2 ^ 32)
    (hread : (Graph.reopen g.close pop foreign).Yields
      ((Graph.reopen g.close pop foreign).outNeigh v 0) (adj v))
    (ho : (bs v).head? = some o) :
    ∃ o' w k, g.pop + o = pop + o' ∧ (bs w)[k]? = some o' ∧
      (bs v).length + k ≤ (bs w).length := by
  have hs := hg.settled v hv
  have hver := g.reopen_vertices pop foreign hv
  have hpos : 0 < (adj v).length := by
    rw [List.length_pos_iff]
    intro hnil
    rw [(hs.blocks.nodes_eq_nil blockSize_pos).2 hnil] at ho
    cases ho
  obtain ⟨fuel, hf⟩ := hread
  have hptr : ((Graph.reopen g.close pop foreign).outNeigh v 0).begin.gIndex =
      some (((Graph.reopen g.close pop foreign).outNeigh v 0).begin.currEdgeBlock, 0) := by
    rw [Neighborhood.begin, Graph.outNeigh, Neighborhood.make]
    dsimp only
    have hne := hg.nonzero v o (List.mem_of_head? ho)
    rw [hver, hs.degree, hs.head o ho, if_neg (by omega), slot_eq (by omega)]
  have hdegree : ((Graph.reopen g.close pop foreign).outNeigh v 0).begin.degree = (adj v).length := by
    rw [← hs.degree, ← hver]
    rfl
  have hheap : (Graph.reopen g.close pop foreign).heap = g.heap := rfl
  obtain ⟨o', w, k, hp, hk, hlen⟩ := hg.collect_chain hheap hf hptr
    (by rw [hdegree]; exact Nat.zero_add _) (by rw [hdegree]; exact hsmall)
  refine ⟨o', w, k, ?_, hk, ?_⟩
  · rw [← hs.head o ho, ← hver]
    exact hp
  · -- as many blocks as the degree asks for
    have hblocks := hs.blocks.length
    rw [show (adj v).length + blockSize - 1 = ((adj v).length - 1) + blockSize by omega,
      Nat.add_div_right _ blockSize_pos] at hblocks
    rw [hdegree, show ((Graph.reopen g.close pop foreign).outNeigh v 0).begin.currIdx = 0 from rfl,
      Nat.zero_div, Nat.sub_zero] at hlen
    omega

/-- All vertices read the same at the old address only. -/
lemma Stores.pop_eq (hg : Stores g adj bs) {foreign : ℕ → VertexElement}
    (hsmall : ∀ v < g.numNodes, (adj v).length < 2 ^ 32)
    (hread : ∀ v < g.numNodes, (Graph.reopen g.close pop foreign).Yields
      ((Graph.reopen g.close pop foreign).outNeigh v 0) (adj v))
    (hne : ∃ v < g.numNodes, bs v ≠ []) : pop = g.pop := by
  obtain ⟨u, hu, hbs⟩ := hne
  obtain ⟨v0, hv0, hmax⟩ := (Finset.range g.numNodes).exists_max_image (fun v => (bs v).length)
    ⟨u, Finset.mem_range.2 hu⟩
  have hpos : 0 < (bs v0).length :=
    lt_of_lt_of_le (List.length_pos_iff.2 hbs) (hmax u (Finset.mem_range.2 hu))
  -- the vertices with the most blocks begin at one another
  refine (eq_of_shift (s := (Finset.range g.numNodes).filter fun v => (bs v).length = (bs v0).length)
    (f := fun v => (bs v).headD 0) ⟨v0, Finset.mem_filter.2 ⟨hv0, rfl⟩⟩ fun v hv => ?_).symm
  obtain ⟨hv, hlen⟩ := Finset.mem_filter.1 hv
  rw [Finset.mem_range] at hv
  obtain ⟨o, rest, hcons⟩ := List.exists_cons_of_length_pos (hlen ▸ hpos)
  obtain ⟨o', w, k, hp, hk, hle⟩ := hg.reads_shift hv (hsmall v hv) (hread v hv)
    (show (bs v).head? = some o by rw [hcons]; rfl)
  have hw : w < g.numNodes := by
    by_contra hge
    rw [hg.outside w (by omega)] at hk
    cases hk
  have hwmax := hmax w (Finset.mem_range.2 hw)
  obtain rfl : k = 0 := by omega
  refine ⟨w, Finset.mem_filter.2 ⟨Finset.mem_range.2 hw, by omega⟩, ?_⟩
  rw [hcons, List.headD_cons, List.headD_eq_head?_getD, List.head?_eq_getElem?, hk]
  exact hp

section Run

variable {n : ℕ} (directed : Bool) (numNodes pop : ℕ) (foreign : ℕ → VertexElement)
  {base : List (ℕ × ℕ)} {share program : Fin n → List (ℕ × ℕ)}
  (hshare : Shares base share)
  (hids : ∀ e ∈ base ++ (List.ofFn program).flatten, e.1 < numNodes)
  (hdeg : ∀ v, (base ++ (List.ofFn program).flatten).countP (fun e => e.1 = v) < 2 ^ 32)

include hshare hids hdeg

/-- A graph that is closed when no insert is in progress survives a reopen at `pop'` exactly if that is
the old address, or no edge has been loaded or inserted. -/
theorem reopen_elsewhere {c : Config n} (hc : (runs (create directed numNodes base.length pop foreign)
    .load share program).Reach c) (hquiet : c.Quiet) (pop' : ℕ) (foreign' : ℕ → VertexElement) :
    Survives c.g (Graph.reopen c.g.close pop' foreign') ↔ pop' = pop ∨ c.ran = [] := by
  obtain ⟨bs, h⟩ := reach_create directed numNodes pop foreign hshare hids hdeg hc
  have hg := h.stores hquiet
  have hpop : c.g.pop = pop := (reach_frame hc).2
  have hnum : c.g.numNodes = numNodes := (reach_frame hc).1
  have hsmall : ∀ v < c.g.numNodes, ([] ++ Multigraph.ofEdges c.ran v).length < 2 ^ 32 := fun v hv =>
    h.length_lt (fun v _ => small_total hshare hdeg v) hv
  constructor
  · intro hsurvives
    by_contra hnot
    obtain ⟨hmoved, hran⟩ := not_or.1 hnot
    -- the source of an edge has a block
    obtain ⟨e, he⟩ := List.exists_mem_of_ne_nil _ hran
    have hsrc : e.1 < c.g.numNodes := by
      rw [hnum]
      exact hids e (((loadEdges_sublist base).append_right _).subset
        ((ran_perm directed numNodes pop foreign hshare hids hdeg hc hquiet).mem_iff.1 (List.mem_append_left _ he)))
    refine hmoved ((hg.pop_eq hsmall (fun v hv => hsurvives.reads v hv _
      ((hg.settled v hv).yields (hg.nonzero v) (hsmall v hv))) ⟨e.1, hsrc, fun hnil => ?_⟩).trans hpop)
    have hadj := ((hg.settled e.1 hsrc).blocks.nodes_eq_nil blockSize_pos).1 hnil
    rw [List.nil_append, Multigraph.ofEdges, List.map_eq_nil_iff, List.filter_eq_nil_iff] at hadj
    exact hadj e he (by simp)
  · intro hcond
    refine Survives.of_stores hg (hg.reopen foreign' fun v hv o ho => ?_) rfl hsmall
    rcases hcond with hsame | hran
    · rw [hsame, hpop]
    · have hnil : bs v = [] := ((hg.settled v hv).blocks.nodes_eq_nil blockSize_pos).2 (by rw [hran]; rfl)
      rw [hnil] at ho
      cases ho

end Run

/-- One base edge and one insert, closed and reopened at the old address and at another one. -/
theorem reopen_elsewhere_two : ∃ c : Config 1,
    (runs (create true 2 1 4096 fun _ => .zero) .load (fun _ => [(0, 1)]) fun _ => [(0, 0)]).Reach c ∧
      c.Quiet ∧ c.ran = [(0, 1), (0, 0)] ∧
      Survives c.g (Graph.reopen c.g.close 4096 fun _ => .zero) ∧
      ¬ Survives c.g (Graph.reopen c.g.close 8192 fun _ => .zero) := by
  obtain ⟨c, hc, hp⟩ := reach_of_check (create true 2 1 4096 fun _ => .zero) .load
    (fun _ : Fin 1 => [(0, 1)]) (fun _ => [(0, 0)])
    (List.replicate 7 (.thread 0 16) ++ .endLoad :: List.replicate 6 (.thread 0 32))
    (fun c => decide c.Quiet && c.ran == [(0, 1), (0, 0)]) (by decide +kernel)
  simp only [Bool.and_eq_true, decide_eq_true_eq, beq_iff_eq] at hp
  have hshare : Shares [(0, 1)] fun _ : Fin 1 => [(0, 1)] := by
    rw [Shares, loadEdges_of_lt (by decide)]
    decide
  have h := reopen_elsewhere true 2 4096 (fun _ => .zero) hshare (by decide)
    (fun v => lt_of_le_of_lt List.countP_le_length (by decide)) hc hp.1
  refine ⟨c, hc, hp.1, hp.2, (h 4096 _).2 (.inl rfl), fun hs => ?_⟩
  rcases (h 8192 _).1 hs with hpop | hran
  · exact absurd hpop (by decide)
  · rw [hp.2] at hran
    cases hran

/-- After one insert and a reopen at a higher address, iterating reads through the old address, at which
there is no block any more. -/
theorem reopen_elsewhere_fails : ∃ c : Config 1,
    (runs (create true 2 0 4096 fun _ => .zero) .load (fun _ => []) fun _ => [(0, 1)]).Reach c ∧
      c.Quiet ∧ c.ran = [(0, 1)] ∧ c.g.Yields (c.g.outNeigh 0 0) [1] ∧
      (∀ l, ¬ (Graph.reopen c.g.close 8192 fun _ => .zero).Yields
        ((Graph.reopen c.g.close 8192 fun _ => .zero).outNeigh 0 0) l) ∧
      ¬ Survives c.g (Graph.reopen c.g.close 8192 fun _ => .zero) := by
  obtain ⟨c, hc, hp⟩ := reach_of_check (create true 2 0 4096 fun _ => .zero) .load
    (fun _ : Fin 1 => []) (fun _ => [(0, 1)]) (.endLoad :: List.replicate 9 (.thread 0 16))
    (fun c => decide c.Quiet && c.ran == [(0, 1)] && c.g.vertices 0 == ⟨4112, 4112, 1⟩ &&
      c.g.collect 1 (c.g.outNeigh 0 0).begin == some [1]) (by decide +kernel)
  simp only [Bool.and_eq_true, decide_eq_true_eq, beq_iff_eq] at hp
  obtain ⟨⟨⟨hquiet, hran⟩, hver⟩, hread⟩ := hp
  have hnum : c.g.numNodes = 2 := (reach_frame hc).1
  have hnone : ∀ l, ¬ (Graph.reopen c.g.close 8192 fun _ => .zero).Yields
      ((Graph.reopen c.g.close 8192 fun _ => .zero).outNeigh 0 0) l := by
    rintro l ⟨fuel, hf⟩
    have hptr : ((Graph.reopen c.g.close 8192 fun _ => .zero).outNeigh 0 0).begin.gIndex =
        some (4112, 0) := by
      rw [Neighborhood.begin, Graph.outNeigh, Neighborhood.make,
        c.g.reopen_vertices 8192 _ (by rw [hnum]; decide), hver]
      rfl
    obtain ⟨_, b, _, _, -, hb, -⟩ := Graph.collect_some hptr hf
    obtain ⟨o, ho, -⟩ := Graph.deref_some hb
    rw [show (Graph.reopen c.g.close 8192 fun _ => .zero).pop = 8192 from rfl] at ho
    omega
  exact ⟨c, hc, hquiet, hran, ⟨1, hread⟩, hnone, fun hs =>
    hnone _ (hs.reads 0 (by rw [hnum]; decide) [1] ⟨1, hread⟩)⟩

end Bal

end Dgap
