import Dgap.Bal.Read

/-!
# The blocked adjacency list at rest

What the invariant and the reader give together: whenever no insert is in progress, every vertex reads as
its base and dynamic edges in the order in which their critical sections ran, in as few blocks as hold them,
linked from the head to the tail, and shared with no other vertex (`Blocked`). On the way there no statement
faults (`no_fault`). The edges that run are all that are given exactly if the counter of the base load can count
the base edges (`blocked_adjacency`).
-/

namespace Dgap

namespace Bal

/-- Vertex `v` leads to the blocks `bs`, from its head to its tail. -/
structure Linked (g : Graph) (v : ℕ) (bs : List ℕ) : Prop where
  live : ∀ o ∈ bs, ∃ b, g.heap o = some b
  head : ∀ o, bs.head? = some o → (g.vertices v).headOffset = direct g.pop o
  tail : ∀ o, bs.getLast? = some o → (g.vertices v).tailOffset = direct g.pop o
  next : ∀ k o b, bs[k]? = some o → g.heap o = some b → b.nextOffset = bs.getD (k + 1) 0

/-- A stored vertex leads to its blocks. -/
lemma Settled.linked {g : Graph} {v : ℕ} {bs l : List ℕ} (h : Settled g v bs l)
    (hnz : ∀ o ∈ bs, o ≠ 0) : Linked g v bs := by
  refine ⟨h.blocks.live, fun o ho => ?_, fun o ho => ?_, h.blocks.link⟩
  · rw [Graph.direct_eq (hnz o (List.mem_of_head? ho)), h.head o ho]
  · rw [Graph.direct_eq (hnz o (List.mem_of_getLast? ho)), h.tail o ho]

/-- Every vertex keeps its edges, in the order in which their critical sections ran, in the blocks `bs`. -/
structure Blocked {n : ℕ} (numNodes : ℕ) (c : Config n) (bs : ℕ → List ℕ) : Prop where
  outNeigh : ∀ v < numNodes, c.g.Yields (c.g.outNeigh v 0) (Multigraph.ofEdges c.ran v)
  inNeigh : ∀ v < numNodes, c.g.Yields (c.g.inNeigh v 0) (Multigraph.ofEdges c.ran v)
  degree : ∀ v < numNodes, c.g.outDegree v = (Multigraph.ofEdges c.ran v).length
  length : ∀ v < numNodes, (bs v).length = (c.g.outDegree v + blockSize - 1) / blockSize
  nodup : ∀ v < numNodes, (bs v).Nodup
  linked : ∀ v < numNodes, Linked c.g v (bs v)
  disjoint : ∀ v w, v ≠ w → (bs v).Disjoint (bs w)
  owned : ∀ o b, c.g.heap o = some b → ∃ v < numNodes, o ∈ bs v

/-- Every base edge and every insert has run, or is still to do. -/
def Config.Complete {n : ℕ} (base : List (ℕ × ℕ)) (program : Fin n → List (ℕ × ℕ)) (c : Config n) : Prop :=
  (c.ran ++ (List.ofFn fun i => (c.threads i).todo ++ (c.threads i).inserts).flatten).Perm
    (base ++ (List.ofFn program).flatten)

/-- The lists of all threads together. -/
lemma coe_flatten_ofFn {α : Type*} {n : ℕ} (f : Fin n → List α) :
    ((List.ofFn f).flatten : Multiset α) = ∑ i, (f i : Multiset α) := by
  induction n with
  | zero => simp
  | succ n ih =>
    rw [List.ofFn_succ, List.flatten_cons, Fin.sum_univ_succ, ← ih, Multiset.coe_add]

section Run

variable {n : ℕ} (directed : Bool) (numNodes pop : ℕ) (foreign : ℕ → VertexElement)
  {base : List (ℕ × ℕ)} {share program : Fin n → List (ℕ × ℕ)}
  (hshare : Shares base share)

include hshare

/-- The base edges that are loaded and the inserts are what the threads are given. -/
lemma coe_total : (↑(loadEdges base ++ (List.ofFn program).flatten) : Multiset (ℕ × ℕ)) =
    ∑ i, (share i + program i : Multiset (ℕ × ℕ)) := by
  rw [← Multiset.coe_add, ← Multiset.coe_eq_coe.2 hshare, coe_flatten_ofFn, coe_flatten_ofFn,
    Finset.sum_add_distrib]

/-- No vertex is given more edges than a degree can count. -/
lemma small_total (hdeg : ∀ v, (base ++ (List.ofFn program).flatten).countP (fun e => e.1 = v) < 2 ^ 32)
    (v : ℕ) : ([] : List ℕ).length +
      (∑ i, (share i + program i : Multiset (ℕ × ℕ))).countP (fun e => e.1 = v) < 2 ^ 32 := by
  rw [← coe_total hshare, Multiset.coe_countP, List.length_nil, Nat.zero_add]
  exact (((loadEdges_sublist base).append_right _).countP_le).trans_lt (hdeg v)

variable (hids : ∀ e ∈ base ++ (List.ofFn program).flatten, e.1 < numNodes)
  (hdeg : ∀ v, (base ++ (List.ofFn program).flatten).countP (fun e => e.1 = v) < 2 ^ 32)

include hids hdeg

/-- The invariant of a run of the constructor and of inserts. -/
lemma reach_create {c : Config n} (hc : (runs (create directed numNodes base.length pop foreign) .load
    share program).Reach c) :
    ∃ bs, Inv (fun _ => []) (∑ i, (share i + program i : Multiset (ℕ × ℕ))) c bs := by
  refine Inv.reach (stores_create ..) (fun i e he => hids e (((loadEdges_sublist base).append_right _).subset ?_))
    (fun v _ => ?_) hc
  · rw [← Multiset.mem_coe, coe_total hshare, Multiset.mem_sum]
    refine ⟨i, Finset.mem_univ i, ?_⟩
    rwa [Multiset.coe_add, Multiset.mem_coe]
  · exact small_total hshare hdeg v

/-- No statement of the constructor or of an insert faults. -/
theorem no_fault {c : Config n} (hc : (runs (create directed numNodes base.length pop foreign) .load
    share program).Reach c) {i : Fin n} {off : ℕ} (hpc : (c.threads i).pc ≠ .idle) (hoff : off ≠ 0)
    (hfree : c.g.heap off = none) : ∃ c', c.next i off = some c' := by
  obtain ⟨bs, h⟩ := reach_create directed numNodes pop foreign hshare hids hdeg hc
  exact h.moves hpc hoff hfree

/-- The edges that have run and those that are still to do are the base edges that are loaded and the inserts. -/
lemma ran_perm {c : Config n} (hc : (runs (create directed numNodes base.length pop foreign) .load
    share program).Reach c) (hquiet : c.Quiet) :
    (c.ran ++ (List.ofFn fun i => (c.threads i).todo ++ (c.threads i).inserts).flatten).Perm
      (loadEdges base ++ (List.ofFn program).flatten) := by
  obtain ⟨bs, h⟩ := reach_create directed numNodes pop foreign hshare hids hdeg hc
  rw [← Multiset.coe_eq_coe, coe_total hshare, ← h.count, ← Multiset.coe_add, coe_flatten_ofFn]
  refine congrArg _ (Finset.sum_congr rfl fun i _ => ?_)
  rw [Thread.pending, hquiet i, if_neg (by exact Bool.false_ne_true), zero_add, Multiset.coe_add]

/-- Whenever no insert is in progress, every vertex reads as its edges that have run. -/
lemma reach_blocked {c : Config n} (hc : (runs (create directed numNodes base.length pop foreign) .load share
    program).Reach c) (hquiet : c.Quiet) : ∃ bs, Blocked numNodes c bs := by
  obtain ⟨bs, h⟩ := reach_create directed numNodes pop foreign hshare hids hdeg hc
  have hs := h.stores hquiet
  have hnum : c.g.numNodes = numNodes := (reach_frame hc).1
  have hreads : ∀ v < numNodes, c.g.Yields (c.g.outNeigh v 0) (Multigraph.ofEdges c.ran v) ∧
      c.g.outDegree v = (Multigraph.ofEdges c.ran v).length := fun v hv => by
    have hread := h.reads (fun v _ => small_total hshare hdeg v) hquiet (by rw [hnum]; exact hv)
    rwa [List.nil_append] at hread
  refine ⟨bs, fun v hv => (hreads v hv).1, fun v hv => (hreads v hv).1, fun v hv => (hreads v hv).2,
    fun v hv => ?_, fun v hv => ?_, fun v hv => ?_, fun v w hvw o ho hw => hs.disjoint v w hvw o ho hw,
    fun o b hb => ?_⟩
  · rw [(hreads v hv).2, (hs.settled v (by rw [hnum]; exact hv)).blocks.length, List.nil_append]
  · exact (hs.settled v (by rw [hnum]; exact hv)).blocks.nodup
  · exact (hs.settled v (by rw [hnum]; exact hv)).linked (hs.nonzero v)
  · obtain ⟨v, hv⟩ := hs.owned o b hb
    refine ⟨v, ?_, hv⟩
    by_contra hge
    rw [hs.outside v (by rw [hnum]; omega)] at hv
    cases hv

/-- Whenever no insert is in progress, every vertex reads as its edges in the order in which their critical
sections ran, from blocks of its own, as many as these edges fill; and these edges, with those still to do, are
all base edges and inserts exactly if there are fewer than `2 ^ 31` base edges. -/
theorem blocked_adjacency {c : Config n} (hc : (runs (create directed numNodes base.length pop foreign)
    .load share program).Reach c) (hquiet : c.Quiet) :
    (∃ bs, Blocked numNodes c bs) ∧
      ((c.Complete base program ∧ ∃ bs, Blocked numNodes c bs) ↔ base.length < 2 ^ 31) := by
  have hblocked := reach_blocked directed numNodes pop foreign hshare hids hdeg hc hquiet
  have hperm := ran_perm directed numNodes pop foreign hshare hids hdeg hc hquiet
  refine ⟨hblocked, fun h => ?_, fun hlt => ⟨?_, hblocked⟩⟩
  · -- what runs is what is loaded, and an `int` cannot count more
    have hall : (loadEdges base).Perm base :=
      (List.perm_append_right_iff _).1 (hperm.symm.trans h.1)
    rw [← hall.length_eq]
    exact length_loadEdges_lt base
  · rw [loadEdges_of_lt hlt] at hperm
    exact hperm

end Run

/-- One base edge, loaded by one thread, then an insert of another thread. -/
theorem blocked_adjacency_two : ∃ c : Config 2,
    (runs (create true 2 1 4096 fun _ => .zero) .load ![[(0, 1)], []] ![[], [(0, 0)]]).Reach c ∧
      c.Quiet ∧ c.ran = [(0, 1), (0, 0)] ∧ c.Complete [(0, 1)] ![[], [(0, 0)]] ∧
      c.g.Yields (c.g.outNeigh 0 0) [1, 0] ∧ c.g.Yields (c.g.outNeigh 1 0) [] := by
  obtain ⟨c, hc, hp⟩ := reach_of_check (create true 2 1 4096 fun _ => .zero) .load ![[(0, 1)], []]
    ![[], [(0, 0)]] (List.replicate 7 (.thread 0 16) ++ .endLoad :: List.replicate 6 (.thread 1 32))
    (fun c => decide c.Quiet && c.ran == [(0, 1), (0, 0)]) (by decide +kernel)
  simp only [Bool.and_eq_true, decide_eq_true_eq, beq_iff_eq] at hp
  have hshare : Shares [(0, 1)] (![[(0, 1)], []] : Fin 2 → List (ℕ × ℕ)) := by
    rw [Shares, loadEdges_of_lt (by decide)]
    decide
  obtain ⟨hcomplete, bs, h⟩ := (blocked_adjacency true 2 4096 (fun _ => .zero) hshare (by decide)
    (fun v => lt_of_le_of_lt List.countP_le_length (by decide)) hc hp.1).2.2 (by decide)
  have h0 := h.outNeigh 0 (by decide)
  have h1 := h.outNeigh 1 (by decide)
  rw [hp.2] at h0 h1
  exact ⟨c, hc, hp.1, hp.2, hcomplete, h0, h1⟩

/-- `2 ^ 31` base edges of one vertex. Converted to `int` their number is negative, so the base load has no round,
and is over when it begins: the vertex has no edge. -/
theorem blocked_adjacency_fails : ∃ (base : List (ℕ × ℕ)) (c : Config 1), base = List.replicate (2 ^ 31) (0, 0) ∧
    (runs (create true 1 base.length 4096 fun _ => .zero) .load (fun _ => []) fun _ => []).Reach c ∧
      c.Quiet ∧ c.phase = .dynamic ∧ c.g.Yields (c.g.outNeigh 0 0) [] ∧
      (Multigraph.ofEdges base 0).length = 2 ^ 31 ∧ ¬ c.Complete base fun _ => [] := by
  obtain ⟨k, hk⟩ : ∃ k : ℕ, k = 2 ^ 31 := ⟨_, rfl⟩
  obtain ⟨base, hbase⟩ : ∃ base : List (ℕ × ℕ), base = List.replicate k (0, 0) := ⟨_, rfl⟩
  have hlen : base.length = 2 ^ 31 := by rw [hbase, List.length_replicate, hk]
  have hnone : loadEdges base = [] := by
    rw [loadEdges, hlen, show Machine.tripCount (Machine.signed 32) (2 ^ 31 : ℕ) = 0 by decide +kernel,
      List.take_zero]
  have hshare : Shares base fun _ : Fin 1 => [] := by
    rw [Shares, hnone]
    decide
  have hprogram : (List.ofFn fun _ : Fin 1 => ([] : List (ℕ × ℕ))).flatten = [] := rfl
  have hids : ∀ e ∈ base ++ (List.ofFn fun _ : Fin 1 => ([] : List (ℕ × ℕ))).flatten, e.1 < 1 := by
    rw [hprogram, List.append_nil, hbase]
    intro e he
    rw [List.eq_of_mem_replicate he]
    exact Nat.one_pos
  have hdeg : ∀ v, (base ++ (List.ofFn fun _ : Fin 1 => ([] : List (ℕ × ℕ))).flatten).countP
      (fun e => e.1 = v) < 2 ^ 32 := by
    intro v
    refine lt_of_le_of_lt List.countP_le_length ?_
    rw [hprogram, List.append_nil, hlen]
    norm_num
  obtain ⟨c0, hc0⟩ : ∃ c0 : Config 1, c0 = start (create true 1 base.length 4096 fun _ => .zero) .load
      (fun _ => []) fun _ => [] := ⟨_, rfl⟩
  have hend : c0.act .endLoad = some c0.endLoad := by
    have hloaded : c0.phase = .load ∧ c0.Quiet ∧ ∀ i, (c0.threads i).todo = [] := by
      rw [hc0]
      exact ⟨rfl, fun _ => rfl, fun _ => rfl⟩
    rw [Config.act, if_pos hloaded]
  have hc : (runs (create true 1 base.length 4096 fun _ => .zero) .load (fun _ : Fin 1 => []) fun _ => []).Reach
      c0.endLoad := .step (.init hc0) hend
  have hquiet : c0.endLoad.Quiet := by
    rw [hc0]
    exact fun _ => rfl
  obtain ⟨bs, h⟩ := reach_blocked true 1 4096 (fun _ => .zero) hshare hids hdeg hc hquiet
  have hran : c0.endLoad.ran = [] := by
    rw [hc0]
    rfl
  have hread := h.outNeigh 0 Nat.one_pos
  rw [hran] at hread
  refine ⟨base, _, by rw [hbase, hk], hc, hquiet, rfl, hread, ?_, fun hcomplete => ?_⟩
  · rw [hbase, Multigraph.ofEdges_replicate, List.length_replicate, hk]
  · have hperm := ran_perm true 1 4096 (fun _ => .zero) hshare hids hdeg hc hquiet
    have hlt := (hperm.symm.trans hcomplete).length_eq
    rw [hnone, hprogram, List.append_nil, List.append_nil, List.length_nil, hlen] at hlt
    exact absurd hlt (by norm_num)

end Bal

end Dgap
