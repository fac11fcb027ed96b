import Dgap.Bal.Loading

/-!
# Iterating from an offset

`OffsetLaw` is what an offset `k` should do: the loop yields what the loop without an offset yields behind
the first `k` edges, and only reads in the blocks of the vertex. The constructor of `Neighborhood` takes
position `k` of the head block, whatever `k` is, while `operator++` counts blocks, so the law holds for the
offsets in the first block and for those behind the last edge only (`offset_law`).
-/

namespace Dgap

namespace Bal

namespace Graph

variable (g : Graph)

/-- The positions a loop from `it` reads in its first `fuel` rounds. -/
def reads : ℕ → Iterator → List (ℕ × ℕ)
  | 0, _ => []
  | fuel + 1, it =>
    match it.gIndex with
    | none => []
    | some r =>
      match g.next it with
      | none => [r]
      | some it => r :: reads fuel it

end Graph

/-- A position inside one of the blocks `bs`. -/
def InBlocks (g : Graph) (bs : List ℕ) (r : ℕ × ℕ) : Prop := ∃ o ∈ bs, r.1 = g.pop + o ∧ r.2 < blockSize

/-- An iteration of a vertex that keeps its edges in the blocks `bs` drops the first `k` of them, and never
reads outside these blocks; `whole` is the iteration without an offset. -/
def OffsetLaw (g : Graph) (bs : List ℕ) (whole nb : Neighborhood) (k : ℕ) : Prop :=
  ∃ l, g.Yields whole l ∧ g.Yields nb (l.drop k) ∧ ∀ fuel, ∀ r ∈ g.reads fuel nb.begin, InBlocks g bs r

namespace Settled

variable {g : Graph} {v k : ℕ} {bs l : List ℕ} (h : Settled g v bs l)

include h

/-- From an element on only positions in blocks are read. -/
lemma reads_inBlocks (hnz : ∀ o ∈ bs, o ≠ 0) (hsmall : l.length < 2 ^ 32) :
    ∀ fuel j it, Points g bs l j it → ∀ r ∈ g.reads fuel it, InBlocks g bs r := by
  intro fuel
  induction fuel with
  | zero =>
    intro j it _ r hr
    cases hr
  | succ fuel ih =>
    intro j it hit r hr
    have hat := hit
    cases hit with
    | done hptr =>
      rw [Graph.reads, hptr] at hr
      cases hr
    | elem hlt ho _ _ _ hptr =>
      obtain ⟨it', hnext, hit'⟩ := h.points_next hnz hsmall hlt hat
      rw [Graph.reads, hptr, hnext] at hr
      rcases List.mem_cons.1 hr with rfl | hr
      · exact ⟨_, List.mem_of_getElem? ho, rfl, Nat.mod_lt _ blockSize_pos⟩
      · exact ih (j + 1) it' hit' r hr

/-- An offset behind the first block and before the end is read from the head block as well. -/
lemma reads_offset (hk : blockSize ≤ k) (hlt : k < l.length) :
    ∃ r ∈ g.reads 1 (g.outNeigh v k).begin, r.2 = k := by
  have hptr : (g.outNeigh v k).begin.gIndex = some ((g.vertices v).headOffset, k) := by
    have hpos := blockSize_pos
    rw [Neighborhood.begin, Graph.outNeigh, Neighborhood.make]
    dsimp only
    rw [if_neg (by rw [h.degree]; omega), slot_eq (by omega)]
  refine ⟨((g.vertices v).headOffset, k), ?_, rfl⟩
  rw [Graph.reads, hptr]
  dsimp only
  split
  · exact List.mem_singleton_self _
  · exact List.mem_cons_self

/-- The offsets for which an iteration does what it should. -/
lemma offsetLaw_iff (hnz : ∀ o ∈ bs, o ≠ 0) (hsmall : l.length < 2 ^ 32) (k : ℕ) :
    OffsetLaw g bs (g.outNeigh v 0) (g.outNeigh v k) k ↔ k < blockSize ∨ l.length ≤ k := by
  constructor
  · rintro ⟨-, -, -, hin⟩
    by_contra hk
    push Not at hk
    obtain ⟨r, hr, hrk⟩ := h.reads_offset hk.1 hk.2
    obtain ⟨-, -, -, hlt⟩ := hin 1 r hr
    omega
  · intro hk
    exact ⟨l, h.yields hnz hsmall, h.yields_from hnz hsmall hk, fun fuel r hr =>
      h.reads_inBlocks hnz hsmall fuel _ _ (h.points_begin hnz hsmall hk) r hr⟩

end Settled

section Run

variable {n : ℕ} (directed : Bool) (numNodes pop : ℕ) (foreign : ℕ → VertexElement)
  {base : List (ℕ × ℕ)} {share program : Fin n → List (ℕ × ℕ)}
  (hshare : Shares base share)
  (hids : ∀ e ∈ base ++ (List.ofFn program).flatten, e.1 < numNodes)
  (hdeg : ∀ v, (base ++ (List.ofFn program).flatten).countP (fun e => e.1 = v) < 2 ^ 32)

include hshare hids hdeg

/-- Whenever no insert is in progress, the neighbourhoods with an offset are those without, less as many
edges as the offset says, exactly for the offsets in the first block and behind the last edge. -/
theorem offset_law {c : Config n} (hc : (runs (create directed numNodes base.length pop foreign) .load
    share program).Reach c) (hquiet : c.Quiet) :
    ∃ bs : ℕ → List ℕ, ∀ v < numNodes, Linked c.g v (bs v) ∧
      (bs v).length = (c.g.outDegree v + blockSize - 1) / blockSize ∧
      ∀ k, (OffsetLaw c.g (bs v) (c.g.outNeigh v 0) (c.g.outNeigh v k) k ↔
          k < blockSize ∨ c.g.outDegree v ≤ k) ∧
        (OffsetLaw c.g (bs v) (c.g.inNeigh v 0) (c.g.inNeigh v k) k ↔
          k < blockSize ∨ c.g.outDegree v ≤ k) := by
  obtain ⟨bs, h⟩ := reach_create directed numNodes pop foreign hshare hids hdeg hc
  have hs := h.stores hquiet
  have hnum : c.g.numNodes = numNodes := (reach_frame hc).1
  refine ⟨bs, fun v hv => ?_⟩
  rw [← hnum] at hv
  have hv' := hs.settled v hv
  have hnz := hs.nonzero v
  have hsmall := h.length_lt (fun v _ => small_total hshare hdeg v) hv
  refine ⟨hv'.linked hnz, by rw [Graph.outDegree, hv'.degree, hv'.blocks.length], fun k => ?_⟩
  rw [Graph.outDegree, hv'.degree]
  exact ⟨hv'.offsetLaw_iff hnz hsmall k, hv'.offsetLaw_iff hnz hsmall k⟩

end Run

/-- A base edge and an insert of vertex 0, iterated from the second one. -/
theorem offset_law_two : ∃ (c : Config 1) (bs : List ℕ),
    (runs (create true 2 1 4096 fun _ => .zero) .load (fun _ => [(0, 1)]) fun _ => [(0, 0)]).Reach c ∧
      c.Quiet ∧ c.ran = [(0, 1), (0, 0)] ∧ Linked c.g 0 bs ∧
      OffsetLaw c.g bs (c.g.outNeigh 0 0) (c.g.outNeigh 0 1) 1 := by
  obtain ⟨c, hc, hp⟩ := reach_of_check (create true 2 1 4096 fun _ => .zero) .load
    (fun _ : Fin 1 => [(0, 1)]) (fun _ => [(0, 0)])
    (List.replicate 7 (.thread 0 16) ++ .endLoad :: List.replicate 6 (.thread 0 32))
    (fun c => decide c.Quiet && c.ran == [(0, 1), (0, 0)]) (by decide +kernel)
  simp only [Bool.and_eq_true, decide_eq_true_eq, beq_iff_eq] at hp
  have hshare : Shares [(0, 1)] fun _ : Fin 1 => [(0, 1)] := by
    rw [Shares, loadEdges_of_lt (by decide)]
    decide
  obtain ⟨bs, h⟩ := offset_law true 2 4096 (fun _ => .zero) hshare (by decide)
    (fun v => lt_of_le_of_lt List.countP_le_length (by decide)) hc hp.1
  obtain ⟨hlink, -, hlaw⟩ := h 0 (by decide)
  exact ⟨c, bs 0, hc, hp.1, hp.2, hlink, (hlaw 1).1.2 (.inl (by decide))⟩

/-- A vertex with one edge more than a block holds, iterated from its last edge: the head block is read
behind its end. -/
theorem offset_law_fails : ∃ c : Config 1,
    (runs (create true 1 1023 4096 fun _ => .zero) .load (fun _ => List.replicate 1023 (0, 0))
      fun _ => []).Reach c ∧ c.Quiet ∧ c.g.Yields (c.g.outNeigh 0 0) (List.replicate 1023 0) ∧
      (∃ r ∈ c.g.reads 1 (c.g.outNeigh 0 1022).begin, r.2 = 1022) ∧
      ∀ bs, ¬ OffsetLaw c.g bs (c.g.outNeigh 0 0) (c.g.outNeigh 0 1022) 1022 := by
  have hload : loadEdges (List.replicate 1023 (0, 0)) = List.replicate 1023 (0, 0) :=
    loadEdges_of_lt (by rw [List.length_replicate]; norm_num)
  have hshare : Shares (List.replicate 1023 (0, 0)) fun _ : Fin 1 => List.replicate 1023 (0, 0) := by
    rw [Shares, hload, List.ofFn_succ, List.ofFn_zero, List.flatten_cons, List.flatten_nil, List.append_nil]
  have hprogram : (List.ofFn fun _ : Fin 1 => ([] : List (ℕ × ℕ))).flatten = [] := rfl
  have hids : ∀ e ∈ List.replicate 1023 ((0 : ℕ), (0 : ℕ)) ++
      (List.ofFn fun _ : Fin 1 => ([] : List (ℕ × ℕ))).flatten, e.1 < 1 := by
    rw [hprogram, List.append_nil]
    intro e he
    rw [List.eq_of_mem_replicate he]
    exact Nat.one_pos
  have hdeg : ∀ v, (List.replicate 1023 ((0 : ℕ), (0 : ℕ)) ++
      (List.ofFn fun _ : Fin 1 => ([] : List (ℕ × ℕ))).flatten).countP (fun e => e.1 = v) < 2 ^ 32 := by
    intro v
    refine lt_of_le_of_lt List.countP_le_length ?_
    rw [hprogram, List.append_nil, List.length_replicate]
    norm_num
  obtain ⟨c, hc, -, ⟨hquiet, -⟩, hran⟩ := base_loads true 1 4096 (fun _ => .zero) hshare hids hdeg
  obtain ⟨bs, h⟩ := reach_create true 1 4096 (fun _ => .zero) hshare hids hdeg hc
  have hs := h.stores hquiet
  have hnum : c.g.numNodes = 1 := (reach_frame hc).1
  have hv := hs.settled 0 (by rw [hnum]; exact Nat.one_pos)
  rw [hload] at hran
  rw [List.nil_append, List.perm_replicate.1 hran, Multigraph.ofEdges_replicate] at hv
  have hread := hv.reads_offset (le_refl 1022) (by rw [List.length_replicate]; decide)
  rw [List.length_replicate] at hc
  refine ⟨c, hc, hquiet, hv.yields (hs.nonzero 0) (by rw [List.length_replicate]; decide), hread, fun bs hlaw => ?_⟩
  obtain ⟨-, -, -, hin⟩ := hlaw
  obtain ⟨r, hr, hrk⟩ := hread
  obtain ⟨-, -, -, hlt⟩ := hin 1 r hr
  exact absurd (hrk ▸ hlt) (by decide)

end Bal

end Dgap
