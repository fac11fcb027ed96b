import Dgap.Bal.Adjacency

/-!
# The base load comes to its end

In a state of the base load a thread can move unless every thread is done with its share
(`Inv.exists_next`), and every step leaves fewer statements (`Config.Loading.next`). So the base load can be
completed, whatever the base edges are (`base_loads`).
-/

namespace Dgap

namespace Bal

variable {n : ℕ} {c c' : Config n} {i : Fin n} {off : ℕ} {program : Fin n → List (ℕ × ℕ)}

/-- The statements a thread has left in the base load. -/
def Thread.left (t : Thread) : ℕ := 7 * t.todo.length + t.pc.rank

namespace Config

/-- A state of the base load: every thread is between two edges or in a critical section, and has its
inserts still before it. -/
def Loading (program : Fin n → List (ℕ × ℕ)) (c : Config n) : Prop :=
  c.phase = .load ∧
    ∀ i, ((c.threads i).pc = .idle ∨ (c.threads i).pc.holds = true) ∧ (c.threads i).inserts = program i

/-- The statements that all threads have left in the base load. -/
def left (c : Config n) : ℕ := ∑ i, (c.threads i).left

/-- Every thread is done with its share of the base edges. -/
def Loaded (c : Config n) : Prop := c.Quiet ∧ ∀ i, (c.threads i).todo = []

/-- A thread that gets on. -/
lemma Loading.setThread (hc : c.Loading program) {t : Thread}
    (ht : (t.pc = .idle ∨ t.pc.holds = true) ∧ t.inserts = (c.threads i).inserts)
    (hlt : t.left < (c.threads i).left) (g : Graph) (lock : ℕ → Option (Fin n)) (ran : List (ℕ × ℕ)) :
    Loading program { c.setThread i t with g := g, lock := lock, ran := ran } ∧
      left { c.setThread i t with g := g, lock := lock, ran := ran } < c.left := by
  refine ⟨⟨hc.1, fun j => ?_⟩, Finset.sum_lt_sum (fun j _ => ?_) ⟨i, Finset.mem_univ i, ?_⟩⟩
  · by_cases hj : j = i
    · subst hj
      rw [(hc.2 j).2, ← c.setThread_self j t] at ht
      exact ht
    · have := hc.2 j
      rwa [← c.setThread_of_ne hj t] at this
  · by_cases hj : j = i
    · subst hj
      exact (congrArg Thread.left (c.setThread_self j t)).trans_le hlt.le
    · exact (congrArg Thread.left (c.setThread_of_ne hj t)).le
  · exact (congrArg Thread.left (c.setThread_self i t)).trans_lt hlt

/-- A step of the base load. -/
lemma Loading.next (hc : c.Loading program) (h : c.next i off = some c') :
    c'.Loading program ∧ c'.left < c.left := by
  rcases next_cases h with ⟨src, dst, todo, hpc, htodo, -, rfl⟩ | ⟨hpc, pc, hnext, rfl⟩ |
    ⟨hpc, -⟩ | ⟨g, pc', hcrit, rfl⟩
  · refine hc.setThread ⟨.inr ?_, ?_⟩ ?_ c.g _ c.ran
    · rfl
    · rfl
    rw [Thread.left, Thread.left, htodo, hpc, List.length_cons]
    simp only [Pc.rank]
    omega
  · obtain ⟨-, rfl⟩ | ⟨hdyn, -⟩ := hnext
    · refine hc.setThread ⟨.inl ?_, ?_⟩ ?_ c.g _ c.ran
      · rfl
      · rfl
      rw [Thread.left, Thread.left, hpc]
      simp only [Pc.rank]
      omega
    · rw [hc.1] at hdyn
      cases hdyn
  · -- the base load does not count edges
    rcases (hc.2 i).1 with hi | hi
    · rw [hi] at hpc
      rcases hpc with hpc | ⟨_, hpc⟩
      · cases hpc
      · cases hpc
    · rcases hpc with hpc | ⟨_, hpc⟩
      · rw [hpc] at hi
        cases hi
      · rw [hpc] at hi
        cases hi
  · obtain ⟨-, -, hholds, -, hrank, -, -⟩ := Graph.criticalStep_frame hcrit
    refine hc.setThread ⟨.inr hholds, ?_⟩ ?_ g c.lock _
    · rfl
    · exact Nat.add_lt_add_left hrank _

end Config

variable {adj bs : ℕ → List ℕ} {total : Multiset (ℕ × ℕ)}

/-- There is always an offset at which no block begins. -/
lemma Inv.exists_fresh (h : Inv adj total c bs) : ∃ off, off ≠ 0 ∧ c.g.heap off = none := by
  obtain ⟨off, hoff⟩ := Infinite.exists_notMem_finset
    (((Finset.range c.g.numNodes).biUnion fun v => (bs v).toFinset) ∪
      (Finset.univ.biUnion fun i => (c.threads i).pc.block?.toFinset) ∪ {0})
  simp only [Finset.mem_union, Finset.mem_biUnion, Finset.mem_range, List.mem_toFinset, Finset.mem_univ,
    Option.mem_toFinset, Finset.mem_singleton, true_and, not_or, not_exists, not_and] at hoff
  refine ⟨off, hoff.2, ?_⟩
  by_contra hne
  obtain ⟨b, hb⟩ := Option.ne_none_iff_exists'.1 hne
  rcases h.owns.owned off b hb with ⟨v, hv⟩ | ⟨i, hi⟩
  · by_cases hlt : v < c.g.numNodes
    · exact hoff.1.1 v hlt hv
    · rw [h.outside v (by omega)] at hv
      cases hv
  · exact hoff.1.2 i hi

/-- Unless the base load is at its end, some thread can move. -/
lemma Inv.exists_next (h : Inv adj total c bs) (hne : ¬ c.Loaded) :
    ∃ i off c', c.next i off = some c' := by
  by_cases hquiet : c.Quiet
  · have htodo : ¬ ∀ i, (c.threads i).todo = [] := fun hnil => hne ⟨hquiet, hnil⟩
    push Not at htodo
    obtain ⟨i, hi⟩ := htodo
    obtain ⟨⟨src, dst⟩, todo, hcons⟩ := List.exists_cons_of_ne_nil hi
    refine ⟨i, 0, ?_⟩
    simp only [Config.next, hquiet i, hcons, h.lock_free hquiet, if_true]
    exact ⟨_, rfl⟩
  · have hpc : ¬ ∀ i, (c.threads i).pc = .idle := hquiet
    push Not at hpc
    obtain ⟨i, hi⟩ := hpc
    obtain ⟨off, hoff, hfree⟩ := h.exists_fresh
    obtain ⟨c', hc'⟩ := h.moves hi hoff hfree
    exact ⟨i, off, c', hc'⟩

/-- Whatever the base edges are, some run loads those of all rounds. -/
theorem base_loads (directed : Bool) (numNodes pop : ℕ) (foreign : ℕ → VertexElement)
    {base : List (ℕ × ℕ)} {share : Fin n → List (ℕ × ℕ)}
    (hshare : Shares base share)
    (hids : ∀ e ∈ base ++ (List.ofFn program).flatten, e.1 < numNodes)
    (hdeg : ∀ v, (base ++ (List.ofFn program).flatten).countP (fun e => e.1 = v) < 2 ^ 32) :
    ∃ c, (runs (create directed numNodes base.length pop foreign) .load share program).Reach c ∧
      c.phase = .load ∧ c.Loaded ∧ c.ran.Perm (loadEdges base) := by
  have hstart : (runs (create directed numNodes base.length pop foreign) .load share program).Reach
      (start _ .load share program) := .init rfl
  obtain ⟨c, hc, hload, hloaded⟩ := hstart.exists_goal (P := Config.Loading program)
    (Q := Config.Loaded) (m := Config.left) (fun c hc hload hne => by
      obtain ⟨bs, h⟩ := reach_create directed numNodes pop foreign hshare hids hdeg hc
      obtain ⟨i, off, c', hnext⟩ := h.exists_next hne
      exact ⟨.thread i off, c', hnext, hload.next hnext⟩) ⟨rfl, fun _ => ⟨.inl rfl, rfl⟩⟩
  refine ⟨c, hc, hload.1, hloaded, ?_⟩
  have hperm := ran_perm directed numNodes pop foreign hshare hids hdeg hc hloaded.1
  have hrest : (fun i => (c.threads i).todo ++ (c.threads i).inserts) = program := by
    funext i
    rw [hloaded.2 i, (hload.2 i).2, List.nil_append]
  rw [hrest] at hperm
  exact (List.perm_append_right_iff _).1 hperm

end Bal

end Dgap
