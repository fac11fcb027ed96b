import Dgap.Bal.Invariant

/-!
# Reading a vertex

`Points g bs l j it` says that the iterator `it` stands at element `j` of a vertex that keeps `l` in the
blocks `bs`, or at its end. `begin()` points to the first element and `operator++` goes to the next one,
into the next block exactly when the counter of the iterator leaves a block, so the loop yields `l`
(`Settled.yields`). With a start offset this is so as long as the offset lies in the first block
(`Settled.yields_from`).
-/

namespace Dgap

namespace Bal

variable {g : Graph} {v j : ℕ} {bs l : List ℕ} {it it' : Iterator}

/-- The iterator stands at element `j`, or at the end. -/
inductive Points (g : Graph) (bs l : List ℕ) : ℕ → Iterator → Prop where
  | elem {j o : ℕ} {it : Iterator} (hj : j < l.length) (ho : bs[j / blockSize]? = some o) (hidx : it.currIdx = j)
      (hdeg : it.degree = l.length) (hblock : it.currEdgeBlock = g.pop + o)
      (hptr : it.gIndex = some (g.pop + o, j % blockSize)) : Points g bs l j it
  | done {it : Iterator} (hptr : it.gIndex = none) : Points g bs l l.length it

namespace Settled

variable (h : Settled g v bs l)

include h

/-- Where an iteration from an offset begins, if the offset is in the first block or behind the end. -/
lemma points_begin (hnz : ∀ o ∈ bs, o ≠ 0) (hsmall : l.length < 2 ^ 32) {k : ℕ}
    (hk : k < blockSize ∨ l.length ≤ k) :
    Points g bs l (min k l.length) (g.outNeigh v k).begin := by
  by_cases hl : l.length ≤ k
  · rw [min_eq_right hl]
    refine .done (if_pos ?_)
    rw [h.degree]
    exact hl
  · have hlt : k < l.length := by omega
    have hbs : bs ≠ [] := fun h0 => by
      have := (h.blocks.nodes_eq_nil blockSize_pos).1 h0
      rw [this] at hlt
      cases hlt
    have hfirst : bs.head? = some (bs.head hbs) := List.head?_eq_some_head hbs
    have hhead := h.head _ hfirst
    have hdiv : k / blockSize = 0 := Nat.div_eq_of_lt (by omega)
    rw [min_eq_left hlt.le]
    refine .elem hlt (o := bs.head hbs) ?_ (Nat.mod_eq_of_lt (by omega)) h.degree hhead ?_
    · rw [hdiv, ← List.head?_eq_getElem?]
      exact hfirst
    · rw [Neighborhood.begin, Graph.outNeigh, Neighborhood.make]
      dsimp only
      have hne := hnz _ (List.mem_of_head? hfirst)
      rw [hhead, if_neg (by rw [h.degree]; exact hl), slot_eq (by omega), Nat.mod_eq_of_lt (by omega)]

/-- One increment. -/
lemma points_next (hnz : ∀ o ∈ bs, o ≠ 0) (hsmall : l.length < 2 ^ 32) (hj : j < l.length)
    (hit : Points g bs l j it) : ∃ it', g.next it = some it' ∧ Points g bs l (j + 1) it' := by
  cases hit with
  | done => exact absurd hj (lt_irrefl _)
  | elem hj ho hidx hdeg hblock hptr =>
    rename_i o
    have hsucc : succ32 it.currIdx = j + 1 := by
      rw [succ32, hidx, Nat.mod_eq_of_lt (by omega)]
    rw [Graph.next, hsucc, hdeg]
    by_cases hend : j + 1 = l.length
    · refine ⟨_, if_pos hend, ?_⟩
      rw [hend]
      exact .done rfl
    rw [if_neg hend]
    -- there is one more element, so its block is there
    have hlt : j + 1 < l.length := by omega
    obtain ⟨o', b', ho', -, -⟩ := h.blocks.value (j + 1) _ (List.getElem?_eq_getElem hlt)
    by_cases hfull : (j + 1) % blockSize = 0
    · obtain ⟨b, hb⟩ := h.blocks.live o (List.mem_of_getElem? ho)
      have hdiv : (j + 1) / blockSize = j / blockSize + 1 := by
        rw [Nat.succ_div, if_pos (Nat.dvd_of_mod_eq_zero hfull)]
      have hlink : b.nextOffset = o' := by
        rw [h.blocks.link _ o b ho hb, ← hdiv, List.getD_eq_getElem?_getD, ho']
        rfl
      have hdirect : direct g.pop b.nextOffset = g.pop + o' := by
        rw [hlink, Graph.direct_eq (hnz o' (List.mem_of_getElem? ho'))]
      rw [if_pos hfull, hblock, Graph.deref_add, hb, Option.map_some]
      have hne := hnz o' (List.mem_of_getElem? ho')
      exact ⟨_, rfl, .elem hlt ho' rfl rfl hdirect (by rw [hdirect]; exact slot_eq (by omega))⟩
    · have hdiv : (j + 1) / blockSize = j / blockSize := by
        rw [Nat.succ_div, if_neg fun hd => hfull (Nat.mod_eq_zero_of_dvd hd), Nat.add_zero]
      rw [hdiv] at ho'
      obtain rfl := Option.some.inj (ho.symm.trans ho')
      exact ⟨_, if_neg hfull, .elem hlt (by rw [hdiv, ho]) rfl rfl hblock
        (by rw [hblock, slot_eq fun hz => hfull hz.2])⟩

/-- The loop from element `j` on. -/
lemma collect (hnz : ∀ o ∈ bs, o ≠ 0) (hsmall : l.length < 2 ^ 32) :
    ∀ fuel j it, j + fuel = l.length → Points g bs l j it →
      g.collect fuel it = some (l.drop j) := by
  intro fuel
  induction fuel with
  | zero =>
    intro j it hj hit
    cases hit with
    | elem hlt => omega
    | done hptr =>
      rw [Graph.collect, if_pos hptr, List.drop_length]
  | succ fuel ih =>
    intro j it hj hit
    have hlt : j < l.length := by omega
    obtain ⟨it', hnext, hit'⟩ := h.points_next hnz hsmall hlt hit
    have hrest := ih (j + 1) it' (by omega) hit'
    cases hit with
    | done => omega
    | elem _ ho _ _ _ hptr =>
      obtain ⟨o', b, ho', hb, hval⟩ := h.blocks.value j _ (List.getElem?_eq_getElem hlt)
      obtain rfl := Option.some.inj (ho.symm.trans ho')
      rw [Graph.collect, hptr]
      simp only [Graph.deref_add, hb, hnext, hrest, Option.bind_eq_bind, Option.bind_some]
      rw [List.drop_eq_getElem_cons hlt]
      exact congrArg (fun x => some (x :: l.drop (j + 1))) hval

/-- The loop from an offset yields the edges behind it. -/
lemma yields_from (hnz : ∀ o ∈ bs, o ≠ 0) (hsmall : l.length < 2 ^ 32) {k : ℕ}
    (hk : k < blockSize ∨ l.length ≤ k) : g.Yields (g.outNeigh v k) (l.drop k) := by
  have hc := h.collect hnz hsmall (l.length - min k l.length) (min k l.length) _ (by omega)
    (h.points_begin hnz hsmall hk)
  rw [← List.drop_eq_drop_min] at hc
  exact ⟨_, hc⟩

/-- The loop from `begin()` to `end()` yields the edges of the vertex. -/
theorem yields (hnz : ∀ o ∈ bs, o ≠ 0) (hsmall : l.length < 2 ^ 32) :
    g.Yields (g.outNeigh v 0) l :=
  h.yields_from hnz hsmall (.inl blockSize_pos)

end Settled

namespace Graph

/-- At the end the loop reads nothing. -/
lemma collect_none (g : Graph) (h : it.gIndex = none) (fuel : ℕ) : g.collect fuel it = some [] := by
  cases fuel with
  | zero => exact if_pos h
  | succ fuel => rw [collect, h]

/-- Elsewhere it reads a value, and goes on. -/
lemma collect_some {p i fuel : ℕ} (h : it.gIndex = some (p, i)) (hc : g.collect fuel it = some l) :
    ∃ fuel1 b it' rest, fuel = fuel1 + 1 ∧ g.deref p = some b ∧ g.next it = some it' ∧
      g.collect fuel1 it' = some rest ∧ l = b.block i :: rest := by
  cases fuel with
  | zero =>
    rw [collect, h] at hc
    cases hc
  | succ fuel =>
    rw [collect, h] at hc
    obtain ⟨b, hb, hc⟩ := Option.bind_eq_some_iff.1 hc
    obtain ⟨it', hit', hc⟩ := Option.bind_eq_some_iff.1 hc
    obtain ⟨rest, hrest, hc⟩ := Option.bind_eq_some_iff.1 hc
    exact ⟨fuel, b, it', rest, rfl, hb, hit', hrest, (Option.some.inj hc).symm⟩

/-- Two loops from one iterator read the same. -/
lemma collect_unique {l' : List ℕ} {fuel fuel' : ℕ} (h : g.collect fuel it = some l)
    (h' : g.collect fuel' it = some l') : l = l' := by
  induction fuel generalizing fuel' it l l' with
  | zero =>
    cases hptr : it.gIndex with
    | none =>
      rw [collect_none g hptr] at h h'
      exact Option.some.inj (h.symm.trans h')
    | some pi =>
      obtain ⟨_, _, _, _, he, -⟩ := collect_some hptr h
      cases he
  | succ fuel ih =>
    cases hptr : it.gIndex with
    | none =>
      rw [collect_none g hptr] at h h'
      exact Option.some.inj (h.symm.trans h')
    | some pi =>
      obtain ⟨f1, b1, it1, rest1, he1, hb1, hn1, hr1, rfl⟩ := collect_some hptr h
      obtain ⟨f2, b2, it2, rest2, -, hb2, hn2, hr2, rfl⟩ := collect_some hptr h'
      obtain rfl := Nat.succ.inj he1
      obtain rfl := Option.some.inj (hb1.symm.trans hb2)
      obtain rfl := Option.some.inj (hn1.symm.trans hn2)
      rw [ih hr1 hr2]

/-- An iteration yields one list. -/
lemma Yields.unique {nb : Neighborhood} {l l' : List ℕ} (h : g.Yields nb l) (h' : g.Yields nb l') :
    l = l' := by
  obtain ⟨_, hf⟩ := h
  obtain ⟨_, hf'⟩ := h'
  exact collect_unique hf hf'

end Graph

/-- What a vertex reads as when no thread is at work. -/
theorem Inv.reads {n : ℕ} {c : Config n} {adj bs : ℕ → List ℕ} {total : Multiset (ℕ × ℕ)}
    (h : Inv adj total c bs)
    (hsmall : ∀ v < c.g.numNodes, (adj v).length + total.countP (fun e => e.1 = v) < 2 ^ 32)
    (hquiet : c.Quiet) {v : ℕ} (hv : v < c.g.numNodes) :
    c.g.Yields (c.g.outNeigh v 0) (adj v ++ Multigraph.ofEdges c.ran v) ∧
      c.g.outDegree v = (adj v ++ Multigraph.ofEdges c.ran v).length := by
  have hs := (h.stores hquiet).settled v hv
  exact ⟨hs.yields ((h.stores hquiet).nonzero v) (h.length_lt hsmall hv), hs.degree⟩

end Bal

end Dgap
