import Dgap.Bal.Threads

/-!
# What a statement of the critical section does

`At g v dst bs l pc` says how a vertex `v` with the edges `l` is stored in the blocks `bs` while a thread
is at `pc` in the critical section for one more edge to `dst`: outside and at both ends of the section the
vertex leads to the blocks (`Settled`); in between a block is allocated and filled, then linked, and the
degree comes last. A statement goes from one such state to the next and touches nothing but the vertex, its
blocks and the new block (`At.step`, `Touched`). It never faults: it moves whenever the allocator returns a
fresh block (`At.moves`).
-/

namespace Dgap

namespace Bal

open Memory

/-- The blocks `bs` hold exactly `l`. -/
abbrev Blocks (heap : ℕ → Option EdgeBlock) (bs l : List ℕ) : Prop :=
  Unrolled blockSize EdgeBlock.block EdgeBlock.nextOffset 0 heap bs l

/-- A block has room for an edge. -/
lemma blockSize_pos : 0 < blockSize := by decide

/-- Vertex `v` leads to its blocks `bs`, which hold `l`. -/
structure Settled (g : Graph) (v : ℕ) (bs l : List ℕ) : Prop where
  blocks : Blocks g.heap bs l
  head : ∀ o, bs.head? = some o → (g.vertices v).headOffset = g.pop + o
  tail : ∀ o, bs.getLast? = some o → (g.vertices v).tailOffset = g.pop + o
  degree : (g.vertices v).degree = l.length

/-- How vertex `v` is stored while a thread is at `pc` in the critical section for the edge to `dst`. -/
def At (g : Graph) (v dst : ℕ) (bs l : List ℕ) : Pc → Prop
  | .zalloced o => Settled g v bs l ∧ l.length % blockSize = 0 ∧
      ∃ b, g.heap o = some b ∧ b.nextOffset = 0
  | .filled o => Settled g v bs l ∧ l.length % blockSize = 0 ∧
      ∃ b, g.heap o = some b ∧ b.nextOffset = 0 ∧ b.block 0 = dst
  | .linked o => Blocks g.heap bs (l ++ [dst]) ∧
      (∀ o, bs.head? = some o → (g.vertices v).headOffset = g.pop + o) ∧ bs.getLast? = some o ∧
      (g.vertices v).degree = l.length
  | .placed => Blocks g.heap bs (l ++ [dst]) ∧
      (∀ o, bs.head? = some o → (g.vertices v).headOffset = g.pop + o) ∧
      (∀ o, bs.getLast? = some o → (g.vertices v).tailOffset = g.pop + o) ∧
      (g.vertices v).degree = l.length
  | _ => Settled g v bs l

variable {g g' : Graph} {v dst off o : ℕ} {bs bs' l : List ℕ} {pc pc' : Pc}

namespace Graph

/-- The block at the address of an offset. -/
@[simp] lemma deref_add (g : Graph) (o : ℕ) : g.deref (g.pop + o) = g.heap o := by
  rw [deref, if_pos (by omega), Nat.add_sub_cancel_left]

/-- A write to the address of a block. -/
lemma write_add {b : EdgeBlock} (hb : g.heap o = some b) (f : EdgeBlock → EdgeBlock) :
    g.write (g.pop + o) f = some { g with heap := Function.update g.heap o (some (f b)) } := by
  rw [write, deref_add, hb, Option.map_some, Nat.add_sub_cancel_left]

/-- The address of an offset. -/
lemma direct_eq (h : o ≠ 0) (pop : ℕ) : direct pop o = pop + o := if_neg h

end Graph

/-- A vertex depends on its entry, its blocks and the block in the hands of its thread. -/
lemma At.frame (h : At g v dst bs l pc) (hpop : g'.pop = g.pop) (hv : g'.vertices v = g.vertices v)
    (hbs : ∀ o ∈ bs, g'.heap o = g.heap o) (hblock : ∀ o, pc.block? = some o → g'.heap o = g.heap o) :
    At g' v dst bs l pc := by
  have settled : Settled g v bs l → Settled g' v bs l := fun hs =>
    ⟨hs.blocks.frame hbs, by rw [hv, hpop]; exact hs.head, by rw [hv, hpop]; exact hs.tail,
      by rw [hv]; exact hs.degree⟩
  cases pc with
  | zalloced o =>
    obtain ⟨hs, hfull, b, hb, hn⟩ := h
    exact ⟨settled hs, hfull, b, by rw [hblock o rfl, hb], hn⟩
  | filled o =>
    obtain ⟨hs, hfull, b, hb, hn⟩ := h
    exact ⟨settled hs, hfull, b, by rw [hblock o rfl, hb], hn⟩
  | linked o =>
    obtain ⟨hs, hhead, hlast, hd⟩ := h
    exact ⟨hs.frame hbs, by rw [hv, hpop]; exact hhead, hlast, by rw [hv]; exact hd⟩
  | placed =>
    obtain ⟨hs, hhead, htail, hd⟩ := h
    exact ⟨hs.frame hbs, by rw [hv, hpop]; exact hhead, by rw [hv, hpop]; exact htail,
      by rw [hv]; exact hd⟩
  | idle => exact settled h
  | locked => exact settled h
  | counted => exact settled h
  | readEdges => exact settled h
  | swapEdges => exact settled h

/-- What a statement of the critical section of vertex `v` may touch. -/
structure Touched (g g' : Graph) (v : ℕ) (bs bs' : List ℕ) (pc pc' : Pc) : Prop where
  pop : g'.pop = g.pop
  numNodes : g'.numNodes = g.numNodes
  vertices : ∀ w, w ≠ v → g'.vertices w = g.vertices w
  heap : ∀ o, o ∉ bs → pc.block? ≠ some o → g.heap o ≠ none → g'.heap o = g.heap o
  live : ∀ o b, g'.heap o = some b → g.heap o ≠ none ∨ pc'.block? = some o
  fresh : ∀ o, pc'.block? = some o → pc.block? = some o ∨ (g.heap o = none ∧ o ≠ 0)
  blocks : (bs' = bs ∧ ∀ o, pc.block? = some o → pc'.block? = some o) ∨
    ∃ o, pc.block? = some o ∧ bs' = bs ++ [o] ∧ pc'.block? = none

/-- A change of the vertex alone. -/
lemma Touched.setVertex (x : VertexElement) (hfresh : ∀ o, pc'.block? = some o → pc.block? = some o)
    (hblocks : (bs' = bs ∧ ∀ o, pc.block? = some o → pc'.block? = some o) ∨
      ∃ o, pc.block? = some o ∧ bs' = bs ++ [o] ∧ pc'.block? = none) :
    Touched g (g.setVertex v x) v bs bs' pc pc' := by
  refine ⟨rfl, rfl, fun _ hw => Function.update_of_ne hw _ _, fun _ _ _ _ => rfl, fun o b hb => ?_,
    fun o ho => .inl (hfresh o ho), hblocks⟩
  exact .inl (by rw [show g.heap o = some b from hb]; exact Option.some_ne_none b)

/-- A change of a live block. -/
lemma Touched.update {b b' : EdgeBlock} (hb : g.heap o = some b) (ho : o ∈ bs ∨ pc.block? = some o)
    (hfresh : ∀ o, pc'.block? = some o → pc.block? = some o)
    (hblocks : (bs' = bs ∧ ∀ o, pc.block? = some o → pc'.block? = some o) ∨
      ∃ o, pc.block? = some o ∧ bs' = bs ++ [o] ∧ pc'.block? = none) :
    Touched g { g with heap := Function.update g.heap o (some b') } v bs bs' pc pc' := by
  refine ⟨rfl, rfl, fun _ _ => rfl, fun p hp hp' _ => Function.update_of_ne ?_ _ _, fun p c hc => ?_,
    fun p hp => .inl (hfresh p hp), hblocks⟩
  · rintro rfl
    exact ho.elim hp hp'
  · by_cases hpo : p = o
    · subst hpo
      exact .inl (by rw [hb]; exact Option.some_ne_none b)
    · dsimp only at hc
      rw [Function.update_of_ne hpo] at hc
      exact .inl (by rw [hc]; exact Option.some_ne_none c)

/-- The blocks a statement touches are live, distinct and not null. -/
structure Apart (g : Graph) (bs : List ℕ) (pc : Pc) : Prop where
  nonzero : ∀ o ∈ bs, o ≠ 0
  block : ∀ o, pc.block? = some o → o ≠ 0 ∧ o ∉ bs

/-- Allocating a block keeps a vertex. -/
lemma Settled.zalloc (h : Settled g v bs l) (hoff : g.heap off = none) (b : EdgeBlock) :
    Settled { g with heap := Function.update g.heap off (some b) } v bs l := by
  refine ⟨h.blocks.frame fun o ho => Function.update_of_ne ?_ _ _, h.head, h.tail, h.degree⟩
  rintro rfl
  obtain ⟨c, hc⟩ := h.blocks.live o ho
  rw [hoff] at hc
  cases hc

/-- Allocating a block. -/
lemma At.stepZalloc (h : Settled g v bs l) (hfull : l.length % blockSize = 0)
    (hpc : pc.block? = none) (hstep : (g.zalloc off).map (·, Pc.zalloced off) = some (g', pc')) :
    At g' v dst bs l pc' ∧ Touched g g' v bs bs pc pc' := by
  obtain ⟨g1, h1, h2⟩ := Option.map_eq_some_iff.1 hstep
  obtain ⟨rfl, rfl⟩ := Prod.mk.inj h2
  unfold Graph.zalloc at h1
  split at h1
  case isFalse => cases h1
  case isTrue hoff =>
    obtain rfl := Option.some.inj h1
    refine ⟨⟨h.zalloc hoff.2 _, hfull, .zero, Function.update_self .., rfl⟩, rfl, rfl, fun _ _ => rfl,
      fun o _ _ hlive => Function.update_of_ne ?_ _ _, fun o b hb => ?_, fun o ho => ?_,
      .inl ⟨rfl, fun o ho => ?_⟩⟩
    · rintro rfl
      exact hlive hoff.2
    · by_cases he : o = off
      · exact .inr (by rw [he]; rfl)
      · dsimp only at hb
        rw [Function.update_of_ne he] at hb
        exact .inl (by rw [hb]; exact Option.some_ne_none b)
    · obtain rfl := Option.some.inj ho
      exact .inr ⟨hoff.2, hoff.1⟩
    · rw [hpc] at ho
      cases ho

/-- The edge goes into the last block. -/
lemma At.stepPush (h : Settled g v bs l) (hpart : l.length % blockSize ≠ 0)
    (hpc : pc.block? = none)
    (hstep : (g.write (g.vertices v).tailOffset (·.store (l.length % blockSize) dst)).map
      (·, Pc.placed) = some (g', pc')) :
    At g' v dst bs l pc' ∧ Touched g g' v bs bs pc pc' := by
  -- there is a last block, since there is an edge
  have hne : bs ≠ [] := fun h0 => hpart (by
    rw [(h.blocks.nodes_eq_nil blockSize_pos).1 h0]
    rfl)
  obtain ⟨o, ho⟩ : ∃ o, bs.getLast? = some o := ⟨_, List.getLast?_eq_some_getLast hne⟩
  obtain ⟨b, hb⟩ := h.blocks.live o (List.mem_of_getLast? ho)
  rw [h.tail o ho, Graph.write_add hb, Option.map_some] at hstep
  obtain ⟨rfl, rfl⟩ := Prod.mk.inj (Option.some.inj hstep)
  have hno : ∀ p, pc.block? ≠ some p := fun p hp => by
    rw [hpc] at hp
    cases hp
  refine ⟨⟨h.blocks.push blockSize_pos hpart ho hb dst (EdgeBlock.store_block_self ..)
    (fun k hk => Function.update_of_ne (by omega) _ _) rfl, h.head, h.tail, h.degree⟩,
    Touched.update hb (.inl (List.mem_of_getLast? ho)) (fun p hp => nomatch hp)
      (.inl ⟨rfl, fun p hp => absurd hp (hno p)⟩)⟩

/-- The first block becomes the head. -/
lemma At.stepHead (h : At g v dst bs l (.filled o)) (ha : Apart g bs (.filled o))
    (hzero : (g.vertices v).degree = 0)
    (hstep : some (g.setVertex v { g.vertices v with headOffset := g.pop + o }, Pc.linked o) =
      some (g', pc')) :
    At g' v dst (bs ++ [o]) l pc' ∧ Touched g g' v bs (bs ++ [o]) (.filled o) pc' := by
  obtain ⟨hs, hfull, b, hb, hn, hx⟩ := h
  obtain ⟨rfl, rfl⟩ := Prod.mk.inj (Option.some.inj hstep)
  obtain rfl : l = [] := List.eq_nil_of_length_eq_zero (by rw [← hs.degree, hzero])
  obtain rfl : bs = [] := (hs.blocks.nodes_eq_nil blockSize_pos).2 rfl
  refine ⟨⟨hs.blocks.grow blockSize_pos hfull (ha.block o rfl).2 hb hx hn (fun _ _ _ => rfl)
    fun p c hp _ => (nomatch hp), fun p hp => ?_, rfl, ?_⟩,
    Touched.setVertex _ (fun p hp => nomatch hp) (.inr ⟨o, rfl, rfl, rfl⟩)⟩
  · obtain rfl := Option.some.inj hp
    simp
  · simpa using hzero

/-- The last full block is linked to the new one. -/
lemma At.stepLink (h : At g v dst bs l (.filled o)) (ha : Apart g bs (.filled o))
    (hpos : (g.vertices v).degree ≠ 0)
    (hstep : (g.write (g.vertices v).tailOffset fun b => { b with nextOffset := o }).map
      (·, Pc.linked o) = some (g', pc')) :
    At g' v dst (bs ++ [o]) l pc' ∧ Touched g g' v bs (bs ++ [o]) (.filled o) pc' := by
  obtain ⟨hs, hfull, b, hb, hn, hx⟩ := h
  obtain ⟨ho, hbs⟩ := ha.block o rfl
  have hne : bs ≠ [] := fun h0 => hpos (by
    rw [hs.degree, (hs.blocks.nodes_eq_nil blockSize_pos).1 h0]
    rfl)
  obtain ⟨p, hp⟩ : ∃ p, bs.getLast? = some p := ⟨_, List.getLast?_eq_some_getLast hne⟩
  have hmem := List.mem_of_getLast? hp
  obtain ⟨c, hc⟩ := hs.blocks.live p hmem
  rw [hs.tail p hp, Graph.write_add hc, Option.map_some] at hstep
  obtain ⟨rfl, rfl⟩ := Prod.mk.inj (Option.some.inj hstep)
  have hpo : o ≠ p := fun he => hbs (by rw [he]; exact hmem)
  refine ⟨⟨hs.blocks.grow blockSize_pos hfull hbs
    ((Function.update_of_ne hpo _ _).trans hb) hx hn (fun q _ hq => Function.update_of_ne ?_ _ _)
    fun q d hq hd => ?_, fun q hq => hs.head q ?_, List.getLast?_concat, hs.degree⟩,
    Touched.update hc (.inl hmem) (fun p hp => nomatch hp) (.inr ⟨o, rfl, rfl, rfl⟩)⟩
  · rintro rfl
    exact hq hp
  · obtain rfl := Option.some.inj (hp.symm.trans hq)
    obtain rfl := Option.some.inj (hc.symm.trans hd)
    exact ⟨_, Function.update_self .., rfl, rfl⟩
  · rwa [List.head?_append_of_ne_nil _ hne] at hq

/-- A statement of the critical section never faults. -/
lemma At.moves (h : At g v dst bs l pc) (ha : Apart g bs pc) (hpc : pc.opens = true) (hoff : off ≠ 0)
    (hfree : g.heap off = none) : ∃ g' pc', g.criticalStep v dst off pc = some (g', pc') := by
  have hzalloc : g.zalloc off = some { g with heap := Function.update g.heap off (some .zero) } :=
    if_pos ⟨hoff, hfree⟩
  -- a vertex with edges has a last block
  have htail : Settled g v bs l → l ≠ [] → ∀ f, ∃ g', g.write (g.vertices v).tailOffset f = some g' := by
    intro hs hl f
    have hne : bs ≠ [] := fun h0 => hl ((hs.blocks.nodes_eq_nil blockSize_pos).1 h0)
    obtain ⟨b, hb⟩ := hs.blocks.live _ (List.getLast_mem hne)
    exact ⟨_, by rw [hs.tail _ (List.getLast?_eq_some_getLast hne), Graph.write_add hb]⟩
  cases pc with
  | locked =>
    have hs : Settled g v bs l := h
    simp only [Graph.criticalStep, hs.degree, hzalloc, Option.map_some]
    by_cases h0 : l.length = 0
    · exact ⟨_, _, if_pos h0⟩
    by_cases hfull : l.length % blockSize = 0
    · exact ⟨_, _, by rw [if_neg h0, if_pos hfull]⟩
    · obtain ⟨g', hg'⟩ := htail hs (fun hl => h0 (by rw [hl]; rfl)) (·.store (l.length % blockSize) dst)
      exact ⟨g', _, by rw [if_neg h0, if_neg hfull, hg', Option.map_some]⟩
  | zalloced o =>
    obtain ⟨-, -, b, hb, -⟩ := h
    exact ⟨_, _, by
      rw [Graph.criticalStep, Graph.direct_eq (ha.block o rfl).1, Graph.write_add hb, Option.map_some]⟩
  | filled o =>
    obtain ⟨hs, -⟩ := h
    by_cases h0 : (g.vertices v).degree = 0
    · exact ⟨_, _, if_pos h0⟩
    · have hl : l ≠ [] := fun hl => h0 (by rw [hs.degree, hl]; rfl)
      obtain ⟨g', hg'⟩ := htail hs hl ({ · with nextOffset := o })
      exact ⟨g', _, by rw [Graph.criticalStep, if_neg h0, hg', Option.map_some]⟩
  | linked o => exact ⟨_, _, rfl⟩
  | placed => exact ⟨_, _, rfl⟩
  | idle => cases hpc
  | counted => cases hpc
  | readEdges => cases hpc
  | swapEdges => cases hpc

/-- One statement of the critical section. -/
lemma At.step (h : At g v dst bs l pc) (ha : Apart g bs pc) (hsmall : l.length + 1 < 2 ^ 32)
    (hstep : g.criticalStep v dst off pc = some (g', pc')) :
    ∃ bs', At g' v dst bs' (if pc = .placed then l ++ [dst] else l) pc' ∧
      Touched g g' v bs bs' pc pc' := by
  cases pc with
  | locked =>
    have hs : Settled g v bs l := h
    simp only [Graph.criticalStep, hs.degree] at hstep
    split at hstep
    case isTrue h0 =>
      have hfull : l.length % blockSize = 0 := by rw [h0, Nat.zero_mod]
      exact ⟨bs, At.stepZalloc hs hfull rfl hstep⟩
    case isFalse =>
      split at hstep
      case isTrue hfull => exact ⟨bs, At.stepZalloc hs hfull rfl hstep⟩
      case isFalse hpart => exact ⟨bs, At.stepPush hs hpart rfl hstep⟩
  | zalloced o =>
    obtain ⟨hs, hfull, b, hb, hn⟩ := h
    obtain ⟨ho, hbs⟩ := ha.block o rfl
    rw [Graph.criticalStep, Graph.direct_eq ho, Graph.write_add hb, Option.map_some] at hstep
    obtain ⟨rfl, rfl⟩ := Prod.mk.inj (Option.some.inj hstep)
    refine ⟨bs, ?_, Touched.update hb (.inr rfl) (fun _ h => h) (.inl ⟨rfl, fun _ h => h⟩)⟩
    refine ⟨⟨hs.blocks.frame fun p hp => Function.update_of_ne ?_ _ _, hs.head, hs.tail, hs.degree⟩,
      hfull, b.store 0 dst, Function.update_self .., hn, EdgeBlock.store_block_self ..⟩
    rintro rfl
    exact hbs hp
  | filled o =>
    rw [Graph.criticalStep, Graph.direct_eq (ha.block o rfl).1] at hstep
    split at hstep
    case isTrue hzero => exact ⟨bs ++ [o], h.stepHead ha hzero hstep⟩
    case isFalse hpos => exact ⟨bs ++ [o], h.stepLink ha hpos hstep⟩
  | linked o =>
    obtain ⟨hs, hhead, hlast, hd⟩ := h
    rw [Graph.criticalStep, Graph.direct_eq (ha.nonzero o (List.mem_of_getLast? hlast))] at hstep
    obtain ⟨rfl, rfl⟩ := Prod.mk.inj (Option.some.inj hstep)
    refine ⟨bs, ⟨hs, fun p hp => ?_, fun p hp => ?_, ?_⟩,
      Touched.setVertex _ (fun _ h => h) (.inl ⟨rfl, fun _ h => h⟩)⟩
    · rw [Graph.setVertex_vertices]
      exact hhead p hp
    · obtain rfl := Option.some.inj (hlast.symm.trans hp)
      rw [Graph.setVertex_vertices]
      rfl
    · rw [Graph.setVertex_vertices]
      exact hd
  | placed =>
    obtain ⟨hs, hhead, htail, hd⟩ := h
    rw [Graph.criticalStep] at hstep
    obtain ⟨rfl, rfl⟩ := Prod.mk.inj (Option.some.inj hstep)
    refine ⟨bs, ⟨hs, fun p hp => ?_, fun p hp => ?_, ?_⟩,
      Touched.setVertex _ (fun _ h => h) (.inl ⟨rfl, fun _ h => h⟩)⟩
    · rw [Graph.setVertex_vertices]
      exact hhead p hp
    · rw [Graph.setVertex_vertices]
      exact htail p hp
    · -- the degree does not wrap
      rw [Graph.setVertex_vertices, hd, if_pos rfl, List.length_append, List.length_singleton]
      exact Nat.mod_eq_of_lt hsmall
  | idle => cases hstep
  | counted => cases hstep
  | readEdges => cases hstep
  | swapEdges => cases hstep

end Bal

end Dgap
