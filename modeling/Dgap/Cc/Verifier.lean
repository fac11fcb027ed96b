import Dgap.Adjacency.Worklist
import Dgap.Bc.Bitmap

/-!
# The verifier of the components

`CCVerifier` of `cc_sv.cc`: from one vertex of each label, the last one, it searches along the out-edges,
and it refuses the labels if a search comes to another label or if a vertex has not been visited in the end.
A map has one pair for each label, in an order that nothing promises; `visited` is shared by the searches.
Whatever the order, the labels are accepted exactly if they are those of the components and every vertex
can be reached from the last vertex of its component (`ccVerifier_spec`).
-/

namespace Dgap

namespace Cc

open Multigraph

variable {α : Type*} [DecidableEq α]

/-- `label_to_source`: the last vertex of a label. -/
def labelToSource (comp : ℕ → α) (numNodes : ℕ) : α → Option ℕ :=
  (List.range numNodes).foldl (fun m n => Function.update m (comp n) (some n)) fun _ => none

/-- An order in which the loop over the map runs through its pairs. -/
structure Enumerates (order : List (α × ℕ)) (m : α → Option ℕ) : Prop where
  nodup : (order.map Prod.fst).Nodup
  mem : ∀ l s, (l, s) ∈ order ↔ m l = some s

/-- The loop over `out_neigh(u)`; `none` is `return false`. -/
def scan (comp : ℕ → α) (currLabel : α) : List ℕ → Bitmap → List ℕ → Option (Bitmap × List ℕ)
  | [], visited, frontier => some (visited, frontier)
  | v :: vs, visited, frontier =>
    if comp v ≠ currLabel then none
    else if visited.getBit v then scan comp currLabel vs visited frontier
    else scan comp currLabel vs (visited.setBit v) (frontier ++ [v])

/-- The loop over the frontier, which grows meanwhile; `none` if the fuel is out, else whether the search
has come to no other label, with the bitmap. -/
def search (nbrs : ℕ → List ℕ) (comp : ℕ → α) (currLabel : α) :
    ℕ → ℕ → Bitmap → List ℕ → Option (Bool × Bitmap)
  | 0, _, _, _ => none
  | fuel + 1, it, visited, frontier =>
    match frontier[it]? with
    | none => some (true, visited)
    | some u =>
      match scan comp currLabel (nbrs u) visited frontier with
      | none => some (false, visited)
      | some (visited, frontier) => search nbrs comp currLabel fuel (it + 1) visited frontier

/-- The loop over the pairs of the map. -/
def searches (nbrs : ℕ → List ℕ) (comp : ℕ → α) (fuel : ℕ) : List (α × ℕ) → Bitmap → Option (Bool × Bitmap)
  | [], visited => some (true, visited)
  | (currLabel, source) :: rest, visited =>
    match search nbrs comp currLabel fuel 0 (visited.setBit source) [source] with
    | none => none
    | some (false, visited) => some (false, visited)
    | some (true, visited) => searches nbrs comp fuel rest visited

/-- `CCVerifier`, with the order in which its map is run through. -/
def ccVerifier (nbrs : ℕ → List ℕ) (numNodes : ℕ) (comp : ℕ → α) (order : List (α × ℕ)) (fuel : ℕ) :
    Option Bool :=
  (searches nbrs comp fuel order .reset).map fun r => r.1 && (List.range numNodes).all r.2.getBit

variable {nbrs : ℕ → List ℕ} {numNodes : ℕ} {comp : ℕ → α} {currLabel : α} {visited : Bitmap}
  {frontier : List ℕ} {before : ℕ → Prop} {order : List (α × ℕ)} {fuel it source x : ℕ}

/-- What is visited: by the searches before, and by this one. -/
def Visits (visited : Bitmap) (before : ℕ → Prop) (frontier : List ℕ) : Prop :=
  ∀ x, visited.getBit x = true ↔ before x ∨ x ∈ frontier

/-- A vertex more. -/
lemma Visits.setBit {v : ℕ} (h : Visits visited before frontier) :
    Visits (visited.setBit v) before (frontier ++ [v]) := by
  intro x
  rw [Bitmap.getBit_setBit, Bool.or_eq_true, decide_eq_true_iff, h x, List.mem_append, List.mem_singleton]
  tauto

/-- The loop over the destinations: it returns if one has another label, and else appends what is new. -/
lemma scan_spec (vs : List ℕ) (hbefore : ∀ x, before x → comp x ≠ currLabel)
    (hvisits : Visits visited before frontier) :
    (scan comp currLabel vs visited frontier = none ∧ ∃ v ∈ vs, comp v ≠ currLabel) ∨
      ∃ visited' new, scan comp currLabel vs visited frontier = some (visited', frontier ++ new) ∧
        Visits visited' before (frontier ++ new) ∧ (∀ v ∈ vs, comp v = currLabel) ∧
        News vs frontier new := by
  induction vs generalizing visited frontier with
  | nil =>
    refine .inr ⟨visited, [], ?_, ?_, fun v hv => absurd hv List.not_mem_nil, .nil⟩
    · rw [scan, List.append_nil]
    · rwa [List.append_nil]
  | cons v vs ih =>
    rw [scan]
    split_ifs with hlabel hbit
    · exact .inl ⟨rfl, v, List.mem_cons_self, hlabel⟩
    · -- the destination has its label, so it was this search that visited it
      have hmem : v ∈ frontier := ((hvisits v).1 hbit).resolve_left fun hb => hbefore v hb (not_ne_iff.1 hlabel)
      rcases ih hvisits with ⟨hscan, w, hw, hne⟩ | ⟨visited', new, hscan, hvisits', hall, hnew⟩
      · exact .inl ⟨hscan, w, List.mem_cons_of_mem v hw, hne⟩
      · exact .inr ⟨visited', new, hscan, hvisits', List.forall_mem_cons.2 ⟨not_ne_iff.1 hlabel, hall⟩,
          hnew.skip hmem⟩
    · have hmem : v ∉ frontier := fun hv => hbit ((hvisits v).2 (.inr hv))
      rcases ih hvisits.setBit with ⟨hscan, w, hw, hne⟩ | ⟨visited', new, hscan, hvisits', hall, hnew⟩
      · exact .inl ⟨hscan, w, List.mem_cons_of_mem v hw, hne⟩
      · rw [← List.append_cons] at hscan hvisits'
        exact .inr ⟨visited', v :: new, hscan, hvisits', List.forall_mem_cons.2 ⟨not_ne_iff.1 hlabel, hall⟩,
          hnew.push hmem⟩

/-- A search comes to its end, and tells whether what it can reach has its label. -/
lemma search_spec (hvs : Closed nbrs (Finset.range numNodes)) (hsource : source < numNodes)
    (hbefore : ∀ x, before x → comp x ≠ currLabel) (hfrontier : Frontier nbrs source it frontier)
    (hlabel : ∀ x ∈ frontier, comp x = currLabel) (hvisits : Visits visited before frontier)
    (hfuel : numNodes < fuel + it) :
    ∃ b visited', search nbrs comp currLabel fuel it visited frontier = some (b, visited') ∧
      (b = true ↔ ∀ x, Reachable nbrs source x → comp x = currLabel) ∧
      (b = true → ∀ x, visited'.getBit x = true ↔ before x ∨ Reachable nbrs source x) := by
  induction fuel generalizing it visited frontier with
  | zero =>
    have hlen := hfrontier.length_le hvs (Finset.mem_range.2 hsource)
    have hit := hfrontier.it_le
    rw [Finset.card_range] at hlen
    omega
  | succ fuel ih =>
    rw [search]
    cases hu : frontier[it]? with
    | none =>
      refine ⟨true, visited, rfl, ⟨fun _ x hx => hlabel x ((hfrontier.mem_iff hu).2 hx), fun _ => rfl⟩,
        fun _ x => ?_⟩
      rw [hvisits x, hfrontier.mem_iff hu]
    | some u =>
      have hreach := hfrontier.reachable u (List.mem_of_getElem? hu)
      rcases scan_spec (nbrs u) hbefore hvisits with ⟨hscan, v, hv, hne⟩ |
        ⟨visited', new, hscan, hvisits', hall, hnew⟩
      · simp only [hscan]
        exact ⟨false, visited, rfl, ⟨fun h => (by cases h), fun h => absurd (h v (hreach.edge hv)) hne⟩,
          fun h => by cases h⟩
      · simp only [hscan]
        refine ih (hfrontier.next hu hnew) (fun x hx => ?_) hvisits' (by omega)
        rcases List.mem_append.1 hx with hx | hx
        · exact hlabel x hx
        · exact hall x (hnew.mem x hx)

/-- All searches: each tells whether what it can reach has its label. -/
lemma searches_spec (hvs : Closed nbrs (Finset.range numNodes)) (hfuel : numNodes < fuel)
    (hnodup : (order.map Prod.fst).Nodup) (hsource : ∀ p ∈ order, comp p.2 = p.1 ∧ p.2 < numNodes)
    (hbefore : ∀ x, before x → ∀ p ∈ order, comp x ≠ p.1) (hvisits : ∀ x, visited.getBit x = true ↔ before x) :
    ∃ b visited', searches nbrs comp fuel order visited = some (b, visited') ∧
      (b = true ↔ ∀ p ∈ order, ∀ x, Reachable nbrs p.2 x → comp x = p.1) ∧
      (b = true → ∀ x, visited'.getBit x = true ↔ before x ∨ ∃ p ∈ order, Reachable nbrs p.2 x) := by
  induction order generalizing visited before with
  | nil => exact ⟨true, visited, rfl, by simp, fun _ x => by simp [hvisits x]⟩
  | cons p order ih =>
    obtain ⟨currLabel, source⟩ := p
    obtain ⟨⟨hlabel, hlt⟩, hrest⟩ := List.forall_mem_cons.1 hsource
    rw [List.map_cons, List.nodup_cons] at hnodup
    have hfirst : Visits (visited.setBit source) before [source] := by
      intro x
      rw [Bitmap.getBit_setBit, Bool.or_eq_true, decide_eq_true_iff, hvisits x, List.mem_singleton, or_comm]
    obtain ⟨b, visited', hsearch, hb, hvisits'⟩ := search_spec hvs hlt
      (fun x hx => hbefore x hx _ List.mem_cons_self) .init
      (fun x hx => by rw [List.mem_singleton.1 hx, hlabel]) hfirst (show numNodes < fuel + 0 from hfuel)
    rw [searches, hsearch]
    cases b with
    | false =>
      refine ⟨false, visited', rfl, ⟨fun h => (by cases h), fun h => ?_⟩, fun h => by cases h⟩
      exact hb.2 (h _ List.mem_cons_self)
    | true =>
      have hreach := hb.1 rfl
      have hnot : ∀ x, before x ∨ Reachable nbrs source x → ∀ p ∈ order, comp x ≠ p.1 := by
        rintro x (hx | hx) p hp
        · exact hbefore x hx p (List.mem_cons_of_mem _ hp)
        · -- a vertex that this search has visited has its label, which is none of the others
          rw [hreach x hx]
          rintro rfl
          exact hnodup.1 (List.mem_map.2 ⟨p, hp, rfl⟩)
      obtain ⟨b, visited'', hsearches, hb', hvisits''⟩ := ih hnodup.2 hrest hnot (hvisits' rfl)
      refine ⟨b, visited'', hsearches, ?_, fun h x => ?_⟩
      · rw [hb', List.forall_mem_cons]
        exact ⟨fun h => ⟨hreach, h⟩, fun h => h.2⟩
      · rw [hvisits'' h x]
        simp only [List.mem_cons, exists_eq_or_imp, or_assoc]

/-- The map has the last vertex of each label. -/
lemma labelToSource_eq_some {l : α} {s : ℕ} : labelToSource comp numNodes l = some s ↔
    s < numNodes ∧ comp s = l ∧ ∀ m, s < m → m < numNodes → comp m ≠ l := by
  induction numNodes with
  | zero => simp [labelToSource]
  | succ numNodes ih =>
    have hfold : labelToSource comp (numNodes + 1) =
        Function.update (labelToSource comp numNodes) (comp numNodes) (some numNodes) := by
      rw [labelToSource, List.range_succ, List.foldl_append]
      rfl
    rw [hfold, Function.update_apply]
    split_ifs with hl
    · constructor
      · intro h
        obtain rfl := Option.some.inj h
        exact ⟨Nat.lt_succ_self _, hl.symm, fun m hm hm' => absurd hm' (by omega)⟩
      · rintro ⟨hs, -, hlast⟩
        by_contra hne
        have hlt : s < numNodes := lt_of_le_of_ne (Nat.le_of_lt_succ hs) fun heq => hne (by rw [heq])
        exact hlast numNodes hlt (Nat.lt_succ_self _) hl.symm
    · rw [ih]
      constructor
      · rintro ⟨hs, hsl, hlast⟩
        refine ⟨Nat.lt_succ_of_lt hs, hsl, fun m hm hm' => ?_⟩
        rcases Nat.lt_succ_iff_lt_or_eq.1 hm' with hm' | rfl
        · exact hlast m hm hm'
        · exact fun heq => hl heq.symm
      · rintro ⟨hs, hsl, hlast⟩
        have hne : s ≠ numNodes := by
          rintro rfl
          exact hl hsl.symm
        exact ⟨lt_of_le_of_ne (Nat.le_of_lt_succ hs) hne, hsl, fun m hm hm' => hlast m hm (Nat.lt_succ_of_lt hm')⟩

/-- Every label has a last vertex. -/
lemma exists_labelToSource {v : ℕ} (hv : v < numNodes) : ∃ s, labelToSource comp numNodes (comp v) = some s := by
  let p : ℕ → Prop := fun s => comp s = comp v
  have hle : v ≤ numNodes - 1 := by omega
  obtain ⟨s, hs⟩ : ∃ s, s = Nat.findGreatest p (numNodes - 1) := ⟨_, rfl⟩
  have hspec : p s := by
    rw [hs]
    exact Nat.findGreatest_spec hle rfl
  have hsle : s ≤ numNodes - 1 := by
    rw [hs]
    exact Nat.findGreatest_le _
  refine ⟨s, labelToSource_eq_some.2 ⟨by omega, hspec, fun m hm hm' => ?_⟩⟩
  rw [hs] at hm
  exact Nat.findGreatest_is_greatest hm (by omega)

variable (nbrs numNodes comp order) in
/-- What is checked: the search from each source comes to its label alone, and every vertex is visited. -/
structure Verified : Prop where
  label : ∀ p ∈ order, ∀ x, Reachable nbrs p.2 x → comp x = p.1
  visited : ∀ v < numNodes, ∃ p ∈ order, Reachable nbrs p.2 v

variable (nbrs numNodes comp) in
/-- The labels of the components, where the last vertex of a component reaches all of it. -/
structure IsComponents : Prop where
  eq_iff : ∀ u < numNodes, ∀ v < numNodes, comp u = comp v ↔ Joined nbrs (Finset.range numNodes) u v
  last : ∀ v < numNodes, ∀ s, IsGreatest {w | Joined nbrs (Finset.range numNodes) v w} s → Reachable nbrs s v

section Map

variable (hvs : Closed nbrs (Finset.range numNodes)) (horder : Enumerates order (labelToSource comp numNodes))

include horder

/-- The source of a label has it. -/
lemma Enumerates.comp_source : ∀ p ∈ order, comp p.2 = p.1 ∧ p.2 < numNodes := by
  rintro ⟨l, s⟩ hp
  obtain ⟨hs, hl, -⟩ := labelToSource_eq_some.1 ((horder.mem l s).1 hp)
  exact ⟨hl, hs⟩

/-- Every label has a source. -/
lemma Enumerates.exists_source {v : ℕ} (hv : v < numNodes) : ∃ s, (comp v, s) ∈ order := by
  obtain ⟨s, hs⟩ : ∃ s, labelToSource comp numNodes (comp v) = some s := exists_labelToSource hv
  exact ⟨s, (horder.mem _ s).2 hs⟩

include hvs

/-- The verifier returns what it has checked. -/
lemma ccVerifier_eq (hfuel : numNodes < fuel) :
    ∃ b, ccVerifier nbrs numNodes comp order fuel = some b ∧ (b = true ↔ Verified nbrs numNodes comp order) := by
  have hreset : ∀ x, Bitmap.reset.getBit x = true ↔ False := fun x => by simp
  obtain ⟨b, visited, hsearches, hb, hvisits⟩ := searches_spec hvs hfuel horder.nodup horder.comp_source
    (fun x hx _ _ => False.elim hx) hreset
  refine ⟨_, by rw [ccVerifier, hsearches]; rfl, ?_⟩
  simp only [Bool.and_eq_true, List.all_eq_true, List.mem_range]
  constructor
  · rintro ⟨hbt, hall⟩
    exact ⟨hb.1 hbt, fun v hv => ((hvisits hbt v).1 (hall v hv)).resolve_left id⟩
  · intro h
    have hbt := hb.2 h.label
    exact ⟨hbt, fun v hv => (hvisits hbt v).2 (.inr (h.visited v hv))⟩

/-- What is checked makes the labels those of the components. -/
lemma Verified.components (h : Verified nbrs numNodes comp order) : IsComponents nbrs numNodes comp := by
  -- every vertex is visited by the search from the last vertex of its label
  have hreach : ∀ v < numNodes, ∃ s, (comp v, s) ∈ order ∧ Reachable nbrs s v := by
    intro v hv
    obtain ⟨⟨l, s⟩, hp, hs⟩ := h.visited v hv
    obtain rfl := h.label _ hp v hs
    exact ⟨s, hp, hs⟩
  have hagree : ∀ u ∈ Finset.range numNodes, ∀ v ∈ nbrs u, comp u = comp v := by
    intro u hu v hv
    obtain ⟨s, hp, hs⟩ := hreach u (Finset.mem_range.1 hu)
    exact (h.label _ hp v (hs.edge hv)).symm
  have hjoined : ∀ v < numNodes, ∀ s, (comp v, s) ∈ order → Joined nbrs (Finset.range numNodes) s v := by
    intro v hv s hp
    obtain ⟨s', hp', p, hs'⟩ := hreach v hv
    obtain rfl : s' = s := Option.some.inj (((horder.mem _ _).1 hp').symm.trans ((horder.mem _ _).1 hp))
    exact (hs'.joined hvs (Finset.mem_range.2 (horder.comp_source _ hp').2)).2
  refine ⟨fun u hu v hv => ⟨fun heq => ?_, fun h => h.congr hagree⟩, fun v hv s hs => ?_⟩
  · obtain ⟨s, hp⟩ := horder.exists_source hu
    exact (hjoined u hu s hp).symm.trans (hjoined v hv s (heq ▸ hp))
  · obtain ⟨s', hp', hs'⟩ := hreach v hv
    obtain ⟨hlt', hl', hlast'⟩ := labelToSource_eq_some.1 ((horder.mem _ _).1 hp')
    have hslt : s < numNodes := Finset.mem_range.1 ((hs.1.mem hvs).1 (Finset.mem_range.2 hv))
    have hle : s' ≤ s := hs.2 (hjoined v hv s' hp').symm
    rcases hle.lt_or_eq with hlt | rfl
    · exact absurd (hs.1.congr hagree).symm (hlast' s hlt hslt)
    · exact hs'

/-- The labels of the components are what is checked. -/
lemma IsComponents.verified (h : IsComponents nbrs numNodes comp) : Verified nbrs numNodes comp order := by
  -- the source of a label is the last vertex of a component
  have hgreatest : ∀ l s, (l, s) ∈ order → IsGreatest {w | Joined nbrs (Finset.range numNodes) s w} s := by
    intro l s hp
    obtain ⟨hs, hl, hmax⟩ := labelToSource_eq_some.1 ((horder.mem _ _).1 hp)
    refine ⟨.refl s, fun w hw => ?_⟩
    have hwlt := Finset.mem_range.1 ((hw.mem hvs).1 (Finset.mem_range.2 hs))
    by_contra hsw
    exact hmax w (not_le.1 hsw) hwlt (by rw [← hl]; exact ((h.eq_iff s hs w hwlt).2 hw).symm)
  refine ⟨?_, fun v hv => ?_⟩
  · rintro ⟨l, s⟩ hp x ⟨p, hx⟩
    have hs := (horder.comp_source _ hp).2
    obtain ⟨hxmem, hjoined⟩ := hx.joined hvs (Finset.mem_range.2 hs)
    rw [← (horder.comp_source _ hp).1]
    exact ((h.eq_iff s hs x (Finset.mem_range.1 hxmem)).2 hjoined).symm
  · obtain ⟨s, hp⟩ := horder.exists_source hv
    obtain ⟨hl, hs⟩ := horder.comp_source _ hp
    have hjoined : Joined nbrs (Finset.range numNodes) s v := (h.eq_iff s hs v hv).1 hl
    obtain ⟨-, hmax⟩ := hgreatest _ s hp
    exact ⟨_, hp, h.last v hv s ⟨hjoined.symm, fun w hw => hmax (hjoined.trans hw)⟩⟩

end Map

/-- `CCVerifier` always returns, and it accepts exactly the labels of the components, provided that every vertex can be
reached from the last vertex of its component, in whatever order it runs through the labels. -/
theorem ccVerifier_spec (hvs : Closed nbrs (Finset.range numNodes))
    (horder : Enumerates order (labelToSource comp numNodes)) (hfuel : numNodes < fuel) :
    ∃ b, ccVerifier nbrs numNodes comp order fuel = some b ∧
      (b = true ↔
        (∀ u < numNodes, ∀ v < numNodes, comp u = comp v ↔ Joined nbrs (Finset.range numNodes) u v) ∧
        ∀ v < numNodes, ∀ s, IsGreatest {w | Joined nbrs (Finset.range numNodes) v w} s → Reachable nbrs s v) := by
  obtain ⟨b, hb, hverified⟩ := ccVerifier_eq hvs horder hfuel
  refine ⟨b, hb, hverified.trans ⟨fun h => ?_, fun h => ?_⟩⟩
  · have hcomponents := h.components hvs horder
    exact ⟨hcomponents.eq_iff, hcomponents.last⟩
  · exact IsComponents.verified hvs horder ⟨h.1, h.2⟩

/-- Without a way back the last vertex of a component does not reach the others: the labels of the components
of an edge from 0 to 1 are refused, those of an edge from 1 to 0 are accepted. -/
theorem ccVerifier_spec_two :
    ccVerifier (fun u => if u = 0 then [1] else []) 2 (fun _ => (0 : ℕ)) [(0, 1)] 3 = some false ∧
    ccVerifier (fun u => if u = 1 then [0] else []) 2 (fun _ => (0 : ℕ)) [(0, 1)] 3 = some true := by
  have horder : Enumerates [((0 : ℕ), 1)] (labelToSource (fun _ => (0 : ℕ)) 2) := by
    refine ⟨by decide, fun l s => ?_⟩
    rw [labelToSource_eq_some]
    simp only [List.mem_singleton, Prod.mk.injEq]
    constructor
    · rintro ⟨rfl, rfl⟩
      exact ⟨by decide, rfl, fun m hm hm' => by omega⟩
    · rintro ⟨hs, rfl, hlast⟩
      refine ⟨rfl, ?_⟩
      by_contra hne
      exact hlast 1 (by omega) (by decide) rfl
  have hclosed : Closed (fun u => if u = 1 then [0] else []) (Finset.range 2) := by
    intro u _ v hv
    dsimp only at hv
    split_ifs at hv
    · rw [List.mem_singleton.1 hv]
      decide
    · cases hv
  have hedge : Joined (fun u => if u = 1 then [0] else []) (Finset.range 2) 1 0 := .edge (by decide) (by decide)
  have hjoined : ∀ u < 2, Joined (fun u => if u = 1 then [0] else []) (Finset.range 2) 1 u := by
    intro u hu
    obtain rfl | rfl : u = 0 ∨ u = 1 := by omega
    · exact hedge
    · exact .refl 1
  obtain ⟨b, hb, haccepted⟩ := ccVerifier_spec hclosed horder (show 2 < 3 by decide)
  refine ⟨by decide +kernel, ?_⟩
  have heq : ∀ u < 2, ∀ v < 2, (0 : ℕ) = 0 ↔ Joined (fun u => if u = 1 then [0] else []) (Finset.range 2) u v :=
    fun u hu v hv => iff_of_true rfl ((hjoined u hu).symm.trans (hjoined v hv))
  rw [hb, haccepted.2 ⟨heq, fun v hv s hs => ?_⟩]
  have hslt : s < 2 := Finset.mem_range.1 ((hs.1.mem hclosed).1 (Finset.mem_range.2 hv))
  obtain rfl : s = 1 := le_antisymm (by omega) (hs.2 (hjoined v hv).symm)
  obtain rfl | rfl : v = 0 ∨ v = 1 := by omega
  · exact (Reachable.refl 1).edge (by decide)
  · exact .refl 1

end Cc

end Dgap
