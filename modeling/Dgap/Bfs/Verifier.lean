import Dgap.Adjacency.Trees
import Dgap.Adjacency.Worklist

/-!
# The verifier of the search

`BFSVerifier` of `bfs.cc`: a serial search computes the depths, with a list that grows while the loop over it
runs, and never beyond what `reserve` has set aside; then the parent of each vertex is looked up among its
`in_neigh`. The parents are accepted exactly if they are one level up there and the vertices that are not
reachable have the parent -1 (`bfsVerifier_spec`).
-/

namespace Dgap

namespace Bfs

open Multigraph

/-- The loop over `out_neigh(u)`. -/
def visit (u : ℕ) : List ℕ → (ℕ → ℤ) → List ℕ → (ℕ → ℤ) × List ℕ
  | [], depth, toVisit => (depth, toVisit)
  | v :: vs, depth, toVisit =>
    if depth v = -1 then visit u vs (Function.update depth v (depth u + 1)) (toVisit ++ [v])
    else visit u vs depth toVisit

/-- The loop over `to_visit`; `none` if the fuel is out. -/
def depths (nbrs : ℕ → List ℕ) : ℕ → ℕ → (ℕ → ℤ) → List ℕ → Option ((ℕ → ℤ) × List ℕ)
  | 0, _, _, _ => none
  | fuel + 1, it, depth, toVisit =>
    match toVisit[it]? with
    | none => some (depth, toVisit)
    | some u => depths nbrs fuel (it + 1) (visit u (nbrs u) depth toVisit).1 (visit u (nbrs u) depth toVisit).2

/-- The loop over `in_neigh(u)`, and `parent_found`. -/
def findParent (depth parent : ℕ → ℤ) (u : ℕ) : List ℕ → Bool
  | [] => false
  | v :: vs => if v = parent u then depth v = depth u - 1 else findParent depth parent u vs

/-- The body of the loop over the vertices. -/
def checkVertex (inNbrs : ℕ → List ℕ) (source : ℕ) (depth parent : ℕ → ℤ) (u : ℕ) : Bool :=
  if depth u ≠ -1 ∧ parent u ≠ -1 then
    if u = source then parent u = u ∧ depth u = 0 else findParent depth parent u (inNbrs u)
  else depth u = parent u

/-- `BFSVerifier`. -/
def bfsVerifier (nbrs inNbrs : ℕ → List ℕ) (numNodes source : ℕ) (parent : ℕ → ℤ) (fuel : ℕ) : Option Bool :=
  (depths nbrs fuel 0 (Function.update (fun _ => -1) source 0) [source]).map fun r =>
    (List.range numNodes).all (checkVertex inNbrs source r.1 parent)

variable {nbrs inNbrs : ℕ → List ℕ} {numNodes source u it fuel : ℕ} {depth parent : ℕ → ℤ} {toVisit : List ℕ}

/-- What the depths say: the distance of what has been found. -/
def Depths (nbrs : ℕ → List ℕ) (source : ℕ) (depth : ℕ → ℤ) (toVisit : List ℕ) : Prop :=
  ∀ x, (x ∈ toVisit → depth x = dist nbrs source x) ∧ (x ∉ toVisit → depth x = -1)

/-- What has not been found has the depth -1. -/
lemma Depths.eq_iff (h : Depths nbrs source depth toVisit) (x : ℕ) : depth x = -1 ↔ x ∉ toVisit := by
  refine ⟨fun heq hx => ?_, (h x).2⟩
  have := (h x).1 hx
  omega

/-- In the beginning the source alone has been found. -/
lemma Depths.start : Depths nbrs source (Function.update (fun _ => -1) source 0) [source] := by
  intro x
  rw [List.mem_singleton]
  refine ⟨?_, fun hx => Function.update_of_ne hx _ _⟩
  rintro rfl
  rw [Function.update_self, show dist nbrs x x = 0 from atDist_start.2]
  rfl

/-- The loop over the destinations appends what is new, one level behind. -/
lemma visit_spec (vs : List ℕ) (hu : u ∈ toVisit) (hdepths : Depths nbrs source depth toVisit)
    (hnext : ∀ v ∈ vs, v ∉ toVisit → dist nbrs source v = dist nbrs source u + 1) :
    ∃ new, (visit u vs depth toVisit).2 = toVisit ++ new ∧ News vs toVisit new ∧
      Depths nbrs source (visit u vs depth toVisit).1 (toVisit ++ new) := by
  induction vs generalizing depth toVisit with
  | nil => exact ⟨[], (List.append_nil _).symm, .nil, (List.append_nil _).symm ▸ hdepths⟩
  | cons v vs ih =>
    obtain ⟨hv, hvs⟩ := List.forall_mem_cons.1 hnext
    rw [visit]
    split_ifs with hneg
    · have hmem : v ∉ toVisit := (hdepths.eq_iff v).1 hneg
      have hdepth : Depths nbrs source (Function.update depth v (depth u + 1)) (toVisit ++ [v]) := by
        intro x
        rw [List.mem_append, List.mem_singleton]
        by_cases hx : x = v
        · subst hx
          rw [Function.update_self, (hdepths u).1 hu, hv hmem]
          exact ⟨fun _ => (by push_cast; ring), fun hno => absurd (.inr rfl) hno⟩
        · rw [Function.update_of_ne hx]
          exact ⟨fun h => (hdepths x).1 (h.resolve_right hx), fun h => (hdepths x).2 fun hx' => h (.inl hx')⟩
      obtain ⟨new, heq, hnew, hdepths'⟩ := ih (List.mem_append_left _ hu) hdepth fun w hw hw' =>
        hvs w hw fun hmem' => hw' (List.mem_append_left _ hmem')
      rw [← List.append_cons] at heq hdepths'
      exact ⟨v :: new, heq, hnew.push hmem, hdepths'⟩
    · have hmem : v ∈ toVisit := by
        by_contra hno
        exact hneg ((hdepths.eq_iff v).2 hno)
      obtain ⟨new, heq, hnew, hdepths'⟩ := ih hu hdepths hvs
      exact ⟨new, heq, hnew.skip hmem, hdepths'⟩

/-- The serial search comes to its end with the distances, and stays within what it has reserved. -/
lemma depths_spec (hvs : Closed nbrs (Finset.range numNodes)) (hsource : source < numNodes)
    (hlayered : Layered nbrs source it toVisit) (hdepths : Depths nbrs source depth toVisit)
    (hfuel : numNodes < fuel + it) :
    ∃ depth' toVisit', depths nbrs fuel it depth toVisit = some (depth', toVisit') ∧
      toVisit'.length ≤ numNodes ∧ (∀ x, Reachable nbrs source x → depth' x = dist nbrs source x) ∧
      ∀ x, ¬ Reachable nbrs source x → depth' x = -1 := by
  have hlen := hlayered.length_le hvs (Finset.mem_range.2 hsource)
  rw [Finset.card_range] at hlen
  induction fuel generalizing it depth toVisit with
  | zero =>
    have := hlayered.it_le
    omega
  | succ fuel ih =>
    rw [depths]
    cases hu : toVisit[it]? with
    | none =>
      refine ⟨depth, toVisit, rfl, hlen, fun x hx => ?_, fun x hx => ?_⟩
      · exact (hdepths x).1 ((hlayered.mem_iff hu).2 hx)
      · exact (hdepths x).2 fun hmem => hx (hlayered.reachable x hmem)
    | some u =>
      obtain ⟨new, heq, hnew, hdepths'⟩ := visit_spec (nbrs u) (List.mem_of_getElem? hu) hdepths
        fun v hv hmem => hlayered.dist_new hu hv hmem
      have hlayered' := hlayered.next hu hnew
      have hlen' := hlayered'.length_le hvs (Finset.mem_range.2 hsource)
      rw [Finset.card_range] at hlen'
      rw [← heq] at hdepths' hlayered' hlen'
      exact ih hlayered' hdepths' (by omega) hlen'

/-- The parent is looked up, and its depth is checked. -/
lemma findParent_iff (vs : List ℕ) : findParent depth parent u vs = true ↔
    ∃ v ∈ vs, parent u = v ∧ depth v = depth u - 1 := by
  induction vs with
  | nil => simp [findParent]
  | cons v vs ih =>
    rw [findParent]
    split_ifs with heq
    · rw [decide_eq_true_iff]
      refine ⟨fun h => ⟨v, List.mem_cons_self, heq.symm, h⟩, ?_⟩
      rintro ⟨w, -, hw, hdepth⟩
      obtain rfl : v = w := by exact_mod_cast heq.trans hw
      exact hdepth
    · rw [ih]
      constructor
      · rintro ⟨w, hw, h⟩
        exact ⟨w, List.mem_cons_of_mem v hw, h⟩
      · rintro ⟨w, hw, hparent, hdepth⟩
        rcases List.mem_cons.1 hw with rfl | hw
        · exact absurd hparent.symm heq
        · exact ⟨w, hw, hparent, hdepth⟩

/-- What is checked of a vertex, when the depths are the distances. -/
lemma checkVertex_iff (hreach : ∀ x, Reachable nbrs source x → depth x = dist nbrs source x)
    (hunreach : ∀ x, ¬ Reachable nbrs source x → depth x = -1) :
    checkVertex inNbrs source depth parent u = true ↔
      (Reachable nbrs source u → (u = source ∧ parent u = source) ∨
        (u ≠ source ∧ ∃ v ∈ inNbrs u, parent u = v ∧ Tight nbrs source v u)) ∧
      (¬ Reachable nbrs source u → parent u = -1) := by
  have hstart : dist nbrs source source = 0 := atDist_start.2
  rw [checkVertex]
  by_cases hu : Reachable nbrs source u
  · have hdepth := hreach u hu
    have hne : depth u ≠ -1 := by omega
    by_cases hparent : parent u = -1
    · rw [if_neg fun h => h.2 hparent, decide_eq_true_iff]
      refine ⟨fun h => absurd (h.trans hparent) hne, fun h => ?_⟩
      rcases h.1 hu with ⟨-, h⟩ | ⟨-, v, -, h, -⟩
      · omega
      · omega
    rw [if_pos ⟨hne, hparent⟩]
    split_ifs with hs
    · subst hs
      rw [decide_eq_true_iff]
      refine ⟨fun h => ⟨fun _ => .inl ⟨rfl, h.1⟩, fun hno => absurd hu hno⟩, fun h => ?_⟩
      rcases h.1 hu with ⟨-, h⟩ | ⟨h, -⟩
      · exact ⟨h, by rw [hdepth, hstart]; rfl⟩
      · exact absurd rfl h
    · rw [findParent_iff]
      constructor
      · rintro ⟨v, hv, hvu, hlevel⟩
        refine ⟨fun _ => .inr ⟨hs, v, hv, hvu, ?_⟩, fun hno => absurd hu hno⟩
        -- the source alone has no level above it
        have hpos : dist nbrs source u ≠ 0 := fun h => hs (atDist_zero.1 ⟨hu, h⟩)
        by_cases hvr : Reachable nbrs source v
        · have := hreach v hvr
          exact ⟨hvr, by omega⟩
        · have := hunreach v hvr
          omega
      · rintro ⟨h, -⟩
        rcases h hu with ⟨heq, -⟩ | ⟨-, v, hv, hvu, hvr, hdist⟩
        · exact absurd heq hs
        · have := hreach v hvr
          exact ⟨v, hv, hvu, by omega⟩
  · have hdepth := hunreach u hu
    rw [if_neg fun h => h.1 hdepth, decide_eq_true_iff, hdepth]
    exact ⟨fun h => ⟨fun h' => absurd h' hu, fun _ => h.symm⟩, fun h => (h.2 hu).symm⟩

/-- `BFSVerifier` always returns, and it accepts exactly the parents that its loop over `in_neigh` finds one level
up, the source as its own, and -1 for what is not reachable. The list it runs over stays within what it has
reserved. -/
theorem bfsVerifier_spec (hvs : Closed nbrs (Finset.range numNodes)) (hsource : source < numNodes)
    (hfuel : numNodes < fuel) :
    (∃ depth toVisit, depths nbrs fuel 0 (Function.update (fun _ => -1) source 0) [source] = some (depth, toVisit) ∧
      toVisit.length ≤ numNodes) ∧
    ∃ b, bfsVerifier nbrs inNbrs numNodes source parent fuel = some b ∧
      (b = true ↔ ∀ u < numNodes,
        (Reachable nbrs source u → (u = source ∧ parent u = source) ∨
          (u ≠ source ∧ ∃ v ∈ inNbrs u, parent u = v ∧ Tight nbrs source v u)) ∧
        (¬ Reachable nbrs source u → parent u = -1)) := by
  obtain ⟨depth, toVisit, hrun, hlen, hreach, hunreach⟩ := depths_spec hvs hsource .init .start
    (show numNodes < fuel + 0 from hfuel)
  refine ⟨⟨depth, toVisit, hrun, hlen⟩, _, by rw [bfsVerifier, hrun]; rfl, ?_⟩
  simp only [List.all_eq_true, List.mem_range, checkVertex_iff hreach hunreach]

/-- An edge from 0 to 1 alone: the parent of 1 is refused where the loop over `in_neigh` runs over the out-edges, and
accepted where it runs over the edges that lead to 1. -/
theorem bfsVerifier_spec_two :
    bfsVerifier (fun u => if u = 0 then [1] else []) (fun u => if u = 0 then [1] else []) 2 0 (fun _ => 0) 3 =
        some false ∧
      bfsVerifier (fun u => if u = 0 then [1] else []) (fun u => if u = 1 then [0] else []) 2 0 (fun _ => 0) 3 =
        some true := by
  have hclosed : Closed (fun u => if u = 0 then [1] else []) (Finset.range 2) := by
    intro u _ v hv
    dsimp only at hv
    split_ifs at hv
    · rw [List.mem_singleton.1 hv]
      decide
    · cases hv
  obtain ⟨b, hb, haccepted⟩ := (@bfsVerifier_spec _ (fun u => if u = 0 then [1] else []) 2 0 3 (fun _ => 0) hclosed
    (by decide) (by decide)).2
  refine ⟨?_, by decide +kernel⟩
  have hedge : Reachable (fun u => if u = 0 then [1] else []) 0 1 := (Reachable.refl 0).edge (by decide)
  cases b with
  | false => exact hb
  | true =>
    rcases (haccepted.1 rfl 1 (by decide)).1 hedge with ⟨heq, -⟩ | ⟨-, v, hv, -⟩
    · cases heq
    · cases hv

end Bfs

end Dgap
