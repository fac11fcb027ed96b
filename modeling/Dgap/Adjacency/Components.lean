import Dgap.Adjacency.Paths

/-!
# Components of a multigraph

Two vertices of a finite set are joined if a chain of edges leads from one to the other, whichever way the
edges point. A `Labelling` gives every vertex a label that it is joined to and that is not above it. Once
the labels agree along the edges, the label of a vertex is the least vertex that it is joined to
(`Labelling.isLeast`), and two vertices are joined exactly if their labels are the same
(`Labelling.eq_iff`). Where every edge has its reverse, joined is reachable (`joined_iff_reachable`).
-/

namespace Multigraph

section

variable {V : Type*} (nbrs : V → List V) (vs : Finset V)

/-- A chain of edges, pointing either way, leads from one vertex to the other. -/
def Joined : V → V → Prop := Relation.EqvGen fun u v => u ∈ vs ∧ v ∈ nbrs u

/-- The destinations of the vertices are vertices. -/
def Closed : Prop := ∀ u ∈ vs, ∀ v ∈ nbrs u, v ∈ vs

/-- Every edge has its reverse. -/
def Symmetric : Prop := ∀ u ∈ vs, ∀ v ∈ nbrs u, u ∈ nbrs v

variable {nbrs vs} {u v w : V}

/-- A vertex is joined to itself. -/
lemma Joined.refl (u : V) : Joined nbrs vs u u := Relation.EqvGen.refl u

/-- Joined vertices, the other way round. -/
lemma Joined.symm (h : Joined nbrs vs u v) : Joined nbrs vs v u := Relation.EqvGen.symm u v h

/-- Two chains, one after the other. -/
lemma Joined.trans (h : Joined nbrs vs u v) (h' : Joined nbrs vs v w) : Joined nbrs vs u w :=
  Relation.EqvGen.trans u v w h h'

/-- The ends of an edge are joined. -/
lemma Joined.edge (hu : u ∈ vs) (hv : v ∈ nbrs u) : Joined nbrs vs u v := Relation.EqvGen.rel u v ⟨hu, hv⟩

/-- What is joined to a vertex of the set is in the set. -/
lemma Joined.mem (hvs : Closed nbrs vs) (h : Joined nbrs vs u v) : u ∈ vs ↔ v ∈ vs := by
  induction h with
  | rel u v h => exact ⟨fun hu => hvs u hu v h.2, fun _ => h.1⟩
  | refl u => rfl
  | symm u v _ ih => exact ih.symm
  | trans u v w _ _ ih ih' => exact ih.trans ih'

/-- What agrees along the edges agrees on joined vertices. -/
lemma Joined.congr {α : Type*} {f : V → α} (hf : ∀ u ∈ vs, ∀ v ∈ nbrs u, f u = f v)
    (h : Joined nbrs vs u v) : f u = f v := by
  induction h with
  | rel u v h => exact hf u h.1 v h.2
  | refl u => rfl
  | symm u v _ ih => exact ih.symm
  | trans u v w _ _ ih ih' => exact ih.trans ih'

/-- More edges join more. -/
lemma Joined.mono {nbrs' : V → List V} (hle : ∀ u ∈ vs, ∀ v ∈ nbrs u, Joined nbrs' vs u v)
    (h : Joined nbrs vs u v) : Joined nbrs' vs u v := by
  induction h with
  | rel u v h => exact hle u h.1 v h.2
  | refl u => exact .refl u
  | symm u v _ ih => exact ih.symm
  | trans u v w _ _ ih ih' => exact ih.trans ih'

/-- A path joins its ends. -/
lemma IsPath.joined {p : List (V × ℕ)} (hvs : Closed nbrs vs) (hu : u ∈ vs) (h : IsPath nbrs u p v) :
    v ∈ vs ∧ Joined nbrs vs u v := by
  induction h with
  | nil => exact ⟨hu, .refl u⟩
  | cons _ hk ih =>
    have hmem := List.mem_of_getElem? hk
    exact ⟨hvs _ ih.1 _ hmem, ih.2.trans (.edge ih.1 hmem)⟩

/-- An edge leads on. -/
lemma Reachable.edge (h : Reachable nbrs u v) (hw : w ∈ nbrs v) : Reachable nbrs u w := by
  obtain ⟨p, hp⟩ := h
  obtain ⟨k, hk⟩ := List.getElem?_of_mem hw
  exact ⟨_, .cons hp hk⟩

/-- A vertex is reachable from itself. -/
lemma Reachable.refl (u : V) : Reachable nbrs u u := ⟨[], .nil⟩

/-- One path after the other. -/
lemma Reachable.trans (h : Reachable nbrs u v) (h' : Reachable nbrs v w) : Reachable nbrs u w := by
  obtain ⟨p, hp⟩ := h'
  induction hp with
  | nil => exact h
  | cons _ hk ih => exact ih.edge (List.mem_of_getElem? hk)

/-- Where every edge has its reverse, joined is reachable. -/
lemma joined_iff_reachable (hvs : Closed nbrs vs) (hsymm : Symmetric nbrs vs) (hu : u ∈ vs) :
    Joined nbrs vs u v ↔ Reachable nbrs u v := by
  constructor
  · intro h
    -- a chain is a path in both directions
    suffices h : Reachable nbrs u v ∧ Reachable nbrs v u from h.1
    clear hu
    induction h with
    | rel u v h => exact ⟨(Reachable.refl u).edge h.2, (Reachable.refl v).edge (hsymm u h.1 v h.2)⟩
    | refl u => exact ⟨.refl u, .refl u⟩
    | symm u v _ ih => exact ih.symm
    | trans u v w _ _ ih ih' => exact ⟨ih.1.trans ih'.1, ih'.2.trans ih.2⟩
  · rintro ⟨p, hp⟩
    exact (hp.joined hvs hu).2

end

section Labels

variable {V : Type*} [LinearOrder V] (nbrs : V → List V) (vs : Finset V) (f : V → V)

/-- Every vertex is joined to its label, which is not above it. -/
structure Labelling : Prop where
  le : ∀ x ∈ vs, f x ≤ x
  joined : ∀ x ∈ vs, Joined nbrs vs x (f x)

/-- The labels agree along the edges. -/
def Agree : Prop := ∀ u ∈ vs, ∀ v ∈ nbrs u, f u = f v

variable {nbrs vs f} {x y z : V}

/-- A label is a vertex. -/
lemma Labelling.mem (h : Labelling nbrs vs f) (hvs : Closed nbrs vs) (hx : x ∈ vs) : f x ∈ vs :=
  ((h.joined x hx).mem hvs).1 hx

/-- Another label, as good, for one vertex. -/
lemma Labelling.update (h : Labelling nbrs vs f) (hle : y ∈ vs → z ≤ y) (hjoined : Joined nbrs vs y z) :
    Labelling nbrs vs (Function.update f y z) := by
  constructor
  · intro x hx
    by_cases hxy : x = y
    · subst hxy
      rw [Function.update_self]
      exact hle hx
    · rw [Function.update_of_ne hxy]
      exact h.le x hx
  · intro x hx
    by_cases hxy : x = y
    · subst hxy
      rw [Function.update_self]
      exact hjoined
    · rw [Function.update_of_ne hxy]
      exact h.joined x hx

/-- The label is the least vertex of the component. -/
theorem Labelling.isLeast (h : Labelling nbrs vs f) (hvs : Closed nbrs vs) (hf : Agree nbrs vs f) (hx : x ∈ vs) :
    IsLeast {y | Joined nbrs vs x y} (f x) := by
  refine ⟨h.joined x hx, fun y hy => ?_⟩
  rw [hy.congr hf]
  exact h.le y ((hy.mem hvs).1 hx)

/-- Two vertices are joined if their labels are the same. -/
theorem Labelling.eq_iff (h : Labelling nbrs vs f) (hf : Agree nbrs vs f) (hx : x ∈ vs) (hy : y ∈ vs) :
    f x = f y ↔ Joined nbrs vs x y := by
  refine ⟨fun heq => ?_, Joined.congr hf⟩
  have hyf := h.joined y hy
  rw [← heq] at hyf
  exact (h.joined x hx).trans hyf.symm

end Labels

end Multigraph
