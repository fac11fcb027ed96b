import Dgap.Cc.ShiloachVishkin

/-!
# What the threads do to the labels

A thread that hooks stores a lower label over a label that was a root when it looked; by then another thread
may have stored there, but every store is to a vertex of the same component and lowers the label, so the
labels stay a `Labelling` whatever the order. A thread that compresses is the only one that stores to its
vertex, and never to a root. While `change` is still false nothing has been stored, so what a thread has
seen of the labels still holds (`HookEffect.calm`). Every iteration of the outer loop that changes something
makes a root a vertex that is none any more, and no vertex becomes a root again; this counts the iterations
(`State.Hooked`).
-/

namespace Dgap

namespace Cc

open Multigraph

variable (nbrs : ℕ → List ℕ) (numNodes : ℕ)

/-- Every label is a root. -/
def State.Flat (s : State) : Prop := ∀ x ∈ Finset.range numNodes, s.comp (s.comp x) = s.comp x

/-- The roots. -/
def State.roots (s : State) : Finset ℕ := (Finset.range numNodes).filter fun x => s.comp x = x

/-- In every iteration of the outer loop, this one included, a vertex has ceased to be a root. -/
def State.Hooked (s : State) : Prop := (s.roots numNodes).card + s.numIter ≤ numNodes

/-- What holds of the labels in the loops that hook and compress. -/
structure Labels (s : State) : Prop where
  labels : Labelling nbrs (Finset.range numNodes) s.comp
  flat : s.change = false → s.Flat numNodes
  bound : (s.roots numNodes).card + s.numIter ≤ numNodes + 1

/-- A label that may be stored over another one. -/
structure Pair (high low : ℕ) : Prop where
  lt : low < high
  mem : high ∈ Finset.range numNodes
  joined : Joined nbrs (Finset.range numNodes) high low

/-- The label was a root when the thread looked: it still is, or somebody has stored there. -/
def State.WasRoot (s : State) (x : ℕ) : Prop := s.comp x = x ∨ s.Hooked numNodes

/-- What a thread knows at a statement of the loop over `out_neigh(u)`. -/
def Hook.Ok (s : State) (u k : ℕ) : Hook → Prop
  | .loadU => True
  | .loadV compU => k < (nbrs u).length ∧ Joined nbrs (Finset.range numNodes) u compU ∧
      (s.change = false → compU = s.comp u)
  | .test high low => k < (nbrs u).length ∧ Pair nbrs numNodes high low ∧ (s.change = false → s.comp high = high)
  | .change high low => k < (nbrs u).length ∧ Pair nbrs numNodes high low ∧ s.WasRoot numNodes high
  | .store high low => k < (nbrs u).length ∧ Pair nbrs numNodes high low ∧ s.WasRoot numNodes high ∧
      s.change = true

/-- What the owner of `v` knows at a statement of the loop that compresses. -/
def Compress.Ok (s : State) (v : ℕ) : Compress → Prop
  | .left => True
  | .right compN => compN = s.comp v
  | .compare compN inner => compN = s.comp v ∧ inner = s.comp v
  | .load => s.change = true ∧ s.comp (s.comp v) < s.comp v
  | .loadComp inner => s.change = true ∧ inner = s.comp v ∧ s.comp inner < inner
  | .store value => s.change = true ∧ value < s.comp v ∧ s.comp v < v ∧
      Joined nbrs (Finset.range numNodes) v value

/-- The edges of a vertex that the thread is through with agree, if nothing has changed. -/
def State.Seen (s : State) (u k : ℕ) : Prop :=
  s.change = false → ∀ j < k, ∀ v, (nbrs u)[j]? = some v → s.comp u = s.comp v

/-- What holds of a thread. -/
def Pc.Ok (loop : Loop) (s : State) : Pc → Prop
  | .idle => True
  | .init _ => loop = .init
  | .hook u k stage => loop = .hook ∧ u ∈ Finset.range numNodes ∧ s.Seen nbrs u k ∧ stage.Ok nbrs numNodes s u k
  | .compress v stage => loop = .compress ∧ v ∈ Finset.range numNodes ∧ stage.Ok nbrs numNodes s v

/-- What a step does to the shared state in the loop that hooks. -/
inductive HookEffect (s : State) : State → Prop where
  | same : HookEffect s s
  | change : HookEffect s { s with change := true }
  | store {high low : ℕ} : Pair nbrs numNodes high low → s.WasRoot numNodes high → s.change = true →
      HookEffect s (s.setComp high low)

/-- What the owner of `v` does to the shared state in the loop that compresses. -/
inductive CompressEffect (s : State) (v : ℕ) : State → Prop where
  | same : CompressEffect s v s
  | store {value : ℕ} : s.change = true → value < s.comp v → s.comp v < v →
      Joined nbrs (Finset.range numNodes) v value → CompressEffect s v (s.setComp v value)

variable {nbrs numNodes} {s s' : State} {u v x k value : ℕ}

/-- The higher of two labels. -/
lemma highComp_eq (a b : ℕ) : highComp a b = max a b := by
  rw [highComp]
  split_ifs with h
  · exact (max_eq_left h.le).symm
  · exact (max_eq_right (not_lt.1 h)).symm

/-- The lower of two labels. -/
lemma lowComp_eq (a b : ℕ) : lowComp a b = min a b := by
  rw [lowComp, highComp_eq]
  omega

/-- The labels of the ends of an edge. -/
lemma Pair.of_ne {a b : ℕ} (hmem : ∀ x, Joined nbrs (Finset.range numNodes) u x → x ∈ Finset.range numNodes)
    (ha : Joined nbrs (Finset.range numNodes) u a) (hb : Joined nbrs (Finset.range numNodes) u b) (hne : a ≠ b) :
    Pair nbrs numNodes (highComp a b) (lowComp a b) := by
  rw [highComp_eq, lowComp_eq]
  rcases hne.lt_or_gt with hlt | hlt
  · rw [max_eq_right hlt.le, min_eq_left hlt.le]
    exact ⟨hlt, hmem b hb, hb.symm.trans ha⟩
  · rw [max_eq_left hlt.le, min_eq_right hlt.le]
    exact ⟨hlt, hmem a ha, ha.symm.trans hb⟩

/-- A store lowers the number of roots if it is to a root. -/
lemma roots_setComp (hne : value ≠ v) : (s.setComp v value).roots numNodes = (s.roots numNodes).erase v := by
  ext x
  rw [State.roots, State.roots, Finset.mem_erase, Finset.mem_filter, Finset.mem_filter, State.setComp]
  by_cases hx : x = v
  · subst hx
    simp [hne]
  · simp [hx]

/-- No store makes a root. -/
lemma card_roots_setComp (hne : value ≠ v) :
    ((s.setComp v value).roots numNodes).card ≤ (s.roots numNodes).card := by
  rw [roots_setComp hne]
  exact Finset.card_le_card (Finset.erase_subset v _)

/-- A vertex has ceased to be a root, and stays so. -/
lemma State.Hooked.setComp (h : s.Hooked numNodes) (hne : value ≠ v) : (s.setComp v value).Hooked numNodes :=
  (Nat.add_le_add_right (card_roots_setComp hne) _).trans h

/-- A store to what was a root: a vertex has ceased to be one. -/
lemma State.WasRoot.setComp (h : s.WasRoot numNodes v) (hs : Labels nbrs numNodes s)
    (hv : v ∈ Finset.range numNodes) (hne : value ≠ v) : (s.setComp v value).Hooked numNodes := by
  rcases h with hroot | h
  · have hmem : v ∈ s.roots numNodes := Finset.mem_filter.2 ⟨hv, hroot⟩
    have hcard := Finset.card_erase_add_one hmem
    have hbound := hs.bound
    rw [State.Hooked, roots_setComp hne]
    show _ + s.numIter ≤ numNodes
    omega
  · exact h.setComp hne

namespace HookEffect

variable (h : HookEffect nbrs numNodes s s')

include h

/-- While `change` is false nothing is stored. -/
lemma calm (hc : s'.change = false) : s' = s := by
  cases h with
  | same => rfl
  | change => cases hc
  | store _ _ hchange =>
    rw [show s.change = false from hc] at hchange
    cases hchange

/-- The labels stay labels. -/
lemma labels (hs : Labels nbrs numNodes s) : Labels nbrs numNodes s' := by
  cases h with
  | same => exact hs
  | change => exact ⟨hs.labels, fun hc => (by cases hc), hs.bound⟩
  | store hpair _ hchange =>
    refine ⟨hs.labels.update (fun _ => hpair.lt.le) hpair.joined, fun hc => ?_, ?_⟩
    · rw [show s.change = false from hc] at hchange
      cases hchange
    · exact (Nat.add_le_add_right (card_roots_setComp hpair.lt.ne) _).trans hs.bound

/-- What was a root. -/
lemma wasRoot (hs : Labels nbrs numNodes s) (hx : s.WasRoot numNodes x) : s'.WasRoot numNodes x := by
  cases h with
  | same => exact hx
  | change => exact hx
  | @store high low hpair hroot hchange =>
    exact .inr (hroot.setComp hs hpair.mem hpair.lt.ne)

/-- What a thread knows is still so after a step of another one. -/
lemma stage {stage : Hook} (hs : Labels nbrs numNodes s) (hok : stage.Ok nbrs numNodes s u k) :
    stage.Ok nbrs numNodes s' u k := by
  cases stage with
  | loadU => trivial
  | loadV compU =>
    refine ⟨hok.1, hok.2.1, fun hc => ?_⟩
    obtain rfl := h.calm hc
    exact hok.2.2 hc
  | test high low =>
    refine ⟨hok.1, hok.2.1, fun hc => ?_⟩
    obtain rfl := h.calm hc
    exact hok.2.2 hc
  | change high low => exact ⟨hok.1, hok.2.1, h.wasRoot hs hok.2.2⟩
  | store high low =>
    refine ⟨hok.1, hok.2.1, h.wasRoot hs hok.2.2.1, ?_⟩
    cases hc : s'.change with
    | true => rfl
    | false =>
      obtain rfl := h.calm hc
      rw [hok.2.2.2] at hc
      cases hc

/-- What a thread has seen is still so. -/
lemma seen (hseen : s.Seen nbrs u k) : s'.Seen nbrs u k := by
  intro hc
  obtain rfl := h.calm hc
  exact hseen hc

end HookEffect

namespace CompressEffect

variable (h : CompressEffect nbrs numNodes s v s')

include h

/-- `change` stays as it is. -/
lemma change : s'.change = s.change := by
  cases h <;> rfl

/-- The labels of the others stay as they are. -/
lemma comp_of_ne (hx : x ≠ v) : s'.comp x = s.comp x := by
  cases h with
  | same => rfl
  | store => exact Function.update_of_ne hx _ _

/-- A label never rises. -/
lemma comp_le (x : ℕ) : s'.comp x ≤ s.comp x := by
  by_cases hx : x = v
  · subst hx
    cases h with
    | same => exact le_rfl
    | store _ hlt => exact (Function.update_self x _ s.comp).trans_le hlt.le
  · exact (h.comp_of_ne hx).le

/-- A root stays a root. -/
lemma comp_root (hx : s.comp x = x) : s'.comp x = x := by
  cases h with
  | same => exact hx
  | store _ _ hlt =>
    have hne : x ≠ v := by
      rintro rfl
      exact hlt.ne hx
    exact (Function.update_of_ne hne _ _).trans hx

/-- While `change` is false nothing is stored. -/
lemma calm (hc : s.change = false) : s' = s := by
  cases h with
  | same => rfl
  | store hchange =>
    rw [hc] at hchange
    cases hchange

/-- The labels stay labels. -/
lemma labels (hs : Labels nbrs numNodes s) : Labels nbrs numNodes s' := by
  refine ⟨?_, fun hc => ?_, ?_⟩
  · cases h with
    | same => exact hs.labels
    | store _ hlt hv hjoined => exact hs.labels.update (fun _ => (hlt.trans hv).le) hjoined
  · rw [h.change] at hc
    rw [h.calm hc]
    exact hs.flat hc
  · cases h with
    | same => exact hs.bound
    | store _ hlt hv => exact (Nat.add_le_add_right (card_roots_setComp (hlt.trans hv).ne) _).trans hs.bound

/-- What the owner of another vertex knows is still so. -/
lemma stage {w : ℕ} {stage : Compress} (hne : w ≠ v) (hok : stage.Ok nbrs numNodes s w) :
    stage.Ok nbrs numNodes s' w := by
  have hw := h.comp_of_ne hne
  cases stage with
  | left => trivial
  | right compN => exact hok.trans hw.symm
  | compare compN inner => exact ⟨hok.1.trans hw.symm, hok.2.trans hw.symm⟩
  | load =>
    refine ⟨h.change.trans hok.1, ?_⟩
    rw [hw]
    exact (h.comp_le _).trans_lt hok.2
  | loadComp inner =>
    refine ⟨h.change.trans hok.1, hok.2.1.trans hw.symm, (h.comp_le _).trans_lt hok.2.2⟩
  | store value =>
    refine ⟨h.change.trans hok.1, ?_⟩
    rw [hw]
    exact hok.2

end CompressEffect

end Cc

end Dgap
