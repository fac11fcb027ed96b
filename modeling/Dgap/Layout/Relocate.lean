import Dgap.Graph.Load
import Dgap.Layout.Window

/-!
# Moving in place is as good as moving into a copy

`rebalance_data_V1` for any window of any graph whose vertices are in order (`InOrder`) and any positions
they can be moved to (`Targets`): nothing about edges, pivots or runs is assumed, a vertex may have no
element on-segment, and its log chain may be linked in any way. The reference is `relocate`, which copies
the vertices of the window one after another from an untouched snapshot into another array. Moving them
in place, in groups and in either direction, ends with the same elements at the same positions
(`rebalance_in_place`).
-/

namespace Dgap

open Memory

namespace Graph

/-- The vertices of a window are in order: each on-segment part ends at or before the next vertex, and
the log chain, through the entries `slots`, has the other elements. -/
structure InOrder (g : Graph) (startVertex endVertex : ℕ) (slots : ℕ → List ℤ) : Prop where
  onseg_nonneg : ∀ v, startVertex ≤ v → v < endVertex → 0 ≤ g.onseg v
  room : ∀ v, startVertex ≤ v → v < endVertex →
    (g.vertices v).index + g.onseg v ≤ g.bound (v + 1)
  chain : ∀ v, startVertex ≤ v → v < endVertex →
    Links (fun k => ((g.logPtr (g.leafOf v)).cur k).prevOffset) (g.vertices v).offset (slots v)
  inside : ∀ v, startVertex ≤ v → v < endVertex → ∀ k ∈ slots v, 0 ≤ k ∧ k < maxLogEntries
  length : ∀ v, startVertex ≤ v → v < endVertex →
    ((slots v).length : ℤ) = (g.vertices v).degree - g.onseg v

/-- The elements of a vertex: its on-segment part, then its log chain from the oldest entry on. -/
def gathered (g : Graph) (slots : ℕ → List ℤ) (v : ℕ) : List ℤ :=
  slice g.edges.cur (g.vertices v).index (g.onseg v).toNat ++
    ((slots v).map fun k => ((g.logPtr (g.leafOf v)).cur k).v).reverse

/-- Out of place: the elements of `k` vertices from `v` on are copied from the snapshot `g` into the
array `a`. -/
def relocate (g : Graph) (slots : ℕ → List ℤ) (new : ℕ → ℤ) : ℕ → ℕ → (ℤ → ℤ) → ℤ → ℤ
  | 0, _, a => a
  | k + 1, v, a => relocate g slots new k (v + 1)
      (writeDown (gathered g slots v).reverse (new v + (g.vertices v).degree - 1) a)

variable {g : Graph} {startVertex endVertex tid : ℕ} {slots : ℕ → List ℤ} {new : ℕ → ℤ}

namespace InOrder

/-- A vertex has as many elements as its degree. -/
lemma gathered_length (h : g.InOrder startVertex endVertex slots) {v : ℕ} (h1 : startVertex ≤ v)
    (h2 : v < endVertex) : ((gathered g slots v).length : ℤ) = (g.vertices v).degree := by
  have := h.length v h1 h2
  have := h.onseg_nonneg v h1 h2
  rw [gathered, List.length_append, slice_length, List.length_reverse, List.length_map]
  omega

/-- Vertices in order have their elements arranged. -/
lemma arranged (h : g.InOrder startVertex endVertex slots) :
    g.WindowArranged startVertex endVertex (gathered g slots) := by
  intro v h1 h2
  have hlen := h.gathered_length h1 h2
  have hslots := h.length v h1 h2
  have h0 := h.onseg_nonneg v h1 h2
  refine ⟨hlen.symm, h0, by omega, h.room v h1 h2, ?_, slots v, h.chain v h1 h2, ?_, ?_⟩
  · rw [gathered, List.take_left' (slice_length _ _ _)]
  · have := (h.chain v h1 h2).length_le (h.inside v h1 h2)
    omega
  · rw [gathered, List.drop_left' (slice_length _ _ _), List.reverse_reverse]

end InOrder

/-- Copying into an array changes nothing left of the targets. -/
lemma relocate_outside (h : g.InOrder startVertex endVertex slots) (k v : ℕ) (h1 : startVertex ≤ v)
    (h2 : v + k = endVertex) (a : ℤ → ℤ) {x : ℤ} (hx : ∀ w, v ≤ w → w < endVertex → x < new w) :
    relocate g slots new k v a x = a x := by
  induction k generalizing v a with
  | zero => rfl
  | succ k ih =>
    have hlen := h.gathered_length h1 (by omega)
    have hxv := hx v (le_refl _) (by omega)
    rw [relocate, ih (v + 1) (by omega) (by omega) _ fun w hw1 hw2 => hx w (by omega) hw2,
      writeDown_outside]
    rw [List.length_reverse]
    omega

/-- Copying into an array puts the elements of every vertex at its target. -/
lemma relocate_slice (h : g.InOrder startVertex endVertex slots)
    (ht : g.Targets startVertex endVertex new) (k v : ℕ) (h1 : startVertex ≤ v)
    (h2 : v + k = endVertex) (a : ℤ → ℤ) {w : ℕ} (hw1 : v ≤ w) (hw2 : w < endVertex) :
    slice (relocate g slots new k v a) (new w) (gathered g slots w).length =
      gathered g slots w := by
  induction k generalizing v a with
  | zero => omega
  | succ k ih =>
    rcases eq_or_lt_of_le hw1 with rfl | hlt
    · -- the later vertices go behind this one
      have hlen := h.gathered_length h1 (by omega)
      have hd := h.arranged.degree_nonneg
      have hlater : slice (relocate g slots new (k + 1) v a) (new v) (gathered g slots v).length =
          slice (writeDown (gathered g slots v).reverse (new v + (g.vertices v).degree - 1) a)
            (new v) (gathered g slots v).length := by
        apply slice_congr
        intro j hj
        rw [relocate]
        refine relocate_outside h k (v + 1) (by omega) (by omega) _ fun w hw1 hw2 => ?_
        have := ht.ordered hd h1 (show v < w by omega) hw2
        omega
      rw [hlater, ← hlen]
      have := slice_writeDown (gathered g slots v).reverse (new v) a
      rwa [List.length_reverse, List.reverse_reverse] at this
    · exact ih (v + 1) (by omega) (by omega) _ hlt

/-- Moving the vertices of a window in place ends with the elements of every vertex at its new position,
on-segment part first and log chain in reverse behind it, as copying them from an untouched snapshot does;
and the logs of the window are empty. -/
theorem rebalance_in_place {newIndex : List ℤ} (h : g.InOrder startVertex endVertex slots)
    (ht : g.Targets startVertex endVertex (newAt newIndex startVertex)) (a : ℤ → ℤ) :
    let g' := g.rebalanceDataV1 tid startVertex endVertex newIndex
    (∀ v, startVertex ≤ v → v < endVertex →
      g'.vertices v = ⟨newAt newIndex startVertex v, (g.vertices v).degree, -1⟩ ∧
      slice g'.edges.cur (newAt newIndex startVertex v) (g.vertices v).degree.toNat =
        slice g.edges.cur (g.vertices v).index (g.onseg v).toNat ++
          ((slots v).map fun k => ((g.logPtr (g.leafOf v)).cur k).v).reverse ∧
      slice g'.edges.cur (newAt newIndex startVertex v) (g.vertices v).degree.toNat =
        slice (relocate g slots (newAt newIndex startVertex) (endVertex - startVertex) startVertex a)
          (newAt newIndex startVertex v) (g.vertices v).degree.toNat) ∧
    (∀ s, g.leafOf startVertex ≤ s → s < g.leafOf endVertex → g'.logSegmentIdx s = 0) ∧
    (g.segmentSize ∣ endVertex →
      ∀ v, startVertex ≤ v → v < endVertex → g'.logSegmentIdx (g.leafOf v) = 0) := by
  have hc := h.arranged
  have hp := Progress.moved tid ht hc
  have hempty : ∀ s, g.leafOf startVertex ≤ s → s < g.leafOf endVertex →
      (g.rebalanceDataV1 tid startVertex endVertex newIndex).logSegmentIdx s = 0 := by
    intro s hs1 hs2
    rw [rebalanceDataV1_eq]
    exact if_pos ⟨hs1, by omega⟩
  refine ⟨fun v h1 h2 => ?_, hempty, fun hdvd v h1 h2 => hempty _ ?_ ?_⟩
  · obtain ⟨hv, hs⟩ := hp.low v h1 h2
    have hlen := h.gathered_length h1 h2
    have hd : (g.vertices v).degree.toNat = (gathered g slots v).length := by omega
    rw [hd, rebalanceDataV1_eq]
    refine ⟨hv, hs, ?_⟩
    rw [relocate_slice h ht _ _ (le_refl _) (by omega) a h1 h2]
    exact hs
  · rw [leafOf_eq, leafOf_eq]
    exact Nat.div_le_div_right h1
  · -- the window ends with a whole leaf
    rw [leafOf_eq, leafOf_eq]
    obtain ⟨k, rfl⟩ := hdvd
    have hpos : 0 < g.segmentSize := Nat.pos_of_ne_zero fun h0 => by
      rw [h0, Nat.zero_mul] at h2
      omega
    rw [Nat.mul_div_cancel_left _ hpos]
    exact Nat.div_lt_of_lt_mul h2

/-- A graph with two vertices, the first with one element on-segment and one in its log. -/
def twoInOrder : Graph :=
  { allocate ⟨fun _ => 7, fun _ => .zero⟩ true 0 2 with
    vertices := fun v => if v = 0 then ⟨0, 2, 0⟩ else ⟨1, 1, -1⟩
    edges := .durable fun x => if x = 1 then -1 else 0
    logPtr := fun _ => .durable fun k => if k = 0 then ⟨0, 9, -1⟩ else .zero
    logSegmentIdx := fun s => if s = 0 then 1 else 0 }

/-- Its vertices are in order. -/
lemma twoInOrder_inOrder : twoInOrder.InOrder 0 2 fun v => if v = 0 then [0] else [] where
  onseg_nonneg v _ hv := by interval_cases v <;> decide +kernel
  room v _ hv := by interval_cases v <;> decide +kernel
  chain v _ hv := by
    interval_cases v
    · exact .cons (by decide +kernel) .nil
    · exact .nil
  inside v _ hv := by interval_cases v <;> decide +kernel
  length v _ hv := by interval_cases v <;> decide +kernel

/-- Spreading the two vertices makes room for the logged element and moves the second pivot away. -/
theorem rebalance_in_place_two :
    slice (twoInOrder.rebalanceDataV1 0 0 2 [0, 4]).edges.cur 0 2 = [0, 9] ∧
      slice (twoInOrder.rebalanceDataV1 0 0 2 [0, 4]).edges.cur 4 1 = [-1] := by
  have ht : twoInOrder.Targets 0 2 (newAt [0, 4] 0) := by
    refine ⟨by decide, by decide +kernel, by decide +kernel, fun v _ hv => ?_, by decide +kernel⟩
    obtain rfl : v = 0 := by omega
    decide +kernel
  constructor
  · exact ((rebalance_in_place twoInOrder_inOrder ht fun _ => 0).1 0 (le_refl _) (by decide)).2.1
  · exact ((rebalance_in_place twoInOrder_inOrder ht fun _ => 0).1 1 (by decide) (by decide)).2.1

end Graph

end Dgap
