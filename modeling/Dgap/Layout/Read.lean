import Dgap.Layout.Invariant

/-!
# What iterating over `out_neigh` yields

An iterator runs through the on-segment slots of its vertex and then along the log chain
(`collect_slots`, `collect_chain`). So a vertex that holds its pivot and the destinations `l`, with `k`
destinations on-segment, yields the first `k` of them in order and the rest in reverse
(`Holds.outNeigh_yields`). With a start offset the constructor enters this sequence further on, in a slot
(`make_onseg`) or in the middle of the chain (`make_onlog`, `skip_logged`), and the iteration yields what
is left of it (`Holds.outNeigh_yields_from`).
-/

namespace Dgap

open Memory

namespace Neighborhood

variable {nb : Neighborhood} {b : ℤ} {v : ℕ} {vals : List ℤ}

/-- The values a chain contributes, whatever the cell held before. -/
lemma collect_chain {o : ℤ} (h : Logged nb.logP b v o vals) (it : Iterator)
    (hseg : it.onseg = false) (hidx : it.logIndex = o) {x : ℤ} (hptr : it.ptr = .cell x) :
    nb.collect (vals.length + 1) it = some (x :: vals) := by
  obtain ⟨slots, hc, -, rfl⟩ := h
  induction hc generalizing it x with
  | nil =>
    have hnext : (nb.next it).ptr = .null := by simp [next, hseg, hidx]
    simp [collect, hptr, hnext, deref]
  | @cons b o l h0 h1 hc ih =>
    have hne : o ≠ -1 := by omega
    have hnext := ih (nb.next it) (by simp [next, hseg, hidx, hne]) (by simp [next, hseg, hne, hidx])
      (x := (nb.logP o).v) (by simp [next, hseg, hne, hidx])
    rw [List.map_cons, List.length_cons, collect, if_neg (by simp [hptr]), hnext, hptr]
    rfl

/-- The values from an on-segment slot on: the rest of the on-segment slots, then the chain. -/
lemma collect_slots (h : Logged nb.logP b v nb.srcV.offset vals)
    (hdeg : nb.srcV.degree = nb.onsegEdges + vals.length) (k : ℕ) (it : Iterator)
    (hon : it.onsegEdges = nb.onsegEdges) (hseg : it.onseg = true)
    (hidx : it.logIndex = nb.srcV.offset) {i : ℤ} (hptr : it.ptr = .slot i)
    (hit : it.iteratorIndex + k = nb.onsegEdges) :
    nb.collect (k + 1 + vals.length) it = some (slice nb.edges i (k + 1) ++ vals) := by
  induction k generalizing it i with
  | zero =>
    have hgt : it.onsegEdges < it.iteratorIndex + 1 := by push_cast at hit; omega
    cases vals with
    | nil =>
      have hle : ¬it.onsegEdges < nb.srcV.degree := by
        rw [hdeg, List.length_nil]
        push_cast
        omega
      have hnext : (nb.next it).ptr = .null := by simp [next, hseg, hgt, hle]
      simp [collect, hptr, hnext, deref, slice]
    | cons x vals =>
      -- the switch to the chain already reads its first entry
      have hlt : it.onsegEdges < nb.srcV.degree := by
        rw [hdeg, List.length_cons]
        push_cast
        omega
      obtain ⟨slots, hc, hu, hv⟩ := h
      generalize ho : nb.srcV.offset = o at hc hidx
      cases hc with
      | nil => simp at hv
      | @cons b o l h0 h1 hc =>
        rw [List.map_cons, List.cons.injEq] at hv
        have hrest : Logged nb.logP o v (nb.logP o).prevOffset vals :=
          ⟨l, hc, fun k hk => hu k (List.mem_cons_of_mem _ hk), hv.2⟩
        have hnext := collect_chain hrest (nb.next it) (by simp [next, hseg, hgt, hlt])
          (by simp [next, hseg, hgt, hlt, hidx]) (x := (nb.logP o).v)
          (by simp [next, hseg, hgt, hlt, hidx])
        rw [List.length_cons, Nat.zero_add, Nat.add_comm, collect, if_neg (by simp [hptr]), hnext,
          hptr, hv.1]
        rfl
  | succ k ih =>
    have hle : ¬it.onsegEdges < it.iteratorIndex + 1 := by push_cast at hit; omega
    have hnext := ih (nb.next it) (by rw [← hon]; simp [next, hseg, hle, hptr])
      (by simp [next, hseg, hle, hptr]) (by simp [next, hseg, hle, hptr, hidx]) (i := i + 1)
      (by simp [next, hseg, hle, hptr])
      (by simp only [next, hseg, hle, hptr, if_true, if_false]; push_cast at hit; omega)
    rw [show k + 1 + 1 + vals.length = k + 1 + vals.length + 1 by omega, collect,
      if_neg (by simp [hptr]), hnext, hptr]
    rfl

/-- Skipping entries of a chain leads to the rest of it. -/
lemma skip_chain {logP : ℤ → LogEntry} {o : ℤ} {slots : List ℤ}
    (h : Chain (fun k => (logP k).prevOffset) b o slots) {m : ℕ} (hm : m ≤ slots.length) :
    ∃ b', Chain (fun k => (logP k).prevOffset) b' (skip logP m o) (slots.drop m) := by
  induction m generalizing b o slots with
  | zero => exact ⟨b, h⟩
  | succ m ih =>
    cases h with
    | nil => simp at hm
    | cons h0 h1 hc =>
      rw [List.drop_succ_cons]
      exact ih hc (by simpa using hm)

/-- The values of the rest of the chain. -/
lemma skip_logged {logP : ℤ → LogEntry} {o : ℤ} (h : Logged logP b v o vals) {m : ℕ}
    (hm : m ≤ vals.length) : ∃ b', Logged logP b' v (skip logP m o) (vals.drop m) := by
  obtain ⟨slots, hc, hu, rfl⟩ := h
  obtain ⟨b', hc'⟩ := skip_chain hc (m := m) (by simpa using hm)
  exact ⟨b', slots.drop m, hc', fun k hk => hu k (List.mem_of_mem_drop hk), by rw [List.map_drop]⟩

section Make

variable {edges : ℤ → ℤ} {srcV : VertexElement} {startOffset : ℤ} {logP : ℤ → LogEntry}
  {onsegEdges : ℤ}

/-- Behind the last element there is nothing to iterate. -/
lemma make_done (h : srcV.degree ≤ startOffset) :
    (make edges srcV startOffset logP onsegEdges).beginPtr = .null := by
  unfold make
  rw [min_eq_right h]
  simp

/-- An offset below the on-segment count starts in a slot. -/
lemma make_onseg (h1 : startOffset < srcV.degree) (h2 : startOffset < onsegEdges) :
    make edges srcV startOffset logP onsegEdges =
      { edges, logP, srcV, onsegEdges, startOffset
        logIndex := srcV.offset
        beginPtr := .slot (srcV.index + startOffset)
        onseg := true
        onlog := false } := by
  unfold make
  simp only [min_eq_left h1.le, gt_iff_lt, if_pos h1, if_pos h2]

/-- An offset from the on-segment count on starts in the chain. -/
lemma make_onlog (h1 : startOffset < srcV.degree) (h2 : onsegEdges ≤ startOffset) :
    make edges srcV startOffset logP onsegEdges =
      { edges, logP, srcV, onsegEdges, startOffset
        logIndex := (logP (skip logP (startOffset - onsegEdges).toNat srcV.offset)).prevOffset
        beginPtr := .cell (logP (skip logP (startOffset - onsegEdges).toNat srcV.offset)).v
        onseg := false
        onlog := true } := by
  unfold make
  simp only [min_eq_left h1.le, gt_iff_lt, if_pos h1, if_neg h2.not_gt]

end Make

end Neighborhood

namespace Graph

variable {g : Graph} {v m : ℕ} {l : List ℕ}

/-- The order in which a vertex with `m` on-segment destinations yields its destinations. -/
def yielded (m : ℕ) (l : List ℕ) : List ℕ := l.take m ++ (l.drop m).reverse

/-- Every destination is yielded once. -/
lemma yielded_perm (m : ℕ) (l : List ℕ) : (yielded m l).Perm l := by
  conv_rhs => rw [← List.take_append_drop m l]
  exact (List.reverse_perm _).append_left _

/-- As many destinations are yielded as there are. -/
@[simp] lemma yielded_length (m : ℕ) (l : List ℕ) : (yielded m l).length = l.length :=
  (yielded_perm m l).length_eq

/-- What is left of the sequence behind `k` destinations, with `m` of them on-segment. -/
lemma yielded_drop {k : ℕ} (hm : m ≤ l.length) : (yielded m l).drop k =
    (l.take m).drop k ++ (l.drop m).reverse.drop (k - m) := by
  rw [yielded, List.drop_append, List.length_take, Nat.min_eq_left hm]

/-- The parts in which a vertex with `m` on-segment destinations keeps its elements. -/
structure Split (g : Graph) (v m : ℕ) (l : List ℕ) : Prop where
  le : m ≤ l.length
  degree : (g.vertices v).degree = l.length + 1
  onseg : g.onsegEdges v = m + 1
  slots : slice g.edges.cur ((g.vertices v).index + 1) m = (l.take m).map Nat.cast
  logged : Logged (g.logPtr (g.leafOf v)).cur (g.logSegmentIdx (g.leafOf v)) v (g.vertices v).offset
    ((l.drop m).reverse.map Nat.cast)

/-- A vertex that holds its elements keeps them in two parts. -/
lemma Holds.split (h : g.Holds v (elements v l)) (hv : v < g.numVertices) :
    g.Split v (g.onseg v - 1).toNat l := by
  have hpos := h.onseg_pos
  have hle := h.onseg_le
  have hdeg := h.degree
  rw [elements_length] at hle hdeg
  push_cast at hle hdeg
  obtain ⟨k, hk⟩ : ∃ k : ℕ, g.onseg v = k + 1 := ⟨(g.onseg v - 1).toNat, by omega⟩
  have hslots := h.slots
  have hlogged := h.logged
  rw [hk, show ((k : ℤ) + 1).toNat = k + 1 by omega] at hslots hlogged
  simp only [elements, List.take_succ_cons, List.drop_succ_cons] at hslots hlogged
  rw [← List.map_take, slice, List.cons.injEq] at hslots
  rw [← List.map_drop, ← List.map_reverse] at hlogged
  rw [hk, Int.add_sub_cancel, Int.toNat_natCast]
  exact ⟨by omega, hdeg, by rw [onsegEdges_eq hv, hk], hslots.2, hlogged⟩

namespace Split

variable (h : g.Split v m l) {k : ℕ}

include h

/-- An iteration from an offset yields the rest of the sequence. -/
lemma yields_from (k : ℕ) : (g.outNeigh v k).Yields (((yielded m l).drop k).map Nat.cast) := by
  have hle := h.le
  have hdeg := h.degree
  have hlen : ((l.drop m).reverse.map (Nat.cast : ℕ → ℤ)).length = l.length - m := by
    rw [List.length_map, List.length_reverse, List.length_drop]
  have hleaf : v / g.segmentSize = g.leafOf v := (leafOf_eq v).symm
  unfold outNeigh
  rw [hleaf, h.onseg, yielded_drop hle, List.map_append, List.map_drop, List.map_drop, ← h.slots]
  generalize hvals : (l.drop m).reverse.map (Nat.cast : ℕ → ℤ) = vals at hlen
  have hlogged := h.logged
  rw [hvals] at hlogged
  rcases Nat.lt_or_ge k l.length with hk | hk
  · have hlt : (k : ℤ) + 1 < (g.vertices v).degree := by omega
    rcases Nat.lt_or_ge k m with hkm | hkm
    · -- the start is on-segment
      rw [Neighborhood.make_onseg hlt (by omega), slice_drop _ _ hkm.le,
        show m - k = m - k - 1 + 1 by omega, show k - m = 0 by omega, List.drop_zero]
      refine ⟨m - k - 1 + 1 + vals.length, ?_⟩
      rw [show (g.vertices v).index + 1 + (k : ℤ) = (g.vertices v).index + (k + 1) by ring]
      refine Neighborhood.collect_slots hlogged ?_ (m - k - 1) _ rfl rfl rfl rfl ?_
      · show (g.vertices v).degree = (m : ℤ) + 1 + vals.length
        omega
      · show (k : ℤ) + 1 + 1 + (m - k - 1 : ℕ) = m + 1
        omega
    · -- the start is in the log chain
      rw [Neighborhood.make_onlog hlt (by omega), show ((k : ℤ) + 1 - (m + 1)).toNat = k - m by omega,
        List.drop_eq_nil_of_le (by rw [slice_length]; exact hkm), List.nil_append]
      obtain ⟨b', slots, hc, hu, hv⟩ := Neighborhood.skip_logged hlogged (m := k - m) (by omega)
      generalize ho : Neighborhood.skip (g.logPtr (g.leafOf v)).cur (k - m) (g.vertices v).offset = o
        at hc
      cases hc with
      | nil =>
        have := congrArg List.length hv
        rw [List.map_nil, List.length_nil, List.length_drop] at this
        omega
      | @cons b o slots h0 h1 hc =>
        rw [← hv, List.map_cons]
        have hchain : Logged (g.logPtr (g.leafOf v)).cur o v
            ((g.logPtr (g.leafOf v)).cur o).prevOffset
            (slots.map fun k => ((g.logPtr (g.leafOf v)).cur k).v) :=
          ⟨slots, hc, fun k hk => hu k (List.mem_cons_of_mem _ hk), rfl⟩
        exact ⟨_, Neighborhood.collect_chain hchain _ rfl rfl rfl⟩
  · -- nothing is left
    refine ⟨0, ?_⟩
    have hnull : (Neighborhood.make g.edges.cur (g.vertices v) (k + 1) (g.logPtr (g.leafOf v)).cur
        (m + 1)).beginPtr = .null :=
      Neighborhood.make_done (by omega)
    rw [List.drop_eq_nil_of_le (by rw [slice_length]; omega), List.drop_eq_nil_of_le (by omega)]
    exact if_pos hnull

end Split

/-- An iteration from an offset yields the on-segment destinations in order and the logged ones newest
first, without as many of them as the offset says. -/
lemma Holds.outNeigh_yields_from (h : g.Holds v (elements v l)) (hv : v < g.numVertices) (k : ℕ) :
    (g.outNeigh v k).Yields (((yielded (g.onseg v - 1).toNat l).drop k).map Nat.cast) :=
  (h.split hv).yields_from k

/-- A vertex yields its on-segment destinations in order, then the logged ones, newest first. -/
lemma Holds.outNeigh_yields (h : g.Holds v (elements v l)) (hv : v < g.numVertices) :
    (g.outNeigh v 0).Yields ((l.take (g.onseg v - 1).toNat ++
      (l.drop (g.onseg v - 1).toNat).reverse).map Nat.cast) :=
  h.outNeigh_yields_from hv 0

end Graph

end Dgap
