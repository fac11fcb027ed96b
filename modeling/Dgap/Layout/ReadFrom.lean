import Dgap.Layout.Run

/-!
# What an iteration with a start offset reads

The reads of the constructor of `Neighborhood` and of the loop from `begin()` to `end()`, in order:
slots of the edge array and entries of the segment log. Whatever the offset, they are slots of the vertex
behind its pivot and entries of its log chain (`Split.reads_own`), and what is yielded is the whole
sequence without as many destinations as the offset says (`outNeigh_from`).
-/

namespace Dgap

open Memory

/-- A read of an iteration: a slot of `edges_`, or an entry of the segment log. -/
inductive NeighborRead where
  | slot (i : ℤ)
  | entry (i : ℤ)
  deriving DecidableEq

namespace Neighborhood

/-- The reads of the loop of the constructor. -/
def skipReads (logP : ℤ → LogEntry) : ℕ → ℤ → List NeighborRead
  | 0, _ => []
  | k + 1, logIndex => .entry logIndex :: skipReads logP k (logP logIndex).prevOffset

/-- The reads of the constructor. -/
def makeReads (srcV : VertexElement) (startOffset : ℤ) (logP : ℤ → LogEntry) (onsegEdges : ℤ) :
    List NeighborRead :=
  let startOffset := min startOffset srcV.degree
  if srcV.degree > startOffset then
    if onsegEdges > startOffset then []
    else
      let k := (startOffset - onsegEdges).toNat
      skipReads logP k srcV.offset ++ [.entry (skip logP k srcV.offset)]
  else []

variable (nb : Neighborhood)

/-- The reads of `operator++`. -/
def nextReads (it : Iterator) : List NeighborRead :=
  if it.onseg then
    if it.iteratorIndex + 1 > it.onsegEdges then
      if nb.srcV.degree > it.onsegEdges then [.entry it.logIndex] else []
    else []
  else if it.logIndex ≠ -1 then [.entry it.logIndex]
  else []

/-- The reads of `operator*`: the cell of a log entry was filled when the iterator went there. -/
def derefReads : Ptr → List NeighborRead
  | .slot i => [.slot i]
  | _ => []

/-- The reads of a loop from `it` to `end()`, within `fuel` increments. -/
def collectReads : ℕ → Iterator → List NeighborRead
  | 0, _ => []
  | fuel + 1, it =>
    if it.ptr = .null then []
    else derefReads it.ptr ++ nb.nextReads it ++ collectReads fuel (nb.next it)

variable {nb : Neighborhood} {b : ℤ} {slots : List ℤ} {r : NeighborRead}

/-- At the end nothing is read. -/
lemma collectReads_null {it : Iterator} (h : it.ptr = .null) (fuel : ℕ) :
    nb.collectReads fuel it = [] := by
  cases fuel with
  | zero => rfl
  | succ fuel => exact if_pos h

/-- In the chain only its entries are read. -/
lemma collectReads_chain {o : ℤ} (h : Chain (fun k => (nb.logP k).prevOffset) b o slots)
    (it : Iterator) (hseg : it.onseg = false) (hidx : it.logIndex = o) {x : ℤ}
    (hptr : it.ptr = .cell x) {fuel : ℕ} (hr : r ∈ nb.collectReads fuel it) :
    ∃ e ∈ slots, r = .entry e := by
  induction h generalizing it x fuel with
  | nil =>
    cases fuel with
    | zero => cases hr
    | succ fuel =>
      have hnext : (nb.next it).ptr = .null := by simp [next, hseg, hidx]
      rw [collectReads, if_neg (by simp [hptr]), collectReads_null hnext] at hr
      simp [hptr, derefReads, nextReads, hseg, hidx] at hr
  | @cons b o l h0 h1 hc ih =>
    cases fuel with
    | zero => cases hr
    | succ fuel =>
      have hne : o ≠ -1 := by omega
      have hreads : nb.collectReads (fuel + 1) it = .entry o :: nb.collectReads fuel (nb.next it) := by
        simp [collectReads, hptr, derefReads, nextReads, hseg, hidx, hne]
      rw [hreads] at hr
      rcases List.mem_cons.1 hr with rfl | hr
      · exact ⟨o, List.mem_cons_self, rfl⟩
      · obtain ⟨e, he, rfl⟩ := ih (nb.next it) (by simp [next, hseg, hidx, hne])
          (by simp [next, hseg, hne, hidx]) (x := (nb.logP o).v) (by simp [next, hseg, hne, hidx]) hr
        exact ⟨e, List.mem_cons_of_mem _ he, rfl⟩

/-- On-segment the slots up to the last one are read, then the entries of the chain. -/
lemma collectReads_slots (h : Chain (fun k => (nb.logP k).prevOffset) b nb.srcV.offset slots)
    (hdeg : nb.srcV.degree = nb.onsegEdges + slots.length) (k : ℕ) (it : Iterator)
    (hon : it.onsegEdges = nb.onsegEdges) (hseg : it.onseg = true)
    (hidx : it.logIndex = nb.srcV.offset) {i : ℤ} (hptr : it.ptr = .slot i)
    (hit : it.iteratorIndex + k = nb.onsegEdges) {fuel : ℕ} (hr : r ∈ nb.collectReads fuel it) :
    (∃ j : ℕ, j ≤ k ∧ r = .slot (i + j)) ∨ ∃ e ∈ slots, r = .entry e := by
  induction k generalizing it i fuel with
  | zero =>
    cases fuel with
    | zero => cases hr
    | succ fuel =>
      have hgt : it.onsegEdges < it.iteratorIndex + 1 := by push_cast at hit; omega
      rw [collectReads, if_neg (by simp [hptr]), hptr, derefReads, List.append_assoc,
        List.singleton_append, List.mem_cons] at hr
      rcases hr with rfl | hr
      · exact .inl ⟨0, le_refl _, by simp⟩
      refine .inr ?_
      generalize ho : nb.srcV.offset = o at h hidx
      cases h with
      | nil =>
        have hle : ¬it.onsegEdges < nb.srcV.degree := by
          rw [hdeg, List.length_nil]
          push_cast
          omega
        have hnext : (nb.next it).ptr = .null := by simp [next, hseg, hgt, hle]
        rw [collectReads_null hnext] at hr
        simp [nextReads, hseg, hgt, hle] at hr
      | @cons b o l h0 h1 hc =>
        -- the switch to the chain reads its first entry
        have hlt : it.onsegEdges < nb.srcV.degree := by
          rw [hdeg, List.length_cons]
          push_cast
          omega
        simp only [nextReads, hseg, hgt, hlt, if_true, List.cons_append, List.nil_append,
          List.mem_cons, hidx] at hr
        rcases hr with rfl | hr
        · exact ⟨o, List.mem_cons_self, rfl⟩
        · obtain ⟨e, he, rfl⟩ := collectReads_chain hc (nb.next it) (by simp [next, hseg, hgt, hlt])
            (by simp [next, hseg, hgt, hlt, hidx]) (x := (nb.logP o).v)
            (by simp [next, hseg, hgt, hlt, hidx]) hr
          exact ⟨e, List.mem_cons_of_mem _ he, rfl⟩
  | succ k ih =>
    cases fuel with
    | zero => cases hr
    | succ fuel =>
      have hle : ¬it.onsegEdges < it.iteratorIndex + 1 := by push_cast at hit; omega
      rw [collectReads, if_neg (by simp [hptr]), hptr, derefReads, List.append_assoc,
        List.singleton_append, List.mem_cons] at hr
      simp only [nextReads, hseg, hle, gt_iff_lt, if_true, if_false, List.nil_append] at hr
      rcases hr with rfl | hr
      · exact .inl ⟨0, Nat.zero_le _, by simp⟩
      · rcases ih (nb.next it) (by rw [← hon]; simp [next, hseg, hle, hptr])
          (by simp [next, hseg, hle, hptr]) (by simp [next, hseg, hle, hptr, hidx]) (i := i + 1)
          (by simp [next, hseg, hle, hptr])
          (by simp only [next, hseg, hle, hptr, if_true, if_false]; push_cast at hit; omega) hr with
          ⟨j, hj, rfl⟩ | he
        · refine .inl ⟨j + 1, by omega, ?_⟩
          push_cast
          ring_nf
        · exact .inr he

/-- The constructor skips entries of the chain. -/
lemma mem_skipReads {logP : ℤ → LogEntry} {o : ℤ}
    (h : Chain (fun k => (logP k).prevOffset) b o slots) {m : ℕ} (hm : m ≤ slots.length)
    (hr : r ∈ skipReads logP m o) : ∃ e ∈ slots, r = .entry e := by
  induction m generalizing b o slots with
  | zero => cases hr
  | succ m ih =>
    cases h with
    | nil => simp at hm
    | @cons b o l h0 h1 hc =>
      rcases List.mem_cons.1 hr with rfl | hr
      · exact ⟨o, List.mem_cons_self, rfl⟩
      · obtain ⟨e, he, rfl⟩ := ih hc (by simpa using hm) hr
        exact ⟨e, List.mem_cons_of_mem _ he, rfl⟩

end Neighborhood

namespace Graph

variable {g : Graph} {v n m : ℕ} {l : List ℕ}

/-- The reads of an iteration over `out_neigh`, within `fuel` increments. -/
def outNeighReads (g : Graph) (n : ℕ) (startOffset : ℤ) (fuel : ℕ) : List NeighborRead :=
  Neighborhood.makeReads (g.vertices n) (startOffset + 1) (g.logPtr (n / g.segmentSize)).cur
    (g.onsegEdges n) ++
  (g.outNeigh n startOffset).collectReads fuel (g.outNeigh n startOffset).begin

/-- A read that concerns vertex `n`: a slot behind its pivot and before the next vertex, or a used entry
of its log that is its own. -/
inductive OwnRead (g : Graph) (n : ℕ) : NeighborRead → Prop where
  | slot {i} : (g.vertices n).index < i → i < (g.vertices n).index + g.onseg n →
    i < g.bound (n + 1) → OwnRead g n (.slot i)
  | entry {i} : 0 ≤ i → i < g.logSegmentIdx (g.leafOf n) →
    ((g.logPtr (g.leafOf n)).cur i).u = n → OwnRead g n (.entry i)

/-- The reads of an iteration from an offset: slots behind the pivot, and entries of the chain. -/
lemma Split.mem_outNeighReads (h : g.Split v m l) {slots : List ℤ} {b : ℤ}
    (hc : Chain (fun k => ((g.logPtr (g.leafOf v)).cur k).prevOffset) b (g.vertices v).offset slots)
    (hlen : slots.length = l.length - m) (k : ℕ) {fuel : ℕ} {r : NeighborRead}
    (hr : r ∈ g.outNeighReads v k fuel) :
    (∃ j : ℕ, j < m ∧ r = .slot ((g.vertices v).index + 1 + j)) ∨ ∃ e ∈ slots, r = .entry e := by
  have hle := h.le
  have hdeg := h.degree
  unfold outNeighReads outNeigh at hr
  rw [show v / g.segmentSize = g.leafOf v from (leafOf_eq v).symm, h.onseg] at hr
  rcases Nat.lt_or_ge k l.length with hk | hk
  · have hlt : (k : ℤ) + 1 < (g.vertices v).degree := by omega
    rcases Nat.lt_or_ge k m with hkm | hkm
    · -- the start is on-segment
      rw [Neighborhood.make_onseg hlt (by omega), Neighborhood.makeReads, min_eq_left hlt.le] at hr
      simp only [gt_iff_lt, if_pos hlt, if_pos (show (k : ℤ) + 1 < m + 1 by omega),
        List.nil_append] at hr
      rcases Neighborhood.collectReads_slots hc (by
          show (g.vertices v).degree = (m : ℤ) + 1 + slots.length
          omega) (m - k - 1) _ rfl rfl rfl rfl (by
          show (k : ℤ) + 1 + 1 + (m - k - 1 : ℕ) = m + 1
          omega) hr with ⟨j, hj, rfl⟩ | he
      · refine .inl ⟨k + j, by omega, ?_⟩
        push_cast
        ring_nf
      · exact .inr he
    · -- the start is in the log chain
      refine .inr ?_
      obtain ⟨b', hc'⟩ := Neighborhood.skip_chain hc (m := k - m) (by omega)
      rw [Neighborhood.make_onlog hlt (by omega), Neighborhood.makeReads, min_eq_left hlt.le] at hr
      simp only [gt_iff_lt, if_pos hlt, if_neg (show ¬(k : ℤ) + 1 < m + 1 by omega),
        show ((k : ℤ) + 1 - (m + 1)).toNat = k - m by omega] at hr
      have hsub : ∀ e ∈ slots.drop (k - m), e ∈ slots := fun e he => List.mem_of_mem_drop he
      have hne : slots.drop (k - m) ≠ [] := fun h0 => by
        have := congrArg List.length h0
        rw [List.length_drop, List.length_nil] at this
        omega
      generalize slots.drop (k - m) = rest at hc' hsub hne
      generalize ho : Neighborhood.skip (g.logPtr (g.leafOf v)).cur (k - m) (g.vertices v).offset = o
        at hc' hr
      cases hc' with
      | nil => exact absurd rfl hne
      | @cons b o rest h0 h1 hc' =>
        rcases List.mem_append.1 hr with hr | hr
        · rcases List.mem_append.1 hr with hr | hr
          · exact Neighborhood.mem_skipReads hc (by omega) hr
          · exact ⟨o, hsub o List.mem_cons_self, List.mem_singleton.1 hr⟩
        · obtain ⟨e, he, rfl⟩ := Neighborhood.collectReads_chain hc' _ rfl rfl rfl hr
          exact ⟨e, hsub e (List.mem_cons_of_mem _ he), rfl⟩
  · -- nothing is left
    have hge : (g.vertices v).degree ≤ (k : ℤ) + 1 := by omega
    rw [Neighborhood.collectReads_null (Neighborhood.make_done hge), Neighborhood.makeReads,
      min_eq_right hge] at hr
    simp at hr

/-- Every read of an iteration concerns its vertex. -/
lemma Holds.reads_own (h : g.Holds n (elements n l)) (hn : n < g.numVertices) (k : ℕ) {fuel : ℕ}
    {r : NeighborRead} (hr : r ∈ g.outNeighReads n k fuel) : g.OwnRead n r := by
  have hsplit := h.split hn
  have hpos := h.onseg_pos
  have hroom := h.room
  obtain ⟨slots, hc, hu, hvals⟩ := hsplit.logged
  have hlen := congrArg List.length hvals
  rw [List.length_map, List.length_map, List.length_reverse, List.length_drop] at hlen
  rcases hsplit.mem_outNeighReads hc hlen k hr with ⟨j, hj, rfl⟩ | ⟨e, he, rfl⟩
  · exact .slot (by omega) (by omega) (by omega)
  · exact .entry (hc.mem he).1 (hc.mem he).2 (hu e he)

/-- An iteration from a start offset ends and yields the sequence of the iteration from the start without
as many destinations as the offset says; it reads neither the pivot, nor a slot of the next vertex, nor
an entry that is not in the chain of its vertex. -/
theorem outNeigh_from (h : g.Holds n (elements n l)) (hn : n < g.numVertices) (k : ℕ) :
    ∃ s : List ℤ, (s.length : ℤ) = g.outDegree n ∧ s.Perm (l.map Nat.cast) ∧
      (g.outNeigh n 0).Yields s ∧ (g.outNeigh n k).Yields (s.drop k) ∧
      (g.inNeigh n k).Yields (s.drop k) ∧ (g.outDegree n ≤ k → (g.outNeigh n k).Yields []) ∧
      ∀ fuel, ∀ r ∈ g.outNeighReads n k fuel, g.OwnRead n r := by
  have hdeg := (h.split hn).degree
  have hk := h.outNeigh_yields_from hn k
  rw [List.map_drop] at hk
  refine ⟨(yielded (g.onseg n - 1).toNat l).map Nat.cast, ?_, (yielded_perm _ l).map _,
    h.outNeigh_yields_from hn 0, hk, hk, fun hle => ?_, fun fuel r hr => h.reads_own hn k hr⟩
  · rw [List.length_map, yielded_length, outDegree, hdeg]
    ring
  · rw [outDegree, hdeg] at hle
    rwa [List.drop_eq_nil_of_le (by rw [List.length_map, yielded_length]; omega)] at hk

/-- A vertex with three of its five destinations on-segment: the last one in its log is left from offset 4
on. -/
theorem outNeigh_from_four : ∃ g, Run ⟨fun _ => 7, fun _ => .zero⟩ true 0 4 []
    (List.replicate 5 (0, 1)) g ∧ g.outDegree 0 = 5 ∧
    ∃ s : List ℤ, s.length = 5 ∧ (g.outNeigh 0 4).Yields (s.drop 4) := by
  obtain ⟨g, hg⟩ : ∃ g, Run ⟨fun _ => 7, fun _ => .zero⟩ true 0 4 [] (List.replicate 5 (0, 1)) g :=
    Run.exists_of_bound _ _ _ (by decide) (by decide) (by decide) (by decide) (by decide)
  have hn : 0 < g.numVertices := by rw [hg.numVertices]; decide
  have hh := hg.layout.holds 0 hn
  have hdeg : g.outDegree 0 = 5 := by
    rw [outDegree, hh.degree]
    decide
  obtain ⟨s, hlen, -, -, hs, -⟩ := outNeigh_from hh hn 4
  rw [hdeg] at hlen
  exact ⟨g, hg, hdeg, s, by exact_mod_cast hlen, hs⟩

end Graph

end Dgap
