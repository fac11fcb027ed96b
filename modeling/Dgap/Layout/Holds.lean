import Dgap.Graph.Neighborhood
import Dgap.Memory.Chain

/-!
# What it means that a vertex holds its elements

The elements of a vertex are its pivot and its edges (`elements`). `Holds g v c` says that vertex `v`
holds the list `c`: a first part lies on-segment, from `vertices_[v].index` on, and ends at or before
the next vertex; the rest is its log chain, newest first (`Logged`). How much is on-segment is not
stored: it is the whole degree without a log chain, and everything up to the next vertex otherwise
(`onseg`). The frame lemmas say which changes of a graph leave `Holds` alone.
-/

namespace Dgap

open Memory

/-- The elements of a vertex in slot order: its pivot, then its destinations. -/
def elements (v : ℕ) (l : List ℕ) : List ℤ := -(v : ℤ) :: l.map Nat.cast

/-- A vertex has one element more than edges. -/
@[simp] lemma elements_length (v : ℕ) (l : List ℕ) : (elements v l).length = l.length + 1 := by
  simp [elements]

/-- A new edge is the last element. -/
lemma elements_concat (v : ℕ) (l : List ℕ) (x : ℕ) :
    elements v (l ++ [x]) = elements v l ++ [(x : ℤ)] := by
  simp [elements]

/-- The log chain from `o` belongs to `v`, lies below `b` and carries the values `vals`. -/
def Logged (log : ℤ → LogEntry) (b : ℤ) (v : ℕ) (o : ℤ) (vals : List ℤ) : Prop :=
  ∃ slots, Chain (fun k => (log k).prevOffset) b o slots ∧ (∀ k ∈ slots, (log k).u = v) ∧
    slots.map (fun k => (log k).v) = vals

namespace Logged

variable {log log' : ℤ → LogEntry} {b b' o : ℤ} {v : ℕ} {vals : List ℤ}

/-- The null offset is the empty chain. -/
lemma none : Logged log b v (-1) [] := ⟨[], .nil, by simp, rfl⟩

/-- A chain is empty exactly at the null offset. -/
lemma nil_iff (h : Logged log b v o vals) : vals = [] ↔ o = -1 := by
  obtain ⟨slots, hc, _, rfl⟩ := h
  rw [List.map_eq_nil_iff, hc.nil_iff]

/-- A chain survives any change of the log above its bound. -/
lemma frame (h : Logged log b v o vals) (le : b ≤ b')
    (e : ∀ k, 0 ≤ k → k < b → log' k = log k) : Logged log' b' v o vals := by
  obtain ⟨slots, hc, hu, hv⟩ := h
  have same : ∀ k ∈ slots, log' k = log k := fun k hk => e k (hc.mem hk).1 (hc.mem hk).2
  refine ⟨slots, (hc.congr fun k hk => by rw [same k hk]).mono le, fun k hk => ?_, ?_⟩
  · rw [same k hk]
    exact hu k hk
  · rw [← hv]
    exact List.map_congr_left fun k hk => by rw [same k hk]

/-- A new entry on top of a chain. -/
lemma push (h : Logged log b v o vals) (hb : 0 ≤ b) (x : ℤ) :
    Logged (Function.update log b ⟨v, x, o⟩) (b + 1) v b (x :: vals) := by
  have hf : Logged (Function.update log b ⟨v, x, o⟩) b v o vals :=
    h.frame (le_refl b) fun k _ hk => Function.update_of_ne (by omega) _ _
  obtain ⟨slots, hc, hu, hv⟩ := hf
  refine ⟨b :: slots, .cons hb (by omega) ?_, ?_, ?_⟩
  · simpa using hc
  · intro k hk
    rcases List.mem_cons.1 hk with rfl | hk
    · simp
    · exact hu k hk
  · simp [hv]

/-- A chain has at most as many entries as the log below its bound. -/
lemma length_le (h : Logged log b v o vals) (hb : 0 ≤ b) : (vals.length : ℤ) ≤ b := by
  obtain ⟨slots, hc, _, rfl⟩ := h
  have := hc.length_le
  rw [List.length_map]
  omega

/-- Neither the values nor the chain depend on anything but the head. -/
lemma unique {vals' : List ℤ} (h : Logged log b v o vals) (h' : Logged log b' v o vals') :
    vals = vals' := by
  obtain ⟨slots, hc, _, rfl⟩ := h
  obtain ⟨slots', hc', _, rfl⟩ := h'
  rw [hc.unique hc']

end Logged

namespace Graph

variable {g g' : Graph} {v w : ℕ} {c : List ℤ}

/-- The number of on-segment elements of a vertex. -/
def onseg (g : Graph) (v : ℕ) : ℤ :=
  if (g.vertices v).offset = -1 then (g.vertices v).degree
  else g.bound (v + 1) - (g.vertices v).index

/-- The bound of a vertex is its index. -/
lemma bound_of_lt (h : v < g.numVertices) : g.bound v = (g.vertices v).index :=
  if_neg (by omega)

/-- The bound behind the last vertex is the capacity. -/
lemma bound_of_ge (h : g.numVertices ≤ v) : g.bound v = g.elemCapacity := if_pos h

/-- `out_neigh` deduces the on-segment count. -/
lemma onsegEdges_eq (h : v < g.numVertices) : g.onsegEdges v = g.onseg v := by
  unfold onsegEdges onseg bound
  by_cases ho : (g.vertices v).offset = -1
  · simp [ho]
  · by_cases hv : g.numVertices ≤ v + 1
    · simp only [ho, hv, ne_eq, not_false_eq_true, if_true, if_false]
      rw [if_pos (by omega)]
      ring
    · simp only [ho, hv, ne_eq, not_false_eq_true, if_true, if_false]
      rw [if_neg (by omega)]
      ring

/-- Without a log chain, everything is on-segment. -/
lemma onseg_of_none (h : (g.vertices v).offset = -1) : g.onseg v = (g.vertices v).degree := if_pos h

/-- With a log chain, the on-segment part reaches up to the next vertex. -/
lemma onseg_of_some (h : (g.vertices v).offset ≠ -1) :
    g.onseg v = g.bound (v + 1) - (g.vertices v).index := if_neg h

/-- Vertex `v` holds the elements `c`. -/
structure Holds (g : Graph) (v : ℕ) (c : List ℤ) : Prop where
  degree : (g.vertices v).degree = c.length
  onseg_pos : 1 ≤ g.onseg v
  onseg_le : g.onseg v ≤ c.length
  room : (g.vertices v).index + g.onseg v ≤ g.bound (v + 1)
  slots : slice g.edges.cur (g.vertices v).index (g.onseg v).toNat = c.take (g.onseg v).toNat
  logged : Logged (g.logPtr (g.leafOf v)).cur (g.logSegmentIdx (g.leafOf v)) v
    (g.vertices v).offset (c.drop (g.onseg v).toNat).reverse

namespace Holds

/-- A vertex with a log chain is full: nothing fits between its elements and the next vertex. -/
lemma full (h : Holds g v c) (ho : (g.vertices v).offset ≠ -1) :
    g.bound (v + 1) ≤ (g.vertices v).index + (g.vertices v).degree := by
  have := h.onseg_le
  rw [onseg_of_some ho] at this
  rw [h.degree]
  omega

/-- A vertex is in its place when all its elements are on-segment and it has no log chain. -/
lemma of_placed (hd : (g.vertices v).degree = c.length) (ho : (g.vertices v).offset = -1)
    (hc : c ≠ []) (hr : (g.vertices v).index + c.length ≤ g.bound (v + 1))
    (hs : slice g.edges.cur (g.vertices v).index c.length = c) : Holds g v c := by
  have e : g.onseg v = c.length := by rw [onseg_of_none ho, hd]
  have := List.length_pos_of_ne_nil hc
  refine ⟨hd, by omega, by omega, by omega, ?_, ?_⟩
  · rw [e, Int.toNat_natCast, hs, List.take_length]
  · rw [e, Int.toNat_natCast, List.drop_length, ho]
    exact Logged.none

/-- A vertex holds only one list. -/
lemma unique {c' : List ℤ} (h : Holds g v c) (h' : Holds g v c') : c = c' := by
  have e1 : c.take (g.onseg v).toNat = c'.take (g.onseg v).toNat := by rw [← h.slots, ← h'.slots]
  have e2 := h.logged.unique h'.logged
  rw [List.reverse_inj] at e2
  rw [← List.take_append_drop (g.onseg v).toNat c, e1, e2, List.take_append_drop]

/-- `Holds` depends on the vertex, where the next one begins, its on-segment slots and its log. -/
lemma frame (h : Holds g v c) (hv : g'.vertices v = g.vertices v)
    (hb : g'.bound (v + 1) = g.bound (v + 1))
    (hs : ∀ x, (g.vertices v).index ≤ x → x < (g.vertices v).index + g.onseg v →
      g'.edges.cur x = g.edges.cur x)
    (hl : g'.leafOf v = g.leafOf v)
    (hi : g.logSegmentIdx (g.leafOf v) ≤ g'.logSegmentIdx (g.leafOf v))
    (hlog : ∀ k, 0 ≤ k → k < g.logSegmentIdx (g.leafOf v) →
      (g'.logPtr (g.leafOf v)).cur k = (g.logPtr (g.leafOf v)).cur k) : Holds g' v c := by
  have e : g'.onseg v = g.onseg v := by unfold onseg; rw [hv, hb]
  refine ⟨by rw [hv]; exact h.degree, by rw [e]; exact h.onseg_pos, by rw [e]; exact h.onseg_le,
    by rw [hv, e, hb]; exact h.room, ?_, ?_⟩
  · rw [hv, e, ← h.slots]
    apply slice_congr
    intro j hj
    have := h.onseg_pos
    apply hs <;> omega
  · rw [hv, e, hl]
    exact h.logged.frame hi hlog

end Holds

/-- The elements of vertex `v` are `c`: the weaker form of `Holds` that moving a vertex needs. The vertex
may have no element on-segment, and its log chain may be any that ends and stays inside the log. -/
structure Arranged (g : Graph) (v : ℕ) (c : List ℤ) : Prop where
  degree : (g.vertices v).degree = c.length
  onseg_nonneg : 0 ≤ g.onseg v
  onseg_le : g.onseg v ≤ c.length
  room : (g.vertices v).index + g.onseg v ≤ g.bound (v + 1)
  slots : slice g.edges.cur (g.vertices v).index (g.onseg v).toNat = c.take (g.onseg v).toNat
  logged : ∃ slots, Links (fun k => ((g.logPtr (g.leafOf v)).cur k).prevOffset)
      (g.vertices v).offset slots ∧ slots.length ≤ maxLogEntries ∧
    slots.map (fun k => ((g.logPtr (g.leafOf v)).cur k).v) = (c.drop (g.onseg v).toNat).reverse

/-- A vertex that holds its elements has them arranged. -/
lemma Holds.arranged (h : Holds g v c) (h0 : 0 ≤ g.logSegmentIdx (g.leafOf v))
    (h1 : g.logSegmentIdx (g.leafOf v) ≤ maxLogEntries) : Arranged g v c := by
  have hpos := h.onseg_pos
  obtain ⟨slots, hc, -, hv⟩ := h.logged
  have hlen := hc.length_le
  exact ⟨h.degree, by omega, h.onseg_le, h.room, h.slots, slots, hc.links, by omega, hv⟩

end Graph

end Dgap
