import Dgap.Layout.Window

/-!
# Resizing keeps the layout

`resize_V1` copies every vertex into a zeroed array of twice the capacity. `Resized g g'` is its effect
(`resizeV1_spec`). For the last vertex the code deduces the on-segment count from the doubled capacity
and copies too many slots; this stays harmless for the elements, because nothing follows the last vertex
and its logged edges are written afterwards (`resizeLoop_spec`).
-/

namespace Dgap

open Memory

namespace Graph

/-- The `memcpy` of `resize_V1` is a copy from the old array. -/
@[simp] lemma resizeCopy_cur (edges : ℤ → ℤ) (k : ℕ) (src dst : ℤ) (a : Image ℤ) :
    (resizeLoop.resizeCopy edges k src dst a).cur = copyFrom edges k src dst a.cur := by
  induction k generalizing src dst a with
  | zero => rfl
  | succ k ih => simp [resizeLoop.resizeCopy, copyFrom, ih]

/-- The drain loop of `resize_V1` writes the values of the chain downwards. -/
lemma resizeDrain_cur {log : ℤ → LogEntry} {b o : ℤ} {v fuel : ℕ} {vals : List ℤ}
    (h : Logged log b v o vals) (hf : vals.length ≤ fuel) (w : ℤ) (a : Image ℤ) :
    (resizeLoop.resizeDrain log fuel o w a).cur = writeDown vals w a.cur := by
  obtain ⟨slots, hc, -, rfl⟩ := h
  induction hc generalizing fuel w a with
  | nil => cases fuel <;> rfl
  | @cons b o l h0 h1 hc ih =>
    cases fuel with
    | zero => simp at hf
    | succ fuel =>
      have ho : o ≠ -1 := by omega
      simp only [resizeLoop.resizeDrain, if_neg ho, List.map_cons, writeDown]
      rw [ih (w - 1) _ (by simpa using hf)]
      simp

/-- The body of the loop of `resize_V1`: a vertex is written to its target with all its elements, and
no slot left of the target changes. -/
lemma resize_vertex {g : Graph} {v : ℕ} {c : List ℤ} (hh : g.Holds v c)
    (h0 : 0 ≤ g.logSegmentIdx (g.leafOf v)) (hidx : g.logSegmentIdx (g.leafOf v) ≤ maxLogEntries)
    {cnt : ℤ} (new : ℤ) (hcnt : g.onseg v ≤ cnt) (a a' : Image ℤ)
    (ha' : a' = if (g.vertices v).offset ≠ -1 then
        resizeLoop.resizeDrain (g.logPtr (g.leafOf v)).cur maxLogEntries (g.vertices v).offset
          (new + (g.vertices v).degree - 1)
          (resizeLoop.resizeCopy g.edges.cur cnt.toNat (g.vertices v).index new a)
      else resizeLoop.resizeCopy g.edges.cur cnt.toNat (g.vertices v).index new a) :
    slice a'.cur new c.length = c ∧ ∀ x < new, a'.cur x = a.cur x := by
  have hpos := hh.onseg_pos
  have hle := hh.onseg_le
  set on := g.onseg v with hon
  set vals := (c.drop on.toNat).reverse with hvals
  have hlen : (vals.length : ℤ) = c.length - on := by
    rw [hvals, List.length_reverse, List.length_drop]
    omega
  have hlogged : Logged _ _ v _ vals := hh.logged
  have hcur : a'.cur = writeDown vals (new + c.length - 1)
      (copyFrom g.edges.cur cnt.toNat (g.vertices v).index new a.cur) := by
    rw [ha']
    by_cases ho : (g.vertices v).offset = -1
    · rw [hlogged.nil_iff.2 ho]
      simp [ho, writeDown]
    · have hfuel : vals.length ≤ maxLogEntries := by
        have := hlogged.length_le h0
        omega
      rw [if_pos ho, resizeDrain_cur hlogged hfuel, hh.degree, resizeCopy_cur]
  rw [hcur]
  refine ⟨?_, fun x hx => ?_⟩
  · have hsplit : c.length = on.toNat + vals.length := by omega
    rw [hsplit, slice_add, show new + ((on.toNat + vals.length : ℕ) : ℤ) - 1
        = new + (on.toNat : ℤ) + vals.length - 1 by push_cast; ring, slice_writeDown]
    have hfst : slice (writeDown vals (new + (on.toNat : ℤ) + vals.length - 1)
        (copyFrom g.edges.cur cnt.toNat (g.vertices v).index new a.cur)) new on.toNat =
          c.take on.toNat := by
      rw [← hh.slots]
      apply slice_congr
      intro j hj
      rw [writeDown_outside (by omega), copyFrom_inside (by omega) (by omega)]
      congr 1
      omega
    rw [hfst, hvals, List.reverse_reverse, List.take_append_drop]
  · rw [writeDown_outside (by omega), copyFrom_outside (by omega)]

variable {g g' : Graph} {adj : ℕ → List ℕ}

/-- The loop of `resize_V1` over the vertices from `vi` on, run with the doubled capacity. -/
lemma Layout.resizeLoop_spec (hL : g.Layout adj) (cap : ℤ) (hcap : g.elemCapacity ≤ cap)
    {newIndices : List ℤ} {new : ℕ → ℤ} (hnew : ∀ v, newIndices.getD v 0 = new v)
    (hord : ∀ v w, v < w → w < g.numVertices → new v + (g.vertices v).degree ≤ new w)
    (k vi : ℕ) (hk : vi + k = g.numVertices) (st : (ℕ → VertexElement) × Image ℤ)
    (hdone : ∀ v < vi, st.1 v = ⟨new v, (g.vertices v).degree, -1⟩ ∧
      slice st.2.cur (new v) (elements v (adj v)).length = elements v (adj v))
    (htodo : ∀ v, vi ≤ v → st.1 v = g.vertices v) :
    let st' := ({ g with elemCapacity := cap } : Graph).resizeLoop cap g.edges.cur newIndices k vi st
    (∀ v < g.numVertices, st'.1 v = ⟨new v, (g.vertices v).degree, -1⟩ ∧
      slice st'.2.cur (new v) (elements v (adj v)).length = elements v (adj v)) ∧
    ∀ v, g.numVertices ≤ v → st'.1 v = g.vertices v := by
  induction k generalizing vi st with
  | zero =>
    obtain rfl : vi = g.numVertices := by omega
    exact ⟨hdone, htodo⟩
  | succ k ih =>
    obtain ⟨vs, a⟩ := st
    have hvi : vi < g.numVertices := by omega
    have hh := hL.holds vi hvi
    obtain ⟨hi0, hi1⟩ := hL.logIdx_leafOf hvi
    simp only [Graph.resizeLoop]
    have hv : vs vi = g.vertices vi := htodo vi (le_refl _)
    have hv1 : vs (vi + 1) = g.vertices (vi + 1) := htodo (vi + 1) (by omega)
    -- the deduced count is at least the on-segment count
    have hcnt : g.onseg vi ≤ if (vs vi).offset ≠ -1 then
        (if vi = g.numVertices - 1 then cap - 1 else (vs (vi + 1)).index - 1) - (vs vi).index + 1
        else (vs vi).degree := by
      rw [hv, hv1]
      by_cases ho : (g.vertices vi).offset = -1
      · simp [onseg_of_none ho, ho]
      · rw [if_pos ho, onseg_of_some ho]
        unfold bound
        split <;> split <;> omega
    obtain ⟨hs, hbelow⟩ := resize_vertex hh hi0 hi1 (new vi) hcnt a _ rfl
    rw [hv] at hs hbelow
    refine ih (vi + 1) (by omega) _ (fun v hv' => ?_) fun v hv' => ?_
    · dsimp only
      rw [hnew, hv]
      by_cases hvv : v = vi
      · subst hvv
        rw [Function.update_self]
        exact ⟨rfl, hs⟩
      · obtain ⟨h1, h2⟩ := hdone v (by omega)
        rw [Function.update_of_ne hvv]
        refine ⟨h1, (slice_congr fun j hj => ?_).trans h2⟩
        have hord' := hord v vi (by omega) hvi
        have hd := (hL.holds v (by omega)).degree
        exact hbelow _ (by omega)
    · dsimp only
      rw [Function.update_of_ne (by omega)]
      exact htodo v (by omega)

/-- What `resize_V1` does. -/
structure Resized (g g' : Graph) : Prop extends SameShape g g' where
  numEdges : g'.numEdges = g.numEdges
  elemCapacity : g'.elemCapacity = g.elemCapacity * 2
  actual : g'.segmentEdgesActual = g.segmentEdgesActual
  bp : g'.bp = { g.bp with elemCapacity := g'.elemCapacity }
  degree : ∀ v, (g'.vertices v).degree = (g.vertices v).degree
  offset : ∀ v < g.numVertices, (g'.vertices v).offset = -1
  first : (g'.vertices 0).index = (g.vertices 0).index
  room : ∀ v < g.numVertices,
    (g'.vertices v).index + (g.vertices v).degree ≤ g'.bound (v + 1)
  slots : ∀ v < g.numVertices, ∀ c, g.Holds v c →
    slice g'.edges.cur (g'.vertices v).index c.length = c
  logIdx : ∀ s < g.segmentCount, g'.logSegmentIdx s = 0
  logPtr : ∀ s < g.segmentCount, g'.logPtr s = released (g.logPtr s) (g.logSegmentIdx s)
  total : ∀ s < g.segmentCount, g'.segmentEdgesTotal (s + g.segmentCount) =
    g'.bound ((s + 1) * g.segmentSize) - g'.bound (s * g.segmentSize)
  durable : ∀ x, 0 ≤ x → x < g'.elemCapacity → g'.edges.DurableAt x

/-- What `resize_V1` does when none of its assertions fails. -/
lemma Layout.resizeV1_spec (hL : g.Layout adj) (h : g.resizeV1 = some g') : Resized g g' := by
  have hg := hL.geometry
  have hn2 := hg.two_le_vertices
  have hcap0 := hL.capacity_pos
  simp only [resizeV1] at h
  split at h
  case h_1 => cases h
  case h_2 newIndices hpos =>
    have hd : ∀ v, 0 ≤ v → v < g.numVertices → 0 ≤ (g.vertices v).degree := hL.degree_nonneg (le_refl _)
    obtain ⟨ht, hfirst⟩ := calculatePositions_targets (g := { g with
      elemCapacity := g.elemCapacity * 2 }) (show 0 < g.numVertices by omega) (le_refl _) hd hpos
    set new := newAt newIndices 0 with hnew
    have hloop := hL.resizeLoop_spec (g.elemCapacity * 2) (by omega)
      (show ∀ v, newIndices.getD v 0 = new v from fun v => by rw [hnew, newAt, Nat.sub_zero])
      (fun v w hvw hw => ht.ordered hd (Nat.zero_le v) hvw hw) g.numVertices 0 (by omega)
      (g.vertices, zallocEdges g.foreign (g.elemCapacity * 2)) (fun v hv => by omega)
      fun v _ => rfl
    set st := ({ g with elemCapacity := g.elemCapacity * 2 } : Graph).resizeLoop
      (g.elemCapacity * 2) g.edges.cur newIndices g.numVertices 0
      (g.vertices, zallocEdges g.foreign (g.elemCapacity * 2)) with hst
    obtain ⟨hin, hout⟩ := hloop
    obtain rfl := Option.some.inj h
    rw [releaseLogs_eq]
    have hshape : SameShape g { g with
        elemCapacity := g.elemCapacity * 2
        vertices := st.1
        edges := st.2.flush 0 (g.elemCapacity * 2)
        segmentEdgesTotal := (({ g with
          elemCapacity := g.elemCapacity * 2
          vertices := st.1
          edges := st.2.flush 0 (g.elemCapacity * 2) } : Graph).recountSegmentTotalAll).segmentEdgesTotal
        logPtr := fun t => if 0 ≤ t ∧ t < 0 + g.segmentCount
          then released (g.logPtr t) (g.logSegmentIdx t) else g.logPtr t
        logSegmentIdx := fun t => if 0 ≤ t ∧ t < 0 + g.segmentCount then 0 else g.logSegmentIdx t
        bp := { g.bp with elemCapacity := g.elemCapacity * 2 } } := ⟨rfl, rfl, rfl, rfl, rfl, rfl⟩
    refine ⟨hshape, rfl, rfl, rfl, rfl, ?_, ?_, ?_, ?_, ?_, ?_, ?_, ?_, ?_⟩
    · intro v
      by_cases hv : v < g.numVertices
      · show (st.1 v).degree = _
        rw [(hin v hv).1]
      · show (st.1 v).degree = _
        rw [hout v (by omega)]
    · intro v hv
      show (st.1 v).offset = -1
      rw [(hin v hv).1]
    · show (st.1 0).index = _
      rw [(hin 0 (by omega)).1, ← bound_of_lt (g := g) (by omega)]
      rw [bound_of_lt (by show 0 < g.numVertices; omega)] at hfirst
      rw [bound_of_lt (by omega)]
      exact hfirst
    · intro v hv
      show (st.1 v).index + _ ≤ if g.numVertices ≤ v + 1 then _ else (st.1 (v + 1)).index
      rw [(hin v hv).1]
      split
      · have hlast := ht.last
        rw [bound_of_ge (le_refl _)] at hlast
        obtain rfl : v = g.numVertices - 1 := by omega
        exact hlast
      · rw [(hin (v + 1) (by omega)).1]
        exact ht.step v (Nat.zero_le v) (by rename_i hlt; exact lt_of_not_ge hlt)
    · intro v hv c hc
      rw [hc.unique (hL.holds v hv)]
      show slice st.2.cur (st.1 v).index _ = _
      rw [(hin v hv).1]
      exact (hin v hv).2
    · intro s hs
      exact if_pos ⟨Nat.zero_le s, by rw [zero_add]; exact hs⟩
    · intro s hs
      exact if_pos ⟨Nat.zero_le s, by rw [zero_add]; exact hs⟩
    · intro s hs
      have hrange : g.segmentCount ≤ s + g.segmentCount ∧
          s + g.segmentCount < 2 * g.segmentCount := by omega
      show (if g.segmentCount ≤ s + g.segmentCount ∧ s + g.segmentCount < 2 * g.segmentCount
        then segmentTotal _ (s + g.segmentCount - g.segmentCount) else _) = _
      rw [if_pos hrange, Nat.add_sub_cancel]
      exact (hshape.geometry hg).segmentTotal_eq hs
    · intro x hx1 hx2
      exact Image.DurableAt.of_flush _ hx1 (by rw [zero_add]; exact hx2)

/-- A resize keeps the layout. -/
lemma Resized.layout (h : Resized g g') (hL : g.Layout adj) : g'.Layout adj := by
  have hg := hL.geometry
  have hdsum : ∀ a b, g'.degreeSum a b = g.degreeSum a b := fun a b =>
    degreeSum_congr fun v _ _ => h.degree v
  refine ⟨h.geometry hg, ?_, ?_, ?_, ?_, ?_, ?_, ?_⟩
  · have hpos := hg.two_le_vertices
    have h0 := hL.first
    rw [bound_of_lt (by omega)] at h0
    rw [bound_of_lt (by rw [h.numVertices]; omega), h.first, h0]
  · intro v hv
    rw [h.numVertices] at hv
    have hh := hL.holds v hv
    refine Holds.of_placed ?_ (h.offset v hv) (by simp [elements]) ?_ (h.slots v hv _ hh)
    · rw [h.degree, hh.degree]
    · have := h.room v hv
      rw [hh.degree] at this
      exact this
  · intro s hs
    rw [h.segmentCount] at hs
    rw [h.logIdx s hs]
    exact ⟨le_refl _, by simp [maxLogEntries]⟩
  · intro s hs k hk
    rw [h.segmentCount] at hs
    rw [h.logIdx s hs] at hk
    rw [h.logPtr s hs]
    exact released_cur (hL.logClear s hs) hk
  · intro s hs
    rw [h.segmentCount] at hs
    rw [h.actual, h.segmentCount, h.segmentSize, hdsum]
    exact hL.actual s hs
  · intro s hs
    rw [h.segmentCount] at hs
    rw [h.segmentCount, h.segmentSize]
    exact h.total s hs
  · rw [h.numEdges, h.numVertices, hdsum]
    exact hL.numEdges

/-- No assertion of `resize_V1` fails when the doubled array has a gap and the numbers stay below the
precision of the step. -/
lemma Layout.resizeV1_isSome (hL : g.Layout adj) (hgap : g.numEdges < g.elemCapacity * 2)
    (hbound : g.numEdges + g.numVertices ≤ 100000000) : ∃ g', g.resizeV1 = some g' := by
  have hn2 := hL.geometry.two_le_vertices
  obtain ⟨newIndices, hpos⟩ := calculatePositions_isSome
    (g := { g with elemCapacity := g.elemCapacity * 2 }) 0 g.numVertices
    (g.elemCapacity * 2 - g.numEdges) g.numEdges (by omega) (le_refl _)
    (hL.degree_nonneg (le_refl _))
    (by
      have := hL.bound_nonneg (Nat.zero_le g.numVertices)
      rw [bound_of_lt (by omega)] at this
      rw [bound_of_lt (by show 0 < g.numVertices; omega)]
      exact this)
    (by omega) hL.numEdges (by simp only [Nat.sub_zero]; omega) (by
      have h0 := hL.first
      rw [bound_of_lt (by omega)] at h0
      rw [bound_of_lt (by show 0 < g.numVertices; omega), bound_of_ge (le_refl _)]
      simp only [h0]
      omega)
  cases h : g.resizeV1 with
  | some g' => exact ⟨g', rfl⟩
  | none => simp [resizeV1, hpos] at h

end Graph

end Dgap
