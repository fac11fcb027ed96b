import Dgap.Layout.Density
import Dgap.Layout.Relocate
import Dgap.Memory.Access

/-!
# Which slots a resize reads and writes

`resizeTrace` are the accesses of the loop of `resize_V1`, in order: reads of the old edge array and
writes to the new one (`resizeV1_replay`). For every vertex but the last the deduced on-segment count is
the right one, since the next vertex has not been moved yet. For the last vertex the count is deduced
from the capacity, which has been doubled already: if the vertex has edges in its log, the loop copies
from behind the old array (`Layout.read_outside`). So a resize is in bounds exactly when the last vertex
has no edges in its log (`resize_in_bounds`).
-/

namespace Dgap

open Memory

namespace Graph

variable {g g' g1 : Graph} {adj : ℕ → List ℕ} {newIndices : List ℤ} {cap i : ℤ}

/-- The writes of the loop that moves logged edges into the new array. -/
def drainAccesses (log : ℤ → LogEntry) : ℕ → ℤ → ℤ → List (Access ℤ)
  | 0, _, _ => []
  | fuel + 1, currOff, writeIndex =>
    if currOff = -1 then []
    else .write writeIndex (log currOff).v ::
      drainAccesses log fuel (log currOff).prevOffset (writeIndex - 1)

/-- The accesses of the loop of `resize_V1` over `k` vertices from `vi` on. -/
def resizeAccesses (g : Graph) (elemCapacity : ℤ) (edges : ℤ → ℤ) (newIndices : List ℤ) :
    ℕ → ℕ → (ℕ → VertexElement) → List (Access ℤ)
  | 0, _, _ => []
  | k + 1, vi, vertices =>
    let nextVertexBoundary :=
      if vi = g.numVertices - 1 then elemCapacity - 1 else (vertices (vi + 1)).index - 1
    let v := vertices vi
    let onsegNumEdges := if v.offset ≠ -1 then nextVertexBoundary - v.index + 1 else v.degree
    let newIndex := newIndices.getD vi 0
    Access.copying edges onsegNumEdges.toNat v.index newIndex ++
      ((if v.offset ≠ -1 then
          drainAccesses (g.logPtr (g.leafOf vi)).cur maxLogEntries v.offset (newIndex + v.degree - 1)
        else []) ++
      resizeAccesses g elemCapacity edges newIndices k (vi + 1)
        (Function.update vertices vi ⟨newIndex, v.degree, -1⟩))

/-- The accesses of `resize_V1`. -/
def resizeTrace (g : Graph) : List (Access ℤ) :=
  let g := { g with elemCapacity := g.elemCapacity * 2 }
  match g.calculatePositions 0 g.numVertices (g.elemCapacity - g.numEdges) g.numEdges with
  | none => []
  | some newIndices =>
    g.resizeAccesses g.elemCapacity g.edges.cur newIndices g.numVertices 0 g.vertices

/-- The trace of a copy does what the copy does. -/
lemma replay_copying (edges : ℤ → ℤ) (k : ℕ) (src dst : ℤ) (a : Image ℤ) :
    Access.replay (Access.copying edges k src dst) a = resizeLoop.resizeCopy edges k src dst a := by
  induction k generalizing src dst a with
  | zero => rfl
  | succ k ih => exact ih (src + 1) (dst + 1) (a.store dst (edges src))

/-- The trace of a drain does what the drain does. -/
lemma replay_drainAccesses (log : ℤ → LogEntry) (fuel : ℕ) (o w : ℤ) (a : Image ℤ) :
    Access.replay (drainAccesses log fuel o w) a = resizeLoop.resizeDrain log fuel o w a := by
  induction fuel generalizing o w a with
  | zero => rfl
  | succ fuel ih =>
    unfold drainAccesses resizeLoop.resizeDrain
    split
    · rfl
    · exact ih (log o).prevOffset (w - 1) (a.store w (log o).v)

/-- The trace of the loop does what the loop does. -/
lemma replay_resizeAccesses (g : Graph) (edges : ℤ → ℤ) (newIndices : List ℤ) (k vi : ℕ)
    (vertices : ℕ → VertexElement) (a : Image ℤ) :
    Access.replay (g.resizeAccesses cap edges newIndices k vi vertices) a =
      (g.resizeLoop cap edges newIndices k vi (vertices, a)).2 := by
  induction k generalizing vi vertices a with
  | zero => rfl
  | succ k ih =>
    simp only [resizeAccesses, resizeLoop, Access.replay_append, replay_copying]
    split
    · rw [replay_drainAccesses, ih]
    · rw [Access.replay_nil, ih]

/-- A drain reads no edge. -/
lemma reads_drainAccesses (log : ℤ → LogEntry) (fuel : ℕ) (o w : ℤ) :
    Access.reads (drainAccesses log fuel o w) = [] := by
  induction fuel generalizing o w with
  | zero => rfl
  | succ fuel ih =>
    unfold drainAccesses
    split
    · rfl
    · rw [Access.reads_write, ih]

/-- A drain writes as many slots as the chain has entries, downwards. -/
lemma write_mem_drainAccesses {log : ℤ → LogEntry} {o : ℤ} {slots : List ℤ}
    (h : Links (fun k => (log k).prevOffset) o slots) {fuel : ℕ} {w x : ℤ}
    (hm : .write i x ∈ drainAccesses log fuel o w) : w - slots.length < i ∧ i ≤ w := by
  induction h generalizing fuel w with
  | nil => cases fuel <;> cases hm
  | @cons o l ho hl ih =>
    cases fuel with
    | zero => cases hm
    | succ fuel =>
      rw [drainAccesses, if_neg ho] at hm
      rw [List.length_cons]
      push_cast
      rcases List.mem_cons.1 hm with hm | hm
      · cases hm
        omega
      · have := ih hm
        omega

/-- The number of elements that the loop copies for vertex `v`, run with the capacity `cap`. -/
def copied (g : Graph) (cap : ℤ) (v : ℕ) : ℤ :=
  if (g.vertices v).offset ≠ -1 then
    (if v = g.numVertices - 1 then cap - 1 else (g.vertices (v + 1)).index - 1) -
      (g.vertices v).index + 1
  else (g.vertices v).degree

/-- The accesses for vertex `v`. -/
def vertexAccesses (g : Graph) (cap : ℤ) (newIndices : List ℤ) (v : ℕ) : List (Access ℤ) :=
  Access.copying g.edges.cur (g.copied cap v).toNat (g.vertices v).index (newIndices.getD v 0) ++
    if (g.vertices v).offset ≠ -1 then
      drainAccesses (g.logPtr (g.leafOf v)).cur maxLogEntries (g.vertices v).offset
        (newIndices.getD v 0 + (g.vertices v).degree - 1)
    else []

/-- The loop reads every vertex before it moves it. -/
lemma resizeAccesses_eq (g : Graph) (cap : ℤ) (newIndices : List ℤ) (k vi : ℕ)
    (vertices : ℕ → VertexElement) (h : ∀ v, vi ≤ v → vertices v = g.vertices v) :
    ({ g with elemCapacity := cap } : Graph).resizeAccesses cap g.edges.cur newIndices k vi vertices =
      (List.range' vi k).flatMap (g.vertexAccesses cap newIndices) := by
  induction k generalizing vi vertices with
  | zero => rfl
  | succ k ih =>
    rw [List.range'_succ, List.flatMap_cons, ← ih (vi + 1) (Function.update vertices vi
      ⟨newIndices.getD vi 0, (vertices vi).degree, -1⟩) fun v hv => by
        rw [Function.update_of_ne (by omega), h v (by omega)]]
    simp only [resizeAccesses, vertexAccesses, copied, List.append_assoc]
    rw [h vi (le_refl _), h (vi + 1) (by omega)]
    rfl

/-- The count is right for every vertex but the last, and for the last if its log chain is empty. -/
lemma copied_eq {v : ℕ} (hv : v < g.numVertices)
    (hlast : v = g.numVertices - 1 → (g.vertices v).offset = -1) : g.copied cap v = g.onseg v := by
  unfold copied
  by_cases ho : (g.vertices v).offset = -1
  · rw [if_neg (by simp [ho]), onseg_of_none ho]
  · have hne : v ≠ g.numVertices - 1 := fun h => ho (hlast h)
    rw [if_pos ho, if_neg hne, onseg_of_some ho, bound_of_lt (by omega)]
    ring

/-- What `resize_V1` does, access by access: the positions, and the array that results. -/
lemma Layout.resizeV1_replay (hL : g.Layout adj) (h : g.resizeV1 = some g') :
    ∃ newIndices,
      (∀ v < g.numVertices, (g'.vertices v).index = newIndices.getD v 0) ∧
      g.resizeTrace = (List.range' 0 g.numVertices).flatMap
        (g.vertexAccesses (g.elemCapacity * 2) newIndices) ∧
      g'.edges.cur =
        (Access.replay g.resizeTrace (zallocEdges g.foreign (g.elemCapacity * 2))).cur := by
  have hn2 := hL.geometry.two_le_vertices
  have hcap0 := hL.capacity_pos
  simp only [resizeV1] at h
  split at h
  case h_1 => cases h
  case h_2 newIndices hpos =>
    have hd : ∀ v, 0 ≤ v → v < g.numVertices → 0 ≤ (g.vertices v).degree := hL.degree_nonneg (le_refl _)
    obtain ⟨ht, -⟩ := calculatePositions_targets (g := { g with
      elemCapacity := g.elemCapacity * 2 }) (show 0 < g.numVertices by omega) (le_refl _) hd hpos
    obtain ⟨hin, -⟩ := hL.resizeLoop_spec (g.elemCapacity * 2) (by omega)
      (show ∀ v, newIndices.getD v 0 = newAt newIndices 0 v from
        fun v => by rw [newAt, Nat.sub_zero])
      (fun v w hvw hw => ht.ordered hd (Nat.zero_le v) hvw hw) g.numVertices 0 (by omega)
      (g.vertices, zallocEdges g.foreign (g.elemCapacity * 2)) (fun v hv => by omega)
      fun v _ => rfl
    have htrace : g.resizeTrace = ({ g with elemCapacity := g.elemCapacity * 2 } : Graph).resizeAccesses
        (g.elemCapacity * 2) g.edges.cur newIndices g.numVertices 0 g.vertices := by
      unfold resizeTrace
      simp only [hpos]
    obtain rfl := Option.some.inj h
    rw [releaseLogs_eq]
    refine ⟨newIndices, fun v hv => ?_, ?_, ?_⟩
    · have hidx := congrArg VertexElement.index (hin v hv).1
      rwa [newAt, Nat.sub_zero] at hidx
    · rw [htrace, resizeAccesses_eq _ _ _ _ _ _ fun v _ => rfl]
    · rw [htrace, replay_resizeAccesses]
      rfl

/-- With the right count a vertex is written into the slots of its elements. -/
lemma write_mem_vertexAccesses {x : ℤ} {v : ℕ} (hcopied : g.copied cap v = g.onseg v) {c : List ℤ} (hh : g.Holds v c)
    (hm : .write i x ∈ g.vertexAccesses cap newIndices v) :
    newIndices.getD v 0 ≤ i ∧ i < newIndices.getD v 0 + (g.vertices v).degree := by
  have hpos := hh.onseg_pos
  have hle := hh.onseg_le
  have hd := hh.degree
  obtain ⟨slots, hc, -, hvals⟩ := hh.logged
  have hlen := congrArg List.length hvals
  rw [List.length_map, List.length_reverse, List.length_drop] at hlen
  rw [vertexAccesses, hcopied] at hm
  rcases List.mem_append.1 hm with hm | hm
  · have := Access.write_mem_copying hm
    omega
  · split at hm
    · have := write_mem_drainAccesses hc.links hm
      omega
    · cases hm

/-- The reads of a vertex are the reads of its copy. -/
lemma reads_vertexAccesses (g : Graph) (cap : ℤ) (newIndices : List ℤ) (v : ℕ) :
    Access.reads (g.vertexAccesses cap newIndices v) =
      (List.range (g.copied cap v).toNat).map fun j : ℕ => (g.vertices v).index + (j : ℤ) := by
  rw [vertexAccesses, Access.reads_append, Access.reads_copying]
  split
  · rw [reads_drainAccesses, List.append_nil]
  · rw [Access.reads_nil, List.append_nil]

/-- `resize_V1` on `g` ends in `g'`, in bounds and without a loss. -/
structure ResizeSafe (g g' : Graph) : Prop where
  reads_in : ∀ i, .read i ∈ g.resizeTrace → 0 ≤ i ∧ i < g.elemCapacity
  writes_in : ∀ i x, .write i x ∈ g.resizeTrace → 0 ≤ i ∧ i < g'.elemCapacity
  copies : Access.reads g.resizeTrace = (List.range' 0 g.numVertices).flatMap fun v =>
    (List.range (g.onseg v).toNat).map fun j : ℕ => (g.vertices v).index + (j : ℤ)
  elements : ∀ v < g.numVertices, ∃ slots,
    Links (fun k => ((g.logPtr (g.leafOf v)).cur k).prevOffset) (g.vertices v).offset slots ∧
    slice g'.edges.cur (g'.vertices v).index (g'.vertices v).degree.toNat = g.gathered (fun _ => slots) v
  zero : ∀ x, 0 ≤ x → x < g'.elemCapacity → (∀ v < g.numVertices,
      x < (g'.vertices v).index ∨ (g'.vertices v).index + (g'.vertices v).degree ≤ x) →
    g'.edges.cur x = 0
  logs : ∀ s < g.segmentCount, g'.logSegmentIdx s = 0

/-- The elements of a vertex are those that it holds. -/
lemma Holds.gathered_eq {v : ℕ} {c : List ℤ} (h : g.Holds v c) : ∃ slots,
    Links (fun k => ((g.logPtr (g.leafOf v)).cur k).prevOffset) (g.vertices v).offset slots ∧
    g.gathered (fun _ => slots) v = c := by
  obtain ⟨slots, hc, -, hvals⟩ := h.logged
  refine ⟨slots, hc.links, ?_⟩
  rw [gathered, h.slots, hvals, List.reverse_reverse, List.take_append_drop]

/-- If the last vertex has edges in its log, the slot behind the old array is read. -/
lemma Layout.read_outside (hL : g.Layout adj) (h : g.resizeV1 = some g')
    (hlast : (g.vertices (g.numVertices - 1)).offset ≠ -1) :
    .read g.elemCapacity ∈ g.resizeTrace := by
  obtain ⟨newIndices, -, htrace, -⟩ := hL.resizeV1_replay h
  have hn := hL.geometry.two_le_vertices
  have hidx := hL.bound_nonneg (v := g.numVertices - 1) (by omega)
  have hle := hL.bound_le (v := g.numVertices - 1) (by omega) (le_refl _)
  rw [bound_of_lt (by omega)] at hidx hle
  rw [bound_of_ge (le_refl _)] at hle
  -- the copy of the last vertex runs up to the doubled capacity
  have hcopied : g.copied (g.elemCapacity * 2) (g.numVertices - 1) =
      g.elemCapacity * 2 - (g.vertices (g.numVertices - 1)).index := by
    rw [copied, if_pos hlast, if_pos rfl]
    ring
  rw [htrace, List.mem_flatMap]
  refine ⟨g.numVertices - 1, List.mem_range'_1.2 ⟨Nat.zero_le _, by omega⟩, ?_⟩
  rw [← Access.mem_reads, reads_vertexAccesses, hcopied, List.mem_map]
  refine ⟨(g.elemCapacity - (g.vertices (g.numVertices - 1)).index).toNat, ?_, by omega⟩
  rw [List.mem_range]
  have := hL.capacity_pos
  omega

/-- If it has none, every access is right. -/
lemma Layout.resizeSafe (hL : g.Layout adj) (h : g.resizeV1 = some g')
    (hlast : (g.vertices (g.numVertices - 1)).offset = -1) : ResizeSafe g g' := by
  obtain ⟨newIndices, hidx, htrace, hreplay⟩ := hL.resizeV1_replay h
  have hR := hL.resizeV1_spec h
  have hL' := hR.layout hL
  have hcopied : ∀ v < g.numVertices, g.copied (g.elemCapacity * 2) v = g.onseg v :=
    fun v hv => copied_eq hv fun hl => by rw [hl, hlast]
  have hreads : Access.reads g.resizeTrace = (List.range' 0 g.numVertices).flatMap fun v =>
      (List.range (g.onseg v).toNat).map fun j : ℕ => (g.vertices v).index + (j : ℤ) := by
    rw [htrace, Access.reads_flatMap]
    refine List.flatMap_congr fun v hv => ?_
    rw [reads_vertexAccesses, hcopied v (by have := List.mem_range'_1.1 hv; omega)]
  have hwrite : ∀ i x, .write i x ∈ g.resizeTrace → ∃ v < g.numVertices,
      (g'.vertices v).index ≤ i ∧ i < (g'.vertices v).index + (g'.vertices v).degree := by
    intro i x hm
    rw [htrace] at hm
    obtain ⟨v, hv, hm⟩ := List.mem_flatMap.1 hm
    have hv' : v < g.numVertices := by
      have := List.mem_range'_1.1 hv
      omega
    refine ⟨v, hv', ?_⟩
    rw [hidx v hv', hR.degree]
    exact write_mem_vertexAccesses (hcopied v hv') (hL.holds v hv') hm
  refine ⟨fun i hm => ?_, fun i x hm => ?_, hreads, fun v hv => ?_, fun x h0 h1 hx => ?_, hR.logIdx⟩
  · -- a read is an on-segment slot
    rw [← Access.mem_reads, hreads] at hm
    obtain ⟨v, hv, hm⟩ := List.mem_flatMap.1 hm
    obtain ⟨j, hj, rfl⟩ := List.mem_map.1 hm
    have hv' : v < g.numVertices := by
      have := List.mem_range'_1.1 hv
      omega
    have hj' := List.mem_range.1 hj
    have h0 := hL.bound_nonneg hv'.le
    have h1 := hL.ordered hv' (le_refl _)
    rw [bound_of_ge (le_refl _)] at h1
    rw [bound_of_lt hv'] at h0 h1
    omega
  · -- a write is an element of a vertex in the new array
    obtain ⟨v, hv, h1, h2⟩ := hwrite i x hm
    have hv' : v < g'.numVertices := by
      rw [hR.numVertices]
      exact hv
    have h0 := hL'.bound_nonneg hv'.le
    have hroom := hR.room v hv
    have hcap := hL'.bound_le (v := v + 1) hv' (le_refl _)
    rw [bound_of_ge (le_refl _)] at hcap
    rw [bound_of_lt hv'] at h0
    rw [hR.degree] at h2
    omega
  · have hh := hL.holds v hv
    obtain ⟨slots, hlinks, hg⟩ := hh.gathered_eq
    refine ⟨slots, hlinks, ?_⟩
    rw [hR.degree, hh.degree, Int.toNat_natCast, hg]
    exact hR.slots v hv _ hh
  · -- no write goes there, and the new array is zeroed
    rw [hreplay, Access.replay_outside fun y hm => ?_]
    · rw [hR.elemCapacity] at h1
      exact if_pos ⟨h0, h1⟩
    · obtain ⟨v, hv, hv1, hv2⟩ := hwrite x y hm
      have := hx v hv
      omega

section Sequential

variable {foreign : Foreign} {directed : Bool} {tid nVertices : ℕ} {base ops : List (ℕ × ℕ)}

/-- A resize that an insert calls is in bounds and loses nothing exactly when the last vertex has no edges
in its log: the number of its on-segment elements is deduced from the capacity, which has been doubled
already. -/
theorem resize_in_bounds (h : Run foreign directed tid nVertices base ops g) {tid' src dst : ℕ}
    (hs : src < g.numVertices) (hr : ReachesResize g tid' src dst g1)
    (hg : g.insert tid' src dst = some g') :
    ResizeSafe g1 g' ↔ (g1.vertices (g1.numVertices - 1)).offset = -1 := by
  have hL1 := (h.layout.doInsertion_spec hs hr.inserted).layout h.layout hs
  have hg1 : g1.resizeV1 = some g' := by rw [← hr.insert_eq h.layout, hg]
  refine ⟨fun hsafe => ?_, hL1.resizeSafe hg1⟩
  by_contra hlast
  have := hsafe.reads_in _ (hL1.read_outside hg1 hlast)
  omega

/-- A check of a run whose next insert resizes, with the graph it ends in. -/
lemma Run.exists_resized_of_check (foreign : Foreign) (directed : Bool) (tid nVertices : ℕ)
    (base ops : List (ℕ × ℕ)) (src dst : ℕ) (h2 : 2 ≤ nVertices)
    (hsorted : base.Pairwise fun e e' => e.1 ≤ e'.1)
    (hbase : ∀ e ∈ base, e.1 < nVertices ∧ e.2 < nVertices)
    (hops : ∀ e ∈ ops, e.1 < (computeCapacity nVertices).2.2 ∧ e.2 < (computeCapacity nVertices).2.2)
    (p : Graph → Bool)
    (h : ((create foreign directed nVertices base).bind (insertAll tid ops)).any (fun g =>
      (g.doInsertion tid src dst (g.getSegmentId src)).any fun g1 =>
        decide (g1.density (g.getSegmentId src) ≥ up0) &&
        (g1.findWindow src (g.getSegmentId src) (g.getSegmentId src) 0).1 == 0 &&
        (g1.resizeV1.isSome && p g1)) = true) :
    ∃ g g1 g', Run foreign directed tid nVertices base ops g ∧ ReachesResize g tid src dst g1 ∧
      g.insert tid src dst = some g' ∧ p g1 = true := by
  obtain ⟨g, g1, hg, hr, hp⟩ := Run.exists_resize_of_check foreign directed tid nVertices base ops src
    dst h2 hsorted hbase hops _ h
  rw [Bool.and_eq_true] at hp
  obtain ⟨g', hg'⟩ := Option.isSome_iff_exists.1 hp.1
  exact ⟨g, g1, g', hg, hr, by rw [hr.insert_eq hg.layout, hg'], hp.2⟩

/-- Two vertices: the fifth edge from the first vertex resizes the array, with the second log empty. -/
theorem resize_in_bounds_two : ∃ g g1 g',
    Run ⟨fun _ => 7, fun _ => .zero⟩ true 0 2 [] (List.replicate 4 (0, 1)) g ∧
    ReachesResize g 0 0 1 g1 ∧ g.insert 0 0 1 = some g' ∧ ResizeSafe g1 g' := by
  obtain ⟨g, g1, g', hg, hr, hg', hp⟩ := Run.exists_resized_of_check ⟨fun _ => 7, fun _ => .zero⟩ true
    0 2 [] (List.replicate 4 (0, 1)) 0 1 (by decide) (by decide) (by decide) (by decide)
    (fun g1 => (g1.vertices (g1.numVertices - 1)).offset == -1) (by decide +kernel)
  exact ⟨g, g1, g', hg, hr, hg', (resize_in_bounds hg (by rw [hg.numVertices]; decide) hr hg').2
    (by simpa using hp)⟩

/-- Four vertices: the last vertex fills its slots and logs an edge, then the first vertex fills its leaf
until the array is resized. The copy of the last vertex reads the slot behind the old array. -/
theorem resize_out_of_bounds : ∃ g g1 g',
    Run ⟨fun _ => 7, fun _ => .zero⟩ true 0 4 [] (List.replicate 4 (3, 0) ++ List.replicate 5 (0, 1)) g ∧
    ReachesResize g 0 0 1 g1 ∧ g.insert 0 0 1 = some g' ∧
    .read g1.elemCapacity ∈ g1.resizeTrace ∧ ¬ResizeSafe g1 g' := by
  obtain ⟨g, g1, g', hg, hr, hg', hp⟩ := Run.exists_resized_of_check ⟨fun _ => 7, fun _ => .zero⟩ true
    0 4 [] (List.replicate 4 (3, 0) ++ List.replicate 5 (0, 1)) 0 1 (by decide) (by decide) (by decide)
    (by decide) (fun g1 => (g1.vertices (g1.numVertices - 1)).offset != -1) (by decide +kernel)
  have hL1 := (hg.layout.doInsertion_spec (by rw [hg.numVertices]; decide) hr.inserted).layout hg.layout
    (by rw [hg.numVertices]; decide)
  have hread := hL1.read_outside (by rw [← hr.insert_eq hg.layout, hg']) (by simpa using hp)
  refine ⟨g, g1, g', hg, hr, hg', hread, fun hsafe => ?_⟩
  have := hsafe.reads_in _ hread
  omega

end Sequential

end Graph

end Dgap
