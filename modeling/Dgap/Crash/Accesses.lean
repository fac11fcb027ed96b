import Dgap.Crash.UndoLog
import Dgap.Graph.Recovery

/-!
# What a rebalance reads and writes

`rebalanceAccesses` are the elements that `rebalance_data_V1` and `load_into_ulog` name of `vertices_`,
`new_index`, `edges_` and the segment logs; `memcpy` names a range of `edges_`, a flush only the element it
starts at. Two of them can leave their array. The function begins with `vertices_[end_vertex]`, which is
behind the last vertex where the window ends with the graph. A load before a right shift or a log drain
copies from `MAX_ULOG_ENTRIES` slots below the one that is stored to, wherever that is. So everything is in
range exactly when the window ends before the last leaf and no such load happens below slot
`MAX_ULOG_ENTRIES` (`accesses_inRange_iff`).
-/

namespace Dgap

/-- Elements of an array that are accessed. -/
inductive Access where
  /-- `vertices_[v]` -/
  | vertex (v : ℕ)
  /-- `new_index[i]` -/
  | newIndex (i : ℤ)
  /-- `size` elements of `edges_`, from `edges_[start]` on -/
  | edges (start size : ℤ)
  /-- `log_ptr_[segment][offset]` -/
  | log (segment : ℕ) (offset : ℤ)
  deriving DecidableEq

/-- The elements exist, during a rebalance of `[startVertex, endVertex)`. -/
def Access.InRange (g : Graph) (startVertex endVertex : ℕ) : Access → Prop
  | .vertex v => v < g.numVertices
  | .newIndex i => 0 ≤ i ∧ i < (endVertex : ℤ) - startVertex
  | .edges start size => 0 ≤ start ∧ start + size ≤ g.elemCapacity
  | .log segment offset => 0 ≤ offset ∧ offset < g.logSegmentIdx segment

namespace Shifting

variable (s : Shifting)

/-- The accesses of `load_into_ulog`. -/
def loadAccesses (loadIdxSt loadSz flushIdxSt flushIdxNd : ℤ) : List Access :=
  (if flushIdxSt ≠ flushIdxNd then [.edges flushIdxSt 1] else []) ++ [.edges loadIdxSt loadSz]

/-- The accesses of `coverUp`. -/
def coverUpAccesses (elemCapacity writeIndex : ℤ) : List Access :=
  if writeIndex < s.ulogSt ∨ s.ulogNd ≤ writeIndex then
    loadAccesses writeIndex (if writeIndex + maxUlogEntries ≤ elemCapacity then maxUlogEntries
      else elemCapacity - writeIndex) s.ulogSt s.ulogNd
  else []

/-- The accesses of `coverDown`. -/
def coverDownAccesses (writeIndex : ℤ) : List Access :=
  if writeIndex < s.ulogSt ∨ s.ulogNd ≤ writeIndex then
    loadAccesses (writeIndex - maxUlogEntries) (if 0 ≤ writeIndex - maxUlogEntries then maxUlogEntries
      else writeIndex) s.ulogSt s.ulogNd
  else []

/-- The accesses of the left-shift loop. -/
def leftShiftAccesses (elemCapacity : ℤ) : ℕ → ℤ → ℤ → Shifting → List Access
  | 0, _, _, _ => []
  | k + 1, readIndex, writeIndex, s =>
    let s' := s.coverUp elemCapacity writeIndex
    (s.coverUpAccesses elemCapacity writeIndex ++ [.edges readIndex 1, .edges writeIndex 1]) ++
      leftShiftAccesses elemCapacity k (readIndex + 1) (writeIndex + 1)
        (s'.store writeIndex (s'.edges.cur readIndex))

/-- The accesses of the right-shift loop. -/
def rightShiftAccesses : ℕ → ℤ → ℤ → Shifting → List Access
  | 0, _, _, _ => []
  | k + 1, readIndex, writeIndex, s =>
    let s' := s.coverDown writeIndex
    (s.coverDownAccesses writeIndex ++ [.edges readIndex 1, .edges writeIndex 1]) ++
      rightShiftAccesses k (readIndex - 1) (writeIndex - 1)
        (s'.store writeIndex (s'.edges.cur readIndex))

/-- The accesses of the loop that moves logged edges. -/
def drainLogAccesses (segment : ℕ) (log : ℤ → LogEntry) : ℕ → ℤ → ℤ → Shifting → List Access
  | 0, _, _, _ => []
  | fuel + 1, currOff, writeIndex, s =>
    if currOff = -1 then []
    else
      let s' := s.coverDown writeIndex
      (s.coverDownAccesses writeIndex ++ [.log segment currOff, .edges writeIndex 1]) ++
        drainLogAccesses segment log fuel (log currOff).prevOffset (writeIndex - 1)
          (s'.store writeIndex (log currOff).v)

end Shifting

namespace Graph

variable (g : Graph)

/-- The accesses of the body of the loop over a group. -/
def shiftVertexAccesses (startVertex : ℕ) (newIndex : ℤ) (jj : ℕ) (nextVertexBoundary : ℤ)
    (s : Shifting) : List Access :=
  let vj := s.vertices jj
  let onsegNumEdges := nextVertexBoundary - vj.index + 1
  let count := if vj.offset ≠ -1 then onsegNumEdges else vj.degree
  let s' :=
    if newIndex < vj.index then s.leftShift g.elemCapacity count.toNat vj.index newIndex
    else if vj.index < newIndex then
      s.rightShift count.toNat (vj.index + count - 1) (newIndex + count - 1)
    else s
  [.vertex jj, .newIndex ((jj : ℤ) - startVertex)] ++
  ((if newIndex < vj.index then s.leftShiftAccesses g.elemCapacity count.toNat vj.index newIndex
    else if vj.index < newIndex then
      s.rightShiftAccesses count.toNat (vj.index + count - 1) (newIndex + count - 1)
    else []) ++
  if vj.offset ≠ -1 then
    s'.drainLogAccesses (g.leafOf jj) (g.logPtr (g.leafOf jj)).cur maxLogEntries vj.offset
      (newIndex + vj.degree - 1)
  else [])

/-- The accesses of the loop over a group. -/
def shiftGroupAccesses (startVertex : ℕ) (newIndex : List ℤ) :
    ℕ → ℕ → ℤ → Shifting → List Access
  | 0, _, _, _ => []
  | k + 1, jj, nextVertexBoundary, s =>
    g.shiftVertexAccesses startVertex (newIndex.getD (jj - startVertex) 0) jj nextVertexBoundary s ++
      shiftGroupAccesses startVertex newIndex k (jj - 1) ((s.vertices jj).index - 1)
        (g.shiftVertex (newIndex.getD (jj - startVertex) 0) jj nextVertexBoundary s)

/-- The accesses of the scan for a vertex with space to its right. -/
def findSpaceAccesses (startVertex : ℕ) (newIndex : List ℤ) (s : Shifting) : ℕ → ℕ → List Access
  | 0, _ => []
  | k + 1, ii =>
    [.newIndex ((ii : ℤ) - startVertex), .vertex ii, .vertex (ii + 1)] ++
      if newIndex.getD (ii - startVertex) 0 + (s.vertices ii).degree ≤ (s.vertices (ii + 1)).index
      then []
      else findSpaceAccesses startVertex newIndex s k (ii + 1)

/-- The accesses of the outer loop. -/
def rebalanceLoopAccesses (startVertex endVertex : ℕ) (newIndex : List ℤ) :
    ℕ → ℕ → Shifting → List Access
  | 0, _, _ => []
  | fuel + 1, currVertex, s =>
    if currVertex < endVertex then
      let ii := findSpace startVertex newIndex s (endVertex - currVertex) currVertex
      let ii := if ii = endVertex then ii - 1 else ii
      let nextVertexBoundary :=
        if g.numVertices - 1 ≤ ii then g.elemCapacity - 1 else (s.vertices (ii + 1)).index - 1
      ((findSpaceAccesses startVertex newIndex s (endVertex - currVertex) currVertex ++
        if g.numVertices - 1 ≤ ii then [] else [.vertex (ii + 1)]) ++
      g.shiftGroupAccesses startVertex newIndex (ii + 1 - currVertex) ii nextVertexBoundary s) ++
        rebalanceLoopAccesses startVertex endVertex newIndex fuel (ii + 1)
          (g.shiftGroup startVertex newIndex (ii + 1 - currVertex) ii nextVertexBoundary s)
    else []

/-- The accesses of `rebalance_data_V1`. -/
def rebalanceAccesses (tid startVertex endVertex : ℕ) (newIndex : List ℤ) : List Access :=
  .vertex endVertex :: g.rebalanceLoopAccesses startVertex endVertex newIndex (endVertex - startVertex)
    startVertex (g.shifting tid endVertex)

end Graph

namespace ShiftStore

/-- The interval `[ulog_st, ulog_nd)` behind a store. -/
def interval (elemCapacity : ℤ) (win : ℤ × ℤ) : ShiftStore → ℤ × ℤ
  | .up w => if w < win.1 ∨ win.2 ≤ w then (w, min (w + maxUlogEntries) elemCapacity) else win
  | .down w => if w < win.1 ∨ win.2 ≤ w then (max (w - maxUlogEntries) 0, w) else win

/-- Every store downwards that leaves the interval goes to a slot from `MAX_ULOG_ENTRIES` on. -/
def Clear (elemCapacity : ℤ) (win : ℤ × ℤ) (l : List ShiftStore) : Prop :=
  System.Along (interval elemCapacity)
    (fun o m => ∀ w, m = .down w → w < o.1 ∨ o.2 ≤ w → maxUlogEntries ≤ w) win l

variable {elemCapacity w : ℤ} {win : ℤ × ℤ} {l l' : List ShiftStore}

/-- No store. -/
lemma clear_nil : Clear elemCapacity win [] := System.along_nil

/-- One store upwards. -/
lemma clear_up : Clear elemCapacity win [.up w] := by
  rw [Clear, System.along_cons]
  refine ⟨fun w h => ?_, System.along_nil⟩
  cases h

/-- One store downwards. -/
lemma clear_down : Clear elemCapacity win [.down w] ↔ (w < win.1 ∨ win.2 ≤ w → maxUlogEntries ≤ w) := by
  rw [Clear, System.along_cons]
  constructor
  · exact fun h => h.1 w rfl
  · refine fun h => ⟨fun w' he => ?_, System.along_nil⟩
    cases he
    exact h

/-- One store, then the others. -/
lemma clear_cons {m : ShiftStore} : Clear elemCapacity win (m :: l) ↔
    Clear elemCapacity win [m] ∧ Clear elemCapacity (interval elemCapacity win m) l := by
  rw [Clear, System.along_cons, Clear, System.along_cons]
  exact ⟨fun h => ⟨⟨h.1, System.along_nil⟩, h.2⟩, fun h => ⟨h.1.1, h.2⟩⟩

/-- Whether stores are clear can be computed. -/
instance decidableClear (elemCapacity : ℤ) : ∀ (l : List ShiftStore) (win : ℤ × ℤ),
    Decidable (Clear elemCapacity win l)
  | [], _ => isTrue clear_nil
  | .up _ :: l, _ => @decidable_of_iff' _ _ clear_cons
      (@instDecidableAnd _ _ (isTrue clear_up) (decidableClear elemCapacity l _))
  | .down _ :: l, _ => @decidable_of_iff' _ _ clear_cons
      (@instDecidableAnd _ _ (decidable_of_iff' _ clear_down) (decidableClear elemCapacity l _))

/-- Some stores, then the others. -/
lemma clear_append : Clear elemCapacity win (l ++ l') ↔
    Clear elemCapacity win l ∧ Clear elemCapacity (l.foldl (interval elemCapacity) win) l' :=
  System.along_append

end ShiftStore

/-- An interval that is empty or starts inside the array. -/
def Started (elemCapacity : ℤ) (win : ℤ × ℤ) : Prop := win.1 = win.2 ∨ 0 ≤ win.1 ∧ win.1 < elemCapacity

/-- A part of `rebalance_data_V1` that goes from `s` to `s'` with the given accesses: they are in range
exactly when the stores `l` are clear, and the interval is the one that these stores leave. -/
structure Bounded (g : Graph) (startVertex endVertex : ℕ) (l : List ShiftStore) (accesses : List Access)
    (s s' : Shifting) : Prop where
  inRange : Started g.elemCapacity s.win →
    ((∀ a ∈ accesses, a.InRange g startVertex endVertex) ↔ ShiftStore.Clear g.elemCapacity s.win l)
  win : s'.win = l.foldl (ShiftStore.interval g.elemCapacity) s.win
  started : Started g.elemCapacity s.win → Started g.elemCapacity s'.win

namespace Bounded

variable {g : Graph} {startVertex endVertex : ℕ} {l l' : List ShiftStore} {accesses accesses' : List Access}
  {s s' s'' : Shifting} {w : ℤ}

/-- Accesses without a store. -/
lemma quiet (h : ∀ a ∈ accesses, a.InRange g startVertex endVertex) :
    Bounded g startVertex endVertex [] accesses s s :=
  ⟨fun _ => iff_of_true h ShiftStore.clear_nil, rfl, id⟩

/-- Nothing happens. -/
lemma nil : Bounded g startVertex endVertex [] [] s s := quiet (by simp)

/-- One part after another. -/
lemma append (h : Bounded g startVertex endVertex l accesses s s')
    (h' : Bounded g startVertex endVertex l' accesses' s' s'') :
    Bounded g startVertex endVertex (l ++ l') (accesses ++ accesses') s s'' := by
  refine ⟨fun hs => ?_, ?_, fun hs => h'.started (h.started hs)⟩
  · rw [List.forall_mem_append, ShiftStore.clear_append, h.inRange hs, h'.inRange (h.started hs), h.win]
  · rw [h'.win, h.win, List.foldl_append]

/-- The vertex table does not matter. -/
lemma vertices (h : Bounded g startVertex endVertex l accesses s s') (f : ℕ → VertexElement) :
    Bounded g startVertex endVertex l accesses s { s' with vertices := f } :=
  ⟨h.inRange, h.win, h.started⟩

/-- Where a load before a store starts its flush. -/
lemma flush_inRange (hs : Started g.elemCapacity s.win) :
    ∀ a ∈ (if s.ulogSt ≠ s.ulogNd then [Access.edges s.ulogSt 1] else []),
      a.InRange g startVertex endVertex := by
  intro a ha
  split at ha
  · rename_i hne
    rw [List.mem_singleton.1 ha]
    rcases hs with he | ⟨h1, h2⟩
    · exact absurd he hne
    · exact ⟨h1, h2⟩
  · cases ha

/-- One store of a left shift. -/
lemma up (hw0 : 0 ≤ w) (hw : w < g.elemCapacity)
    (h : ∀ a ∈ accesses, a.InRange g startVertex endVertex) (x : ℤ) :
    Bounded g startVertex endVertex [.up w] (s.coverUpAccesses g.elemCapacity w ++ accesses) s
      ((s.coverUp g.elemCapacity w).store w x) := by
  unfold Shifting.coverUpAccesses Shifting.coverUp
  by_cases hout : w < s.ulogSt ∨ s.ulogNd ≤ w
  · rw [if_pos hout, if_pos hout]
    refine ⟨fun hs => iff_of_true ?_ ShiftStore.clear_up, ?_, fun _ => .inr ⟨hw0, hw⟩⟩
    · rw [List.forall_mem_append, Shifting.loadAccesses, List.forall_mem_append, List.forall_mem_singleton]
      refine ⟨⟨flush_inRange hs, hw0, ?_⟩, h⟩
      split <;> omega
    · have hnd : (if w + maxUlogEntries ≤ g.elemCapacity then w + maxUlogEntries else g.elemCapacity) =
          min (w + maxUlogEntries) g.elemCapacity := by
        split <;> omega
      exact (congrArg (Prod.mk w) hnd).trans (if_pos hout).symm
  · rw [if_neg hout, if_neg hout]
    exact ⟨fun _ => iff_of_true h ShiftStore.clear_up, (if_neg hout).symm, id⟩

/-- One store of a right shift or of a log drain. -/
lemma down (hw0 : 0 ≤ w) (hw : w < g.elemCapacity)
    (h : ∀ a ∈ accesses, a.InRange g startVertex endVertex) (x : ℤ) :
    Bounded g startVertex endVertex [.down w] (s.coverDownAccesses w ++ accesses) s
      ((s.coverDown w).store w x) := by
  unfold Shifting.coverDownAccesses Shifting.coverDown
  by_cases hout : w < s.ulogSt ∨ s.ulogNd ≤ w
  · rw [if_pos hout, if_pos hout]
    have hst : (if 0 ≤ w - maxUlogEntries then w - maxUlogEntries else 0) = max (w - maxUlogEntries) 0 := by
      split <;> omega
    have hmax : (0 : ℤ) < maxUlogEntries := by decide
    refine ⟨fun hs => ?_, (congrArg (·, w) hst).trans (if_pos hout).symm, fun _ => .inr ?_⟩
    · rw [ShiftStore.clear_down, List.forall_mem_append, Shifting.loadAccesses, List.forall_mem_append,
        List.forall_mem_singleton]
      constructor
      · rintro ⟨⟨-, h1, -⟩, -⟩ -
        omega
      · intro hclear
        have hle : maxUlogEntries ≤ w := hclear hout
        refine ⟨⟨flush_inRange hs, by omega, ?_⟩, h⟩
        split <;> omega
    · show 0 ≤ (if 0 ≤ w - maxUlogEntries then w - maxUlogEntries else 0) ∧
        (if 0 ≤ w - maxUlogEntries then w - maxUlogEntries else 0) < g.elemCapacity
      split <;> omega
  · rw [if_neg hout, if_neg hout]
    exact ⟨fun _ => iff_of_true h (ShiftStore.clear_down.2 fun he => absurd he hout), (if_neg hout).symm, id⟩

/-- The slot that is read and the one that is stored to. -/
lemma pair_inRange {r : ℤ} (hr0 : 0 ≤ r) (hr : r < g.elemCapacity) (hw0 : 0 ≤ w) (hw : w < g.elemCapacity) :
    ∀ a ∈ [Access.edges r 1, Access.edges w 1], a.InRange g startVertex endVertex := by
  rw [List.forall_mem_cons, List.forall_mem_singleton]
  exact ⟨⟨hr0, hr⟩, hw0, hw⟩

/-- The left-shift loop. -/
lemma leftShift (k : ℕ) (r w : ℤ) (hr0 : 0 ≤ r) (hr : r + k ≤ g.elemCapacity) (hw0 : 0 ≤ w)
    (hw : w + k ≤ g.elemCapacity) :
    Bounded g startVertex endVertex (ShiftStore.ups k w) (s.leftShiftAccesses g.elemCapacity k r w) s
      (s.leftShift g.elemCapacity k r w) := by
  induction k generalizing r w s with
  | zero => exact nil
  | succ k ih =>
    push_cast at hr hw
    exact (up hw0 (by omega) (pair_inRange hr0 (by omega) hw0 (by omega)) _).append
      (ih _ _ (by omega) (by omega) (by omega) (by omega))

/-- The right-shift loop. -/
lemma rightShift (k : ℕ) (r w : ℤ) (hr0 : k ≤ r + 1) (hr : r < g.elemCapacity) (hw0 : k ≤ w + 1)
    (hw : w < g.elemCapacity) :
    Bounded g startVertex endVertex (ShiftStore.downs k w) (s.rightShiftAccesses k r w) s
      (s.rightShift k r w) := by
  induction k generalizing r w s with
  | zero => exact nil
  | succ k ih =>
    push_cast at hr0 hw0
    exact (down (by omega) hw (pair_inRange (by omega) hr (by omega) hw) _).append
      (ih _ _ (by omega) (by omega) (by omega) (by omega))

/-- The loop that moves logged edges. -/
lemma drainLog {segment : ℕ} {log : ℤ → LogEntry} {o : ℤ} {slots : List ℤ}
    (h : Memory.Links (fun k => (log k).prevOffset) o slots)
    (hlog : ∀ k ∈ slots, 0 ≤ k ∧ k < g.logSegmentIdx segment) {fuel : ℕ} (hf : slots.length ≤ fuel)
    (w : ℤ) (hw0 : slots.length ≤ w + 1) (hw : w < g.elemCapacity) :
    Bounded g startVertex endVertex (ShiftStore.downs slots.length w)
      (s.drainLogAccesses segment log fuel o w) s (s.drainLog log fuel o w) := by
  induction h generalizing fuel w s with
  | nil => cases fuel <;> exact nil
  | @cons o l ho hl ih =>
    cases fuel with
    | zero => simp at hf
    | succ fuel =>
      rw [List.length_cons] at hw0
      push_cast at hw0
      rw [List.forall_mem_cons] at hlog
      rw [Shifting.drainLogAccesses, Shifting.drainLog, if_neg ho, if_neg ho]
      refine (down (by omega) hw ?_ _).append (ih hlog.2 (by simpa using hf) _ (by omega) (by omega))
      rw [List.forall_mem_cons, List.forall_mem_singleton]
      exact ⟨hlog.1, ⟨by omega, hw⟩⟩

/-- The on-segment elements of a vertex, to the left, to the right or not at all. -/
lemma shift {on index new : ℤ} (hon : 0 ≤ on) (h0 : 0 ≤ index) (hn : index + on ≤ g.elemCapacity)
    (h0' : 0 ≤ new) (hn' : new + on ≤ g.elemCapacity) :
    Bounded g startVertex endVertex
      (if new < index then ShiftStore.ups on.toNat new
        else if index < new then ShiftStore.downs on.toNat (new + on - 1)
        else [])
      (if new < index then s.leftShiftAccesses g.elemCapacity on.toNat index new
        else if index < new then s.rightShiftAccesses on.toNat (index + on - 1) (new + on - 1)
        else []) s
      (if new < index then s.leftShift g.elemCapacity on.toNat index new
        else if index < new then s.rightShift on.toNat (index + on - 1) (new + on - 1)
        else s) := by
  split
  · exact leftShift _ _ _ h0 (by omega) h0' (by omega)
  · split
    · exact rightShift _ _ _ (by omega) (by omega) (by omega) (by omega)
    · exact nil

/-- The logged elements of a vertex, if it has any. -/
lemma drain {segment : ℕ} {log : ℤ → LogEntry} {o : ℤ} {slots : List ℤ}
    (h : Memory.Links (fun k => (log k).prevOffset) o slots)
    (hlog : ∀ k ∈ slots, 0 ≤ k ∧ k < g.logSegmentIdx segment) {fuel : ℕ} (hf : slots.length ≤ fuel)
    (w : ℤ) (hw0 : slots.length ≤ w + 1) (hw : w < g.elemCapacity) :
    Bounded g startVertex endVertex (ShiftStore.downs slots.length w)
      (if o ≠ -1 then s.drainLogAccesses segment log fuel o w else []) s
      (if o ≠ -1 then s.drainLog log fuel o w else s) := by
  split
  · exact drainLog h hlog hf w hw0 hw
  · rename_i ho
    rw [not_not.1 ho] at h
    obtain rfl := h.unique .nil
    exact nil

end Bounded

namespace Graph

variable {g : Graph} {adj : ℕ → List ℕ} {s : Shifting} {startVertex endVertex : ℕ} {new : ℕ → ℤ}
  {newIndex : List ℤ} {lo hi : ℕ}

/-- Moving one vertex. -/
lemma shiftVertex_bounded (hL : g.Layout adj) (he : endVertex ≤ g.numVertices) {jj : ℕ}
    (h1 : startVertex ≤ jj) (h2 : jj < endVertex) (ht : Todo g s jj) {new : ℤ} (hnew : 0 ≤ new)
    (hcap : new + (g.vertices jj).degree ≤ g.elemCapacity) :
    Bounded g startVertex endVertex (g.vertexPlan new jj)
      (g.shiftVertexAccesses startVertex new jj (g.bound (jj + 1) - 1) s) s
      (g.shiftVertex new jj (g.bound (jj + 1) - 1) s) := by
  obtain ⟨hv, -⟩ := ht
  have hh := hL.holds jj (by omega)
  have hpos := hh.onseg_pos
  have hle := hh.onseg_le
  have hroom := hh.room
  have hd := hh.degree
  have hcount := g.count_eq jj
  have hfirst : 0 ≤ (g.vertices jj).index := by
    rw [← bound_of_lt (by omega)]
    exact hL.bound_nonneg (by omega)
  have hnext : g.bound (jj + 1) ≤ g.elemCapacity := by
    rw [← bound_of_ge (le_refl g.numVertices)]
    exact hL.bound_le (by omega) (le_refl _)
  have hidx := hL.logIdx_leafOf (v := jj) (by omega)
  obtain ⟨slots, hchain, -, hslots⟩ := hh.logged
  have hlen := congrArg List.length hslots
  rw [List.length_map, List.length_reverse, List.length_drop] at hlen
  have hfuel := hchain.length_le
  unfold shiftVertexAccesses shiftVertex vertexPlan
  simp only [hv, hcount]
  have hnames : Bounded g startVertex endVertex [] [.vertex jj, .newIndex ((jj : ℤ) - startVertex)] s s := by
    refine .quiet ?_
    rw [List.forall_mem_cons, List.forall_mem_singleton]
    exact ⟨by show jj < g.numVertices; omega, by omega, by omega⟩
  -- the log chain has the rest of the elements
  rw [show ((g.vertices jj).degree - g.onseg jj).toNat = slots.length by omega]
  exact (hnames.append ((Bounded.shift (by omega) hfirst (by omega) hnew (by omega)).append
    (.drain hchain.links (fun k hk => hchain.mem hk) (by omega) _ (by omega) (by omega)))).vertices _

/-- Moving the vertices of a group. -/
lemma shiftGroup_bounded (hL : g.Layout adj)
    (hnew : ∀ v, startVertex ≤ v → v < endVertex → newAt newIndex startVertex v = new v)
    (ht : g.Targets startVertex endVertex new) (hg : GroupSafe g endVertex new lo hi) (h1 : startVertex ≤ lo)
    (h4 : hi ≤ endVertex) (k : ℕ)
    (hp : Progress g startVertex endVertex new (fun v => elements v (adj v)) s lo (lo + k) hi)
    (h3 : lo + k ≤ hi) :
    Bounded g startVertex endVertex (g.groupPlan startVertex newIndex k (lo + k - 1))
      (g.shiftGroupAccesses startVertex newIndex k (lo + k - 1) (g.bound (lo + k) - 1) s) s
      (g.shiftGroup startVertex newIndex k (lo + k - 1) (g.bound (lo + k) - 1) s) := by
  have hn := ht.le
  have hc := hL.window (a := startVertex) hn
  induction k generalizing s with
  | zero => exact .nil
  | succ k ih =>
    have hidx : (s.vertices (lo + k)).index = g.bound (lo + k) := by
      rw [(hp.todo (lo + k) (by omega) (by omega)).1, bound_of_lt (by omega)]
    have hp' : Progress g startVertex endVertex new (fun v => elements v (adj v)) s lo (lo + k + 1) hi := hp
    have hfit := ht.le_bound hc.degree_nonneg (v := lo + k) (by omega) (by omega)
    have hstart := ht.bound_le hc.degree_nonneg (v := lo + k) (by omega) (by omega)
    have h0 := hL.bound_nonneg (v := startVertex) (by omega)
    have hcap := hL.bound_le hn (le_refl _)
    rw [bound_of_ge (le_refl _)] at hcap
    rw [groupPlan, shiftGroupAccesses, shiftGroup, show lo + (k + 1) - 1 = lo + k by omega, hidx,
      show newIndex.getD (lo + k - startVertex) 0 = new (lo + k) from hnew (lo + k) (by omega) (by omega)]
    exact (shiftVertex_bounded hL hn (by omega) (by omega) (hp'.todo _ (by omega) (by omega)) (by omega)
      (by omega)).append (ih (hp'.shift ht hc hg h1 (by omega) (by omega) h4) (by omega))

/-- The scan looks at the vertices of the window and at the one behind it. -/
lemma findSpaceAccesses_inRange (he : endVertex < g.numVertices) (k ii : ℕ) (h1 : startVertex ≤ ii)
    (h2 : ii + k ≤ endVertex) :
    ∀ a ∈ findSpaceAccesses startVertex newIndex s k ii, a.InRange g startVertex endVertex := by
  induction k generalizing ii with
  | zero => simp [findSpaceAccesses]
  | succ k ih =>
    rw [findSpaceAccesses, List.forall_mem_append, List.forall_mem_cons, List.forall_mem_cons,
      List.forall_mem_singleton]
    refine ⟨⟨⟨by omega, by omega⟩, ?_, ?_⟩, ?_⟩
    · show ii < g.numVertices
      omega
    · show ii + 1 < g.numVertices
      omega
    · split
      · simp
      · exact ih (ii + 1) (by omega) (by omega)

/-- Moving the groups of a window that ends before the last vertex. -/
lemma rebalanceLoop_bounded (hL : g.Layout adj) (he : endVertex < g.numVertices)
    (hnew : ∀ v, startVertex ≤ v → v < endVertex → newAt newIndex startVertex v = new v)
    (ht : g.Targets startVertex endVertex new) (fuel : ℕ) (h1 : startVertex ≤ lo) (h2 : lo ≤ endVertex)
    (hp : Progress g startVertex endVertex new (fun v => elements v (adj v)) s lo lo lo) :
    Bounded g startVertex endVertex (g.loopPlan startVertex endVertex newIndex fuel lo)
      (g.rebalanceLoopAccesses startVertex endVertex newIndex fuel lo s) s
      (g.rebalanceLoop startVertex endVertex newIndex fuel lo s) := by
  have hc := hL.window (a := startVertex) he.le
  induction fuel generalizing lo s with
  | zero => exact .nil
  | succ fuel ih =>
    unfold loopPlan rebalanceLoopAccesses rebalanceLoop
    by_cases hlt : lo < endVertex
    · rw [if_pos hlt, if_pos hlt, if_pos hlt]
      simp only
      obtain ⟨ii, hii, hnb, hlo, hend, hsafe, hp', hgr⟩ := hp.nextGroup hnew ht hc h1 hlt
      rw [← hp.findSpace_eq, hii, hnb]
      have hbounded := shiftGroup_bounded hL hnew ht hsafe h1 (by omega) (ii + 1 - lo) hp' (by omega)
      rw [show lo + (ii + 1 - lo) - 1 = ii by omega, show lo + (ii + 1 - lo) = ii + 1 by omega] at hbounded
      have hnames : Bounded g startVertex endVertex []
          (findSpaceAccesses startVertex newIndex s (endVertex - lo) lo ++
            if g.numVertices - 1 ≤ ii then [] else [.vertex (ii + 1)]) s s := by
        refine .quiet (List.forall_mem_append.2
          ⟨findSpaceAccesses_inRange he _ _ h1 (by omega), fun a ha => ?_⟩)
        rw [if_neg (by omega), List.mem_singleton] at ha
        rw [ha]
        show ii + 1 < g.numVertices
        omega
      exact (hnames.append hbounded).append (ih (by omega) (by omega) hgr)
    · rw [if_neg hlt, if_neg hlt, if_neg hlt]
      exact .nil

/-- The accesses of a rebalance of whole leaves. -/
lemma Layout.rebalanceAccesses_iff (hL : g.Layout adj) (tid : ℕ)
    (ht : g.Targets startVertex endVertex (newAt newIndex startVertex)) :
    (∀ a ∈ g.rebalanceAccesses tid startVertex endVertex newIndex, a.InRange g startVertex endVertex) ↔
      endVertex < g.numVertices ∧
      ShiftStore.Clear g.elemCapacity ((g.vertices endVertex).index, (g.vertices endVertex).index)
        (g.plan startVertex endVertex newIndex) := by
  rw [rebalanceAccesses, List.forall_mem_cons]
  refine and_congr_right fun he => ?_
  have he : endVertex < g.numVertices := he
  exact (rebalanceLoop_bounded hL he (fun _ _ _ => rfl) ht _ (le_refl _) ht.lt.le
    (Progress.start tid)).inRange (.inl rfl)

end Graph

section Reachable

variable {g : Graph} {startVertex endVertex : ℕ} {usedSpace totalSpace : ℤ} {newIndex : List ℤ}

/-- Everything that a rebalance accesses is in range exactly when its window ends before the last leaf and
every right shift or log drain that leaves the interval of the undo log stores to a slot from
`MAX_ULOG_ENTRIES` on. -/
theorem accesses_inRange_iff (h : WindowCall g startVertex endVertex usedSpace totalSpace)
    (hpos : g.calculatePositions startVertex endVertex (totalSpace - usedSpace) usedSpace =
      some newIndex) (tid : ℕ) :
    (∀ a ∈ g.rebalanceAccesses tid startVertex endVertex newIndex, a.InRange g startVertex endVertex) ↔
      endVertex < g.numVertices ∧
      ShiftStore.Clear g.elemCapacity ((g.vertices endVertex).index, (g.vertices endVertex).index)
        (g.plan startVertex endVertex newIndex) := by
  obtain ⟨adj, l, r, hL, hlr, hrc, rfl, rfl⟩ := h.window_leaves
  have hlt : l * g.segmentSize < r * g.segmentSize := Nat.mul_lt_mul_of_pos_right hlr hL.geometry.size
  have hn := hL.geometry.mul_le hrc
  exact hL.rebalanceAccesses_iff tid (Graph.calculatePositions_targets hlt hn (hL.degree_nonneg hn) hpos).1

/-- Thirteen vertices in four leaves. The eighth one gets twelve edges: its leaf is rebalanced with the one
before, all vertices move left, and the logged edges go into the interval that is open then. -/
theorem accesses_inRange_thirteen : ∃ (g : Graph) (usedSpace totalSpace : ℤ),
    WindowCall g 0 8 usedSpace totalSpace ∧
    ∀ a ∈ g.rebalanceAccesses 0 0 8 [0, 1, 2, 3, 4, 5, 6, 7], a.InRange g 0 8 := by
  obtain ⟨g, hcall, hp⟩ := RebalanceCall.of_check ⟨fun _ => 7, fun _ => .zero⟩ true 0 13 []
    (List.replicate 11 (7, 0)) 7 0 (by decide) (by decide) (by decide) (by decide) (by decide) 1
    (fun g => g.leftIndex 7 1 == 0 && g.rightIndex 7 1 == 8 && decide (8 < g.numVertices) &&
      g.calculatePositions 0 8 ((g.segMeta 7 1).2 - (g.segMeta 7 1).1) (g.segMeta 7 1).1 ==
        some [0, 1, 2, 3, 4, 5, 6, 7] &&
      decide (ShiftStore.Clear g.elemCapacity ((g.vertices 8).index, (g.vertices 8).index)
        (g.plan 0 8 [0, 1, 2, 3, 4, 5, 6, 7])))
    (by decide +kernel)
  simp only [Bool.and_eq_true, beq_iff_eq, decide_eq_true_eq] at hp
  obtain ⟨⟨⟨⟨hl, hr⟩, hn⟩, hpos⟩, hclear⟩ := hp
  rw [hl, hr] at hcall
  exact ⟨g, _, _, .insert hcall, (accesses_inRange_iff (.insert hcall) hpos 0).2 ⟨hn, hclear⟩⟩

/-- The third edge from the first vertex rebalances both leaves of a graph with two vertices: the function
reads `vertices_[2]`, and the load before the second vertex moves right starts 506 slots below the array. -/
theorem accesses_inRange_fails : ∃ (g : Graph) (usedSpace totalSpace : ℤ),
    WindowCall g 0 2 usedSpace totalSpace ∧
    g.calculatePositions 0 2 (totalSpace - usedSpace) usedSpace = some [0, 6] ∧
    .vertex 2 ∈ g.rebalanceAccesses 0 0 2 [0, 6] ∧ ¬Access.InRange g 0 2 (.vertex 2) ∧
    .edges (-506) 6 ∈ g.rebalanceAccesses 0 0 2 [0, 6] ∧ ¬Access.InRange g 0 2 (.edges (-506) 6) ∧
    ¬∀ a ∈ g.rebalanceAccesses 0 0 2 [0, 6], a.InRange g 0 2 := by
  obtain ⟨g, hcall, hp⟩ := RebalanceCall.of_check ⟨fun _ => 7, fun _ => .zero⟩ true 0 2 []
    [(0, 1), (0, 1)] 0 1 (by decide) (by decide) (by decide) (by decide) (by decide) 1
    (fun g => g.leftIndex 0 1 == 0 && g.rightIndex 0 1 == 2 && g.numVertices == 2 &&
      g.calculatePositions 0 2 ((g.segMeta 0 1).2 - (g.segMeta 0 1).1) (g.segMeta 0 1).1 ==
        some [0, 6] &&
      decide (.vertex 2 ∈ g.rebalanceAccesses 0 0 2 [0, 6]) &&
      decide (.edges (-506) 6 ∈ g.rebalanceAccesses 0 0 2 [0, 6]))
    (by decide +kernel)
  simp only [Bool.and_eq_true, beq_iff_eq, decide_eq_true_eq] at hp
  obtain ⟨⟨⟨⟨⟨hl, hr⟩, hn⟩, hpos⟩, hvertex⟩, hedges⟩ := hp
  rw [hl, hr] at hcall
  have hout : ¬Access.InRange g 0 2 (.vertex 2) := by
    show ¬2 < g.numVertices
    omega
  have hbelow : ¬Access.InRange g 0 2 (.edges (-506) 6) := fun h => absurd h.1 (by decide)
  exact ⟨g, _, _, .insert hcall, hpos, hvertex, hout, hedges, hbelow, fun h => hout (h _ hvertex)⟩

end Reachable

end Dgap
