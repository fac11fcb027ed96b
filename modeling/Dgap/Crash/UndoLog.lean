import Dgap.Memory.Undo
import Dgap.Threads.Window

/-!
# What the undo log covers

`rebalanceEvents` are the loads and stores of `rebalance_data_V1` in order; replayed, they leave the edge
array and the undo log that `rebalanceDataV1` computes (`Piece.tracks`). A load before a left shift
starts at the slot that is stored to, and covers it. A load before a right shift or a log drain ends right
below the slot that is stored to, and does not: `load_into_ulog` copies `[w - MAX_ULOG_ENTRIES, w)`. So
every store is covered exactly when no right shift and no log drain needs a load, that is when the interval
that the left shifts before it have opened last contains each of their slots (`undo_coverage`).
-/

namespace Dgap

namespace Shifting

variable (s : Shifting)

/-- The load of `coverUp`. -/
def coverUpEvents (elemCapacity writeIndex : ℤ) : List (UndoEvent ℤ) :=
  if writeIndex < s.ulogSt ∨ s.ulogNd ≤ writeIndex then
    [.load writeIndex (if writeIndex + maxUlogEntries ≤ elemCapacity then maxUlogEntries
      else elemCapacity - writeIndex)]
  else []

/-- The load of `coverDown`. -/
def coverDownEvents (writeIndex : ℤ) : List (UndoEvent ℤ) :=
  if writeIndex < s.ulogSt ∨ s.ulogNd ≤ writeIndex then
    [.load (writeIndex - maxUlogEntries) (if 0 ≤ writeIndex - maxUlogEntries then maxUlogEntries
      else writeIndex)]
  else []

/-- The events of the left-shift loop. -/
def leftShiftEvents (elemCapacity : ℤ) : ℕ → ℤ → ℤ → Shifting → List (UndoEvent ℤ)
  | 0, _, _, _ => []
  | k + 1, readIndex, writeIndex, s =>
    let s' := s.coverUp elemCapacity writeIndex
    (s.coverUpEvents elemCapacity writeIndex ++ [.store writeIndex (s'.edges.cur readIndex)]) ++
      leftShiftEvents elemCapacity k (readIndex + 1) (writeIndex + 1)
        (s'.store writeIndex (s'.edges.cur readIndex))

/-- The events of the right-shift loop. -/
def rightShiftEvents : ℕ → ℤ → ℤ → Shifting → List (UndoEvent ℤ)
  | 0, _, _, _ => []
  | k + 1, readIndex, writeIndex, s =>
    let s' := s.coverDown writeIndex
    (s.coverDownEvents writeIndex ++ [.store writeIndex (s'.edges.cur readIndex)]) ++
      rightShiftEvents k (readIndex - 1) (writeIndex - 1)
        (s'.store writeIndex (s'.edges.cur readIndex))

/-- The events of the loop that moves logged edges. -/
def drainLogEvents (log : ℤ → LogEntry) : ℕ → ℤ → ℤ → Shifting → List (UndoEvent ℤ)
  | 0, _, _, _ => []
  | fuel + 1, currOff, writeIndex, s =>
    if currOff = -1 then []
    else
      let s' := s.coverDown writeIndex
      (s.coverDownEvents writeIndex ++ [.store writeIndex (log currOff).v]) ++
        drainLogEvents log fuel (log currOff).prevOffset (writeIndex - 1)
          (s'.store writeIndex (log currOff).v)

end Shifting

namespace Graph

variable (g : Graph)

/-- The events of the body of the loop over a group. -/
def shiftVertexEvents (newIndex : ℤ) (jj : ℕ) (nextVertexBoundary : ℤ) (s : Shifting) :
    List (UndoEvent ℤ) :=
  let vj := s.vertices jj
  let onsegNumEdges := nextVertexBoundary - vj.index + 1
  let count := if vj.offset ≠ -1 then onsegNumEdges else vj.degree
  let s' :=
    if newIndex < vj.index then s.leftShift g.elemCapacity count.toNat vj.index newIndex
    else if vj.index < newIndex then
      s.rightShift count.toNat (vj.index + count - 1) (newIndex + count - 1)
    else s
  (if newIndex < vj.index then s.leftShiftEvents g.elemCapacity count.toNat vj.index newIndex
    else if vj.index < newIndex then
      s.rightShiftEvents count.toNat (vj.index + count - 1) (newIndex + count - 1)
    else []) ++
  if vj.offset ≠ -1 then
    s'.drainLogEvents (g.logPtr (g.leafOf jj)).cur maxLogEntries vj.offset (newIndex + vj.degree - 1)
  else []

/-- The events of the loop over a group. -/
def shiftGroupEvents (startVertex : ℕ) (newIndex : List ℤ) :
    ℕ → ℕ → ℤ → Shifting → List (UndoEvent ℤ)
  | 0, _, _, _ => []
  | k + 1, jj, nextVertexBoundary, s =>
    g.shiftVertexEvents (newIndex.getD (jj - startVertex) 0) jj nextVertexBoundary s ++
      shiftGroupEvents startVertex newIndex k (jj - 1) ((s.vertices jj).index - 1)
        (g.shiftVertex (newIndex.getD (jj - startVertex) 0) jj nextVertexBoundary s)

/-- The events of the outer loop. -/
def rebalanceLoopEvents (startVertex endVertex : ℕ) (newIndex : List ℤ) :
    ℕ → ℕ → Shifting → List (UndoEvent ℤ)
  | 0, _, _ => []
  | fuel + 1, currVertex, s =>
    if currVertex < endVertex then
      let ii := findSpace startVertex newIndex s (endVertex - currVertex) currVertex
      let ii := if ii = endVertex then ii - 1 else ii
      let nextVertexBoundary :=
        if g.numVertices - 1 ≤ ii then g.elemCapacity - 1 else (s.vertices (ii + 1)).index - 1
      g.shiftGroupEvents startVertex newIndex (ii + 1 - currVertex) ii nextVertexBoundary s ++
        rebalanceLoopEvents startVertex endVertex newIndex fuel (ii + 1)
          (g.shiftGroup startVertex newIndex (ii + 1 - currVertex) ii nextVertexBoundary s)
    else []

/-- The events of `rebalance_data_V1`. -/
def rebalanceEvents (tid startVertex endVertex : ℕ) (newIndex : List ℤ) : List (UndoEvent ℤ) :=
  g.rebalanceLoopEvents startVertex endVertex newIndex (endVertex - startVertex) startVertex
    (g.shifting tid endVertex)

/-- The edge array and the undo log of a thread when `rebalance_data_V1` begins; it has loaded nothing
yet. -/
def undoStart (tid : ℕ) : Undo ℤ where
  mem := g.edges.cur
  log := g.ulogPtr tid
  origin := g.oplogPtr tid
  size := 0
  snapshot := g.edges.cur

end Graph

/-- A store of `rebalance_data_V1`: by a left shift, or by a right shift or a log drain. -/
inductive ShiftStore where
  | up (w : ℤ)
  | down (w : ℤ)
  deriving DecidableEq

namespace ShiftStore

/-- Stores to `k` slots from `w` upwards. -/
def ups : ℕ → ℤ → List ShiftStore
  | 0, _ => []
  | k + 1, w => .up w :: ups k (w + 1)

/-- Stores to `k` slots from `w` downwards. -/
def downs : ℕ → ℤ → List ShiftStore
  | 0, _ => []
  | k + 1, w => .down w :: downs k (w - 1)

/-- The interval that is open after a store, if only left shifts open intervals: a left shift that
leaves the open interval opens one that starts at its slot and ends at the end of the array or
`MAX_ULOG_ENTRIES` further. -/
def opens (elemCapacity : ℤ) (win : ℤ × ℤ) : ShiftStore → ℤ × ℤ
  | .up w => if w < win.1 ∨ win.2 ≤ w then (w, min (w + maxUlogEntries) elemCapacity) else win
  | .down _ => win

/-- Every store downwards goes into the interval that the stores upwards before it have opened last. -/
def Inside (elemCapacity : ℤ) (win : ℤ × ℤ) (l : List ShiftStore) : Prop :=
  System.Along (opens elemCapacity) (fun o m => ∀ w, m = .down w → o.1 ≤ w ∧ w < o.2) win l

end ShiftStore

namespace Graph

variable (g : Graph)

/-- The stores that move vertex `v` to `newIndex`: its on-segment elements, lowest first to the left and
highest first to the right, then its logged ones downwards. -/
def vertexPlan (newIndex : ℤ) (v : ℕ) : List ShiftStore :=
  (if newIndex < (g.vertices v).index then ShiftStore.ups (g.onseg v).toNat newIndex
    else if (g.vertices v).index < newIndex then
      ShiftStore.downs (g.onseg v).toNat (newIndex + g.onseg v - 1)
    else []) ++
  ShiftStore.downs ((g.vertices v).degree - g.onseg v).toNat (newIndex + (g.vertices v).degree - 1)

/-- The stores that move `k` vertices from `jj` downwards. -/
def groupPlan (startVertex : ℕ) (newIndex : List ℤ) : ℕ → ℕ → List ShiftStore
  | 0, _ => []
  | k + 1, jj => g.vertexPlan (newIndex.getD (jj - startVertex) 0) jj ++
      groupPlan startVertex newIndex k (jj - 1)

/-- The stores that move the vertices from `currVertex` on, group by group. -/
def loopPlan (startVertex endVertex : ℕ) (newIndex : List ℤ) : ℕ → ℕ → List ShiftStore
  | 0, _ => []
  | fuel + 1, currVertex =>
    if currVertex < endVertex then
      let ii := findSpace startVertex newIndex (g.shifting 0 endVertex) (endVertex - currVertex)
        currVertex
      let ii := if ii = endVertex then ii - 1 else ii
      g.groupPlan startVertex newIndex (ii + 1 - currVertex) ii ++
        loopPlan startVertex endVertex newIndex fuel (ii + 1)
    else []

/-- The stores that move the vertices of a window, in order. -/
def plan (startVertex endVertex : ℕ) (newIndex : List ℤ) : List ShiftStore :=
  g.loopPlan startVertex endVertex newIndex (endVertex - startVertex) startVertex

end Graph

namespace ShiftStore

variable {elemCapacity w : ℤ} {win : ℤ × ℤ} {l l' : List ShiftStore}

/-- The open interval behind some stores. -/
def opened (elemCapacity : ℤ) (win : ℤ × ℤ) (l : List ShiftStore) : ℤ × ℤ :=
  l.foldl (opens elemCapacity) win

@[simp] lemma opened_nil : opened elemCapacity win [] = win := rfl

@[simp] lemma opened_append :
    opened elemCapacity win (l ++ l') = opened elemCapacity (opened elemCapacity win l) l' :=
  List.foldl_append ..

/-- No store. -/
lemma inside_nil : Inside elemCapacity win [] := System.along_nil

/-- One store upwards. -/
lemma inside_up : Inside elemCapacity win [.up w] := by
  rw [Inside, System.along_cons]
  refine ⟨fun w h => ?_, System.along_nil⟩
  cases h

/-- One store downwards. -/
lemma inside_down : Inside elemCapacity win [.down w] ↔ win.1 ≤ w ∧ w < win.2 := by
  rw [Inside, System.along_cons]
  constructor
  · exact fun h => h.1 w rfl
  · refine fun h => ⟨fun w' he => ?_, System.along_nil⟩
    cases he
    exact h

/-- Some stores, then the others. -/
lemma inside_append : Inside elemCapacity win (l ++ l') ↔
    Inside elemCapacity win l ∧ Inside elemCapacity (opened elemCapacity win l) l' :=
  System.along_append

end ShiftStore

/-- A memory with its undo log is that of a state of `rebalance_data_V1`. -/
structure Tracks (s : Shifting) (u : Undo ℤ) : Prop where
  mem : u.mem = s.edges.cur
  log : u.log = s.ulog
  origin : u.origin = s.oplog

/-- The interval that the undo log is taken to cover. -/
def Shifting.win (s : Shifting) : ℤ × ℤ := (s.ulogSt, s.ulogNd)

/-- The undo log covers that interval. -/
def Sound (s : Shifting) (u : Undo ℤ) : Prop := ∀ w, s.ulogSt ≤ w → w < s.ulogNd → u.Covers w

section Tracks

variable {s : Shifting} {u : Undo ℤ}

/-- A load into the undo log is followed. -/
lemma Tracks.load (hu : Tracks s u) (start size a b : ℤ) :
    Tracks (s.loadIntoUlog start size a b) (u.step (.load start size)) := by
  refine ⟨?_, ?_, rfl⟩
  · simp only [Undo.step, Shifting.loadIntoUlog, hu.mem]
    split <;> rfl
  · simp only [Undo.step, Shifting.loadIntoUlog, hu.mem, hu.log]

/-- A store is followed. -/
lemma Tracks.store (hu : Tracks s u) (w x : ℤ) :
    Tracks (s.store w x) (u.step (.store w x)) :=
  ⟨by rw [Undo.step, hu.mem]; rfl, hu.log, hu.origin⟩

end Tracks

/-- A part of `rebalance_data_V1` that goes from `s` to `s'` with the given events: they do what the part
does; and where the undo log covers its interval to begin with, they are covered exactly when the
stores `l` stay inside, and then the undo log covers its interval at the end. -/
structure Piece (elemCapacity : ℤ) (l : List ShiftStore) (events : List (UndoEvent ℤ))
    (s s' : Shifting) : Prop where
  tracks : ∀ u, Tracks s u → Tracks s' (u.replay events)
  covered : ∀ u, Tracks s u → Sound s u →
    (u.Covered events ↔ ShiftStore.Inside elemCapacity s.win l)
  sound : ∀ u, Tracks s u → Sound s u → ShiftStore.Inside elemCapacity s.win l →
    Sound s' (u.replay events) ∧ s'.win = ShiftStore.opened elemCapacity s.win l

namespace Piece

variable {elemCapacity w x : ℤ} {l l' : List ShiftStore} {events events' : List (UndoEvent ℤ)}
  {s s' s'' : Shifting}

/-- Nothing happens. -/
lemma nil : Piece elemCapacity [] [] s s :=
  ⟨fun _ h => h, fun _ _ _ => iff_of_true Undo.covered_nil ShiftStore.inside_nil,
    fun _ _ h _ => ⟨h, rfl⟩⟩

/-- One part after another. -/
lemma append (h : Piece elemCapacity l events s s') (h' : Piece elemCapacity l' events' s' s'') :
    Piece elemCapacity (l ++ l') (events ++ events') s s'' := by
  refine ⟨fun u hu => ?_, fun u hu hs => ?_, fun u hu hs hin => ?_⟩
  · rw [Undo.replay_append]
    exact h'.tracks _ (h.tracks u hu)
  · rw [Undo.covered_append, ShiftStore.inside_append, h.covered u hu hs]
    refine and_congr_right fun hin => ?_
    obtain ⟨hs', hw⟩ := h.sound u hu hs hin
    rw [h'.covered _ (h.tracks u hu) hs', hw]
  · rw [ShiftStore.inside_append] at hin
    obtain ⟨hs', hw⟩ := h.sound u hu hs hin.1
    rw [← hw] at hin
    rw [Undo.replay_append, ShiftStore.opened_append, ← hw]
    exact h'.sound _ (h.tracks u hu) hs' hin.2

/-- The vertex table does not matter. -/
lemma vertices (h : Piece elemCapacity l events s s') (f : ℕ → VertexElement) :
    Piece elemCapacity l events s { s' with vertices := f } :=
  ⟨fun u hu => let ⟨h1, h2, h3⟩ := h.tracks u hu; ⟨h1, h2, h3⟩, h.covered, h.sound⟩

/-- A store that needs no load. -/
lemma store_inside (hw : s.ulogSt ≤ w ∧ w < s.ulogNd) (x : ℤ) {m : ShiftStore}
    (hin : ShiftStore.Inside elemCapacity s.win [m])
    (hopen : ShiftStore.opens elemCapacity s.win m = s.win) :
    Piece elemCapacity [m] [.store w x] s (s.store w x) := by
  refine ⟨fun u hu => hu.store w x, fun u _ hs => iff_of_true ?_ hin, fun u _ hs _ => ⟨hs, hopen.symm⟩⟩
  exact Undo.covered_store.2 ⟨hs w hw.1 hw.2, Undo.covered_nil⟩

/-- One store of a left shift. -/
lemma up (hw : w < elemCapacity) (x : ℤ) : Piece elemCapacity [.up w]
    (s.coverUpEvents elemCapacity w ++ [.store w x]) s ((s.coverUp elemCapacity w).store w x) := by
  unfold Shifting.coverUpEvents Shifting.coverUp
  by_cases hout : w < s.ulogSt ∨ s.ulogNd ≤ w
  · -- the load starts at the slot
    rw [if_pos hout, if_pos hout]
    set size : ℤ := if w + maxUlogEntries ≤ elemCapacity then maxUlogEntries else elemCapacity - w
      with hsize
    have hcover : ∀ u : Undo ℤ, ∀ v, (u.step (.load w size)).Covers v ↔
        w ≤ v ∧ v < min (w + maxUlogEntries) elemCapacity := by
      intro u v
      rw [Undo.covers_load]
      unfold maxUlogEntries at *
      split at hsize <;> omega
    have hnd : (if w + maxUlogEntries ≤ elemCapacity then w + maxUlogEntries else elemCapacity) =
        min (w + maxUlogEntries) elemCapacity := by
      split <;> omega
    refine ⟨fun u hu => ?_, fun u hu hs => iff_of_true ?_ ShiftStore.inside_up, fun u hu hs _ => ⟨?_, ?_⟩⟩
    · obtain ⟨h1, h2, h3⟩ := (hu.load w size s.ulogSt s.ulogNd).store w x
      exact ⟨h1, h2, h3⟩
    · refine Undo.covered_load.2 (Undo.covered_store.2 ⟨(hcover u w).2 ⟨le_refl _, ?_⟩, Undo.covered_nil⟩)
      unfold maxUlogEntries
      omega
    · intro v h1 h2
      exact (hcover u v).2 ⟨h1, by rw [← hnd]; exact h2⟩
    · exact (congrArg (Prod.mk w) hnd).trans (if_pos hout).symm
  · rw [if_neg hout, if_neg hout]
    exact store_inside (by omega) x ShiftStore.inside_up (if_neg hout)

/-- One store of a right shift or of a log drain. -/
lemma down (w x : ℤ) : Piece elemCapacity [.down w] (s.coverDownEvents w ++ [.store w x]) s
    ((s.coverDown w).store w x) := by
  unfold Shifting.coverDownEvents Shifting.coverDown
  by_cases hout : w < s.ulogSt ∨ s.ulogNd ≤ w
  · -- the load ends below the slot
    rw [if_pos hout, if_pos hout]
    have hnot : ¬ShiftStore.Inside elemCapacity s.win [.down w] := by
      rw [ShiftStore.inside_down]
      show ¬(s.ulogSt ≤ w ∧ w < s.ulogNd)
      omega
    refine ⟨fun u hu => ?_, fun u hu hs => iff_of_false (fun h => ?_) hnot, fun u hu hs h => absurd h hnot⟩
    · obtain ⟨h1, h2, h3⟩ := (hu.load (w - maxUlogEntries)
        (if 0 ≤ w - maxUlogEntries then maxUlogEntries else w) s.ulogSt s.ulogNd).store w x
      exact ⟨h1, h2, h3⟩
    · have hc := Undo.covers_load.1 (Undo.covered_store.1 (Undo.covered_load.1 h)).1
      unfold maxUlogEntries at hc
      split at hc <;> omega
  · rw [if_neg hout, if_neg hout]
    have hin : s.ulogSt ≤ w ∧ w < s.ulogNd := by omega
    exact store_inside hin x (ShiftStore.inside_down.2 hin) rfl

/-- The left-shift loop. -/
lemma leftShift (k : ℕ) (r w : ℤ) (hw : w + k ≤ elemCapacity) :
    Piece elemCapacity (ShiftStore.ups k w) (s.leftShiftEvents elemCapacity k r w) s
      (s.leftShift elemCapacity k r w) := by
  induction k generalizing r w s with
  | zero => exact nil
  | succ k ih => exact (up (by push_cast at hw; omega) _).append (ih _ _ (by push_cast at hw; omega))

/-- The right-shift loop. -/
lemma rightShift (k : ℕ) (r w : ℤ) :
    Piece elemCapacity (ShiftStore.downs k w) (s.rightShiftEvents k r w) s (s.rightShift k r w) := by
  induction k generalizing r w s with
  | zero => exact nil
  | succ k ih => exact (down w _).append (ih _ _)

/-- The loop that moves logged edges. -/
lemma drainLog {log : ℤ → LogEntry} {o : ℤ} {slots : List ℤ}
    (h : Memory.Links (fun k => (log k).prevOffset) o slots) {fuel : ℕ} (hf : slots.length ≤ fuel)
    (w : ℤ) : Piece elemCapacity (ShiftStore.downs slots.length w) (s.drainLogEvents log fuel o w) s
      (s.drainLog log fuel o w) := by
  induction h generalizing fuel w s with
  | nil => cases fuel <;> exact nil
  | @cons o l ho hl ih =>
    cases fuel with
    | zero => simp at hf
    | succ fuel =>
      rw [Shifting.drainLogEvents, Shifting.drainLog, if_neg ho, if_neg ho]
      exact (down w _).append (ih (by simpa using hf) _)

/-- The on-segment elements of a vertex, to the left, to the right or not at all. -/
lemma shift {on index new : ℤ} (hon : 0 ≤ on) (hcap : new + on ≤ elemCapacity) :
    Piece elemCapacity
      (if new < index then ShiftStore.ups on.toNat new
        else if index < new then ShiftStore.downs on.toNat (new + on - 1)
        else [])
      (if new < index then s.leftShiftEvents elemCapacity on.toNat index new
        else if index < new then s.rightShiftEvents on.toNat (index + on - 1) (new + on - 1)
        else []) s
      (if new < index then s.leftShift elemCapacity on.toNat index new
        else if index < new then s.rightShift on.toNat (index + on - 1) (new + on - 1)
        else s) := by
  split
  · exact leftShift _ _ _ (by omega)
  · split
    · exact rightShift _ _ _
    · exact nil

/-- The logged elements of a vertex, if it has any. -/
lemma drain {log : ℤ → LogEntry} {o : ℤ} {slots : List ℤ}
    (h : Memory.Links (fun k => (log k).prevOffset) o slots) {fuel : ℕ} (hf : slots.length ≤ fuel)
    (w : ℤ) :
    Piece elemCapacity (ShiftStore.downs slots.length w)
      (if o ≠ -1 then s.drainLogEvents log fuel o w else []) s
      (if o ≠ -1 then s.drainLog log fuel o w else s) := by
  split
  · exact drainLog h hf w
  · rename_i ho
    rw [not_not.1 ho] at h
    obtain rfl := h.unique .nil
    exact nil

end Piece

namespace Graph

variable {g : Graph} {s : Shifting} {startVertex endVertex : ℕ} {new : ℕ → ℤ} {c : ℕ → List ℤ}
  {newIndex : List ℤ} {lo mid hi : ℕ}

/-- Moving one vertex. -/
lemma shiftVertex_piece {jj : ℕ} {c : List ℤ} (new : ℤ) (hh : g.Arranged jj c) (ht : Todo g s jj)
    (hcap : new + g.onseg jj ≤ g.elemCapacity) :
    Piece g.elemCapacity (g.vertexPlan new jj)
      (g.shiftVertexEvents new jj (g.bound (jj + 1) - 1) s) s
      (g.shiftVertex new jj (g.bound (jj + 1) - 1) s) := by
  obtain ⟨hv, -⟩ := ht
  have hpos := hh.onseg_nonneg
  have hle := hh.onseg_le
  have hcount := g.count_eq jj
  obtain ⟨slots, hlinks, hfuel, hslots⟩ := hh.logged
  have hlen := congrArg List.length hslots
  rw [List.length_map, List.length_reverse, List.length_drop] at hlen
  have hd := hh.degree
  unfold shiftVertexEvents shiftVertex vertexPlan
  simp only [hv, hcount]
  -- the log chain has the rest of the elements
  rw [show ((g.vertices jj).degree - g.onseg jj).toNat = slots.length by omega]
  exact ((Piece.shift hpos hcap).append (.drain hlinks hfuel _)).vertices _

/-- Moving the vertices of a group. -/
lemma shiftGroup_piece (hcap : g.bound endVertex ≤ g.elemCapacity)
    (hnew : ∀ v, startVertex ≤ v → v < endVertex → newAt newIndex startVertex v = new v)
    (ht : g.Targets startVertex endVertex new) (hc : g.WindowArranged startVertex endVertex c)
    (hg : GroupSafe g endVertex new lo hi) (h1 : startVertex ≤ lo) (h4 : hi ≤ endVertex) (k : ℕ)
    (hp : Progress g startVertex endVertex new c s lo (lo + k) hi) (h3 : lo + k ≤ hi) :
    Piece g.elemCapacity (g.groupPlan startVertex newIndex k (lo + k - 1))
      (g.shiftGroupEvents startVertex newIndex k (lo + k - 1) (g.bound (lo + k) - 1) s) s
      (g.shiftGroup startVertex newIndex k (lo + k - 1) (g.bound (lo + k) - 1) s) := by
  induction k generalizing s with
  | zero => exact Piece.nil
  | succ k ih =>
    have hn := ht.le
    have hidx : (s.vertices (lo + k)).index = g.bound (lo + k) := by
      rw [(hp.todo (lo + k) (by omega) (by omega)).1, bound_of_lt (by omega)]
    have hp' : Progress g startVertex endVertex new c s lo (lo + k + 1) hi := hp
    have hh := hc (lo + k) (by omega) (by omega)
    have hfit := ht.le_bound hc.degree_nonneg (v := lo + k) (by omega) (by omega)
    have hle := hh.onseg_le
    have hd := hh.degree
    rw [groupPlan, shiftGroupEvents, shiftGroup, show lo + (k + 1) - 1 = lo + k by omega, hidx,
      show newIndex.getD (lo + k - startVertex) 0 = new (lo + k) from hnew (lo + k) (by omega) (by omega)]
    exact (shiftVertex_piece (new (lo + k)) hh (hp'.todo _ (by omega) (by omega)) (by omega)).append
      (ih (hp'.shift ht hc hg h1 (by omega) (by omega) h4) (by omega))

/-- `findSpace` reads the vertices from its start on. -/
lemma findSpace_congr {s s' : Shifting} (startVertex : ℕ) (newIndex : List ℤ) (k ii : ℕ)
    (h : ∀ v, ii ≤ v → s'.vertices v = s.vertices v) :
    findSpace startVertex newIndex s' k ii = findSpace startVertex newIndex s k ii := by
  induction k generalizing ii with
  | zero => rfl
  | succ k ih =>
    rw [findSpace, findSpace, h ii (le_refl _), h (ii + 1) (by omega),
      ih (ii + 1) fun v hv => h v (by omega)]

/-- The vertices behind the groups moved so far are still in their places, and so is the next free one. -/
lemma Progress.findSpace_eq (hp : Progress g startVertex endVertex new c s lo lo lo) (k : ℕ) :
    findSpace startVertex newIndex s k lo = findSpace startVertex newIndex (g.shifting 0 endVertex) k lo :=
  findSpace_congr _ _ _ _ fun v hv => by
    by_cases hve : v < endVertex
    · exact (hp.high v hv hve).1
    · exact hp.vertices v (by omega)

/-- Moving the groups of a window. -/
lemma rebalanceLoop_piece (hcap : g.bound endVertex ≤ g.elemCapacity)
    (hnew : ∀ v, startVertex ≤ v → v < endVertex → newAt newIndex startVertex v = new v)
    (ht : g.Targets startVertex endVertex new) (hc : g.WindowArranged startVertex endVertex c)
    (fuel : ℕ) (h1 : startVertex ≤ lo) (h2 : lo ≤ endVertex)
    (hp : Progress g startVertex endVertex new c s lo lo lo) :
    Piece g.elemCapacity (g.loopPlan startVertex endVertex newIndex fuel lo)
      (g.rebalanceLoopEvents startVertex endVertex newIndex fuel lo s) s
      (g.rebalanceLoop startVertex endVertex newIndex fuel lo s) := by
  induction fuel generalizing lo s with
  | zero => exact Piece.nil
  | succ fuel ih =>
    unfold loopPlan rebalanceLoopEvents rebalanceLoop
    by_cases hlt : lo < endVertex
    · rw [if_pos hlt, if_pos hlt, if_pos hlt]
      simp only
      obtain ⟨ii, hii, hnb, hlo, hend, hsafe, hp', hgr⟩ := hp.nextGroup hnew ht hc h1 hlt
      rw [← hp.findSpace_eq, hii, hnb]
      have hpiece := shiftGroup_piece hcap hnew ht hc hsafe h1 (by omega) (ii + 1 - lo) hp' (by omega)
      rw [show lo + (ii + 1 - lo) - 1 = ii by omega, show lo + (ii + 1 - lo) = ii + 1 by omega] at hpiece
      exact hpiece.append (ih (by omega) (by omega) hgr)
    · rw [if_neg hlt, if_neg hlt, if_neg hlt]
      exact Piece.nil

/-- The whole of `rebalance_data_V1`, for positions the window can take. -/
lemma moved_piece (tid : ℕ) (hcap : g.bound endVertex ≤ g.elemCapacity)
    (ht : g.Targets startVertex endVertex (newAt newIndex startVertex))
    (hc : g.WindowArranged startVertex endVertex c) :
    Piece g.elemCapacity (g.plan startVertex endVertex newIndex)
      (g.rebalanceEvents tid startVertex endVertex newIndex) (g.shifting tid endVertex)
      (g.moved tid startVertex endVertex newIndex) :=
  rebalanceLoop_piece hcap (fun _ _ _ => rfl) ht hc _ (le_refl _) ht.lt.le (Progress.start tid)

/-- The undo log is that of the thread, and no interval is open. -/
lemma undoStart_tracks (g : Graph) (tid endVertex : ℕ) :
    Tracks (g.shifting tid endVertex) (g.undoStart tid) ∧
    Sound (g.shifting tid endVertex) (g.undoStart tid) :=
  ⟨⟨rfl, rfl, rfl⟩, fun _ h1 h2 => absurd (lt_of_le_of_lt h1 h2) (lt_irrefl _)⟩

end Graph

section Reachable

variable {g : Graph} {startVertex endVertex tid : ℕ} {usedSpace totalSpace : ℤ} {newIndex : List ℤ}

/-- The window of a call and the positions it computes are those of a piece. -/
lemma WindowCall.piece (h : WindowCall g startVertex endVertex usedSpace totalSpace)
    (hpos : g.calculatePositions startVertex endVertex (totalSpace - usedSpace) usedSpace =
      some newIndex) (tid : ℕ) :
    Piece g.elemCapacity (g.plan startVertex endVertex newIndex)
      (g.rebalanceEvents tid startVertex endVertex newIndex) (g.shifting tid endVertex)
      (g.moved tid startVertex endVertex newIndex) := by
  obtain ⟨adj, l, r, hL, hlr, hrc, rfl, rfl⟩ := h.window_leaves
  have hn := hL.geometry.mul_le hrc
  have hlt : l * g.segmentSize < r * g.segmentSize :=
    Nat.mul_lt_mul_of_pos_right hlr hL.geometry.size
  have hd : ∀ v, l * g.segmentSize ≤ v → v < r * g.segmentSize → 0 ≤ (g.vertices v).degree :=
    hL.degree_nonneg hn
  have hcap := hL.bound_le hn (le_refl _)
  rw [Graph.bound_of_ge (le_refl _)] at hcap
  exact Graph.moved_piece tid hcap (Graph.calculatePositions_targets hlt hn hd hpos).1 (hL.window hn)

/-- Every store of `rebalance_data_V1` happens while its slot is covered by the undo log exactly when each
store of a right shift and of a log drain goes into the interval that the left shifts before it have
opened last; and the events are those of the model. -/
theorem undo_coverage (h : WindowCall g startVertex endVertex usedSpace totalSpace)
    (hpos : g.calculatePositions startVertex endVertex (totalSpace - usedSpace) usedSpace =
      some newIndex) :
    Tracks (g.moved tid startVertex endVertex newIndex)
      ((g.undoStart tid).replay (g.rebalanceEvents tid startVertex endVertex newIndex)) ∧
    ((g.undoStart tid).Covered (g.rebalanceEvents tid startVertex endVertex newIndex) ↔
      ShiftStore.Inside g.elemCapacity ((g.vertices endVertex).index, (g.vertices endVertex).index)
        (g.plan startVertex endVertex newIndex)) := by
  have hpiece := h.piece hpos tid
  obtain ⟨ht, hs⟩ := g.undoStart_tracks tid endVertex
  exact ⟨hpiece.tracks _ ht, hpiece.covered _ ht hs⟩

/-- The third edge from the second vertex rebalances: it moves left from slot 4 to slot 1, and the stores
of its four elements are covered. -/
theorem undo_coverage_two : ∃ (g : Graph) (usedSpace totalSpace : ℤ),
    WindowCall g 0 2 usedSpace totalSpace ∧ g.plan 0 2 [0, 1] = ShiftStore.ups 4 1 ∧
    (g.undoStart 0).Covered (g.rebalanceEvents 0 0 2 [0, 1]) := by
  obtain ⟨g, hcall, hp⟩ := RebalanceCall.of_check ⟨fun _ => 7, fun _ => .zero⟩ true 0 2 []
    [(1, 0), (1, 0)] 1 0 (by decide) (by decide) (by decide) (by decide) (by decide) 1
    (fun g => g.leftIndex 1 1 == 0 && g.rightIndex 1 1 == 2 &&
      g.calculatePositions 0 2 ((g.segMeta 1 1).2 - (g.segMeta 1 1).1) (g.segMeta 1 1).1 ==
        some [0, 1] && g.plan 0 2 [0, 1] == ShiftStore.ups 4 1) (by decide +kernel)
  simp only [Bool.and_eq_true, beq_iff_eq] at hp
  obtain ⟨⟨⟨hl, hr⟩, hpos⟩, hplan⟩ := hp
  rw [hl, hr] at hcall
  refine ⟨g, _, _, .insert hcall, hplan, (undo_coverage (.insert hcall) hpos).2.2 ?_⟩
  rw [hplan]
  intro pre m post hm w hw
  have hmem : ShiftStore.down w ∈ ShiftStore.ups 4 1 := by
    rw [hm, ← hw]
    simp
  simp [ShiftStore.ups] at hmem

/-- The third edge from the first vertex rebalances: the second vertex moves right from slot 4 to slot 6.
The load before starts below the array and names no slot from 6 on. -/
theorem undo_coverage_fails : ∃ (g : Graph) (usedSpace totalSpace : ℤ),
    WindowCall g 0 2 usedSpace totalSpace ∧
    g.calculatePositions 0 2 (totalSpace - usedSpace) usedSpace = some [0, 6] ∧
    g.rebalanceEvents 0 0 2 [0, 6] = [.load (-506) 6, .store 6 (-1)] ∧
    ¬(g.undoStart 0).Covered (g.rebalanceEvents 0 0 2 [0, 6]) := by
  obtain ⟨g, hcall, hp⟩ := RebalanceCall.of_check ⟨fun _ => 7, fun _ => .zero⟩ true 0 2 []
    [(0, 1), (0, 1)] 0 1 (by decide) (by decide) (by decide) (by decide) (by decide) 1
    (fun g => g.leftIndex 0 1 == 0 && g.rightIndex 0 1 == 2 &&
      g.calculatePositions 0 2 ((g.segMeta 0 1).2 - (g.segMeta 0 1).1) (g.segMeta 0 1).1 ==
        some [0, 6] && g.rebalanceEvents 0 0 2 [0, 6] == [.load (-506) 6, .store 6 (-1)])
    (by decide +kernel)
  simp only [Bool.and_eq_true, beq_iff_eq] at hp
  obtain ⟨⟨⟨hl, hr⟩, hpos⟩, hevents⟩ := hp
  rw [hl, hr] at hcall
  refine ⟨g, _, _, .insert hcall, hpos, hevents, fun hcov => ?_⟩
  rw [hevents, Undo.covered_load, Undo.covered_store, Undo.covers_load] at hcov
  omega

end Reachable

end Dgap
