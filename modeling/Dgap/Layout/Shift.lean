import Dgap.Graph.Rebalance
import Dgap.Layout.Holds

/-!
# Moving the vertices of a window

`rebalance_data_V1` moves the vertices of a window to given positions, in place and group by group.
`Targets` are the positions it may be given: in order, not left of the window, and not beyond its end.
`Moved` is the result: every vertex of the window sits at its position with all its elements and no log
chain, and nothing else of the array or the vertex table has changed.

The invariant of the loops is `Progress lo mid hi`: the vertices left of `lo` and those in `[mid, hi)`
are done, the others still are where they were. One vertex moves by `Progress.shift`, a group by
`Progress.group`, and the outer loop by `Progress.loop`. A group is safe because all of its vertices but
the first move right (`findSpace_spec`), so that going down from the last one never overwrites elements
that have not moved yet.
-/

namespace Dgap

open Memory

namespace Shifting

variable {s : Shifting}

@[simp] lemma coverUp_cur (cap w : ℤ) : (s.coverUp cap w).edges.cur = s.edges.cur := by
  unfold coverUp loadIntoUlog
  split
  · simp only
    split <;> rfl
  · rfl

@[simp] lemma coverUp_vertices (cap w : ℤ) : (s.coverUp cap w).vertices = s.vertices := by
  unfold coverUp loadIntoUlog
  split <;> rfl

@[simp] lemma coverDown_cur (w : ℤ) : (s.coverDown w).edges.cur = s.edges.cur := by
  unfold coverDown loadIntoUlog
  split
  · simp only
    split <;> rfl
  · rfl

@[simp] lemma coverDown_vertices (w : ℤ) : (s.coverDown w).vertices = s.vertices := by
  unfold coverDown loadIntoUlog
  split <;> rfl

@[simp] lemma store_cur (i x : ℤ) : (s.store i x).edges.cur = Function.update s.edges.cur i x := rfl

@[simp] lemma store_vertices (i x : ℤ) : (s.store i x).vertices = s.vertices := rfl

/-- The left-shift loop is an upward copy. -/
@[simp] lemma leftShift_cur (cap : ℤ) (k : ℕ) (r w : ℤ) :
    (s.leftShift cap k r w).edges.cur = copyUp k r w s.edges.cur := by
  induction k generalizing r w s with
  | zero => rfl
  | succ k ih => simp [leftShift, copyUp, ih]

@[simp] lemma leftShift_vertices (cap : ℤ) (k : ℕ) (r w : ℤ) :
    (s.leftShift cap k r w).vertices = s.vertices := by
  induction k generalizing r w s with
  | zero => rfl
  | succ k ih => simp [leftShift, ih]

/-- The right-shift loop is a downward copy. -/
@[simp] lemma rightShift_cur (k : ℕ) (r w : ℤ) :
    (s.rightShift k r w).edges.cur = copyDown k r w s.edges.cur := by
  induction k generalizing r w s with
  | zero => rfl
  | succ k ih => simp [rightShift, copyDown, ih]

@[simp] lemma rightShift_vertices (k : ℕ) (r w : ℤ) :
    (s.rightShift k r w).vertices = s.vertices := by
  induction k generalizing r w s with
  | zero => rfl
  | succ k ih => simp [rightShift, ih]

@[simp] lemma drainLog_vertices (log : ℤ → LogEntry) (fuel : ℕ) (o w : ℤ) :
    (s.drainLog log fuel o w).vertices = s.vertices := by
  induction fuel generalizing o w s with
  | zero => rfl
  | succ fuel ih =>
    unfold drainLog
    split
    · rfl
    · simp [ih]

/-- Draining a chain writes its values downwards, provided the loop may run as long as the chain. -/
lemma drainLog_cur {log : ℤ → LogEntry} {o : ℤ} {fuel : ℕ} {slots : List ℤ}
    (h : Links (fun k => (log k).prevOffset) o slots) (hf : slots.length ≤ fuel) (w : ℤ) :
    (s.drainLog log fuel o w).edges.cur = writeDown (slots.map fun k => (log k).v) w s.edges.cur := by
  induction h generalizing fuel w s with
  | nil => cases fuel <;> rfl
  | @cons o l ho hl ih =>
    cases fuel with
    | zero => simp at hf
    | succ fuel =>
      simp only [drainLog, if_neg ho, List.map_cons, writeDown]
      rw [ih (by simpa using hf) (w - 1)]
      simp

end Shifting

namespace Graph

variable {g : Graph} {startVertex endVertex : ℕ} {newIndex : List ℤ}

/-- The new index of vertex `v` in the array that `calculate_positions` returns. -/
def newAt (newIndex : List ℤ) (startVertex v : ℕ) : ℤ := newIndex.getD (v - startVertex) 0

/-- Positions that the vertices of a window can be moved to. -/
structure Targets (g : Graph) (startVertex endVertex : ℕ) (new : ℕ → ℤ) : Prop where
  lt : startVertex < endVertex
  le : endVertex ≤ g.numVertices
  first : g.bound startVertex ≤ new startVertex
  step : ∀ v, startVertex ≤ v → v + 1 < endVertex →
    new v + (g.vertices v).degree ≤ new (v + 1)
  last : new (endVertex - 1) + (g.vertices (endVertex - 1)).degree ≤ g.bound endVertex

/-- The vertices of a window with the elements they have. -/
def WindowArranged (g : Graph) (startVertex endVertex : ℕ) (c : ℕ → List ℤ) : Prop :=
  ∀ v, startVertex ≤ v → v < endVertex → g.Arranged v (c v)

namespace WindowArranged

variable {c : ℕ → List ℤ} {v w : ℕ}

/-- Vertices begin in order, and each one ends before the next begins. -/
lemma ordered (hc : g.WindowArranged startVertex endVertex c) (he : endVertex ≤ g.numVertices)
    (hv : startVertex ≤ v) (hvw : v < w) (hw : w ≤ endVertex) :
    g.bound v + g.onseg v ≤ g.bound w := by
  induction w, hvw using Nat.le_induction with
  | base =>
    rw [bound_of_lt (v := v) (by omega)]
    exact (hc v hv (by omega)).room
  | succ w hvw ih =>
    have h1 := ih (by omega)
    have h2 := hc w (by omega) (by omega)
    have h3 := h2.room
    have h4 := h2.onseg_nonneg
    rw [bound_of_lt (v := w) (by omega)] at h1
    omega

/-- The vertices of a window have non-negative degrees. -/
lemma degree_nonneg (hc : g.WindowArranged startVertex endVertex c) (v : ℕ) (h1 : startVertex ≤ v)
    (h2 : v < endVertex) : 0 ≤ (g.vertices v).degree := by
  rw [(hc v h1 h2).degree]
  omega

/-- Vertices begin in order. -/
lemma bound_le (hc : g.WindowArranged startVertex endVertex c) (he : endVertex ≤ g.numVertices)
    (hv : startVertex ≤ v) (hvw : v ≤ w) (hw : w ≤ endVertex) : g.bound v ≤ g.bound w := by
  rcases eq_or_lt_of_le hvw with rfl | hlt
  · exact le_refl _
  · have := hc.ordered he hv hlt hw
    have := (hc v hv (by omega)).onseg_nonneg
    omega

end WindowArranged

namespace Targets

variable {new : ℕ → ℤ} {v w : ℕ}

/-- Targets do not overlap. -/
lemma ordered (ht : g.Targets startVertex endVertex new)
    (hd : ∀ v, startVertex ≤ v → v < endVertex → 0 ≤ (g.vertices v).degree)
    (hv : startVertex ≤ v) (hvw : v < w) (hw : w < endVertex) :
    new v + (g.vertices v).degree ≤ new w := by
  induction w, hvw using Nat.le_induction with
  | base => exact ht.step v hv hw
  | succ w hvw ih =>
    have h1 := ih (by omega)
    have h2 := ht.step w (by omega) hw
    have h3 := hd w (by omega) (by omega)
    omega

/-- Targets end inside the window. -/
lemma le_bound (ht : g.Targets startVertex endVertex new)
    (hd : ∀ v, startVertex ≤ v → v < endVertex → 0 ≤ (g.vertices v).degree)
    (hv : startVertex ≤ v) (hw : v < endVertex) :
    new v + (g.vertices v).degree ≤ g.bound endVertex := by
  rcases eq_or_lt_of_le (Nat.le_sub_one_of_lt hw) with rfl | hlt
  · exact ht.last
  · have h1 := ht.ordered hd hv hlt (by have := ht.lt; omega)
    have h2 := hd (endVertex - 1) (by omega) (by omega)
    have h3 := ht.last
    omega

/-- Targets begin inside the window. -/
lemma bound_le (ht : g.Targets startVertex endVertex new)
    (hd : ∀ v, startVertex ≤ v → v < endVertex → 0 ≤ (g.vertices v).degree)
    (hv : startVertex ≤ v) (hw : v < endVertex) : g.bound startVertex ≤ new v := by
  rcases eq_or_lt_of_le hv with rfl | hlt
  · exact ht.first
  · have h1 := ht.ordered hd (le_refl _) hlt hw
    have h2 := hd startVertex (le_refl _) ht.lt
    have h3 := ht.first
    omega

end Targets

/-- Vertex `v` has been moved to its target. -/
def Done (g : Graph) (new : ℕ → ℤ) (c : ℕ → List ℤ) (s : Shifting) (v : ℕ) : Prop :=
  s.vertices v = ⟨new v, (g.vertices v).degree, -1⟩ ∧
    slice s.edges.cur (new v) (c v).length = c v

/-- Vertex `v` still is where it was. -/
def Todo (g : Graph) (s : Shifting) (v : ℕ) : Prop :=
  s.vertices v = g.vertices v ∧
    ∀ x, g.bound v ≤ x → x < g.bound v + g.onseg v → s.edges.cur x = g.edges.cur x

/-- The number of elements that `rebalance_data_V1` shifts is the number of on-segment elements. -/
lemma count_eq (g : Graph) (jj : ℕ) : (if (g.vertices jj).offset ≠ -1 then
      g.bound (jj + 1) - 1 - (g.vertices jj).index + 1 else (g.vertices jj).degree) = g.onseg jj := by
  unfold onseg
  by_cases ho : (g.vertices jj).offset = -1
  · simp [ho]
  · simp only [ho, ne_eq, not_false_eq_true, if_true, if_false]
    ring

/-- Moving a vertex that still is where it was: its elements end up at the target, and no slot outside
the target changes. -/
lemma shiftVertex_spec {s : Shifting} {jj : ℕ} {c : List ℤ} (new : ℤ) (hj : jj < g.numVertices)
    (hh : g.Arranged jj c) (ht : Todo g s jj) :
    let s' := g.shiftVertex new jj (g.bound (jj + 1) - 1) s
    s'.vertices = Function.update s.vertices jj ⟨new, (g.vertices jj).degree, -1⟩ ∧
    slice s'.edges.cur new c.length = c ∧
    ∀ x, x < new ∨ new + c.length ≤ x → s'.edges.cur x = s.edges.cur x := by
  obtain ⟨hv, hcur⟩ := ht
  have hb := bound_of_lt hj
  have hpos := hh.onseg_nonneg
  have hle := hh.onseg_le
  set on := g.onseg jj with hon
  set vals := (c.drop on.toNat).reverse with hvals
  have hlen : (vals.length : ℤ) = c.length - on := by
    rw [hvals, List.length_reverse, List.length_drop]
    omega
  obtain ⟨slots, hlinks, hfuel, hslots⟩ := hh.logged
  rw [← hon, ← hvals] at hslots
  -- the three shifts agree with one snapshot copy
  have hcount := g.count_eq jj
  rw [← hon] at hcount
  have hshift : ∀ s1 : Shifting, s1 = (if new < (g.vertices jj).index then
        s.leftShift g.elemCapacity on.toNat (g.vertices jj).index new
      else if (g.vertices jj).index < new then
        s.rightShift on.toNat ((g.vertices jj).index + on - 1) (new + on - 1)
      else s) →
      s1.edges.cur = blit s.edges.cur (g.vertices jj).index new on.toNat ∧
        s1.vertices = s.vertices := by
    rintro s1 rfl
    have hcast : ((on.toNat : ℕ) : ℤ) = on := by omega
    rcases lt_trichotomy new (g.vertices jj).index with hlt | heq | hgt
    · rw [if_pos hlt]
      exact ⟨by rw [Shifting.leftShift_cur, copyUp_eq hlt.le], by simp⟩
    · rw [if_neg (by omega), if_neg (by omega), heq]
      refine ⟨?_, rfl⟩
      funext x
      unfold blit
      split
      · congr 1
        ring
      · rfl
    · rw [if_neg (by omega), if_pos hgt]
      refine ⟨?_, by simp⟩
      rw [Shifting.rightShift_cur, ← copyDown_eq hgt.le, hcast]
  obtain ⟨hs1, hs1v⟩ := hshift _ rfl
  -- the drain writes the chain below the end of the target
  have hdrain : ∀ s1 s2 : Shifting, s2 = (if (g.vertices jj).offset ≠ -1 then
        s1.drainLog (g.logPtr (g.leafOf jj)).cur maxLogEntries (g.vertices jj).offset
          (new + (g.vertices jj).degree - 1)
      else s1) →
      s2.edges.cur = writeDown vals (new + c.length - 1) s1.edges.cur ∧
        s2.vertices = s1.vertices := by
    rintro s1 s2 rfl
    by_cases ho : (g.vertices jj).offset = -1
    · rw [ho] at hlinks
      rw [← hslots, hlinks.unique .nil]
      simp [ho, writeDown]
    · rw [if_pos ho, Shifting.drainLog_cur hlinks hfuel, hslots, hh.degree]
      exact ⟨rfl, by simp⟩
  obtain ⟨hs2, hs2v⟩ := hdrain _ _ rfl
  simp only [shiftVertex, hv, hcount]
  refine ⟨?_, ?_, ?_⟩
  · rw [hs2v, hs1v]
  · rw [hs2, hs1]
    have hsplit : c.length = on.toNat + vals.length := by omega
    rw [hsplit, slice_add, show new + ((on.toNat + vals.length : ℕ) : ℤ) - 1
        = new + (on.toNat : ℤ) + vals.length - 1 by push_cast; ring, slice_writeDown]
    have hfst : slice (writeDown vals (new + (on.toNat : ℤ) + vals.length - 1)
        (blit s.edges.cur (g.vertices jj).index new on.toNat)) new on.toNat = c.take on.toNat := by
      rw [← hh.slots]
      apply slice_congr
      intro j hj
      rw [writeDown_outside (by omega), blit_inside (by omega) (by omega)]
      rw [show new + (j : ℤ) - new + (g.vertices jj).index = (g.vertices jj).index + j by ring]
      apply hcur <;> omega
    rw [hfst, hvals, List.reverse_reverse, List.take_append_drop]
  · intro x hx
    rw [hs2, hs1, writeDown_outside (by omega), blit_outside (by omega)]

variable {new : ℕ → ℤ} {c : ℕ → List ℤ} {s : Shifting} {lo mid hi : ℕ}

/-- The vertices below `lo` and those in `[mid, hi)` are done, the others of the window are not, and
nothing outside the window has changed. -/
structure Progress (g : Graph) (startVertex endVertex : ℕ) (new : ℕ → ℤ) (c : ℕ → List ℤ)
    (s : Shifting) (lo mid hi : ℕ) : Prop where
  low : ∀ v, startVertex ≤ v → v < lo → Done g new c s v
  todo : ∀ v, lo ≤ v → v < mid → Todo g s v
  done : ∀ v, mid ≤ v → v < hi → Done g new c s v
  high : ∀ v, hi ≤ v → v < endVertex → Todo g s v
  vertices : ∀ v, v < startVertex ∨ endVertex ≤ v → s.vertices v = g.vertices v
  slots : ∀ x, x < g.bound startVertex ∨ g.bound endVertex ≤ x → s.edges.cur x = g.edges.cur x

/-- What the group that starts at `lo` must satisfy so that moving its vertices from the last one down
is safe: all but the first move right, and the last one has room. -/
structure GroupSafe (g : Graph) (endVertex : ℕ) (new : ℕ → ℤ) (lo hi : ℕ) : Prop where
  right : ∀ v, lo < v → v < hi → g.bound v ≤ new v
  room : hi < endVertex → new (hi - 1) + (g.vertices (hi - 1)).degree ≤ g.bound hi

namespace Progress

/-- Moving the last vertex of a group that is not done. -/
lemma shift (hp : Progress g startVertex endVertex new c s lo (mid + 1) hi)
    (ht : g.Targets startVertex endVertex new) (hc : g.WindowArranged startVertex endVertex c)
    (hg : GroupSafe g endVertex new lo hi) (h1 : startVertex ≤ lo) (h2 : lo ≤ mid) (h3 : mid < hi)
    (h4 : hi ≤ endVertex) :
    Progress g startVertex endVertex new c
      (g.shiftVertex (new mid) mid (g.bound (mid + 1) - 1) s) lo mid hi := by
  have hn := ht.le
  have hh := hc mid (by omega) (by omega)
  obtain ⟨hv, hs, ho⟩ := shiftVertex_spec (new mid) (by omega) hh (hp.todo mid h2 (by omega))
  have hd := hh.degree
  have hlb := ht.bound_le hc.degree_nonneg (v := mid) (by omega) (by omega)
  have hub := ht.le_bound hc.degree_nonneg (v := mid) (by omega) (by omega)
  have other : ∀ v, v ≠ mid → (g.shiftVertex (new mid) mid (g.bound (mid + 1) - 1) s).vertices v
      = s.vertices v := fun v hvm => by rw [hv, Function.update_of_ne hvm]
  have keepDone : ∀ v, startVertex ≤ v → v < endVertex → v ≠ mid → Done g new c s v →
      Done g new c (g.shiftVertex (new mid) mid (g.bound (mid + 1) - 1) s) v := by
    intro v hsv hve hvm hdone
    refine ⟨by rw [other v hvm]; exact hdone.1, ?_⟩
    rw [← hdone.2, slice_length]
    apply slice_congr
    intro j hj
    have hdv := (hc v hsv hve).degree
    apply ho
    rcases Nat.lt_or_gt_of_ne hvm with hlt | hgt
    · have := ht.ordered hc.degree_nonneg hsv hlt (by omega)
      omega
    · have := ht.ordered hc.degree_nonneg (by omega) hgt hve
      omega
  have keepTodo : ∀ v, v ≠ mid →
      (g.bound v + g.onseg v ≤ new mid ∨ new mid + (g.vertices mid).degree ≤ g.bound v) →
      Todo g s v → Todo g (g.shiftVertex (new mid) mid (g.bound (mid + 1) - 1) s) v := by
    intro v hvm hdisj htodo
    refine ⟨by rw [other v hvm]; exact htodo.1, fun x hx1 hx2 => ?_⟩
    rw [ho x (by omega)]
    exact htodo.2 x hx1 hx2
  refine ⟨?_, ?_, ?_, ?_, ?_, ?_⟩
  · intro v hsv hvl
    exact keepDone v hsv (by omega) (by omega) (hp.low v hsv hvl)
  · intro v hlv hvm
    refine keepTodo v (by omega) (.inl ?_) (hp.todo v hlv (by omega))
    have := hc.ordered hn (v := v) (w := mid) (by omega) hvm (by omega)
    have := hg.right mid (by omega) h3
    omega
  · intro v hmv hvh
    rcases eq_or_lt_of_le hmv with rfl | hlt
    · exact ⟨by rw [hv, Function.update_self], hs⟩
    · exact keepDone v (by omega) (by omega) (by omega) (hp.done v hlt hvh)
  · intro v hhv hve
    refine keepTodo v (by omega) (.inr ?_) (hp.high v hhv hve)
    have hroom := hg.room (by omega)
    have hle := hc.bound_le hn (v := hi) (w := v) (by omega) hhv (by omega)
    rcases eq_or_lt_of_le (Nat.le_sub_one_of_lt h3) with rfl | hlt
    · omega
    · have := ht.ordered hc.degree_nonneg (by omega) hlt (by omega)
      have := hc.degree_nonneg (hi - 1) (by omega) (by omega)
      omega
  · intro v hv'
    rw [other v (by omega)]
    exact hp.vertices v hv'
  · intro x hx
    rw [ho x (by omega)]
    exact hp.slots x hx

/-- Moving a whole group, from its last vertex down to its first. -/
lemma group (hnew : ∀ v, startVertex ≤ v → v < endVertex → newAt newIndex startVertex v = new v)
    (ht : g.Targets startVertex endVertex new) (hc : g.WindowArranged startVertex endVertex c)
    (hg : GroupSafe g endVertex new lo hi) (h1 : startVertex ≤ lo) (h4 : hi ≤ endVertex) (k : ℕ)
    (hp : Progress g startVertex endVertex new c s lo (lo + k) hi) (h3 : lo + k ≤ hi) :
    Progress g startVertex endVertex new c
      (g.shiftGroup startVertex newIndex k (lo + k - 1) (g.bound (lo + k) - 1) s) lo lo hi := by
  induction k generalizing s with
  | zero => exact hp
  | succ k ih =>
    have hn := ht.le
    rw [shiftGroup, show lo + (k + 1) - 1 = lo + k by omega]
    have hidx' : (s.vertices (lo + k)).index = g.bound (lo + k) := by
      rw [(hp.todo (lo + k) (by omega) (by omega)).1, bound_of_lt (by omega)]
    rw [hidx', show newIndex.getD (lo + k - startVertex) 0 = new (lo + k) from
      hnew (lo + k) (by omega) (by omega)]
    have hp' : Progress g startVertex endVertex new c s lo (lo + k + 1) hi := hp
    exact ih (hp'.shift ht hc hg h1 (by omega) (by omega) h4) (by omega)

end Progress

/-- The scan stops at the first vertex with space to its right. -/
lemma findSpace_spec (startVertex : ℕ) (newIndex : List ℤ) (s : Shifting) (k ii : ℕ) :
    let r := findSpace startVertex newIndex s k ii
    ii ≤ r ∧ r ≤ ii + k ∧
    (∀ v, ii ≤ v → v < r →
      (s.vertices (v + 1)).index < newAt newIndex startVertex v + (s.vertices v).degree) ∧
    (r < ii + k →
      newAt newIndex startVertex r + (s.vertices r).degree ≤ (s.vertices (r + 1)).index) := by
  induction k generalizing ii with
  | zero => exact ⟨le_refl _, le_refl _, by intro v h1 h2; simp only [findSpace] at h2; omega,
      by intro h; simp only [findSpace] at h; omega⟩
  | succ k ih =>
    simp only [findSpace]
    split
    · rename_i hcond
      exact ⟨le_refl _, by omega, by intro v h1 h2; omega, fun _ => hcond⟩
    · rename_i hcond
      obtain ⟨h1, h2, h3, h4⟩ := ih (ii + 1)
      refine ⟨by omega, by omega, fun v hv1 hv2 => ?_, fun h => h4 (by omega)⟩
      rcases eq_or_lt_of_le hv1 with rfl | hlt
      · exact lt_of_not_ge hcond
      · exact h3 v hlt hv2

/-- The next group: it is not empty, it can be moved safely, and the boundary of its last vertex is where
the next vertex begins. -/
lemma Progress.next (hnew : ∀ v, startVertex ≤ v → v < endVertex →
      newAt newIndex startVertex v = new v)
    (ht : g.Targets startVertex endVertex new) (h1 : startVertex ≤ lo) (h2 : lo < endVertex)
    (hp : Progress g startVertex endVertex new c s lo lo lo) {ii : ℕ}
    (hii : ii = if findSpace startVertex newIndex s (endVertex - lo) lo = endVertex
      then findSpace startVertex newIndex s (endVertex - lo) lo - 1
      else findSpace startVertex newIndex s (endVertex - lo) lo) :
    lo ≤ ii ∧ ii < endVertex ∧ GroupSafe g endVertex new lo (ii + 1) ∧
    (if g.numVertices - 1 ≤ ii then g.elemCapacity - 1 else (s.vertices (ii + 1)).index - 1) =
      g.bound (ii + 1) - 1 ∧
    Progress g startVertex endVertex new c s lo (ii + 1) (ii + 1) := by
  have hn := ht.le
  obtain ⟨hr1, hr2, hr3, hr4⟩ := findSpace_spec startVertex newIndex s (endVertex - lo) lo
  generalize findSpace startVertex newIndex s (endVertex - lo) lo = r at *
  have hlo : lo ≤ ii := by split at hii <;> omega
  have hend : ii < endVertex := by split at hii <;> omega
  have hle : ii ≤ r := by split at hii <;> omega
  have hsv : ∀ v, lo ≤ v → v ≤ endVertex → v < g.numVertices → (s.vertices v).index = g.bound v := by
    intro v hv1 hv2 hv3
    rw [bound_of_lt hv3]
    by_cases hve : v < endVertex
    · rw [(hp.high v hv1 hve).1]
    · rw [hp.vertices v (by omega)]
  have hsd : ∀ v, lo ≤ v → v < endVertex → (s.vertices v).degree = (g.vertices v).degree :=
    fun v hv1 hv2 => by rw [(hp.high v hv1 hv2).1]
  refine ⟨hlo, hend, ⟨fun v hv1 hv2 => ?_, fun hlt' => ?_⟩, ?_, hp.low,
    fun v hv1 hv2 => hp.high v hv1 (by omega), fun v hv1 hv2 => by omega,
    fun v hv1 hv2 => hp.high v (by omega) hv2, hp.vertices, hp.slots⟩
  · have h := hr3 (v - 1) (by omega) (by omega)
    rw [show v - 1 + 1 = v by omega, hsv v (by omega) (by omega) (by omega),
      hnew (v - 1) (by omega) (by omega), hsd (v - 1) (by omega) (by omega)] at h
    have := ht.step (v - 1) (by omega) (by omega)
    rw [show v - 1 + 1 = v by omega] at this
    omega
  · have hr : r = ii := by split at hii <;> omega
    subst hr
    have h := hr4 (by omega)
    rw [hsv (r + 1) (by omega) (by omega) (by omega), hnew r (by omega) (by omega),
      hsd r (by omega) (by omega)] at h
    simpa using h
  · split
    · rw [bound_of_ge (by omega)]
    · rw [hsv (ii + 1) (by omega) (by omega) (by omega)]

/-- A group that has been moved is behind. -/
lemma Progress.advance (hp : Progress g startVertex endVertex new c s lo lo hi) :
    Progress g startVertex endVertex new c s hi hi hi := by
  refine ⟨fun v hv1 hv2 => ?_, fun v hv1 hv2 => by omega, fun v hv1 hv2 => by omega, hp.high,
    hp.vertices, hp.slots⟩
  by_cases hvl : v < lo
  · exact hp.low v hv1 hvl
  · exact hp.done v (by omega) hv2

/-- One pass of the outer loop: `ii` is the last vertex of the next group, and moving the group leaves it
behind. -/
lemma Progress.nextGroup (hnew : ∀ v, startVertex ≤ v → v < endVertex →
      newAt newIndex startVertex v = new v)
    (ht : g.Targets startVertex endVertex new) (hc : g.WindowArranged startVertex endVertex c)
    (h1 : startVertex ≤ lo) (h2 : lo < endVertex)
    (hp : Progress g startVertex endVertex new c s lo lo lo) :
    ∃ ii, (if findSpace startVertex newIndex s (endVertex - lo) lo = endVertex
        then findSpace startVertex newIndex s (endVertex - lo) lo - 1
        else findSpace startVertex newIndex s (endVertex - lo) lo) = ii ∧
      (if g.numVertices - 1 ≤ ii then g.elemCapacity - 1 else (s.vertices (ii + 1)).index - 1) =
        g.bound (ii + 1) - 1 ∧
      lo ≤ ii ∧ ii < endVertex ∧ GroupSafe g endVertex new lo (ii + 1) ∧
      Progress g startVertex endVertex new c s lo (lo + (ii + 1 - lo)) (ii + 1) ∧
      Progress g startVertex endVertex new c
        (g.shiftGroup startVertex newIndex (ii + 1 - lo) ii (g.bound (ii + 1) - 1) s)
        (ii + 1) (ii + 1) (ii + 1) := by
  refine ⟨_, rfl, ?_⟩
  generalize hii : (if findSpace startVertex newIndex s (endVertex - lo) lo = endVertex
    then findSpace startVertex newIndex s (endVertex - lo) lo - 1
    else findSpace startVertex newIndex s (endVertex - lo) lo) = ii
  obtain ⟨hlo, hend, hsafe, hnb, hp'⟩ := hp.next hnew ht h1 h2 hii.symm
  have hp' : Progress g startVertex endVertex new c s lo (lo + (ii + 1 - lo)) (ii + 1) := by
    rwa [show lo + (ii + 1 - lo) = ii + 1 by omega]
  have hgr := Progress.group hnew ht hc hsafe h1 (by omega) (ii + 1 - lo) hp' (by omega)
  rw [show lo + (ii + 1 - lo) - 1 = ii by omega, show lo + (ii + 1 - lo) = ii + 1 by omega] at hgr
  exact ⟨hnb, hlo, hend, hsafe, hp', hgr.advance⟩

/-- Moving the groups from `lo` on until the window is done. -/
lemma Progress.loop (hnew : ∀ v, startVertex ≤ v → v < endVertex →
      newAt newIndex startVertex v = new v)
    (ht : g.Targets startVertex endVertex new) (hc : g.WindowArranged startVertex endVertex c)
    (fuel : ℕ) (h1 : startVertex ≤ lo) (h2 : lo ≤ endVertex) (hf : endVertex - lo ≤ fuel)
    (hp : Progress g startVertex endVertex new c s lo lo lo) :
    Progress g startVertex endVertex new c
      (g.rebalanceLoop startVertex endVertex newIndex fuel lo s) endVertex endVertex endVertex := by
  induction fuel generalizing lo s with
  | zero =>
    obtain rfl : lo = endVertex := by omega
    exact hp
  | succ fuel ih =>
    unfold rebalanceLoop
    split
    case isFalse =>
      obtain rfl : lo = endVertex := by omega
      exact hp
    case isTrue hlt =>
      simp only
      obtain ⟨ii, hii, hnb, hlo, hend, -, -, hgr⟩ := hp.nextGroup hnew ht hc h1 hlt
      rw [hii, hnb]
      exact ih (by omega) (by omega) (by omega) hgr

/-- The state in which the loops of `rebalance_data_V1` begin. -/
def shifting (g : Graph) (tid endVertex : ℕ) : Shifting where
  vertices := g.vertices
  edges := g.edges
  ulog := g.ulogPtr tid
  oplog := g.oplogPtr tid
  ulogSt := (g.vertices endVertex).index
  ulogNd := (g.vertices endVertex).index

/-- The state in which they end. -/
def moved (g : Graph) (tid startVertex endVertex : ℕ) (newIndex : List ℤ) : Shifting :=
  g.rebalanceLoop startVertex endVertex newIndex (endVertex - startVertex) startVertex
    (g.shifting tid endVertex)

/-- At the start nothing is done. -/
lemma Progress.start (tid : ℕ) : Progress g startVertex endVertex new c (g.shifting tid endVertex)
    startVertex startVertex startVertex :=
  ⟨fun v _ _ => by omega, fun v _ _ => by omega, fun v _ _ => by omega,
    fun v _ _ => ⟨rfl, fun _ _ _ => rfl⟩, fun v _ => rfl, fun x _ => rfl⟩

/-- At the end the whole window is done. -/
lemma Progress.moved (tid : ℕ) (ht : g.Targets startVertex endVertex (newAt newIndex startVertex))
    (hc : g.WindowArranged startVertex endVertex c) :
    Progress g startVertex endVertex (newAt newIndex startVertex) c
      (g.moved tid startVertex endVertex newIndex) endVertex endVertex endVertex :=
  Progress.loop (fun _ _ _ => rfl) ht hc (endVertex - startVertex) (le_refl _) ht.lt.le (le_refl _)
    (Progress.start tid)

end Graph

end Dgap
