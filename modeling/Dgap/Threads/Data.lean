import Dgap.Threads.Model
import Dgap.Layout.Run

/-!
# Concurrent inserts lose and duplicate nothing

Each data update of a concurrent run is one of those of a sequential one: an insertion, the rebalance of
a window of leaves, or a resize. They keep the layout whatever the other threads are doing, because the
assertions of `rebalance_weighted` and `calculate_positions` reject a window whose sums are stale. So in
every state the graph represents the base edges and the calls that have been `placed`, in some order
(`Data`), and a call is placed once.
-/

namespace Dgap

namespace Pc

/-- Whether the running call has inserted its edge. -/
def placed : Pc → Bool
  | .idle | .acquire | .testRebalance | .sleep | .asleep | .insertion => false
  | _ => true

end Pc

namespace Thread

variable {n : ℕ} {t t' : Thread} {g : Graph} {r : ℕ → ℤ} {o : ℕ → Option (Fin n)} {i : Fin n}
  {e : Effect}

/-- The calls whose edges a thread has inserted. -/
def placed (t : Thread) : Multiset (ℕ × ℕ) :=
  t.returned + if t.pc.placed then {(t.src, t.dst)} else 0

/-- All calls of a thread, in order. -/
def calls (t : Thread) : List (ℕ × ℕ) :=
  match t.pc with
  | .idle => t.returned ++ t.todo
  | _ => t.returned ++ (t.src, t.dst) :: t.todo

/-- The running call and the calls to come have sources in range. -/
structure InRange (g : Graph) (t : Thread) : Prop where
  todo : ∀ e ∈ t.todo, e.1 < g.numVertices
  src : t.pc ≠ .idle → t.src < g.numVertices
  current : t.pc ≠ .idle → t.current = g.leafOf t.src

@[simp] lemma goto_returned (pc : Pc) : (t.goto pc).returned = t.returned := rfl
@[simp] lemma goto_todo (pc : Pc) : (t.goto pc).todo = t.todo := rfl
@[simp] lemma goto_src (pc : Pc) : (t.goto pc).src = t.src := rfl
@[simp] lemma goto_dst (pc : Pc) : (t.goto pc).dst = t.dst := rfl
@[simp] lemma goto_current (pc : Pc) : (t.goto pc).current = t.current := rfl
@[simp] lemma goto_pc (pc : Pc) : (t.goto pc).pc = pc := rfl

/-- Two threads in the same call. -/
structure SameCall (t t' : Thread) : Prop where
  returned : t'.returned = t.returned
  todo : t'.todo = t.todo
  src : t'.src = t.src
  dst : t'.dst = t.dst
  current : t'.current = t.current
  running : t.pc ≠ .idle
  running' : t'.pc ≠ .idle

namespace SameCall

/-- A step inside a call changes no call. -/
lemma calls (h : SameCall t t') : t'.calls = t.calls := by
  have h1 := h.running
  have h2 := h.running'
  have running : ∀ t : Thread, t.pc ≠ .idle → t.calls = t.returned ++ (t.src, t.dst) :: t.todo := by
    intro t ht
    unfold Thread.calls
    split
    · exact absurd ‹_› ht
    · rfl
  rw [running t h1, running t' h2, h.returned, h.todo, h.src, h.dst]

/-- A step inside a call stays in range. -/
lemma inRange (h : SameCall t t') (hr : InRange g t) : InRange g t' :=
  ⟨by rw [h.todo]; exact hr.todo, fun _ => by rw [h.src]; exact hr.src h.running,
    fun _ => by rw [h.current, h.src]; exact hr.current h.running⟩

/-- A step inside a call that keeps the status of its edge. -/
lemma placed (h : SameCall t t') (hp : t'.pc.placed = t.pc.placed) : t'.placed = t.placed := by
  unfold Thread.placed
  rw [h.returned, h.src, h.dst, hp]

end SameCall

/-- Going on inside a call. -/
lemma sameCall_goto {pc : Pc} (h : t.pc ≠ .idle) (hpc : pc ≠ .idle) : SameCall t (t.goto pc) :=
  ⟨rfl, rfl, rfl, rfl, rfl, h, hpc⟩

/-- Where `lock_in_batch` goes on, the edge has been inserted. -/
lemma lockFrom_pc (seg : ℕ) : (t.lockFrom seg).pc ≠ .idle ∧ (t.lockFrom seg).pc.placed = true := by
  unfold lockFrom
  simp only [goto_pc]
  split
  · split <;> simp [Pc.placed]
  · split <;> simp [Pc.placed]

/-- Where `unlock_in_batch` goes on, the edge has been inserted. -/
lemma unlockBelow_pc (hi : ℕ) :
    (t.unlockBelow hi).pc ≠ .idle ∧ (t.unlockBelow hi).pc.placed = true := by
  unfold unlockBelow
  simp only [goto_pc]
  split
  · split <;> simp [Pc.placed]
  · split <;> simp [Pc.placed]

/-- What a thread does to the graph. -/
inductive Updates (g : Graph) (t : Thread) (i : Fin n) (g' : Graph) (t' : Thread) : Prop where
  | insertion : g.doInsertion i t.src t.dst (t.current + g.segmentCount) = some g' →
      t.pc.placed = false → t'.pc.placed = true → Updates g t i g' t'
  | rebalance : g.rebalanceWeighted i (g.leftIndex t.src t.height) (g.rightIndex t.src t.height)
      t.metaActual t.metaTotal = some g' → t'.pc.placed = t.pc.placed → Updates g t i g' t'
  | resize : g.resizeV1 = some g' → t'.pc.placed = t.pc.placed → Updates g t i g' t'

/-- What one step means for the calls of a thread: it begins a call, or returns from one, or updates the
graph, or does none of these. -/
inductive Steps (g : Graph) (t : Thread) (i : Fin n) : Effect → Thread → Prop where
  | begins {src dst : ℕ} {rest : List (ℕ × ℕ)} : t.pc = .idle → t.todo = (src, dst) :: rest →
      Steps g t i .skip { t with
        todo := rest, src, dst
        current := g.leafOf src
        window := g.getSegmentId src
        height := 0
        pc := .acquire }
  | leaves : t.pc = .leave →
      Steps g t i .skip { t with returned := t.returned ++ [(t.src, t.dst)], pc := .idle }
  | aborts {u : Thread} : Steps g t i .abort u
  | updates {g' : Graph} {u : Thread} : SameCall t u → Updates g t i g' u →
      Steps g t i (.data g') u
  | inside {e : Effect} {u : Thread} : SameCall t u → (∀ g', e ≠ .data g') →
      u.pc.placed = t.pc.placed → Steps g t i e u

/-- A thread that goes on inside its call without touching the graph. -/
lemma Steps.goto {pc : Pc} (h : t.pc ≠ .idle) (hpc : pc ≠ .idle) (hp : pc.placed = t.pc.placed)
    (he : ∀ g', e ≠ .data g') : Steps g t i e (t.goto pc) :=
  .inside (sameCall_goto h hpc) he hp

/-- A thread that goes on with `lock_in_batch`. -/
lemma Steps.lockFrom {t0 : Thread} {seg : ℕ} (h : SameCall t { t0 with pc := t.pc })
    (hp : t.pc.placed = true) : Steps g t i .skip (t0.lockFrom seg) :=
  .inside ⟨h.returned, h.todo, h.src, h.dst, h.current, h.running, (lockFrom_pc seg).1⟩
    (fun _ => by simp) ((lockFrom_pc seg).2.trans hp.symm)

/-- A thread that goes on with `unlock_in_batch`. -/
lemma sameCall_unlockBelow {t0 : Thread} {hi : ℕ} (h : SameCall t { t0 with pc := t.pc }) :
    SameCall t (t0.unlockBelow hi) :=
  ⟨h.returned, h.todo, h.src, h.dst, h.current, h.running, (unlockBelow_pc hi).1⟩

/-- What follows the loop over the windows stays in the call. -/
lemma Steps.afterLoop (h : t.pc ≠ .idle) (hp : t.pc.placed = true) :
    Steps g t i (t.afterLoop g).1 (t.afterLoop g).2 := by
  unfold Thread.afterLoop
  split
  · exact .aborts
  · split
    · exact .goto h (by simp) (by rw [hp]; rfl) (by simp)
    · exact .inside ⟨rfl, rfl, rfl, rfl, rfl, h, by simp⟩ (by simp) (by rw [hp]; rfl)

/-- A thread that goes on with `unlock_in_batch`. -/
lemma Steps.unlockBelow {t0 : Thread} {hi : ℕ} (h : SameCall t { t0 with pc := t.pc })
    (hp : t.pc.placed = true) (he : ∀ g', e ≠ .data g') : Steps g t i e (t0.unlockBelow hi) :=
  .inside (sameCall_unlockBelow h) he ((unlockBelow_pc hi).2.trans hp.symm)

/-- Every step of a thread is one of `Steps`. -/
lemma next_steps (h : t.next g r o i = some (e, t')) : Steps g t i e t' := by
  unfold next at h
  have same : ∀ t0 : Thread, t0.returned = t.returned → t0.todo = t.todo → t0.src = t.src →
      t0.dst = t.dst → t0.current = t.current → t.pc ≠ .idle →
      SameCall t { t0 with pc := t.pc } := fun _ h1 h2 h3 h4 h5 h6 => ⟨h1, h2, h3, h4, h5, h6, h6⟩
  cases hpc : t.pc with
  | idle =>
    simp only [hpc] at h
    split at h
    · cases h
    · obtain ⟨rfl, rfl⟩ := Prod.mk.inj (Option.some.inj h)
      exact .begins hpc ‹_›
  | sleep | readActual | incRead | incWrite | raiseRead | lowerRead | readDepend =>
    simp only [hpc] at h
    obtain ⟨rfl, rfl⟩ := Prod.mk.inj (Option.some.inj h)
    exact .goto (by simp [hpc]) (by simp) (by simp [hpc, Pc.placed]) (by simp)
  | testRebalance | release =>
    simp only [hpc] at h
    obtain ⟨rfl, rfl⟩ := Prod.mk.inj (Option.some.inj h)
    exact .goto (by simp [hpc]) (by split <;> simp) (by split <;> simp [hpc, Pc.placed]) (by simp)
  | acquire | lockSeg =>
    simp only [hpc] at h
    split at h
    · obtain ⟨rfl, rfl⟩ := Prod.mk.inj (Option.some.inj h)
      exact .goto (by simp [hpc]) (by simp) (by simp [hpc, Pc.placed]) (by simp)
    · cases h
  | raiseCas | lowerCas =>
    simp only [hpc] at h
    split at h
    all_goals
      obtain ⟨rfl, rfl⟩ := Prod.mk.inj (Option.some.inj h)
      exact .goto (by simp [hpc]) (by simp) (by simp [hpc, Pc.placed]) (by simp)
  | asleep => simp [hpc] at h
  | insertion =>
    simp only [hpc] at h
    split at h
    · obtain ⟨rfl, rfl⟩ := Prod.mk.inj (Option.some.inj h)
      exact .aborts
    · rename_i g' hg
      obtain ⟨rfl, rfl⟩ := Prod.mk.inj (Option.some.inj h)
      exact .updates (sameCall_goto (by simp [hpc]) (by simp))
        (.insertion hg (by simp [hpc, Pc.placed]) (by simp [Pc.placed]))
  | readTotal k actual =>
    simp only [hpc] at h
    split at h
    case h_1 =>
      obtain ⟨rfl, rfl⟩ := Prod.mk.inj (Option.some.inj h)
      exact .goto (by simp [hpc]) (by split <;> simp) (by split <;> simp [hpc, Pc.placed]) (by simp)
    case h_2 =>
      obtain ⟨rfl, rfl⟩ := Prod.mk.inj (Option.some.inj h)
      split
      · exact .goto (by simp [hpc]) (by simp) (by simp [hpc, Pc.placed]) (by simp)
      · exact .unlockBelow (same _ rfl rfl rfl rfl rfl (by simp [hpc])) (by rw [hpc]; rfl) (by simp)
    case h_3 =>
      obtain ⟨rfl, rfl⟩ := Prod.mk.inj (Option.some.inj h)
      split
      · exact .lockFrom (same _ rfl rfl rfl rfl rfl (by simp [hpc])) (by rw [hpc]; rfl)
      · exact .goto (by simp [hpc]) (by simp) (by simp [hpc, Pc.placed]) (by simp)
  | climb =>
    simp only [hpc] at h
    split at h
    · obtain ⟨rfl, rfl⟩ := Prod.mk.inj (Option.some.inj h)
      exact .lockFrom (same _ rfl rfl rfl rfl rfl (by simp [hpc])) (by rw [hpc]; rfl)
    · obtain ⟨rfl, rfl⟩ := Prod.ext_iff.1 (Option.some.inj h)
      exact .afterLoop (by simp [hpc]) (by rw [hpc]; rfl)
  | sumActual seg =>
    simp only [hpc] at h
    obtain ⟨rfl, rfl⟩ := Prod.mk.inj (Option.some.inj h)
    exact .inside ⟨rfl, rfl, rfl, rfl, rfl, by simp [hpc], by simp⟩ (by simp)
      (by simp [hpc, Pc.placed])
  | sumTotal seg =>
    simp only [hpc] at h
    obtain ⟨rfl, rfl⟩ := Prod.mk.inj (Option.some.inj h)
    exact .lockFrom (same _ rfl rfl rfl rfl rfl (by simp [hpc])) (by rw [hpc]; rfl)
  | decide =>
    simp only [hpc] at h
    split at h
    · obtain ⟨rfl, rfl⟩ := Prod.ext_iff.1 (Option.some.inj h)
      exact .afterLoop (by simp [hpc]) (by rw [hpc]; rfl)
    · obtain ⟨rfl, rfl⟩ := Prod.mk.inj (Option.some.inj h)
      exact .unlockBelow (same _ rfl rfl rfl rfl rfl (by simp [hpc])) (by rw [hpc]; rfl) (by simp)
  | rebalance =>
    simp only [hpc] at h
    split at h
    · obtain ⟨rfl, rfl⟩ := Prod.mk.inj (Option.some.inj h)
      exact .aborts
    · rename_i g' hg
      obtain ⟨rfl, rfl⟩ := Prod.mk.inj (Option.some.inj h)
      exact .updates (sameCall_unlockBelow (same _ rfl rfl rfl rfl rfl (by simp [hpc])))
        (.rebalance hg (by rw [(unlockBelow_pc _).2, hpc]; rfl))
  | resize =>
    simp only [hpc] at h
    split at h
    · obtain ⟨rfl, rfl⟩ := Prod.mk.inj (Option.some.inj h)
      exact .aborts
    · rename_i g' hg
      obtain ⟨rfl, rfl⟩ := Prod.mk.inj (Option.some.inj h)
      exact .updates (sameCall_unlockBelow (same _ rfl rfl rfl rfl rfl (by simp [hpc])))
        (.resize hg (by rw [(unlockBelow_pc _).2, hpc]; rfl))
  | unlockSeg seg rebalDepend =>
    simp only [hpc] at h
    obtain ⟨rfl, rfl⟩ := Prod.mk.inj (Option.some.inj h)
    split
    · exact .goto (by simp [hpc]) (by simp) (by simp [hpc, Pc.placed]) (by simp)
    · exact .unlockBelow (same _ rfl rfl rfl rfl rfl (by simp [hpc])) (by rw [hpc]; rfl) (by simp)
  | notify seg =>
    simp only [hpc] at h
    obtain ⟨rfl, rfl⟩ := Prod.mk.inj (Option.some.inj h)
    exact .unlockBelow (same _ rfl rfl rfl rfl rfl (by simp [hpc])) (by rw [hpc]; rfl) (by simp)
  | leave =>
    simp only [hpc] at h
    obtain ⟨rfl, rfl⟩ := Prod.mk.inj (Option.some.inj h)
    exact .leaves hpc

/-- A step that does not touch the graph keeps the calls of its thread. -/
lemma Steps.keeps (h : Steps g t i e t') (hr : InRange g t) (hd : ∀ g', e ≠ .data g')
    (ha : e ≠ .abort) : InRange g t' ∧ t'.calls = t.calls ∧ t'.placed = t.placed := by
  cases h with
  | @begins src dst rest hpc htodo =>
    refine ⟨⟨fun e he => hr.todo e ?_, fun _ => hr.todo (src, dst) ?_, fun _ => rfl⟩, ?_, ?_⟩
    · rw [htodo]
      exact List.mem_cons_of_mem _ he
    · rw [htodo]
      exact List.mem_cons_self
    · simp [calls, hpc, htodo]
    · simp [placed, hpc, Pc.placed]
  | leaves hpc =>
    refine ⟨⟨hr.todo, fun hne => absurd rfl hne, fun hne => absurd rfl hne⟩, ?_, ?_⟩
    · simp [calls, hpc]
    · simp [placed, hpc, Pc.placed, ← Multiset.coe_add]
  | aborts => exact absurd rfl ha
  | updates _ _ => exact absurd rfl (hd _)
  | inside hc _ hp => exact ⟨hc.inRange hr, hc.calls, hc.placed hp⟩

/-- A woken thread has the same calls. -/
lemma goto_acquire (hpc : t.pc = .asleep) :
    SameCall t (t.goto .acquire) ∧ (t.goto .acquire).placed = t.placed := by
  have hc : SameCall t (t.goto .acquire) := sameCall_goto (by simp [hpc]) (by simp)
  exact ⟨hc, hc.placed (by simp [hpc, Pc.placed])⟩

/-- An update of the graph keeps the layout: it adds the running call, or nothing. -/
lemma Updates.layout {g' : Graph} {adj : ℕ → List ℕ} (h : Updates g t i g' t') (hc : SameCall t t')
    (hr : InRange g t) (hL : g.Layout adj) :
    Graph.SameShape g g' ∧
    ((t'.placed = (t.src, t.dst) ::ₘ t.placed ∧
        g'.Layout (Multigraph.insert adj (t.src, t.dst))) ∨
      (t'.placed = t.placed ∧ g'.Layout adj)) := by
  have hs := hr.src hc.running
  cases h with
  | insertion h h0 h1 =>
    rw [hr.current hc.running, ← Graph.getSegmentId_eq] at h
    have hins := hL.doInsertion_spec hs h
    refine ⟨hins.sameShape, .inl ⟨?_, hins.layout hL hs⟩⟩
    unfold placed
    rw [h0, h1, hc.returned, hc.src, hc.dst, if_pos rfl, if_neg (by simp), add_zero, add_comm]
    rfl
  | rebalance h hp =>
    obtain ⟨hl, hr', h1, h2, h3⟩ := hL.geometry.window hs t.height
    rw [hl, hr'] at h
    have hreb := hL.rebalanceWeighted_spec (by omega) h3 h
    exact ⟨hreb.toSameShape, .inr ⟨hc.placed hp, hreb.layout hL (by omega) h3⟩⟩
  | resize h hp =>
    have hres := hL.resizeV1_spec h
    exact ⟨hres.toSameShape, .inr ⟨hc.placed hp, hres.layout hL⟩⟩

/-- An update of the graph keeps the capacity recorded. -/
lemma Updates.recorded {g' : Graph} {adj : ℕ → List ℕ} (h : Updates g t i g' t') (hc : SameCall t t')
    (hr : InRange g t) (hL : g.Layout adj) (hrec : g.bp.elemCapacity = g.elemCapacity) :
    g'.bp.elemCapacity = g'.elemCapacity := by
  have hs := hr.src hc.running
  cases h with
  | insertion h =>
    rw [hr.current hc.running, ← Graph.getSegmentId_eq] at h
    have hins := hL.doInsertion_spec hs h
    rw [hins.bp, hins.elemCapacity, hrec]
  | rebalance h =>
    obtain ⟨hl, hr', h1, h2, h3⟩ := hL.geometry.window hs t.height
    rw [hl, hr'] at h
    have hreb := hL.rebalanceWeighted_spec (by omega) h3 h
    rw [hreb.bp, hreb.elemCapacity, hrec]
  | resize h => rw [(hL.resizeV1_spec h).bp]

/-- Being in range depends on the shape only. -/
lemma InRange.congr {g' : Graph} (h : InRange g t) (hs : Graph.SameShape g g') : InRange g' t :=
  ⟨fun e he => by rw [hs.numVertices]; exact h.todo e he,
    fun hne => by rw [hs.numVertices]; exact h.src hne,
    fun hne => by rw [hs.leafOf]; exact h.current hne⟩

end Thread

namespace Config

variable {n : ℕ} {c c' : Config n} {base : List (ℕ × ℕ)} {program : Fin n → List (ℕ × ℕ)}

/-- The graph after a step. -/
lemma apply_g {i : Fin n} {t : Thread} {e : Effect} (h : ∀ g', e ≠ .data g') :
    (c.apply i t e).g = c.g := by
  cases e with
  | data g' => exact absurd rfl (h g')
  | _ => rfl

/-- The thread that steps. -/
lemma apply_self {i : Fin n} {t : Thread} {e : Effect} (h : e ≠ .abort) :
    (c.apply i t e).threads i = t := by
  cases e with
  | abort => exact absurd rfl h
  | notify seg => exact Function.update_self i t fun j => (c.threads j).wake seg
  | _ => exact Function.update_self i t c.threads

/-- Another thread stays where it is, or is woken. -/
lemma apply_other {i j : Fin n} {t : Thread} {e : Effect} (h : j ≠ i) :
    (c.apply i t e).threads j = c.threads j ∨
      ((c.threads j).pc = .asleep ∧
        (c.apply i t e).threads j = (c.threads j).goto .acquire) := by
  cases e with
  | abort => exact .inl rfl
  | notify seg =>
    simp only [apply, Function.update_of_ne h]
    unfold Thread.wake
    split
    case isTrue hw => exact .inr ⟨hw.1, rfl⟩
    case isFalse => exact .inl rfl
  | _ =>
    simp only [apply, Function.update_of_ne h]
    exact .inl trivial

/-- The graph represents the base edges and the calls that the threads have placed, each once, and its
capacity is recorded in the pool. -/
structure Data (base : List (ℕ × ℕ)) (program : Fin n → List (ℕ × ℕ)) (c : Config n) : Prop where
  inRange : ∀ i, (c.threads i).InRange c.g
  calls : ∀ i, (c.threads i).calls = program i
  layout : ∃ ops : List (ℕ × ℕ), c.g.Layout (Multigraph.ofEdges (base ++ ops)) ∧
    (ops : Multiset (ℕ × ℕ)) = ∑ i, (c.threads i).placed
  recorded : c.g.bp.elemCapacity = c.g.elemCapacity

namespace Data

/-- When no thread changes its calls, neither does the sum. -/
lemma of_same (h : Data base program c) (hg : c'.g = c.g)
    (hsame : ∀ j, (c'.threads j).InRange c.g ∧ (c'.threads j).calls = (c.threads j).calls ∧
      (c'.threads j).placed = (c.threads j).placed) : Data base program c' := by
  obtain ⟨ops, hL, hops⟩ := h.layout
  refine ⟨fun j => by rw [hg]; exact (hsame j).1, fun j => (hsame j).2.1.trans (h.calls j),
    ⟨ops, by rw [hg]; exact hL, hops.trans ?_⟩, by rw [hg]; exact h.recorded⟩
  exact Finset.sum_congr rfl fun j _ => (hsame j).2.2.symm

/-- A thread that is not the one that steps. -/
lemma other (h : Data base program c) {i j : Fin n} {t : Thread} {e : Effect} (hj : j ≠ i) :
    ((c.apply i t e).threads j).InRange c.g ∧
      ((c.apply i t e).threads j).calls = (c.threads j).calls ∧
      ((c.apply i t e).threads j).placed = (c.threads j).placed := by
  rcases c.apply_other (t := t) (e := e) hj with he | ⟨hpc, he⟩
  · rw [he]
    exact ⟨h.inRange j, rfl, rfl⟩
  · obtain ⟨hc, hp⟩ := Thread.goto_acquire hpc
    rw [he]
    exact ⟨hc.inRange (h.inRange j), hc.calls, hp⟩

/-- Every step of a thread keeps the invariant. -/
lemma step (h : Data base program c) {i : Fin n} (hs : c.stepThread i = some c') :
    Data base program c' ∧ Graph.SameShape c.g c'.g := by
  unfold stepThread at hs
  split at hs
  case isTrue => cases hs
  obtain ⟨⟨e, t'⟩, hnext, rfl⟩ := Option.map_eq_some_iff.1 hs
  have hst := Thread.next_steps hnext
  by_cases ha : e = .abort
  · subst ha
    exact ⟨⟨h.inRange, h.calls, h.layout, h.recorded⟩, .refl _⟩
  by_cases hd : ∀ g', e ≠ .data g'
  · obtain ⟨h1, h2, h3⟩ := hst.keeps (h.inRange i) hd ha
    refine ⟨h.of_same (apply_g hd) fun j => ?_, by rw [apply_g hd]; exact .refl _⟩
    by_cases hj : j = i
    · subst hj
      rw [apply_self ha]
      exact ⟨h1, h2, h3⟩
    · exact h.other hj
  · -- an update of the graph
    push Not at hd
    obtain ⟨g', rfl⟩ := hd
    cases hst with
    | inside _ hne _ => exact absurd rfl (hne g')
    | updates hc hu =>
      obtain ⟨ops, hL, hops⟩ := h.layout
      obtain ⟨hsh, hcase⟩ := hu.layout hc (h.inRange i) hL
      have hself : (c.apply i t' (.data g')).threads i = t' := apply_self (by simp)
      have hothers : ∑ j ∈ Finset.univ.erase i, ((c.apply i t' (.data g')).threads j).placed =
          ∑ j ∈ Finset.univ.erase i, (c.threads j).placed :=
        Finset.sum_congr rfl fun j hj => (h.other (Finset.ne_of_mem_erase hj)).2.2
      have hsum := Finset.add_sum_erase Finset.univ (fun j => (c.threads j).placed)
        (Finset.mem_univ i)
      have hsum' := Finset.add_sum_erase Finset.univ
        (fun j => ((c.apply i t' (.data g')).threads j).placed) (Finset.mem_univ i)
      simp only [hothers, hself] at hsum hsum'
      refine ⟨⟨fun j => ?_, fun j => ?_, ?_, hu.recorded hc (h.inRange i) hL h.recorded⟩, hsh⟩
      · by_cases hj : j = i
        · subst hj
          rw [hself]
          exact (hc.inRange (h.inRange j)).congr hsh
        · exact (h.other hj).1.congr hsh
      · by_cases hj : j = i
        · subst hj
          rw [hself, hc.calls]
          exact h.calls j
        · exact (h.other hj).2.1.trans (h.calls j)
      · rcases hcase with ⟨hp, hL'⟩ | ⟨hp, hL'⟩
        · refine ⟨ops ++ [((c.threads i).src, (c.threads i).dst)], ?_, ?_⟩
          · rw [← List.append_assoc, Multigraph.ofEdges_concat]
            exact hL'
          · rw [← hsum', hp, Multiset.cons_add, hsum, ← hops, ← Multiset.coe_add, add_comm]
            rfl
        · exact ⟨ops, hL', by rw [← hsum', hp, hsum, hops]⟩

/-- A spurious wakeup keeps the invariant. -/
lemma spurious (h : Data base program c) {i : Fin n} (hs : c.spurious i = some c') :
    Data base program c' ∧ Graph.SameShape c.g c'.g := by
  unfold Config.spurious at hs
  split at hs
  case isTrue => cases hs
  case isFalse hn =>
    obtain rfl := Option.some.inj hs
    have hpc : (c.threads i).pc = .asleep := by
      by_contra hne
      exact hn (.inr hne)
    obtain ⟨hc, hp⟩ := Thread.goto_acquire hpc
    refine ⟨h.of_same rfl fun j => ?_, .refl _⟩
    by_cases hj : j = i
    · subst hj
      rw [apply_self (by simp)]
      exact ⟨hc.inRange (h.inRange j), hc.calls, hp⟩
    · exact h.other hj

/-- The calls of a thread between two calls. -/
lemma returned (h : Data base program c) (hidle : ∀ i, (c.threads i).pc = .idle) (i : Fin n) :
    (c.threads i).returned ++ (c.threads i).todo = program i := by
  have := h.calls i
  simpa [Thread.calls, hidle i] using this

/-- When every thread is between two calls, a vertex yields its base edges and those of the calls that
have returned. -/
lemma outNeigh_yields (h : Data base program c) (hidle : ∀ i, (c.threads i).pc = .idle) {v : ℕ}
    (hv : v < c.g.numVertices) : ∃ l : List ℤ, (c.g.outNeigh v 0).Yields l ∧
      (l : Multiset ℤ) = Multiset.map Nat.cast ((Multigraph.ofEdges base v : Multiset ℕ) +
        ∑ i, (Multigraph.ofEdges (c.threads i).returned v : Multiset ℕ)) := by
  obtain ⟨ops, hL, hops⟩ := h.layout
  have hplaced : ∀ i, (c.threads i).placed = ((c.threads i).returned : Multiset (ℕ × ℕ)) :=
    fun i => by simp [Thread.placed, hidle i, Pc.placed]
  simp only [hplaced] at hops
  refine ⟨_, (hL.holds v hv).outNeigh_yields hv, ?_⟩
  rw [← Multigraph.ofEdges_sum hops v, Multiset.coe_add, ← Multigraph.ofEdges_append,
    ← Multiset.map_coe]
  congr 1
  rw [Multiset.coe_eq_coe]
  refine List.Perm.trans ?_ (List.Perm.of_eq (List.take_append_drop (c.g.onseg v - 1).toNat _))
  exact List.Perm.append_left _ (List.reverse_perm _)

end Data

end Config

section Concurrent

variable {n nVertices : ℕ} {foreign : Foreign} {directed : Bool} {base : List (ℕ × ℕ)} {g0 : Graph}
  {program : Fin n → List (ℕ × ℕ)} {c : Config n}

/-- In every state of every interleaving the graph represents the base edges and the placed calls. -/
lemma inserts_data (h2 : 2 ≤ nVertices) (hsorted : base.Pairwise fun e e' => e.1 ≤ e'.1)
    (hbase : ∀ e ∈ base, e.1 < nVertices ∧ e.2 < nVertices)
    (hcreate : Graph.create foreign directed nVertices base = some g0)
    (hprogram : ∀ i, ∀ e ∈ program i, e.1 < g0.numVertices ∧ e.2 < g0.numVertices)
    (hc : (inserts g0 program).Reach c) : c.Data base program := by
  have hcr := Graph.create_spec h2 hsorted (fun e he => (hbase e he).1) hcreate
  refine hc.inv (I := fun c => c.Data base program) ?_ ?_
  · rintro c rfl
    refine ⟨fun i => ⟨fun e he => (hprogram i e he).1, fun hne => absurd rfl hne,
      fun hne => absurd rfl hne⟩, fun i => rfl,
      ⟨[], by rw [List.append_nil]; exact hcr.layout, ?_⟩, hcr.recorded.elemCapacity⟩
    simp [Config.start, Thread.start, Thread.placed, Pc.placed]
  · intro c m c' hI hst
    cases m with
    | run i => exact (hI.step hst).1
    | wake i => exact (hI.spurious hst).1

/-- In every state of every interleaving in which all calls that have begun have returned, every vertex
yields its base edges and the destinations of the calls with this source, and `num_edges_` is the sum of
the degrees. -/
theorem concurrent_inserts (h2 : 2 ≤ nVertices) (hsorted : base.Pairwise fun e e' => e.1 ≤ e'.1)
    (hbase : ∀ e ∈ base, e.1 < nVertices ∧ e.2 < nVertices)
    (hcreate : Graph.create foreign directed nVertices base = some g0)
    (hprogram : ∀ i, ∀ e ∈ program i, e.1 < g0.numVertices ∧ e.2 < g0.numVertices)
    (hc : (inserts g0 program).Reach c) (hidle : ∀ i, (c.threads i).pc = .idle) :
    (∀ i, (c.threads i).returned ++ (c.threads i).todo = program i) ∧
    (∀ v < c.g.numVertices, ∃ l : List ℤ, (c.g.outNeigh v 0).Yields l ∧
      (l : Multiset ℤ) = Multiset.map Nat.cast ((Multigraph.ofEdges base v : Multiset ℕ) +
        ∑ i, (Multigraph.ofEdges (c.threads i).returned v : Multiset ℕ))) ∧
    c.g.numEdges = ∑ v ∈ Finset.Ico 0 c.g.numVertices, (c.g.vertices v).degree := by
  have hD := inserts_data h2 hsorted hbase hcreate hprogram hc
  obtain ⟨ops, hL, -⟩ := hD.layout
  exact ⟨hD.returned hidle, fun v hv => hD.outNeigh_yields hidle hv, hL.numEdges⟩

end Concurrent

/-- Two threads whose first calls are interleaved step by step, and which have both returned. -/
theorem concurrent_inserts_two : ∃ (g0 : Graph) (c : Config 2),
    Graph.create ⟨fun _ => 7, fun _ => .zero⟩ true 2 [(0, 1)] = some g0 ∧
      (inserts g0 ![[(0, 1)], [(1, 0), (1, 1)]]).Reach c ∧ (∀ i, (c.threads i).pc = .idle) ∧
      (c.threads 0).returned = [(0, 1)] ∧ (c.threads 1).returned = [(1, 0)] ∧
      ∃ l : List ℤ, (c.g.outNeigh 1 0).Yields l ∧
        (l : Multiset ℤ) = Multiset.map Nat.cast ((Multigraph.ofEdges [(0, 1)] 1 : Multiset ℕ) +
          ∑ i, (Multigraph.ofEdges (c.threads i).returned 1 : Multiset ℕ)) := by
  obtain ⟨g0, c, hg, hc, hp⟩ := reach_of_check (fun _ _ => True) ⟨fun _ => 7, fun _ => .zero⟩ true 2
    [(0, 1)] ![[(0, 1)], [(1, 0), (1, 1)]] (List.replicate 8 [0, 1]).flatten
    (fun c => (c.threads 0).pc == .idle && (c.threads 1).pc == .idle &&
      c.g.numVertices == 2 && (c.threads 0).returned == [(0, 1)] && (c.threads 1).returned == [(1, 0)])
    (by decide +kernel)
  simp only [Bool.and_eq_true, beq_iff_eq] at hp
  obtain ⟨⟨⟨hpc, hvertices⟩, hret0⟩, hret1⟩ := hp
  have hnum : g0.numVertices = 2 :=
    (Graph.create_spec (by decide) (by decide) (by decide) hg).shape.numVertices.trans (by decide)
  have hidle : ∀ i, (c.threads i).pc = .idle := Fin.forall_fin_two.2 hpc
  obtain ⟨-, h, -⟩ := concurrent_inserts (by decide) (by decide) (by decide) hg
    (by rw [hnum]; decide) hc.of_restrict hidle
  exact ⟨g0, c, hg, hc.of_restrict, hidle, hret0, hret1, h 1 (by rw [hvertices]; decide)⟩

end Dgap
