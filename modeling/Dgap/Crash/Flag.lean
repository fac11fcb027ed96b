import Dgap.Crash.Reopen
import Dgap.System.Reach

/-!
# The flag of a clean shutdown

The life of a pool file: it is created, closed, reopened and lost to power failures, in any order, and in
between the graph is mutated. `saved` and `mutated` are ghosts: the graph that the last destructor wrote,
and whether the running process has mutated its graph. A `Trusted` pool is one whose flag, if it is set,
lets the constructor load that graph. The flag is never cleared when a file is reopened, so a process that
mutates a reopened graph and then crashes leaves a pool whose vertices and counters belong to another
array (`flag_sound_fails`); while no such process crashes, every pool is trusted (`flag_sound`).
-/

namespace Dgap

/-- The operations that change a graph. -/
inductive Mutation where
  | insert (tid src dst : ℕ)
  | rebalanceAll (tid : ℕ)
  | resize

/-- What an operation makes of a graph. -/
def Mutation.run : Mutation → Graph → Option Graph
  | .insert tid src dst, g => g.insert tid src dst
  | .rebalanceAll tid, g => g.rebalanceAll tid
  | .resize, g => g.resizeV1

/-- Where a pool file is. -/
inductive PoolState where
  | absent
  | closed (p : Pool)
  | running (g : Graph)

/-- A pool file with the ghosts. -/
structure Lifetime where
  state : PoolState
  saved : Option Graph
  mutated : Bool

/-- What happens to a pool file. -/
inductive LifeEvent where
  | create (foreign : Foreign) (directed : Bool) (nVertices : ℕ) (base : List (ℕ × ℕ))
  | reopen (foreign : Foreign) (fresh : Fresh)
  | mutate (m : Mutation)
  | close
  | crash

namespace Lifetime

/-- The effect of an event, where it can happen. -/
def apply (l : Lifetime) (e : LifeEvent) : Option Lifetime :=
  match l.state, e with
  | .absent, .create foreign directed nVertices base =>
    (Graph.create foreign directed nVertices base).map fun g =>
      { l with state := .running g, mutated := false }
  | .closed p, .reopen foreign fresh =>
    (p.reopen foreign fresh).map fun g => { l with state := .running g, mutated := false }
  | .running g, .mutate m => (m.run g).map fun g' => { l with state := .running g', mutated := true }
  | .running g, .close => some { l with state := .closed g.close, saved := some g }
  | .running g, .crash => some { l with state := .closed g.powerOff }
  | _, _ => none

/-- Before the first event. -/
def start : Lifetime where
  state := .absent
  saved := none
  mutated := false

/-- Whenever the constructor finds the flag set, it loads what the last destructor wrote, and that is what
the arrays hold. -/
def Trusted (l : Lifetime) : Prop :=
  ∀ p, l.state = .closed p → p.bp.backedUp = true → ∀ foreign fresh,
    ∃ g r, l.saved = some g ∧ p.reopen foreign fresh = some r ∧ g.Loads r

end Lifetime

/-- The base edges of an event that creates a file are well-formed. -/
def LifeEvent.WellFormed : LifeEvent → Prop
  | .create _ _ nVertices base => 2 ≤ nVertices ∧ (base.Pairwise fun e e' => e.1 ≤ e'.1) ∧
    ∀ e ∈ base, e.1 < nVertices ∧ e.2 < nVertices
  | _ => True

/-- All lives of a pool file. -/
def lifetimes : System Lifetime LifeEvent where
  init l := l = .start
  step l e l' := e.WellFormed ∧ l.apply e = some l'

/-- No process crashes that has mutated a graph whose flag is set. -/
def CleanCrash (l : Lifetime) (e : LifeEvent) : Prop :=
  match e, l.state with
  | .crash, .running g => g.bp.backedUp = true → l.mutated = false
  | _, _ => True

namespace Lifetime

variable {l l' : Lifetime} {e : LifeEvent}

/-- A closed pool with the flag set is what the last destructor left, and a process that has mutated
nothing since it found the flag set would leave that again. -/
def Consistent (l : Lifetime) : Prop :=
  match l.state with
  | .absent => True
  | .closed p => p.bp.backedUp = true → ∃ g, l.saved = some g ∧ p = g.close
  | .running g => g.bp.backedUp = true → l.mutated = false →
    ∃ g0, l.saved = some g0 ∧ g.powerOff = g0.close

/-- Every event keeps the pool consistent, unless it is the crash of a process that has mutated a graph
whose flag is set. -/
lemma Consistent.apply (h : l.Consistent) (hw : e.WellFormed) (hclean : CleanCrash l e)
    (hs : l.apply e = some l') : l'.Consistent := by
  unfold Consistent at h
  unfold Lifetime.apply at hs
  split at hs
  case h_1 foreign directed nVertices base _ =>
    obtain ⟨g, hg, rfl⟩ := Option.map_eq_some_iff.1 hs
    have hc := Graph.create_spec hw.1 hw.2.1 (fun e he => (hw.2.2 e he).1) hg
    intro hflag
    rw [hc.recorded.backedUp] at hflag
    cases hflag
  case h_2 p foreign fresh hstate =>
    obtain ⟨g, hg, rfl⟩ := Option.map_eq_some_iff.1 hs
    rw [hstate] at h
    intro hflag _
    rw [Graph.reopen_backedUp hg] at hflag
    obtain ⟨g0, hsaved, hp⟩ := h hflag
    rw [Graph.reopen_of_backedUp hflag] at hg
    obtain rfl := Option.some.inj hg
    exact ⟨g0, hsaved, hp⟩
  case h_3 g m hstate =>
    obtain ⟨g', hg, rfl⟩ := Option.map_eq_some_iff.1 hs
    intro _ hmut
    cases hmut
  case h_4 g hstate =>
    obtain rfl := Option.some.inj hs
    exact fun _ => ⟨g, rfl, rfl⟩
  case h_5 g hstate =>
    obtain rfl := Option.some.inj hs
    rw [hstate] at h
    intro hflag
    unfold CleanCrash at hclean
    rw [hstate] at hclean
    exact h hflag (hclean hflag)
  case h_6 => cases hs

/-- A consistent pool is trusted. -/
lemma Consistent.trusted (h : l.Consistent) : l.Trusted := by
  intro p hp hflag foreign fresh
  unfold Consistent at h
  rw [hp] at h
  obtain ⟨g, hsaved, rfl⟩ := h hflag
  obtain ⟨r, hr, hloads⟩ := g.reopen_close foreign fresh
  exact ⟨g, r, hsaved, hr, hloads⟩

end Lifetime

/-- While no process crashes that has mutated a graph whose flag is set, the flag is right whenever the
constructor reads it. -/
theorem flag_sound {l : Lifetime} (h : (lifetimes.restrict CleanCrash).Reach l) : l.Trusted := by
  refine Lifetime.Consistent.trusted (h.inv ?_ ?_)
  · rintro l rfl
    exact trivial
  · rintro l e l' hI ⟨hclean, hw, hs⟩
    exact hI.apply hw hclean hs

/-- One more event of a life. -/
lemma Lifetime.reach_step {ok : Lifetime → LifeEvent → Prop} {l l' : Lifetime}
    (h : (lifetimes.restrict ok).Reach l) (e : LifeEvent) (hok : ok l e) (hw : e.WellFormed)
    (hs : l.apply e = some l') : (lifetimes.restrict ok).Reach l' :=
  .step h (show (lifetimes.restrict ok).step l e l' from ⟨hok, hw, hs⟩)

/-- A graph that takes one edge and is closed; a process that reopens it and changes nothing crashes. -/
theorem flag_sound_insert : ∃ (g : Graph) (l : Lifetime) (p : Pool), (lifetimes.restrict CleanCrash).Reach l ∧
    l.state = .closed p ∧ l.saved = some g ∧ p.bp.backedUp = true ∧ l.Trusted := by
  obtain ⟨g, hg⟩ : ∃ g, Graph.Run ⟨fun _ => 7, fun _ => .zero⟩ true 0 2 [(0, 1)] [(1, 0)] g :=
    Graph.Run.exists_of_bound _ _ _ (by decide) (by decide) (by decide) (by decide) (by decide)
  obtain ⟨g0, h0, h1⟩ := Option.bind_eq_some_iff.1 hg.run
  obtain ⟨g1, h2, h3⟩ := Graph.insertAll_cons h1
  obtain rfl := Option.some.inj h3
  have hcreate : (lifetimes.restrict CleanCrash).Reach ⟨.running g0, none, false⟩ :=
    Lifetime.reach_step (.init rfl) (.create ⟨fun _ => 7, fun _ => .zero⟩ true 2 [(0, 1)]) trivial
      ⟨hg.two_le, hg.sorted, hg.baseIds⟩ (Option.map_eq_some_iff.2 ⟨g0, h0, rfl⟩)
  have hinsert : (lifetimes.restrict CleanCrash).Reach ⟨.running g1, none, true⟩ :=
    Lifetime.reach_step hcreate (.mutate (.insert 0 1 0)) trivial trivial
      (Option.map_eq_some_iff.2 ⟨g1, h2, rfl⟩)
  have hclose : (lifetimes.restrict CleanCrash).Reach ⟨.closed g1.close, some g1, true⟩ :=
    Lifetime.reach_step hinsert .close trivial trivial rfl
  obtain ⟨r, hr, -⟩ := g1.reopen_close ⟨fun _ => 7, fun _ => .zero⟩ ⟨fun _ => .zero, fun _ => 0⟩
  have hreopen : (lifetimes.restrict CleanCrash).Reach ⟨.running r, some g1, false⟩ :=
    Lifetime.reach_step hclose (.reopen ⟨fun _ => 7, fun _ => .zero⟩ ⟨fun _ => .zero, fun _ => 0⟩) trivial
      trivial (by simp only [Lifetime.apply, hr, Option.map_some])
  have hcrash : (lifetimes.restrict CleanCrash).Reach ⟨.closed r.powerOff, some g1, false⟩ :=
    Lifetime.reach_step hreopen .crash (fun _ => rfl) trivial rfl
  exact ⟨g1, _, _, hcrash, rfl, rfl, Graph.reopen_backedUp hr, flag_sound hcrash⟩

/-- A graph is closed, reopened and resized, and the process crashes. The next one finds the flag set, and
the vertices of the array before the resize. -/
theorem flag_sound_fails : ∃ l, lifetimes.Reach l ∧ ¬l.Trusted := by
  obtain ⟨g0, h0, hrest⟩ := Option.bind_eq_some_iff.1 (show
    ((Graph.create ⟨fun _ => 0, fun _ => .zero⟩ true 2 []).bind fun g0 =>
      (g0.close.reopen ⟨fun _ => 0, fun _ => .zero⟩ ⟨fun _ => .zero, fun _ => 0⟩).bind fun g1 =>
        g1.resizeV1.bind fun g2 =>
          if g2.bp.backedUp = true ∧ g0.elemCapacity = 8 ∧ g2.bp.elemCapacity = 16
          then some () else none) = some () by decide +kernel)
  obtain ⟨g1, h1, hrest⟩ := Option.bind_eq_some_iff.1 hrest
  obtain ⟨g2, h2, hrest⟩ := Option.bind_eq_some_iff.1 hrest
  obtain ⟨⟨hflag, hcap0, hcap2⟩, -⟩ := Option.ite_none_right_eq_some.1 hrest
  have hcreate : (lifetimes.restrict fun _ _ => True).Reach ⟨.running g0, none, false⟩ :=
    Lifetime.reach_step (.init rfl) (.create ⟨fun _ => 0, fun _ => .zero⟩ true 2 []) trivial
      ⟨le_refl 2, by decide, by decide⟩ (Option.map_eq_some_iff.2 ⟨g0, h0, rfl⟩)
  have hclose : (lifetimes.restrict fun _ _ => True).Reach ⟨.closed g0.close, some g0, false⟩ :=
    Lifetime.reach_step hcreate .close trivial trivial rfl
  have hreopen : (lifetimes.restrict fun _ _ => True).Reach ⟨.running g1, some g0, false⟩ :=
    Lifetime.reach_step hclose (.reopen ⟨fun _ => 0, fun _ => .zero⟩ ⟨fun _ => .zero, fun _ => 0⟩)
      trivial trivial (by simp only [Lifetime.apply, h1, Option.map_some])
  have hresize : (lifetimes.restrict fun _ _ => True).Reach ⟨.running g2, some g0, true⟩ :=
    Lifetime.reach_step hreopen (.mutate .resize) trivial trivial
      (Option.map_eq_some_iff.2 ⟨g2, h2, rfl⟩)
  have hcrash : (lifetimes.restrict fun _ _ => True).Reach ⟨.closed g2.powerOff, some g0, true⟩ :=
    Lifetime.reach_step hresize .crash trivial trivial rfl
  refine ⟨_, hcrash.of_restrict, fun h => ?_⟩
  obtain ⟨g, r, hsaved, hr, hloads⟩ := h g2.powerOff rfl hflag ⟨fun _ => 0, fun _ => .zero⟩
    ⟨fun _ => .zero, fun _ => 0⟩
  obtain rfl := Option.some.inj hsaved
  rw [Graph.reopen_of_backedUp hflag] at hr
  obtain rfl := Option.some.inj hr
  have hcap : g2.bp.elemCapacity = g0.elemCapacity := hloads.elemCapacity
  omega

end Dgap
