import Dgap.Adjacency.Components
import Dgap.Parallel.ForkJoin

/-!
# Connected components

`ShiloachVishkin` of `cc_sv.cc`, run by a team of threads: the loop that gives every vertex its own label,
and, as long as something changes, a loop that hooks the higher label of an edge onto the lower one and a
loop that makes every label a root. A step of a thread is one access to `comp` or to `change`; the threads
race for the labels, and nothing is ordered between two barriers.
-/

namespace Dgap

namespace Cc

/-- The parallel loops. -/
inductive Loop where
  /-- `comp[n] = n`. -/
  | init
  /-- The loop over the edges of `u`. -/
  | hook
  /-- `while (comp[n] != comp[comp[n]]) comp[n] = comp[comp[n]]`. -/
  | compress
  deriving DecidableEq

/-- What the team shares. -/
structure State where
  comp : ℕ → ℕ
  change : Bool
  numIter : ℕ

/-- Where a thread is in the body of the loop over `out_neigh(u)`. -/
inductive Hook where
  /-- The head of the loop and the load of `comp[u]`. -/
  | loadU
  /-- The load of `comp[v]`, and `continue` if the labels are equal. -/
  | loadV (compU : ℕ)
  /-- `high_comp == comp[high_comp]`. -/
  | test (highComp lowComp : ℕ)
  /-- `change = true`. -/
  | change (highComp lowComp : ℕ)
  /-- `comp[high_comp] = low_comp`. -/
  | store (highComp lowComp : ℕ)
  deriving DecidableEq

/-- Where a thread is in the loop that compresses. -/
inductive Compress where
  /-- The load of `comp[n]` on the left of `!=`. -/
  | left
  /-- The load of `comp[n]` on the right of `!=`. -/
  | right (compN : ℕ)
  /-- The load of `comp[comp[n]]`, and the comparison. -/
  | compare (compN inner : ℕ)
  /-- The load of `comp[n]` in the body. -/
  | load
  /-- The load of `comp[comp[n]]` in the body. -/
  | loadComp (inner : ℕ)
  /-- `comp[n] = comp[comp[n]]`. -/
  | store (value : ℕ)
  deriving DecidableEq

/-- Where a thread is. -/
inductive Pc where
  | idle
  | init (v : ℕ)
  | hook (u localEdgeId : ℕ) (stage : Hook)
  | compress (v : ℕ) (stage : Compress)
  deriving DecidableEq

/-- The iteration a thread is in. -/
def Pc.cur : Pc → Option ℕ
  | .idle => none
  | .init v => some v
  | .hook u _ _ => some u
  | .compress v _ => some v

/-- The entry of an iteration. -/
def Loop.start (k : Loop) (v : ℕ) : Pc :=
  match k with
  | .init => .init v
  | .hook => .hook v 0 .loadU
  | .compress => .compress v .left

/-- `comp_u > comp_v ? comp_u : comp_v`. -/
def highComp (compU compV : ℕ) : ℕ := if compU > compV then compU else compV

/-- `comp_u + (comp_v - high_comp)`, a sum of signed numbers. -/
def lowComp (compU compV : ℕ) : ℕ := ((compU : ℤ) + ((compV : ℤ) - (highComp compU compV : ℤ))).toNat

namespace State

variable (s : State)

/-- A store to `comp`. -/
def setComp (v label : ℕ) : State := { s with comp := Function.update s.comp v label }

/-- A statement of the loop over `out_neigh(u)`, at its edge `k`. -/
def hookStep (nbrs : ℕ → List ℕ) (u k : ℕ) : Hook → State × Pc
  | .loadU => (s, if k < (nbrs u).length then .hook u k (.loadV (s.comp u)) else .idle)
  | .loadV compU =>
    match (nbrs u)[k]? with
    | none => (s, .idle)
    | some v =>
      (s, if compU = s.comp v then .hook u (k + 1) .loadU
        else .hook u k (.test (highComp compU (s.comp v)) (lowComp compU (s.comp v))))
  | .test high low => (s, if high = s.comp high then .hook u k (.change high low) else .hook u (k + 1) .loadU)
  | .change high low => ({ s with change := true }, .hook u k (.store high low))
  | .store high low => (s.setComp high low, .hook u (k + 1) .loadU)

/-- A statement of the loop that compresses the label of `v`. -/
def compressStep (v : ℕ) : Compress → State × Pc
  | .left => (s, .compress v (.right (s.comp v)))
  | .right compN => (s, .compress v (.compare compN (s.comp v)))
  | .compare compN inner => (s, if compN ≠ s.comp inner then .compress v .load else .idle)
  | .load => (s, .compress v (.loadComp (s.comp v)))
  | .loadComp inner => (s, .compress v (.store (s.comp inner)))
  | .store value => (s.setComp v value, .compress v .left)

/-- The step of a thread. -/
def step (nbrs : ℕ → List ℕ) : Pc → State × Pc
  | .idle => (s, .idle)
  | .init v => (s.setComp v v, .idle)
  | .hook u k stage => s.hookStep nbrs u k stage
  | .compress v stage => s.compressStep v stage

/-- The head of `while (change)` and the two statements behind it. -/
def loopHead : State × Option Loop :=
  if s.change then ({ s with change := false, numIter := s.numIter + 1 }, some .hook) else (s, none)

end State

/-- The code between two loops. -/
def join (s : State) : Loop → State × Option Loop
  | .init => State.loopHead { s with change := true, numIter := 0 }
  | .hook => (s, some .compress)
  | .compress => s.loopHead

/-- `ShiloachVishkin` on a graph with `numNodes` vertices and the destinations `nbrs`. -/
def shiloachVishkin (n : ℕ) (nbrs : ℕ → List ℕ) (numNodes : ℕ) : ForkJoin n Loop ℕ State Pc where
  items _ := Finset.range numNodes
  owner _ _ := none
  cur := Pc.cur
  start k v _ := k.start v
  step _ s pc := s.step nbrs pc
  join k s pcs := ((join s k).1, pcs, (join s k).2)
  cur_start k v _ := by cases k <;> rfl
  cur_step _ s pc x h := by
    cases pc with
    | idle => cases h
    | init v => exact .inl rfl
    | hook u k stage =>
      cases stage with
      | loadU =>
        simp only [State.step, State.hookStep]
        split_ifs
        · exact .inr h
        · exact .inl rfl
      | loadV compU =>
        simp only [State.step, State.hookStep]
        split
        · exact .inl rfl
        · split_ifs <;> exact .inr h
      | test high low =>
        simp only [State.step, State.hookStep]
        split_ifs <;> exact .inr h
      | change high low => exact .inr h
      | store high low => exact .inr h
    | compress v stage =>
      cases stage with
      | compare compN inner =>
        simp only [State.step, State.compressStep]
        split_ifs
        · exact .inr h
        · exact .inl rfl
      | left => exact .inr h
      | right => exact .inr h
      | load => exact .inr h
      | loadComp => exact .inr h
      | store => exact .inr h
  cur_join _ _ _ h := h

end Cc

end Dgap
