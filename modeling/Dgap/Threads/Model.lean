import Dgap.Graph.Load
import Dgap.System.Reach

/-!
# Concurrent inserts

`insert(src, dst)` of `graph.h` with its mutexes, its condition variables and the counters
`on_rebalance`, as a program of small steps. `Thread` holds the program counter and the local variables
of the running call; `Thread.next` is the next step of a thread: what it does to the shared state
(`Effect`) and its new local state. Every acquire and release of a mutex, every wait and notification and
every access to `on_rebalance` or to a segment counter is one step, and so is each data update under its
mutexes. `on_rebalance += 1` is not atomic: it reads, and then writes. A thread at a locked mutex or at a
condition variable has no next step. A failed assertion ends the process.
-/

namespace Dgap

/-- Which of the three computations of the density of `current_segment` a thread is in: after the
insertion, before a window rebalance, or before a resize. -/
inductive Check where
  | inserted
  | window
  | resize
  deriving DecidableEq

/-- Where a thread is in `insert`. Segment numbers are leaf numbers. -/
inductive Pc where
  | idle
  /-- `unique_lock ul(lock)`, or the lock that `cv.wait` takes again. -/
  | acquire
  /-- The predicate of `wait_for_rebalance`. -/
  | testRebalance
  /-- `cv.wait` releases the mutex. -/
  | sleep
  | asleep
  | insertion
  | readActual (k : Check)
  | readTotal (k : Check) (actual : ℤ)
  /-- `on_rebalance += 1`. -/
  | incRead
  | incWrite (old : ℤ)
  /-- `ul.unlock()`, on the way up the tree or out. -/
  | release (climbs : Bool)
  /-- The test and the first lines of `while (window > 0)`. -/
  | climb
  /-- `lock_in_batch`. -/
  | raiseRead (seg : ℕ)
  | raiseCas (seg : ℕ) (old : ℤ)
  | lockSeg (seg : ℕ)
  | sumActual (seg : ℕ)
  | sumTotal (seg : ℕ)
  /-- The comparison with `up_height`. -/
  | decide
  | rebalance
  | resize
  /-- `unlock_in_batch`. -/
  | lowerRead (seg : ℕ)
  | lowerCas (seg : ℕ) (old : ℤ)
  | readDepend (seg : ℕ)
  | unlockSeg (seg : ℕ) (rebalDepend : ℤ)
  | notify (seg : ℕ)
  | leave
  deriving DecidableEq

/-- A thread: the calls it still has to make and those that have returned, and the local variables of
the running one. `resizing` tells the two calls of `lock_in_batch` apart, `keep` the overload of
`unlock_in_batch` that spares the counter of the own segment. -/
structure Thread where
  todo : List (ℕ × ℕ)
  returned : List (ℕ × ℕ)
  pc : Pc
  src : ℕ
  dst : ℕ
  current : ℕ
  window : ℕ
  height : ℕ
  left : ℕ
  right : ℕ
  metaActual : ℤ
  metaTotal : ℤ
  resizing : Bool
  keep : Bool

/-- What a step does to the shared state. `write s x d` stores `x` in `on_rebalance` of segment `s`, as
the thread's own change by `d`. -/
inductive Effect where
  | skip
  | lock (seg : ℕ)
  | unlock (seg : ℕ)
  | write (seg : ℕ) (x : ℤ) (d : ℤ)
  | data (g : Graph)
  | notify (seg : ℕ)
  | abort

namespace Thread

/-- A thread before its first call. -/
def start (todo : List (ℕ × ℕ)) : Thread where
  todo := todo
  returned := []
  pc := .idle
  src := 0
  dst := 0
  current := 0
  window := 0
  height := 0
  left := 0
  right := 0
  metaActual := 0
  metaTotal := 0
  resizing := false
  keep := false

variable (t : Thread)

/-- Go on at `pc`. -/
def goto (pc : Pc) : Thread := { t with pc }

/-- The loop head of `lock_in_batch` at `seg`. -/
def lockFrom (seg : ℕ) : Thread :=
  t.goto (if seg < t.right then if seg = t.current then .lockSeg seg else .raiseRead seg
    else if t.resizing then .resize else .decide)

/-- The loop head of `unlock_in_batch` when the segments below `hi` are still locked. -/
def unlockBelow (hi : ℕ) : Thread :=
  t.goto (if t.left < hi then
      if t.keep ∧ hi - 1 = t.current then .readDepend (hi - 1) else .lowerRead (hi - 1)
    else if t.keep then .climb else .leave)

/-- What follows the loop over the windows. -/
def afterLoop (g : Graph) : Effect × Thread :=
  if t.height = 0 then (.abort, t)
  else if t.window ≠ 0 then (.skip, t.goto (.readActual .window))
  else (.skip, { t with left := 0, right := g.segmentCount, pc := .readActual .resize })

/-- The next step of thread `i`, or `none` if it cannot move. -/
def next {n : ℕ} (g : Graph) (onRebalance : ℕ → ℤ) (owner : ℕ → Option (Fin n)) (i : Fin n) :
    Option (Effect × Thread) :=
  let tree := t.current + g.segmentCount
  match t.pc with
  | .idle =>
    match t.todo with
    | [] => none
    | (src, dst) :: todo =>
      some (.skip, { t with
        todo, src, dst
        current := g.leafOf src
        window := g.getSegmentId src
        height := 0
        pc := .acquire })
  | .acquire =>
    if owner t.current = none then some (.lock t.current, t.goto .testRebalance) else none
  | .testRebalance =>
    some (.skip, t.goto (if onRebalance t.current = 0 then .insertion else .sleep))
  | .sleep => some (.unlock t.current, t.goto .asleep)
  | .asleep => none
  | .insertion =>
    match g.doInsertion i t.src t.dst tree with
    | none => some (.abort, t)
    | some g' => some (.data g', t.goto (.readActual .inserted))
  | .readActual k => some (.skip, t.goto (.readTotal k (g.segmentEdgesActual tree)))
  | .readTotal k actual =>
    let full : Bool := (actual : ℚ) / (g.segmentEdgesTotal tree : ℚ) ≥ up0
    match k with
    | .inserted => some (.skip, t.goto (if full then .incRead else .release false))
    | .window =>
      some (.skip, if full then t.goto .rebalance else { t with keep := false }.unlockBelow t.right)
    | .resize =>
      some (.skip, if full then
          { t with resizing := true, metaActual := 0, metaTotal := 0 }.lockFrom t.left
        else t.goto .leave)
  | .incRead => some (.skip, t.goto (.incWrite (onRebalance t.current)))
  | .incWrite old => some (.write t.current (old + 1) 1, t.goto (.release true))
  | .release climbs => some (.unlock t.current, t.goto (if climbs then .climb else .leave))
  | .climb =>
    if 0 < t.window then
      some (.skip, { t with
        window := t.window / 2
        height := t.height + 1
        left := g.leftSegment t.src (t.height + 1)
        right := g.rightSegment t.src (t.height + 1)
        metaActual := 0
        metaTotal := 0
        resizing := false
        keep := true }.lockFrom (g.leftSegment t.src (t.height + 1)))
    else some (t.afterLoop g)
  | .raiseRead seg => some (.skip, t.goto (.raiseCas seg (onRebalance seg)))
  | .raiseCas seg old =>
    if onRebalance seg = old then some (.write seg (old + 1) 1, t.goto (.lockSeg seg))
    else some (.skip, t.goto (.raiseRead seg))
  | .lockSeg seg => if owner seg = none then some (.lock seg, t.goto (.sumActual seg)) else none
  | .sumActual seg =>
    some (.skip, { t with
      metaActual := t.metaActual + g.segmentEdgesActual (seg + g.segmentCount)
      pc := .sumTotal seg })
  | .sumTotal seg =>
    some (.skip, { t with
      metaTotal := t.metaTotal + g.segmentEdgesTotal (seg + g.segmentCount) }.lockFrom (seg + 1))
  | .decide =>
    if (t.metaActual : ℚ) / (t.metaTotal : ℚ) < g.upHeight t.height then some (t.afterLoop g)
    else some (.skip, t.unlockBelow t.right)
  | .rebalance =>
    match g.rebalanceWeighted i (g.leftIndex t.src t.height) (g.rightIndex t.src t.height)
        t.metaActual t.metaTotal with
    | none => some (.abort, t)
    | some g' => some (.data g', { t with keep := false }.unlockBelow t.right)
  | .resize =>
    match g.resizeV1 with
    | none => some (.abort, t)
    | some g' => some (.data g', { t with keep := false }.unlockBelow t.right)
  | .lowerRead seg => some (.skip, t.goto (.lowerCas seg (onRebalance seg)))
  | .lowerCas seg old =>
    if onRebalance seg = old then some (.write seg (old - 1) (-1), t.goto (.readDepend seg))
    else some (.skip, t.goto (.lowerRead seg))
  | .readDepend seg => some (.skip, t.goto (.unlockSeg seg (onRebalance seg)))
  | .unlockSeg seg rebalDepend =>
    some (.unlock seg, if rebalDepend = 0 then t.goto (.notify seg) else t.unlockBelow seg)
  | .notify seg => some (.notify seg, t.unlockBelow seg)
  | .leave =>
    some (.skip, { t with returned := t.returned ++ [(t.src, t.dst)], pc := .idle })

/-- Wake a thread that waits at the condition variable of `seg`. -/
def wake (seg : ℕ) : Thread := if t.pc = .asleep ∧ t.current = seg then t.goto .acquire else t

end Thread

/-- The state of a process with `n` threads. `net` is a ghost: what each thread has added to each counter
`on_rebalance`. -/
structure Config (n : ℕ) where
  g : Graph
  onRebalance : ℕ → ℤ
  owner : ℕ → Option (Fin n)
  threads : Fin n → Thread
  net : Fin n → ℕ → ℤ
  aborted : Bool

namespace Config

variable {n : ℕ} (c : Config n)

/-- No mutex is held, no counter raised, and no call has begun. -/
def start (g : Graph) (program : Fin n → List (ℕ × ℕ)) : Config n where
  g := g
  onRebalance := fun _ => 0
  owner := fun _ => none
  threads := fun i => .start (program i)
  net := fun _ _ => 0
  aborted := false

/-- Thread `i` moves to `t` with an effect. -/
def apply (i : Fin n) (t : Thread) : Effect → Config n
  | .skip => { c with threads := Function.update c.threads i t }
  | .lock seg =>
    { c with
      threads := Function.update c.threads i t
      owner := Function.update c.owner seg (some i) }
  | .unlock seg =>
    { c with
      threads := Function.update c.threads i t
      owner := Function.update c.owner seg none }
  | .write seg x d =>
    { c with
      threads := Function.update c.threads i t
      onRebalance := Function.update c.onRebalance seg x
      net := Function.update c.net i (Function.update (c.net i) seg (c.net i seg + d)) }
  | .data g => { c with threads := Function.update c.threads i t, g }
  | .notify seg =>
    { c with threads := Function.update (fun j => (c.threads j).wake seg) i t }
  | .abort => { c with aborted := true }

/-- The next step of thread `i` in the current state. -/
def next (i : Fin n) : Option (Effect × Thread) :=
  (c.threads i).next c.g c.onRebalance c.owner i

/-- A step of thread `i`. -/
def stepThread (i : Fin n) : Option (Config n) :=
  if c.aborted then none else (c.next i).map fun r => c.apply i r.2 r.1

/-- A condition variable may wake a thread without a notification. -/
def spurious (i : Fin n) : Option (Config n) :=
  if c.aborted ∨ (c.threads i).pc ≠ .asleep then none
  else some (c.apply i ((c.threads i).goto .acquire) .skip)

end Config

/-- What moves: a thread, or a condition variable on its own. -/
inductive Move (n : ℕ) where
  | run (i : Fin n)
  | wake (i : Fin n)

/-- The steps of a schedule, one after another, each in a state that allows it. -/
def Config.runSchedule {n : ℕ} (ok : Config n → Move n → Prop) [∀ c m, Decidable (ok c m)] :
    List (Fin n) → Config n → Option (Config n)
  | [], c => some c
  | i :: rest, c => if ok c (.run i) then (c.stepThread i).bind (runSchedule ok rest) else none

/-- All interleavings of the calls in `program` on the graph `g`. -/
def inserts {n : ℕ} (g : Graph) (program : Fin n → List (ℕ × ℕ)) : System (Config n) (Move n) where
  init c := c = .start g program
  step c m c' :=
    match m with
    | .run i => c.stepThread i = some c'
    | .wake i => c.spurious i = some c'

section Schedule

variable {n : ℕ} (ok : Config n → Move n → Prop) [∀ c m, Decidable (ok c m)]

/-- What a schedule reaches is reachable. -/
lemma reach_of_schedule {g : Graph} {program : Fin n → List (ℕ × ℕ)} {l : List (Fin n)}
    {c c' : Config n} (hc : ((inserts g program).restrict ok).Reach c)
    (h : c.runSchedule ok l = some c') : ((inserts g program).restrict ok).Reach c' := by
  induction l generalizing c with
  | nil =>
    obtain rfl := Option.some.inj h
    exact hc
  | cons i l ih =>
    rw [Config.runSchedule] at h
    split at h
    case isTrue hok =>
      obtain ⟨c1, h1, h2⟩ := Option.bind_eq_some_iff.1 h
      exact ih (.step hc
        (show ((inserts g program).restrict ok).step c (.run i) c1 from ⟨hok, h1⟩)) h2
    case isFalse => cases h

/-- A check of what a schedule does to a new graph, as a statement about reachable states. -/
lemma reach_of_check (foreign : Foreign) (directed : Bool) (nVertices : ℕ) (base : List (ℕ × ℕ))
    (program : Fin n → List (ℕ × ℕ)) (l : List (Fin n)) (p : Config n → Bool)
    (h : ((Graph.create foreign directed nVertices base).bind fun g =>
      (Config.start g program).runSchedule ok l).any p = true) :
    ∃ g c, Graph.create foreign directed nVertices base = some g ∧
      ((inserts g program).restrict ok).Reach c ∧ p c = true := by
  obtain ⟨c, hc, hp⟩ := (Option.any_eq_true p _).1 h
  obtain ⟨g, hg, hrun⟩ := Option.bind_eq_some_iff.1 hc
  exact ⟨g, c, hg, reach_of_schedule ok (.init rfl) hrun, hp⟩

end Schedule

end Dgap
