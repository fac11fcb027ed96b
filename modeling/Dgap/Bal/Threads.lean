import Dgap.Adjacency.Multigraph
import Dgap.Bal.State
import Dgap.Machine.ForLoop
import Dgap.System.Reach

/-!
# Base load and inserts of the blocked adjacency list

The loop of the constructor over the base edges and `insert` as programs of small steps, run by any number
of threads. The critical sections of the two are the same statements (`criticalStep`); `insert` adds the
atomic update of `num_edges_` behind it. One step is one statement: taking or releasing the mutex of the
source, an allocation, a store. The inserts begin when every thread is done with its share of the base
edges. The loop is under `omp parallel for` with an `int` counter, so the shares are those of `loadEdges`, the
edges of the rounds that an `int` can count.
-/

namespace Dgap

namespace Bal

/-- Where a thread is in the critical section of the base load or of `insert`, or behind it. -/
inductive Pc where
  | idle
  /-- The mutex of the source is taken. -/
  | locked
  /-- A block is allocated at `off`. -/
  | zalloced (off : ℕ)
  /-- The edge is stored in it. -/
  | filled (off : ℕ)
  /-- The head or the last full block leads to it. -/
  | linked (off : ℕ)
  /-- The edge is stored where the iterator will find it. -/
  | placed
  /-- The degree is updated. -/
  | counted
  /-- `old_val = num_edges_`. -/
  | readEdges
  /-- `compare_and_swap(num_edges_, old_val, new_val)`. -/
  | swapEdges (oldVal : ℤ)
  deriving DecidableEq

namespace Pc

/-- The mutex of the source is held. -/
def holds : Pc → Bool
  | .idle | .readEdges | .swapEdges _ => false
  | _ => true

/-- The critical section is entered and the edge is not counted yet. -/
def opens : Pc → Bool
  | .locked | .zalloced _ | .filled _ | .linked _ | .placed => true
  | _ => false

/-- The block that is allocated and not linked yet. -/
def block? : Pc → Option ℕ
  | .zalloced o | .filled o => some o
  | _ => none

/-- How many statements of the critical section are left at most. -/
def rank : Pc → ℕ
  | .locked => 6
  | .zalloced _ => 5
  | .filled _ => 4
  | .linked _ => 3
  | .placed => 2
  | .counted => 1
  | _ => 0

end Pc

/-- One statement of the critical section for the edge from `src` to `dst`; `off` is what the allocator
returns if the statement is a `pmemobj_zalloc`. -/
def Graph.criticalStep (g : Graph) (src dst off : ℕ) : Pc → Option (Graph × Pc)
  | .locked =>
    let degree := (g.vertices src).degree
    if degree = 0 then (g.zalloc off).map (·, .zalloced off)
    else if degree % blockSize = 0 then (g.zalloc off).map (·, .zalloced off)
    else
      (g.write (g.vertices src).tailOffset (·.store (degree % blockSize) dst)).map (·, .placed)
  | .zalloced o => (g.write (direct g.pop o) (·.store 0 dst)).map (·, .filled o)
  | .filled o =>
    if (g.vertices src).degree = 0 then
      some (g.setVertex src { g.vertices src with headOffset := direct g.pop o }, .linked o)
    else
      (g.write (g.vertices src).tailOffset ({ · with nextOffset := o })).map (·, .linked o)
  | .linked o => some (g.setVertex src { g.vertices src with tailOffset := direct g.pop o }, .placed)
  | .placed =>
    some (g.setVertex src { g.vertices src with degree := succ32 (g.vertices src).degree }, .counted)
  | _ => none

/-- A statement of the critical section stays in it, goes on in it, and keeps the pool and the number of
vertices. -/
lemma Graph.criticalStep_frame {g g' : Graph} {src dst off : ℕ} {pc pc' : Pc}
    (h : g.criticalStep src dst off pc = some (g', pc')) :
    pc.opens = true ∧ pc.holds = true ∧ pc'.holds = true ∧ (pc'.opens = true ↔ pc ≠ .placed) ∧
      pc'.rank < pc.rank ∧ g'.numNodes = g.numNodes ∧ g'.pop = g.pop := by
  have alloc : (g.zalloc off).map (·, Pc.zalloced off) = some (g', pc') →
      pc' = .zalloced off ∧ g'.numNodes = g.numNodes ∧ g'.pop = g.pop := fun h => by
    obtain ⟨_, h1, he⟩ := Option.map_eq_some_iff.1 h
    obtain ⟨rfl, rfl⟩ := Prod.mk.inj he
    exact ⟨rfl, zalloc_frame h1⟩
  have store : ∀ {p f pc1}, (g.write p f).map (·, pc1) = some (g', pc') →
      pc' = pc1 ∧ g'.numNodes = g.numNodes ∧ g'.pop = g.pop := fun h => by
    obtain ⟨_, h1, he⟩ := Option.map_eq_some_iff.1 h
    obtain ⟨rfl, rfl⟩ := Prod.mk.inj he
    exact ⟨rfl, write_frame h1⟩
  cases pc with
  | locked =>
    simp only [criticalStep] at h
    split at h
    · obtain ⟨rfl, hg⟩ := alloc h
      simpa [Pc.opens, Pc.holds, Pc.rank] using hg
    · split at h
      · obtain ⟨rfl, hg⟩ := alloc h
        simpa [Pc.opens, Pc.holds, Pc.rank] using hg
      · obtain ⟨rfl, hg⟩ := store h
        simpa [Pc.opens, Pc.holds, Pc.rank] using hg
  | zalloced o =>
    obtain ⟨rfl, hg⟩ := store h
    simpa [Pc.opens, Pc.holds, Pc.rank] using hg
  | filled o =>
    simp only [criticalStep] at h
    split at h
    · obtain ⟨rfl, rfl⟩ := Prod.mk.inj (Option.some.inj h)
      exact ⟨rfl, rfl, rfl, by simp [Pc.opens], by simp [Pc.rank], rfl, rfl⟩
    · obtain ⟨rfl, hg⟩ := store h
      simpa [Pc.opens, Pc.holds, Pc.rank] using hg
  | linked o =>
    obtain ⟨rfl, rfl⟩ := Prod.mk.inj (Option.some.inj h)
    exact ⟨rfl, rfl, rfl, by simp [Pc.opens], by simp [Pc.rank], rfl, rfl⟩
  | placed =>
    obtain ⟨rfl, rfl⟩ := Prod.mk.inj (Option.some.inj h)
    exact ⟨rfl, rfl, rfl, by simp [Pc.opens], by simp [Pc.rank], rfl, rfl⟩
  | idle => cases h
  | counted => cases h
  | readEdges => cases h
  | swapEdges => cases h

/-- The base load, then the inserts. -/
inductive Phase where
  | load
  | dynamic
  deriving DecidableEq

/-- A thread: the edges it still has to load or insert, the inserts it makes once the base graph is
loaded, and the edge it is at. -/
structure Thread where
  todo : List (ℕ × ℕ)
  inserts : List (ℕ × ℕ)
  pc : Pc
  src : ℕ
  dst : ℕ

/-- What the threads share, and the threads. `ran` are the edges whose critical sections have run, in the
order in which they ran. -/
structure Config (n : ℕ) where
  g : Graph
  phase : Phase
  lock : ℕ → Option (Fin n)
  threads : Fin n → Thread
  ran : List (ℕ × ℕ)

/-- A step of a thread, with what the allocator returns, or the end of the base load. -/
inductive Action (n : ℕ) where
  | thread (i : Fin n) (off : ℕ)
  | endLoad

namespace Config

variable {n : ℕ} (c : Config n)

/-- A change of one thread. -/
def setThread (i : Fin n) (t : Thread) : Config n :=
  { c with threads := Function.update c.threads i t }

@[simp] lemma setThread_self (i : Fin n) (t : Thread) : (c.setThread i t).threads i = t :=
  Function.update_self ..

@[simp] lemma setThread_of_ne {i j : Fin n} (h : j ≠ i) (t : Thread) :
    (c.setThread i t).threads j = c.threads j := Function.update_of_ne h _ _

/-- The next step of thread `i`, when the allocator returns `off`; `none` if it cannot move. -/
def next (i : Fin n) (off : ℕ) : Option (Config n) :=
  let t := c.threads i
  match t.pc with
  | .idle =>
    match t.todo with
    | [] => none
    | (src, dst) :: todo =>
      if c.lock src = none then
        some { c.setThread i { t with todo, pc := .locked, src, dst } with
          lock := Function.update c.lock src (some i) }
      else none
  | .counted =>
    some { c.setThread i { t with
        pc := match c.phase with
          | .load => .idle
          | .dynamic => .readEdges } with
      lock := Function.update c.lock t.src none }
  | .readEdges => some (c.setThread i { t with pc := .swapEdges c.g.numEdges })
  | .swapEdges oldVal =>
    if c.g.numEdges = oldVal then
      some { c.setThread i { t with pc := .idle } with g := { c.g with numEdges := oldVal + 1 } }
    else some (c.setThread i { t with pc := .readEdges })
  | pc =>
    (c.g.criticalStep t.src t.dst off pc).map fun (g, pc') =>
      { c.setThread i { t with pc := pc' } with
        g
        ran := if pc = .placed then c.ran ++ [(t.src, t.dst)] else c.ran }

/-- What a step of a thread can be. -/
lemma next_cases {c c' : Config n} {i : Fin n} {off : ℕ} (h : c.next i off = some c') :
    (∃ src dst todo, (c.threads i).pc = .idle ∧ (c.threads i).todo = (src, dst) :: todo ∧
      c.lock src = none ∧
      c' = { c.setThread i { c.threads i with todo, pc := .locked, src, dst } with
        lock := Function.update c.lock src (some i) }) ∨
    ((c.threads i).pc = .counted ∧
      ∃ pc, (c.phase = .load ∧ pc = .idle ∨ c.phase = .dynamic ∧ pc = .readEdges) ∧
      c' = { c.setThread i { c.threads i with pc } with
        lock := Function.update c.lock (c.threads i).src none }) ∨
    (((c.threads i).pc = .readEdges ∨ ∃ oldVal, (c.threads i).pc = .swapEdges oldVal) ∧
      ∃ pc numEdges, pc.holds = false ∧ pc.opens = false ∧ pc.block? = none ∧
        c' = { c.setThread i { c.threads i with pc } with g := { c.g with numEdges } }) ∨
    ∃ g pc', c.g.criticalStep (c.threads i).src (c.threads i).dst off (c.threads i).pc = some (g, pc') ∧
      c' = { c.setThread i { c.threads i with pc := pc' } with
        g
        ran := if (c.threads i).pc = .placed then c.ran ++ [((c.threads i).src, (c.threads i).dst)]
          else c.ran } := by
  unfold next at h
  cases hpc : (c.threads i).pc with
  | idle =>
    simp only [hpc] at h
    cases htodo : (c.threads i).todo with
    | nil =>
      rw [htodo] at h
      cases h
    | cons e todo =>
      rw [htodo] at h
      dsimp only at h
      split at h
      case isTrue hl => exact .inl ⟨e.1, e.2, todo, rfl, rfl, hl, (Option.some.inj h).symm⟩
      case isFalse => cases h
  | counted =>
    simp only [hpc] at h
    refine .inr (.inl ⟨rfl, _, ?_, (Option.some.inj h).symm⟩)
    cases c.phase with
    | load => exact .inl ⟨rfl, rfl⟩
    | dynamic => exact .inr ⟨rfl, rfl⟩
  | readEdges =>
    simp only [hpc] at h
    exact .inr (.inr (.inl ⟨.inl rfl, _, c.g.numEdges, rfl, rfl, rfl, (Option.some.inj h).symm⟩))
  | swapEdges oldVal =>
    simp only [hpc] at h
    split at h
    · exact .inr (.inr (.inl ⟨.inr ⟨oldVal, rfl⟩, _, _, rfl, rfl, rfl, (Option.some.inj h).symm⟩))
    · exact .inr (.inr (.inl ⟨.inr ⟨oldVal, rfl⟩, _, c.g.numEdges, rfl, rfl, rfl,
        (Option.some.inj h).symm⟩))
  | _ =>
    simp only [hpc] at h
    obtain ⟨⟨g, pc'⟩, hstep, rfl⟩ := Option.map_eq_some_iff.1 h
    exact .inr (.inr (.inr ⟨g, pc', hstep, rfl⟩))

/-- No thread is in an insert. -/
def Quiet : Prop := ∀ i, (c.threads i).pc = .idle

instance : Decidable c.Quiet := inferInstanceAs (Decidable (∀ _, _))

/-- The end of the base load, when every thread has loaded its share: the vertex table is copied to
persistent memory, and the inserts begin. -/
def endLoad : Config n :=
  { c with
    g := { c.g with bp := { c.g.bp with vertices := c.g.vertices } }
    phase := .dynamic
    threads := fun i => { c.threads i with todo := (c.threads i).inserts, inserts := [] } }

/-- What an action does; `none` if it cannot be taken. -/
def act : Action n → Option (Config n)
  | .thread i off => c.next i off
  | .endLoad =>
    if c.phase = .load ∧ c.Quiet ∧ ∀ i, (c.threads i).todo = [] then some c.endLoad else none

/-- No action moves the pool or adds a vertex. -/
lemma act_frame {c c' : Config n} {a : Action n} (h : c.act a = some c') :
    c'.g.numNodes = c.g.numNodes ∧ c'.g.pop = c.g.pop := by
  cases a with
  | thread i off =>
    rcases next_cases h with ⟨_, _, _, -, -, -, rfl⟩ | ⟨-, _, -, rfl⟩ | ⟨-, _, _, -, -, -, rfl⟩ |
      ⟨g, pc', hcrit, rfl⟩
    · exact ⟨rfl, rfl⟩
    · exact ⟨rfl, rfl⟩
    · exact ⟨rfl, rfl⟩
    · exact (Graph.criticalStep_frame hcrit).2.2.2.2.2
  | endLoad =>
    rw [act] at h
    split at h
    case isTrue =>
      obtain rfl := Option.some.inj h
      exact ⟨rfl, rfl⟩
    case isFalse => cases h

/-- What a sequence of actions does. -/
def runSchedule : List (Action n) → Config n → Option (Config n)
  | [], c => some c
  | a :: rest, c => (c.act a).bind (runSchedule rest)

end Config

/-- The new graph of `numNodes` vertices in a pool mapped at `pop`, before the base load of `numEdges`
edges; `foreign` is what memory holds behind the last vertex. -/
def create (directed : Bool) (numNodes : ℕ) (numEdges : ℤ) (pop : ℕ) (foreign : ℕ → VertexElement) :
    Graph where
  directed := directed
  numNodes := numNodes
  numEdges := numEdges
  vertices := fun v => if v < numNodes then .zero else foreign v
  pop := pop
  heap := fun _ => none
  bp := { numNodes, numEdges, directed, vertices := fun _ => .zero }

/-- The base edges of the rounds of the loop of the constructor. -/
def loadEdges (baseEdgeList : List (ℕ × ℕ)) : List (ℕ × ℕ) :=
  baseEdgeList.take (Machine.tripCount (Machine.signed 32) baseEdgeList.length)

/-- The rounds of the loop of the constructor are shared out among the threads. -/
def Shares {n : ℕ} (baseEdgeList : List (ℕ × ℕ)) (share : Fin n → List (ℕ × ℕ)) : Prop :=
  (List.ofFn share).flatten.Perm (loadEdges baseEdgeList)

/-- Fewer than `2 ^ 31` base edges are all loaded. -/
lemma loadEdges_of_lt {base : List (ℕ × ℕ)} (h : base.length < 2 ^ 31) : loadEdges base = base := by
  rw [loadEdges, Machine.tripCount, Machine.signed_keep (by norm_num) h, Int.toNat_natCast, List.take_length]

/-- No more than `2 ^ 31 - 1` base edges are loaded. -/
lemma length_loadEdges_lt (base : List (ℕ × ℕ)) : (loadEdges base).length < 2 ^ 31 :=
  (List.length_take_le ..).trans_lt (Machine.toNat_signed_lt (by norm_num) _)

/-- What is loaded are base edges. -/
lemma loadEdges_sublist (base : List (ℕ × ℕ)) : (loadEdges base).Sublist base := List.take_sublist ..

/-- Threads that load their shares of the rounds of the base load and then make their inserts. -/
def start {n : ℕ} (g : Graph) (phase : Phase) (share program : Fin n → List (ℕ × ℕ)) : Config n where
  g := g
  phase := phase
  lock := fun _ => none
  threads := fun i => ⟨share i, program i, .idle, 0, 0⟩
  ran := []

/-- The runs from a graph: of the constructor and then of `insert`s, or of `insert`s only. -/
def runs {n : ℕ} (g : Graph) (phase : Phase) (share program : Fin n → List (ℕ × ℕ)) :
    System (Config n) (Action n) where
  init c := c = start g phase share program
  step c a c' := c.act a = some c'

/-- The pool and the number of vertices are those of the graph that a run begins with. -/
lemma reach_frame {n : ℕ} {g : Graph} {phase : Phase} {share program : Fin n → List (ℕ × ℕ)}
    {c : Config n} (hc : (runs g phase share program).Reach c) :
    c.g.numNodes = g.numNodes ∧ c.g.pop = g.pop := by
  refine hc.inv (I := fun c => c.g.numNodes = g.numNodes ∧ c.g.pop = g.pop) ?_ ?_
  · rintro _ rfl
    exact ⟨rfl, rfl⟩
  · rintro c a c' ⟨h1, h2⟩ hstep
    obtain ⟨h3, h4⟩ := Config.act_frame hstep
    exact ⟨h3.trans h1, h4.trans h2⟩

/-- What a schedule reaches is reachable. -/
lemma reach_of_schedule {n : ℕ} {g : Graph} {phase : Phase} {share program : Fin n → List (ℕ × ℕ)}
    {l : List (Action n)} {c c' : Config n} (hc : (runs g phase share program).Reach c)
    (h : c.runSchedule l = some c') : (runs g phase share program).Reach c' := by
  induction l generalizing c with
  | nil =>
    obtain rfl := Option.some.inj h
    exact hc
  | cons a l ih =>
    obtain ⟨c1, h1, h2⟩ := Option.bind_eq_some_iff.1 h
    exact ih (.step hc h1) h2

/-- A check of what a schedule does, as a statement about reachable states. -/
lemma reach_of_check {n : ℕ} (g : Graph) (phase : Phase) (share program : Fin n → List (ℕ × ℕ))
    (l : List (Action n)) (p : Config n → Bool)
    (h : ((start g phase share program).runSchedule l).any p = true) :
    ∃ c, (runs g phase share program).Reach c ∧ p c = true := by
  obtain ⟨c, hc, hp⟩ := (Option.any_eq_true p _).1 h
  exact ⟨c, reach_of_schedule (.init rfl) hc, hp⟩

end Bal

end Dgap
