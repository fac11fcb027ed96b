import Dgap.Bc.Bitmap
import Dgap.Bc.EdgeId
import Dgap.Parallel.QueueBuffer
import Dgap.System.Reach

/-!
# The shortest-path phase of betweenness centrality

`PBFS` of `bc.cc` with its `SlidingQueue` and a `QueueBuffer` for each thread, run by a team of threads. A
step of a thread is one access to what the team shares: a load, a compare-and-swap, a fetch-and-add or a bit
set, or the copy of one cell of its buffer. A free thread starts any position of the frontier that no thread
has started, so every schedule of the loop is a run. The statements between two barriers, which one thread
executes for the team, are one step, possible when all threads have arrived. Every thread counts its own
`depth`; between barriers these are equal.
-/

namespace Dgap

namespace Bc

/-- Where a thread is in the body of the loop over `out_neigh(u)`. -/
inductive Stage where
  /-- `depths[v] == -1`. -/
  | check
  /-- `compare_and_swap(depths[v], -1, depth)`. -/
  | cas
  /-- `lqueue.push_back(v)`. -/
  | push
  /-- `depths[v] == depth`. -/
  | test
  /-- `succ.set_bit_atomic(GetEdgeId(prefix, u, local_edge_id))`. -/
  | setBit
  /-- The load of `path_counts[u]`. -/
  | load
  /-- `fetch_and_add(path_counts[v], x)`. -/
  | add (x : BitVec 32)
  deriving DecidableEq

/-- Where a thread is: between two iterations, at an edge of a vertex of the frontier, or in the flush that
follows the loop. -/
inductive Pc where
  | idle
  | edge (u localEdgeId : ℕ) (stage : Stage)
  | flushed
  deriving DecidableEq

/-- A thread: where it is, and its buffer. -/
structure Thread where
  pc : Pc
  buffer : QueueBuffer ℕ
  deriving DecidableEq

/-- The loop over the frontier, the flush behind it, and the end. -/
inductive Phase where
  | loop
  | flush
  | done
  deriving DecidableEq

/-- What the team shares, the positions of the frontier that no thread has started, and the threads. -/
structure Config (n : ℕ) where
  depths : ℕ → ℤ
  pathCounts : ℕ → BitVec 32
  succ : Bitmap
  depthIndex : List ℕ
  queue : SlidingQueue ℕ
  depth : ℤ
  phase : Phase
  todo : Finset ℕ
  threads : Fin n → Thread

/-- A thread starts a position of the frontier, a thread goes on, or the team passes a barrier. -/
inductive Action (n : ℕ) where
  | take (i : Fin n) (pos : ℕ)
  | run (i : Fin n)
  | barrier

/-- The destination at position `k` of `u`, or the end of the iteration. -/
def visit (nbrs : ℕ → List ℕ) (u k : ℕ) : Pc := if k < (nbrs u).length then .edge u k .check else .idle

namespace Config

variable {n : ℕ} (c : Config n)

/-- A change of one thread. -/
def setThread (i : Fin n) (t : Thread) : Config n := { c with threads := Function.update c.threads i t }

/-- A thread goes on to another statement. -/
def goto (i : Fin n) (pc : Pc) : Config n := c.setThread i { c.threads i with pc }

/-- A step of the buffer of a thread, which goes on at `pc`. -/
def setBuffer (i : Fin n) (pc : Pc) (r : SlidingQueue ℕ × QueueBuffer ℕ) : Config n :=
  { c.setThread i ⟨pc, r.2⟩ with queue := r.1 }

/-- A flush begins. -/
def flush (i : Fin n) (pc : Pc) : Config n := c.setBuffer i pc ((c.threads i).buffer.reserve c.queue)

/-- `local_queue[in++] = v`. -/
def append (i : Fin n) (v : ℕ) (pc : Pc) : Config n := c.setThread i ⟨pc, (c.threads i).buffer.append v⟩

/-- A statement of the body of the loop over `out_neigh(u)`, at the destination `v`. -/
def edgeStep (nbrs : ℕ → List ℕ) (prefixes : ℕ → ℤ) (i : Fin n) (u k v : ℕ) : Stage → Config n
  | .check => c.goto i (.edge u k (if c.depths v = -1 then .cas else .test))
  | .cas =>
    if c.depths v = -1 then
      { c.goto i (.edge u k .push) with depths := Function.update c.depths v c.depth }
    else c.goto i (.edge u k .test)
  | .push =>
    if (c.threads i).buffer.localQueue.length = QueueBuffer.localSize then c.flush i (.edge u k .push)
    else c.append i v (.edge u k .test)
  | .test => c.goto i (if c.depths v = c.depth then .edge u k .setBit else visit nbrs u (k + 1))
  | .setBit =>
    { c.goto i (.edge u k .load) with succ := c.succ.setBit (getEdgeId prefixes u k).toNat }
  | .load => c.goto i (.edge u k (.add (c.pathCounts u)))
  | .add x =>
    { c.goto i (visit nbrs u (k + 1)) with
      pathCounts := Function.update c.pathCounts v (c.pathCounts v + x) }

/-- The next step of thread `i` by itself; `none` if it has to wait. -/
def next (nbrs : ℕ → List ℕ) (prefixes : ℕ → ℤ) (i : Fin n) : Option (Config n) :=
  match (c.threads i).buffer.copyStep c.queue with
  | some r => some (c.setBuffer i (c.threads i).pc r)
  | none =>
    match (c.threads i).pc with
    | .edge u k stage => (nbrs u)[k]?.map fun v => c.edgeStep nbrs prefixes i u k v stage
    | .idle => if c.phase = .flush then some (c.flush i .flushed) else none
    | .flushed => none

/-- The head of the `while` loop: the end, or the frontier of the next level. -/
def loopHead : Config n :=
  let c := { c with depthIndex := c.depthIndex ++ [c.queue.begin] }
  if c.queue.isEmpty then { c with phase := .done }
  else
    { c with
      depth := c.depth + 1
      phase := .loop
      todo := Finset.Ico c.queue.sharedOutStart c.queue.sharedOutEnd
      threads := fun i => { c.threads i with pc := .idle } }

/-- What the team does at a barrier. -/
def barrier : Option (Config n) :=
  match c.phase with
  | .loop =>
    if c.todo = ∅ ∧ ∀ i, (c.threads i).pc = .idle then some { c with phase := .flush } else none
  | .flush =>
    if ∀ i, (c.threads i).pc = .flushed ∧ (c.threads i).buffer.copying = none then
      some { c with queue := c.queue.slideWindow }.loopHead
    else none
  | .done => none

/-- A step of the team. -/
def act (nbrs : ℕ → List ℕ) (prefixes : ℕ → ℤ) : Action n → Option (Config n)
  | .take i pos =>
    if (c.threads i).pc = .idle ∧ pos ∈ c.todo then
      some { c.goto i (visit nbrs (c.queue.shared pos) 0) with todo := c.todo.erase pos }
    else none
  | .run i => c.next nbrs prefixes i
  | .barrier => c.barrier

/-- The statements before the parallel region. `Brandes` has filled `path_counts` with 0 and reset `succ`
and the queue, whose cells `shared` hold anything. -/
def start (n source : ℕ) (shared : ℕ → ℕ) : Config n :=
  let queue := (SlidingQueue.reset ⟨shared, 0, 0, 0⟩).pushBack source
  { depths := Function.update (fun _ => -1) source 0
    pathCounts := Function.update (fun _ => 0) source 1
    succ := .reset
    depthIndex := [queue.begin]
    queue := queue.slideWindow
    depth := 0
    phase := .loop
    todo := ∅
    threads := fun _ => ⟨.idle, .fresh⟩ }

end Config

/-- The runs of `PBFS` by a team of `n` threads. -/
def pbfs (n : ℕ) (nbrs : ℕ → List ℕ) (prefixes : ℕ → ℤ) (source : ℕ) : System (Config n) (Action n) where
  init c := ∃ shared, c = (Config.start n source shared).loopHead
  step c a c' := c.act nbrs prefixes a = some c'

/-- What a step can do. -/
inductive Step {n : ℕ} (nbrs : ℕ → List ℕ) (prefixes : ℕ → ℤ) (c : Config n) : Config n → Prop where
  | take {i pos} : (c.threads i).pc = .idle → pos ∈ c.todo →
      Step nbrs prefixes c
        { c.goto i (visit nbrs (c.queue.shared pos) 0) with todo := c.todo.erase pos }
  | copy {i r} : (c.threads i).buffer.copyStep c.queue = some r →
      Step nbrs prefixes c (c.setBuffer i (c.threads i).pc r)
  | edge {i u k v stage} : (c.threads i).buffer.copying = none → (c.threads i).pc = .edge u k stage →
      (nbrs u)[k]? = some v → Step nbrs prefixes c (c.edgeStep nbrs prefixes i u k v stage)
  | flush {i} : (c.threads i).buffer.copying = none → (c.threads i).pc = .idle → c.phase = .flush →
      Step nbrs prefixes c (c.flush i .flushed)
  | endLoop : c.phase = .loop → c.todo = ∅ → (∀ i, (c.threads i).pc = .idle) →
      Step nbrs prefixes c { c with phase := .flush }
  | slide : c.phase = .flush → (∀ i, (c.threads i).pc = .flushed ∧ (c.threads i).buffer.copying = none) →
      Step nbrs prefixes c { c with queue := c.queue.slideWindow }.loopHead

/-- The steps of the team. -/
lemma act_step {n : ℕ} {nbrs : ℕ → List ℕ} {prefixes : ℕ → ℤ} {c c' : Config n} :
    (∃ a, c.act nbrs prefixes a = some c') ↔ Step nbrs prefixes c c' := by
  constructor
  · rintro ⟨a, h⟩
    cases a with
    | take i pos =>
      simp only [Config.act] at h
      split_ifs at h with hcond
      cases h
      exact .take hcond.1 hcond.2
    | run i =>
      simp only [Config.act, Config.next] at h
      split at h
      · next hcopy =>
        cases h
        exact .copy hcopy
      · next hcopy =>
        rw [QueueBuffer.copyStep_eq_none] at hcopy
        split at h
        · next hpc =>
          obtain ⟨v, hv, rfl⟩ := Option.map_eq_some_iff.1 h
          exact .edge hcopy hpc hv
        · next hpc =>
          split_ifs at h with hphase
          cases h
          exact .flush hcopy hpc hphase
        · cases h
    | barrier =>
      simp only [Config.act, Config.barrier] at h
      split at h
      · next hphase =>
        split_ifs at h with hcond
        cases h
        exact .endLoop hphase hcond.1 hcond.2
      · next hphase =>
        split_ifs at h with hcond
        cases h
        exact .slide hphase hcond
      · cases h
  · intro h
    cases h with
    | @take i pos hpc hpos => exact ⟨.take i pos, if_pos ⟨hpc, hpos⟩⟩
    | @copy i r hcopy => exact ⟨.run i, by simp only [Config.act, Config.next, hcopy]⟩
    | @edge i u k v stage hcopy hpc hv =>
      rw [← QueueBuffer.copyStep_eq_none (q := c.queue)] at hcopy
      exact ⟨.run i, by simp only [Config.act, Config.next, hcopy, hpc, hv, Option.map_some]⟩
    | @flush i hcopy hpc hphase =>
      rw [← QueueBuffer.copyStep_eq_none (q := c.queue)] at hcopy
      exact ⟨.run i, by simp only [Config.act, Config.next, hcopy, hpc, hphase, if_true]⟩
    | endLoop hphase htodo hpc =>
      refine ⟨.barrier, ?_⟩
      simp only [Config.act, Config.barrier, hphase]
      exact if_pos ⟨htodo, hpc⟩
    | slide hphase hpc =>
      refine ⟨.barrier, ?_⟩
      simp only [Config.act, Config.barrier, hphase]
      exact if_pos hpc

end Bc

end Dgap
