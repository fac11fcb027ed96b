import Dgap.Bc.Bitmap
import Dgap.Parallel.ForkJoin
import Dgap.Parallel.QueueBuffer

/-!
# Direction-optimizing breadth-first search

`DOBFS` of `bfs.cc` with its loops `InitParent`, `TDStep`, `QueueToBitmap`, `BUStep` and `BitmapToQueue`, run by
a team of threads. A step of a thread is one access to what the team shares; the statements that the compiler
may not split for the others to see, a compare-and-swap and an atomic bit, are one step, while the plain
`set_bit` of `BUStep` is a load and a store of a word. The iterations of `BUStep` are handed out in chunks of
1024. `level` and `order` are ghosts: the depth of the frontier, and what the cells of the queue hold once all
buffers have been copied.
-/

namespace Dgap

namespace Bfs

/-- The graph and the parameters. -/
structure Input where
  numNodes : ℕ
  outNeigh : ℕ → List ℕ
  inNeigh : ℕ → List ℕ
  outDegree : ℕ → ℤ
  numEdgesDirected : ℤ
  source : ℕ
  alpha : ℤ
  beta : ℤ

/-- The parallel loops, with the window that the loops over the queue run through. -/
inductive Loop where
  /-- `InitParent`. -/
  | init
  /-- The loop of `TDStep`. -/
  | topDown (lo hi : ℕ)
  /-- `lqueue.flush()` of `TDStep`. -/
  | flushTopDown
  /-- `QueueToBitmap`. -/
  | toBitmap (lo hi : ℕ)
  /-- `BUStep`. -/
  | bottomUp
  /-- The loop of `BitmapToQueue`. -/
  | toQueue
  /-- `lqueue.flush()` of `BitmapToQueue`. -/
  | flushToQueue
  /-- The last loop of `DOBFS`. -/
  | final
  deriving DecidableEq

/-- What the team shares, with the variables of the thread that runs the serial code. -/
structure State where
  parent : ℕ → ℤ
  queue : SlidingQueue ℕ
  front : Bitmap
  curr : Bitmap
  edgesToCheck : ℤ
  scoutCount : ℤ
  awakeCount : ℤ
  level : ℕ
  order : List ℕ

/-- Where a thread is in the body of the loop over `out_neigh(u)` of `TDStep`. -/
inductive Stage where
  /-- `curr_val = parent[v]` and `curr_val < 0`. -/
  | load
  /-- `compare_and_swap(parent[v], curr_val, u)`. -/
  | cas (currVal : ℤ)
  /-- `lqueue.push_back(v)` and `scout_count += -curr_val`. -/
  | push (currVal : ℤ)
  deriving DecidableEq

/-- Where a thread is. -/
inductive Pc where
  | idle
  /-- `parent[n] = g.out_degree(n) != 0 ? -g.out_degree(n) : -1`. -/
  | init (v : ℕ)
  /-- `u = *q_iter` of `TDStep`. -/
  | dequeue (pos : ℕ)
  /-- At edge `k` of `u`. -/
  | edge (pos u k : ℕ) (stage : Stage)
  /-- `lqueue.flush()`, and behind its fetch-and-add. -/
  | flush (i : ℕ)
  | flushed (i : ℕ)
  /-- `u = *q_iter` of `QueueToBitmap`, and `bm.set_bit_atomic(u)`. -/
  | markLoad (pos : ℕ)
  | mark (pos u : ℕ)
  /-- The head of the loop over a chunk, and `parent[u] < 0`. -/
  | scan (chunk u : ℕ)
  /-- `front.get_bit(v)`. -/
  | find (chunk u k : ℕ)
  /-- `parent[u] = v` and `awake_count++`. -/
  | adopt (chunk u v : ℕ)
  /-- The load and the store of `next.set_bit(u)`. -/
  | loadWord (chunk u : ℕ)
  | storeWord (chunk u : ℕ) (word : BitVec 64)
  /-- `bm.get_bit(n)`, and `lqueue.push_back(n)`. -/
  | collect (v : ℕ)
  | enqueue (v : ℕ)
  /-- `parent[n] < -1`, and `parent[n] = -1`. -/
  | test (v : ℕ)
  | clear (v : ℕ)
  deriving DecidableEq

/-- A thread: where it is, its buffer, and its parts of the two reductions. -/
structure Thread where
  pc : Pc
  buffer : QueueBuffer ℕ
  scoutCount : ℤ
  awakeCount : ℤ

/-- A thread that enters a parallel region. -/
def Thread.fresh : Thread := ⟨.idle, .fresh, 0, 0⟩

/-- Go on at `pc`. -/
def Thread.goto (t : Thread) (pc : Pc) : Thread := { t with pc }

/-- The iteration a thread is in. -/
def Pc.cur : Pc → Option ℕ
  | .idle => none
  | .init v | .collect v | .enqueue v | .test v | .clear v => some v
  | .dequeue pos | .edge pos _ _ _ | .markLoad pos | .mark pos _ => some pos
  | .flush i | .flushed i => some i
  | .scan chunk _ | .find chunk _ _ | .adopt chunk _ _ | .loadWord chunk _ | .storeWord chunk _ _ => some chunk

/-- The chunk size of `schedule(dynamic, 1024)`. -/
def chunkSize : ℕ := 1024

/-- The iterations of a loop: vertices, positions of the queue, threads, or chunks of vertices. -/
def Loop.items (n numNodes : ℕ) : Loop → Finset ℕ
  | .init | .toQueue | .final => Finset.range numNodes
  | .topDown lo hi | .toBitmap lo hi => Finset.Ico lo hi
  | .flushTopDown | .flushToQueue => Finset.range n
  | .bottomUp => Finset.range ((numNodes + chunkSize - 1) / chunkSize)

/-- A flush belongs to its thread. -/
def Loop.owner {n : ℕ} : Loop → ℕ → Option (Fin n)
  | .flushTopDown, x | .flushToQueue, x => if h : x < n then some ⟨x, h⟩ else none
  | _, _ => none

/-- The entry of an iteration. -/
def Loop.start (x : ℕ) : Loop → Pc
  | .init => .init x
  | .topDown _ _ => .dequeue x
  | .flushTopDown | .flushToQueue => .flush x
  | .toBitmap _ _ => .markLoad x
  | .bottomUp => .scan x (x * chunkSize)
  | .toQueue => .collect x
  | .final => .test x

namespace State

variable (inp : Input) (s : State)

/-- `lqueue.push_back(v)`, after which the thread goes on at `pc`: a full buffer is flushed first. -/
def pushBack (t : Thread) (v : ℕ) (pc : Pc) : State × Thread :=
  if t.buffer.localQueue.length = QueueBuffer.localSize then
    ({ s with queue := (t.buffer.reserve s.queue).1, order := s.order ++ t.buffer.localQueue },
      { t with buffer := (t.buffer.reserve s.queue).2 })
  else (s, { t with buffer := t.buffer.append v, pc })

/-- A statement of the body of the loop over `out_neigh(u)` of `TDStep`, at the destination `v`. -/
def edgeStep (t : Thread) (pos u k v : ℕ) : Stage → State × Thread
  | .load => (s, t.goto (if s.parent v < 0 then .edge pos u k (.cas (s.parent v)) else .edge pos u (k + 1) .load))
  | .cas currVal =>
    if s.parent v = currVal then
      ({ s with parent := Function.update s.parent v u }, t.goto (.edge pos u k (.push currVal)))
    else (s, t.goto (.edge pos u (k + 1) .load))
  | .push currVal =>
    if t.buffer.localQueue.length = QueueBuffer.localSize then s.pushBack t v .idle
    else
      (s, { t with
        buffer := t.buffer.append v
        scoutCount := t.scoutCount + -currVal
        pc := .edge pos u (k + 1) .load })

/-- The step of a thread whose buffer is not being copied. -/
def pcStep (t : Thread) : State × Thread :=
  match t.pc with
  | .idle => (s, t)
  | .init v =>
    ({ s with
      parent := Function.update s.parent v (if inp.outDegree v ≠ 0 then -inp.outDegree v else -1) }, t.goto .idle)
  | .dequeue pos => (s, t.goto (.edge pos (s.queue.shared pos) 0 .load))
  | .edge pos u k stage =>
    match (inp.outNeigh u)[k]? with
    | none => (s, t.goto .idle)
    | some v => s.edgeStep t pos u k v stage
  | .flush i =>
    ({ s with queue := (t.buffer.reserve s.queue).1, order := s.order ++ t.buffer.localQueue },
      { t with buffer := (t.buffer.reserve s.queue).2, pc := .flushed i })
  | .flushed _ => (s, t.goto .idle)
  | .markLoad pos => (s, t.goto (.mark pos (s.queue.shared pos)))
  | .mark _ u => ({ s with front := s.front.setBit u }, t.goto .idle)
  | .scan chunk u =>
    (s, t.goto (if u < min ((chunk + 1) * chunkSize) inp.numNodes then
      (if s.parent u < 0 then .find chunk u 0 else .scan chunk (u + 1)) else .idle))
  | .find chunk u k =>
    match (inp.inNeigh u)[k]? with
    | none => (s, t.goto (.scan chunk (u + 1)))
    | some v => (s, t.goto (if s.front.getBit v then .adopt chunk u v else .find chunk u (k + 1)))
  | .adopt chunk u v =>
    ({ s with parent := Function.update s.parent u v },
      { t with awakeCount := t.awakeCount + 1, pc := .loadWord chunk u })
  | .loadWord chunk u => (s, t.goto (.storeWord chunk u (s.curr.words (Bitmap.wordOffset u))))
  | .storeWord chunk u word =>
    ({ s with curr := ⟨Function.update s.curr.words (Bitmap.wordOffset u)
        (word ||| ((1 : BitVec 64) <<< Bitmap.bitOffset u))⟩ }, t.goto (.scan chunk (u + 1)))
  | .collect v => (s, t.goto (if s.front.getBit v then .enqueue v else .idle))
  | .enqueue v => s.pushBack t v .idle
  | .test v => (s, t.goto (if s.parent v < -1 then .clear v else .idle))
  | .clear v => ({ s with parent := Function.update s.parent v (-1) }, t.goto .idle)

/-- The step of a thread. -/
def step (t : Thread) : State × Thread :=
  match t.buffer.copyStep s.queue with
  | some (queue, buffer) => ({ s with queue }, { t with buffer })
  | none => s.pcStep inp t

/-- The head of `while (!queue.empty())`, and the branch it takes. -/
def loopHead : State × Loop :=
  let lo := s.queue.sharedOutStart
  let hi := s.queue.sharedOutEnd
  if s.queue.isEmpty then (s, .final)
  else if s.scoutCount > s.edgesToCheck.tdiv inp.alpha then (s, .toBitmap lo hi)
  else ({ s with edgesToCheck := s.edgesToCheck - s.scoutCount }, .topDown lo hi)

/-- `DOBFS` behind `InitParent`, up to its loop. -/
def setUp : State :=
  { s with
    parent := Function.update s.parent inp.source inp.source
    queue := (s.queue.reset.pushBack inp.source).slideWindow
    curr := .reset
    front := .reset
    edgesToCheck := inp.numEdgesDirected
    scoutCount := inp.outDegree inp.source
    level := 0
    order := [inp.source] }

/-- `size` of the queue. -/
def windowSize : ℤ := (s.queue.sharedOutEnd : ℤ) - (s.queue.sharedOutStart : ℤ)

end State

/-- The serial code behind a loop, and the next loop. -/
def join {n : ℕ} (inp : Input) (s : State) (ts : Fin n → Thread) : Loop → State × (Fin n → Thread) × Option Loop
  | .init =>
    let r := (s.setUp inp).loopHead inp
    (r.1, fun _ => .fresh, some r.2)
  | .topDown _ _ => ({ s with scoutCount := ∑ i, (ts i).scoutCount }, ts, some .flushTopDown)
  | .flushTopDown =>
    let r := { s with queue := s.queue.slideWindow, level := s.level + 1 }.loopHead inp
    (r.1, fun _ => .fresh, some r.2)
  | .toBitmap _ _ =>
    ({ s with awakeCount := s.windowSize, queue := s.queue.slideWindow, curr := .reset }, fun _ => .fresh,
      some .bottomUp)
  | .bottomUp =>
    let oldAwakeCount := s.awakeCount
    let awakeCount := ∑ i, (ts i).awakeCount
    let s := { s with awakeCount, front := s.curr, curr := s.front, level := s.level + 1 }
    if awakeCount ≥ oldAwakeCount ∨ awakeCount > (inp.numNodes : ℤ).tdiv inp.beta then
      ({ s with curr := .reset }, fun _ => .fresh, some .bottomUp)
    else (s, fun _ => .fresh, some .toQueue)
  | .toQueue => (s, ts, some .flushToQueue)
  | .flushToQueue =>
    let r := { s with queue := s.queue.slideWindow, scoutCount := 1 }.loopHead inp
    (r.1, fun _ => .fresh, some r.2)
  | .final => (s, ts, none)

/-- A step leaves a thread in its iteration, or is the last one. -/
lemma cur_pcStep (inp : Input) (s : State) (t : Thread) :
    (s.pcStep inp t).2.pc.cur = none ∨ (s.pcStep inp t).2.pc.cur = t.pc.cur := by
  have hpush : ∀ v pc, pc.cur = none → (s.pushBack t v pc).2.pc.cur = none ∨
      (s.pushBack t v pc).2.pc.cur = t.pc.cur := by
    intro v pc hpc
    rw [State.pushBack]
    split_ifs
    · exact .inr rfl
    · exact .inl hpc
  rw [State.pcStep]
  cases hpc : t.pc with
  | idle => exact .inl (by rw [hpc]; rfl)
  | init v => exact .inl rfl
  | dequeue pos => exact .inr rfl
  | edge pos u k stage =>
    dsimp only
    split
    · exact .inl rfl
    · cases stage with
      | load =>
        simp only [State.edgeStep, Thread.goto]
        split_ifs <;> exact .inr rfl
      | cas currVal =>
        simp only [State.edgeStep, Thread.goto]
        split_ifs <;> exact .inr rfl
      | push currVal =>
        simp only [State.edgeStep]
        split_ifs
        · have hv := hpush 0 .idle rfl
          rw [hpc, State.pushBack, if_pos ‹_›] at hv
          rwa [State.pushBack, if_pos ‹_›]
        · exact .inr rfl
  | flush i => exact .inr rfl
  | flushed i => exact .inl rfl
  | markLoad pos => exact .inr rfl
  | mark pos u => exact .inl rfl
  | scan chunk u =>
    simp only [Thread.goto]
    split_ifs
    · exact .inr rfl
    · exact .inr rfl
    · exact .inl rfl
  | find chunk u k =>
    dsimp only
    split
    · exact .inr rfl
    · simp only [Thread.goto]
      split_ifs <;> exact .inr rfl
  | adopt chunk u v => exact .inr rfl
  | loadWord chunk u => exact .inr rfl
  | storeWord chunk u word => exact .inr rfl
  | collect v =>
    simp only [Thread.goto]
    split_ifs
    · exact .inr rfl
    · exact .inl rfl
  | enqueue v =>
    have hv := hpush v .idle rfl
    rwa [hpc] at hv
  | test v =>
    simp only [Thread.goto]
    split_ifs
    · exact .inr rfl
    · exact .inl rfl
  | clear v => exact .inl rfl

/-- `DOBFS`. -/
def dobfs (n : ℕ) (inp : Input) : ForkJoin n Loop ℕ State Thread where
  items k := k.items n inp.numNodes
  owner k := k.owner
  cur t := t.pc.cur
  start k x t := t.goto (k.start x)
  step _ s t := s.step inp t
  join k s ts := join inp s ts k
  cur_start k x _ := by cases k <;> rfl
  cur_step _ s t x h := by
    rw [State.step]
    split
    · exact .inr h
    · rw [← h]
      exact cur_pcStep inp s t
  cur_join k s ts h := by
    cases k with
    | topDown lo hi => exact h
    | toQueue => exact h
    | final => exact h
    | bottomUp =>
      simp only [join]
      split_ifs <;> exact fun _ => rfl
    | init => exact fun _ => rfl
    | flushTopDown => exact fun _ => rfl
    | toBitmap lo hi => exact fun _ => rfl
    | flushToQueue => exact fun _ => rfl

end Bfs

end Dgap
