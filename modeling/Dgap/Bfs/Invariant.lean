import Dgap.Bfs.Tree

/-!
# What holds in the loops of the search

`Pc.Ok` is what a thread knows where it is, `Glob` what holds of the shared state in each loop, `Team` what the
queue and the buffers hold together, `Open` and `Done` what holds of an iteration before and behind its run.
`Moves` are the steps of a thread, with what the thread knows when it takes them.
-/

namespace Dgap

namespace Bfs

open Multigraph

/-- A position of the window of `TDStep`. -/
def Loop.TopDownAt : Loop → ℕ → Prop
  | .topDown lo hi, pos => lo ≤ pos ∧ pos < hi
  | _, _ => False

/-- A position of the window of `QueueToBitmap`. -/
def Loop.ToBitmapAt : Loop → ℕ → Prop
  | .toBitmap lo hi, pos => lo ≤ pos ∧ pos < hi
  | _, _ => False

/-- A loop in which the threads flush their buffers. -/
def Loop.Flushes (k : Loop) : Prop := k = .flushTopDown ∨ k = .flushToQueue

/-- A loop in which the threads use their buffers. -/
def Loop.Queues : Loop → Prop
  | .topDown _ _ | .flushTopDown | .toQueue | .flushToQueue => True
  | _ => False

variable (inp : Input)

/-- A vertex of a chunk. -/
structure InChunk (chunk u : ℕ) : Prop where
  le : chunk * chunkSize ≤ u
  lt : u < (chunk + 1) * chunkSize
  vertex : u < inp.numNodes

/-- The vertices of a chunk that its thread is through with: those of the next level are found. -/
def State.Scanned (s : State) (chunk u : ℕ) : Prop :=
  ∀ w < u, InChunk inp chunk w → inp.At (s.level + 1) w → 0 ≤ s.parent w ∧ s.curr.getBit w = true

/-- The vertices of a chunk that its thread has still to look at: those of the next level are unvisited. -/
def State.Unscanned (s : State) (chunk u : ℕ) : Prop :=
  ∀ w, u ≤ w → InChunk inp chunk w → inp.At (s.level + 1) w → s.parent w < 0

/-- A thread is at a vertex of its chunk. -/
structure State.Scans (s : State) (chunk u : ℕ) : Prop where
  mem : InChunk inp chunk u
  scanned : s.Scanned inp chunk u
  unscanned : s.Unscanned inp chunk (u + 1)

/-- What a thread knows at a statement of the body of the loop over `out_neigh(u)`. -/
def Stage.Ok (s : State) (u e : ℕ) : Stage → Prop
  | .load => True
  | .cas currVal => currVal < 0 ∧ ∃ v, (inp.outNeigh u)[e]? = some v ∧ (s.parent v = currVal ∨ 0 ≤ s.parent v)
  | .push _ => ∃ v, (inp.outNeigh u)[e]? = some v ∧ 0 ≤ s.parent v

/-- What a thread knows where it is. -/
def Pc.Ok (k : Loop) (s : State) : Pc → Prop
  | .idle => True
  | .init v => k = .init ∧ v < inp.numNodes
  | .dequeue pos => k.TopDownAt pos
  | .edge pos u e stage => k.TopDownAt pos ∧ s.order[pos]? = some u ∧
      (∀ j < e, ∀ v, (inp.outNeigh u)[j]? = some v → 0 ≤ s.parent v) ∧ stage.Ok inp s u e
  | .flush _ | .flushed _ => k.Flushes
  | .markLoad pos => k.ToBitmapAt pos
  | .mark pos u => k.ToBitmapAt pos ∧ s.order[pos]? = some u
  | .scan chunk u => k = .bottomUp ∧ chunk * chunkSize ≤ u ∧ s.Scanned inp chunk u ∧ s.Unscanned inp chunk u
  | .find chunk u e => k = .bottomUp ∧ s.Scans inp chunk u ∧ s.parent u < 0 ∧
      ∀ j < e, ∀ v, (inp.inNeigh u)[j]? = some v → s.front.getBit v = false
  | .adopt chunk u v => k = .bottomUp ∧ s.Scans inp chunk u ∧ s.parent u < 0 ∧ v ∈ inp.inNeigh u ∧
      s.front.getBit v = true
  | .loadWord chunk u => k = .bottomUp ∧ s.Scans inp chunk u ∧ 0 ≤ s.parent u ∧ inp.At (s.level + 1) u
  | .storeWord chunk u word => k = .bottomUp ∧ s.Scans inp chunk u ∧ 0 ≤ s.parent u ∧ inp.At (s.level + 1) u ∧
      word = s.curr.words (Bitmap.wordOffset u)
  | .collect _ => k = .toQueue
  | .enqueue v => k = .toQueue ∧ inp.At s.level v
  | .test _ => k = .final
  | .clear v => k = .final ∧ s.parent v < -1

/-- The statements at which a buffer may be flushed. -/
def Pc.MayFlush : Pc → Prop
  | .edge _ _ _ (.push _) | .enqueue _ | .flushed _ => True
  | _ => False

/-- What holds of a thread. -/
structure Thread.Ok (k : Loop) (s : State) (t : Thread) : Prop where
  copies : t.buffer.Copies s.queue s.order
  calm : ¬ t.pc.MayFlush → t.buffer.copying = none
  flushed : ∀ i, t.pc = .flushed i → t.buffer.copying = none → t.buffer = .fresh
  quiet : ¬ k.Queues → t.buffer = .fresh
  awake : 0 ≤ t.awakeCount ∧ (0 < t.awakeCount → ∃ v, inp.At (s.level + 1) v)
  pc : t.pc.Ok inp k s

/-- What holds of the shared state while there is a frontier. -/
structure Base (s : State) : Prop where
  settled : QueueBuffer.Settled s.queue s.order
  tree : Tree inp s.parent s.level
  nodup : (s.order.take s.queue.sharedOutEnd).Nodup
  old : ∀ v ∈ s.order.take s.queue.sharedOutEnd, ∃ j ≤ s.level, inp.At j v
  bits : ∀ v, s.front.getBit v = true → ∃ j ≤ s.level, inp.At j v

/-- The window of the queue is the frontier. -/
structure Window (s : State) (lo hi : ℕ) : Prop where
  outStart : s.queue.sharedOutStart = lo
  outEnd : s.queue.sharedOutEnd = hi
  mem : ∀ v, inp.At s.level v ↔ ∃ pos, lo ≤ pos ∧ pos < hi ∧ s.order[pos]? = some v
  nonempty : ∃ v, inp.At s.level v

/-- No vertex of the next level has been found. -/
def State.Clean (s : State) : Prop := ∀ v, inp.At (s.level + 1) v → s.parent v < 0

/-- The bitmap is the frontier, and the queue has only former ones. -/
structure Collected (s : State) : Prop where
  front : ∀ v, s.front.getBit v = true ↔ inp.At s.level v
  former : ∀ v ∈ s.order.take s.queue.sharedOutEnd, ∃ j < s.level, inp.At j v
  clean : s.Clean inp

/-- What holds of the bitmaps in `BUStep`. -/
structure Scanning (s : State) : Prop where
  full : s.order.length = s.queue.sharedOutEnd
  front : ∀ v, inp.At s.level v → s.front.getBit v = true
  curr : ∀ v, s.curr.getBit v = true → inp.At (s.level + 1) v ∧ 0 ≤ s.parent v
  awake : 1 ≤ s.awakeCount
  nonempty : ∃ v, inp.At s.level v

/-- What holds of the shared state in each loop. -/
def Glob (s : State) : Loop → Prop
  | .init => True
  | .topDown lo hi => Base inp s ∧ Window inp s lo hi
  | .flushTopDown => Base inp s ∧ (∃ v, inp.At s.level v) ∧ ∀ v, inp.At (s.level + 1) v → 0 ≤ s.parent v
  | .toBitmap lo hi => Base inp s ∧ Window inp s lo hi ∧ s.order.length = s.queue.sharedOutEnd ∧ s.Clean inp
  | .bottomUp => Base inp s ∧ Scanning inp s
  | .toQueue | .flushToQueue => Base inp s ∧ Collected inp s
  | .final => ∀ v < inp.numNodes, (Reachable inp.outNeigh inp.source v → HasParent inp s.parent v) ∧
      (¬ Reachable inp.outNeigh inp.source v → s.parent v < 0)

/-- The vertex that a thread has claimed and not yet put into its buffer. -/
def Pc.claimed : Pc → List ℕ
  | .edge _ u e (.push _) => ((inp.outNeigh u)[e]?).toList
  | _ => []

/-- The vertices that a thread holds. -/
def Thread.held (t : Thread) : List ℕ := t.buffer.pending ++ t.pc.claimed inp

variable {n : ℕ}

/-- The vertices behind the window and those that the threads hold. -/
def members (s : State) (ts : Fin n → Thread) : Multiset ℕ :=
  (s.order.drop s.queue.sharedOutEnd : Multiset ℕ) + ∑ i, ((ts i).held inp : Multiset ℕ)

open Classical in
/-- The vertices of the next level that have been found. -/
noncomputable def State.found (s : State) : Finset ℕ :=
  (Finset.range inp.numNodes).filter fun v => 0 ≤ s.parent v ∧ inp.At (s.level + 1) v

/-- What the queue and the buffers hold together. -/
def Team (s : State) (ts : Fin n → Thread) (k : Loop) : Prop :=
  match k with
  | .topDown _ _ | .flushTopDown =>
    QueueBuffer.Filled s.queue s.order (fun i => (ts i).buffer) ∧ members inp s ts = (s.found inp).val
  | .toQueue =>
    QueueBuffer.Filled s.queue s.order (fun i => (ts i).buffer) ∧ (members inp s ts).Nodup ∧
      (∀ v ∈ members inp s ts, inp.At s.level v) ∧ ∀ i v, (ts i).pc.cur = some v → v ∉ members inp s ts
  | .flushToQueue =>
    QueueBuffer.Filled s.queue s.order (fun i => (ts i).buffer) ∧ (members inp s ts).Nodup ∧
      ∀ v, v ∈ members inp s ts ↔ inp.At s.level v
  | _ => True

/-- An open iteration: the vertices of the chunk are as they were, the vertex has not been collected. -/
def Open (s : State) (ts : Fin n → Thread) (x : ℕ) : Loop → Prop
  | .bottomUp => ∀ u, InChunk inp x u → inp.At (s.level + 1) u → s.parent u < 0
  | .toQueue => x ∉ members inp s ts
  | _ => True

/-- What an iteration leaves behind. -/
def Done (s : State) (ts : Fin n → Thread) (x : ℕ) : Loop → Prop
  | .init => s.parent x < 0
  | .topDown _ _ => ∀ u, s.order[x]? = some u → ∀ v ∈ inp.outNeigh u, 0 ≤ s.parent v
  | .flushTopDown | .flushToQueue => ∀ h : x < n, (ts ⟨x, h⟩).buffer = .fresh
  | .toBitmap _ _ => ∀ u, s.order[x]? = some u → s.front.getBit u = true
  | .bottomUp => ∀ u, InChunk inp x u → inp.At (s.level + 1) u → 0 ≤ s.parent u ∧ s.curr.getBit u = true
  | .toQueue => inp.At s.level x → x ∈ members inp s ts
  | .final => -1 ≤ s.parent x

end Bfs

end Dgap
