import Dgap.Memory.Cell
import Dgap.Layout.ResizeBounds
import Dgap.Threads.Data

/-!
# A crash while `resize_V1` switches the edge arrays

`EdgePool` is the part of the pool file that `resize_V1` changes: the allocated edge arrays by their
offset, and the pair `bp->edges_oid_`, `bp->elem_capacity` through which they are found again.
`resizeOps` are the persistent operations of `resize_V1` in program order; run to their end they leave the
array and the capacity that `resizeV1` computes (`run_resizeOps`). A crash may come after any number of
them. From the moment when the old array is freed to the last flush, the pair may lead nowhere or to an
array of another size (`resize_switch`).

That holds in every state that has the layout and whose capacity is recorded in the pool (`Resizable`):
behind any sequential run, where an insert of one calls `resize_V1`, behind a resize, and in every state of
every interleaving.
-/

namespace Dgap

/-- An allocated edge array: its size in slots, and the slots. -/
structure EdgeArray (σ : Type*) where
  size : ℤ
  slots : ℤ → σ

/-- The edge arrays of a pool file while a process has it open, and the pair that leads to one. -/
structure EdgePool where
  heap : ℕ → Option (EdgeArray (Cell ℤ))
  edgesOid : Cell ℕ
  elemCapacity : Cell ℤ

/-- What a crash leaves of it. -/
structure Remains where
  heap : ℕ → Option (EdgeArray ℤ)
  edgesOid : ℕ
  elemCapacity : ℤ

/-- The persistent operations of `resize_V1`. -/
inductive SwitchOp where
  | zalloc (oid : ℕ) (size : ℤ)
  | storeEdge (oid : ℕ) (i x : ℤ)
  | flushEdges (oid : ℕ)
  | free
  | storeOid (oid : ℕ)
  | flushOid
  | storeCapacity (size : ℤ)
  | flushCapacity

namespace EdgePool

variable (foreign : Foreign) (p : EdgePool)

/-- A change of an allocated array. -/
def modify (oid : ℕ) (f : EdgeArray (Cell ℤ) → EdgeArray (Cell ℤ)) : EdgePool :=
  { p with heap := Function.update p.heap oid ((p.heap oid).map f) }

/-- One operation. `pmemobj_zalloc` and `pmemobj_free` are failure-atomic, and `pmemobj_free` sets the
oid that it is given to `OID_NULL`. -/
def step : SwitchOp → EdgePool
  | .zalloc oid size => { p with
      heap := Function.update p.heap oid
        (some ⟨size, fun i => .durable ((Graph.zallocEdges foreign size).cur i)⟩) }
  | .storeEdge oid i x => p.modify oid fun b =>
      { b with slots := Function.update b.slots i ((b.slots i).store x) }
  | .flushEdges oid => p.modify oid fun b =>
      { b with slots := fun i => if 0 ≤ i ∧ i < b.size then (b.slots i).flush else b.slots i }
  | .free => { p with
      heap := Function.update p.heap p.edgesOid.cur none
      edgesOid := .durable 0 }
  | .storeOid oid => { p with edgesOid := p.edgesOid.store oid }
  | .flushOid => { p with edgesOid := p.edgesOid.flush }
  | .storeCapacity size => { p with elemCapacity := p.elemCapacity.store size }
  | .flushCapacity => { p with elemCapacity := p.elemCapacity.flush }

/-- Several operations. -/
def run (ops : List SwitchOp) (p : EdgePool) : EdgePool := ops.foldl (step foreign) p

/-- What a crash may leave. -/
structure Leaves (p : EdgePool) (r : Remains) : Prop where
  heap : ∀ o, Option.Rel (fun b c => c.size = b.size ∧ ∀ i, (b.slots i).Survives (c.slots i))
    (p.heap o) (r.heap o)
  edgesOid : p.edgesOid.Survives r.edgesOid
  elemCapacity : p.elemCapacity.Survives r.elemCapacity

end EdgePool

namespace EdgePool

variable {foreign : Foreign} {p : EdgePool} {ops ops' : List SwitchOp} {o new : ℕ}
  {b : EdgeArray (Cell ℤ)}

@[simp] lemma run_nil : run foreign [] p = p := rfl

@[simp] lemma run_cons (op : SwitchOp) : run foreign (op :: ops) p = run foreign ops (p.step foreign op) :=
  rfl

@[simp] lemma run_append : run foreign (ops ++ ops') p = run foreign ops' (run foreign ops p) :=
  List.foldl_append ..

/-- The crash that lets no store reach the medium before its flush. -/
def crash (p : EdgePool) : Remains where
  heap := fun o => (p.heap o).map fun b => ⟨b.size, fun i => (b.slots i).dur⟩
  edgesOid := p.edgesOid.dur
  elemCapacity := p.elemCapacity.dur

/-- It is a crash. -/
lemma leaves_crash (p : EdgePool) : p.Leaves p.crash := by
  refine ⟨fun o => ?_, Cell.survives_dur _, Cell.survives_dur _⟩
  simp only [crash]
  cases p.heap o with
  | none => exact .none
  | some b => exact .some ⟨rfl, fun i => Cell.survives_dur _⟩

/-- An allocated array survives a crash with its size. -/
lemma Leaves.heap_some {r : Remains} (h : p.Leaves r) (hb : p.heap o = some b) :
    ∃ c, r.heap o = some c ∧ c.size = b.size ∧ ∀ i, (b.slots i).Survives (c.slots i) := by
  have hrel := h.heap o
  rw [hb] at hrel
  cases hc : r.heap o with
  | none =>
    rw [hc] at hrel
    cases hrel
  | some c =>
    rw [hc] at hrel
    cases hrel with
    | some hrel => exact ⟨c, rfl, hrel⟩

end EdgePool

/-- The pair leads to the array `oid` and records its size, and every slot of it has a value that `ok`
allows. -/
def Remains.Designates (r : Remains) (oid : ℕ) (size : ℤ) (ok : ℤ → ℤ → Prop) : Prop :=
  r.edgesOid = oid ∧ r.elemCapacity = size ∧ ∃ b, r.heap oid = some b ∧ b.size = size ∧
    ∀ i, 0 ≤ i → i < size → ok i (b.slots i)

namespace Graph

/-- The pool file of a graph whose edge array was allocated at `old`. -/
def edgePool (g : Graph) (old : ℕ) : EdgePool where
  heap := Function.update (fun _ => none) old (some ⟨g.elemCapacity, Cell.ofImage g.edges⟩)
  edgesOid := .durable old
  elemCapacity := .durable g.bp.elemCapacity

@[simp] lemma edgePool_heap (g : Graph) (old : ℕ) :
    (g.edgePool old).heap old = some ⟨g.elemCapacity, Cell.ofImage g.edges⟩ := by
  simp [edgePool]

/-- The store of an access. -/
def storeOp (oid : ℕ) : Access ℤ → Option SwitchOp
  | .read _ => none
  | .write i x => some (.storeEdge oid i x)

/-- The operations before the old array is freed. -/
def prepareOps (g : Graph) (new : ℕ) : List SwitchOp :=
  .zalloc new (g.elemCapacity * 2) :: (g.resizeTrace.filterMap (storeOp new) ++ [.flushEdges new])

/-- The operations from there on. -/
def switchOps (g : Graph) (new : ℕ) : List SwitchOp :=
  [.free, .storeOid 0, .storeOid new, .flushOid, .storeCapacity (g.elemCapacity * 2), .flushCapacity]

/-- The persistent operations of `resize_V1` up to the release of the logs; the new array is allocated at
`new`. -/
def resizeOps (g : Graph) (new : ℕ) : List SwitchOp := g.prepareOps new ++ g.switchOps new

section Operations

variable {g g' : Graph} (foreign : Foreign) (p : EdgePool) {new o : ℕ} {op : SwitchOp}

/-- An operation before the old array is freed changes the new array only. -/
lemma step_prepareOps (hop : op ∈ g.prepareOps new) :
    (p.step foreign op).edgesOid = p.edgesOid ∧ (p.step foreign op).elemCapacity = p.elemCapacity ∧
      ∀ o, o ≠ new → (p.step foreign op).heap o = p.heap o := by
  rcases List.mem_cons.1 hop with rfl | hop
  · exact ⟨rfl, rfl, fun o ho => Function.update_of_ne ho _ _⟩
  rcases List.mem_append.1 hop with hop | hop
  · obtain ⟨e, -, he⟩ := List.mem_filterMap.1 hop
    cases e with
    | read i => cases he
    | write i x =>
      obtain rfl := Option.some.inj he
      exact ⟨rfl, rfl, fun o ho => Function.update_of_ne ho _ _⟩
  · obtain rfl := List.mem_singleton.1 hop
    exact ⟨rfl, rfl, fun o ho => Function.update_of_ne ho _ _⟩

/-- So do several of them. -/
lemma run_prepareOps {ops : List SwitchOp} (hops : ∀ op ∈ ops, op ∈ g.prepareOps new) :
    (p.run foreign ops).edgesOid = p.edgesOid ∧ (p.run foreign ops).elemCapacity = p.elemCapacity ∧
      ∀ o, o ≠ new → (p.run foreign ops).heap o = p.heap o := by
  induction ops generalizing p with
  | nil => exact ⟨rfl, rfl, fun _ _ => rfl⟩
  | cons op ops ih =>
    obtain ⟨h1, h2, h3⟩ := step_prepareOps foreign p (hops op List.mem_cons_self)
    obtain ⟨h4, h5, h6⟩ := ih (p.step foreign op) fun op' h => hops op' (List.mem_cons_of_mem _ h)
    exact ⟨h4.trans h1, h5.trans h2, fun o ho => (h6 o ho).trans (h3 o ho)⟩

/-- The stores of a trace leave in the new array what the trace does. -/
lemma run_stores (l : List (Access ℤ)) {b : EdgeArray (Cell ℤ)} {a : Image ℤ}
    (hb : p.heap new = some b) (hcur : ∀ i, (b.slots i).cur = a.cur i) :
    ∃ b', (p.run foreign (l.filterMap (storeOp new))).heap new = some b' ∧ b'.size = b.size ∧
      ∀ i, (b'.slots i).cur = (Access.replay l a).cur i := by
  induction l generalizing p b a with
  | nil => exact ⟨b, hb, rfl, hcur⟩
  | cons e l ih =>
    cases e with
    | read i => exact ih p hb hcur
    | write i x =>
      have hb' : (p.step foreign (.storeEdge new i x)).heap new =
          some { b with slots := Function.update b.slots i ((b.slots i).store x) } := by
        simp only [EdgePool.step, EdgePool.modify, Function.update_self, hb, Option.map_some]
      obtain ⟨b', h1, h2, h3⟩ := ih (p.step foreign (.storeEdge new i x)) (a := a.store i x) hb' fun j => by
        by_cases hj : j = i
        · subst hj
          simp
        · simp [Function.update_of_ne hj, hcur j]
      exact ⟨b', h1, h2, h3⟩

end Operations

/-- After a crash behind the first `m` operations the pair leads to the old array, which holds what it
held before, or to the new array, with all its slots as `g'` has them. -/
def SwitchAtomicAt (g g' : Graph) (old new m : ℕ) : Prop :=
  ∀ r, (EdgePool.run g.foreign ((g.resizeOps new).take m) (g.edgePool old)).Leaves r →
    r.Designates old g.elemCapacity (fun i x => (Cell.ofImage g.edges i).Survives x) ∨
    r.Designates new g'.elemCapacity (fun i x => x = g'.edges.cur i)

section Switch

variable {g g' : Graph} {adj : ℕ → List ℕ} {old new : ℕ}

/-- Before the old array is freed, the new one is complete and durable. -/
lemma Layout.run_prepareOps_new (hL : g.Layout adj) (h : g.resizeV1 = some g') (old new : ℕ) :
    ∃ b, (EdgePool.run g.foreign (g.prepareOps new) (g.edgePool old)).heap new = some b ∧
      b.size = g'.elemCapacity ∧
      ∀ i, 0 ≤ i → i < g'.elemCapacity → b.slots i = .durable (g'.edges.cur i) := by
  obtain ⟨-, -, -, hreplay⟩ := hL.resizeV1_replay h
  have hcap := (hL.resizeV1_spec h).elemCapacity
  obtain ⟨b, hb, hsize, hcur⟩ := run_stores g.foreign
    ((g.edgePool old).step g.foreign (.zalloc new (g.elemCapacity * 2))) g.resizeTrace
    (a := zallocEdges g.foreign (g.elemCapacity * 2)) (Function.update_self _ _ _) fun i => rfl
  rw [prepareOps, EdgePool.run_cons, EdgePool.run_append]
  refine ⟨_, by
    simp only [EdgePool.run_cons, EdgePool.run_nil, EdgePool.step, EdgePool.modify,
      Function.update_self] at hb ⊢
    rw [hb]
    rfl, ?_, fun i h0 h1 => ?_⟩
  · rw [hcap]
    exact hsize
  · dsimp only
    rw [hsize, if_pos ⟨h0, by rwa [hcap] at h1⟩, Cell.flush, hcur, hreplay]

/-- Up to the release of the old array the pair leads to it. -/
lemma switchAtomicAt_prepare (hne : new ≠ old) (hcap : g.bp.elemCapacity = g.elemCapacity) {m : ℕ}
    (hm : m ≤ (g.prepareOps new).length) : SwitchAtomicAt g g' old new m := by
  intro r hr
  rw [resizeOps, List.take_append_of_le_length hm] at hr
  obtain ⟨h1, h2, h3⟩ := run_prepareOps g.foreign (g.edgePool old)
    fun op (h : op ∈ (g.prepareOps new).take m) => List.mem_of_mem_take h
  obtain ⟨c, hc, hsize, hslots⟩ := hr.heap_some ((h3 old hne.symm).trans (edgePool_heap g old))
  have hoid := hr.edgesOid
  have hsz := hr.elemCapacity
  rw [h1, edgePool, Cell.survives_durable] at hoid
  rw [h2, edgePool, Cell.survives_durable] at hsz
  exact .inl ⟨hoid, hsz.trans hcap, c, hc, hsize, fun i _ _ => hslots i⟩

/-- After the last flush the pair leads to the new array. -/
lemma Layout.switchAtomicAt_end (hL : g.Layout adj) (h : g.resizeV1 = some g') (hne : new ≠ old)
    {m : ℕ} (hm : (g.resizeOps new).length ≤ m) : SwitchAtomicAt g g' old new m := by
  intro r hr
  rw [List.take_of_length_le hm, resizeOps, EdgePool.run_append] at hr
  obtain ⟨b, hb, hsize, hslots⟩ := hL.run_prepareOps_new h old new
  obtain ⟨h1, -, -⟩ := run_prepareOps g.foreign (g.edgePool old)
    fun op (h : op ∈ g.prepareOps new) => h
  have hheap : ((EdgePool.run g.foreign (g.prepareOps new) (g.edgePool old)).run g.foreign
      (g.switchOps new)).heap new = some b := by
    rw [← hb]
    refine Function.update_of_ne ?_ _ _
    rw [h1]
    exact hne
  obtain ⟨c, hc, hcsize, hcslots⟩ := hr.heap_some hheap
  have hoid := hr.edgesOid
  have hsz := hr.elemCapacity
  simp only [switchOps, EdgePool.run_cons, EdgePool.run_nil, EdgePool.step, Cell.flush,
    Cell.store_cur, Cell.survives_durable] at hoid hsz
  refine .inr ⟨hoid, hsz.trans (hL.resizeV1_spec h).elemCapacity.symm, c, hc, hcsize.trans hsize,
    fun i h0 h1 => ?_⟩
  have := hcslots i
  rwa [hslots i h0 h1, Cell.survives_durable] at this

/-- In between the pair may lead nowhere, or record the old capacity for the new array. -/
lemma not_switchAtomicAt (hold : old ≠ 0) (hnew : new ≠ 0) (hne : new ≠ old)
    (hcap : g.bp.elemCapacity ≠ g'.elemCapacity) {m : ℕ} (h1 : (g.prepareOps new).length < m)
    (h2 : m < (g.resizeOps new).length) : ¬SwitchAtomicAt g g' old new m := by
  intro hat
  have hlen : (g.resizeOps new).length = (g.prepareOps new).length + 6 := List.length_append
  obtain ⟨k, rfl⟩ : ∃ k, m = (g.prepareOps new).length + k := ⟨_, (Nat.add_sub_of_le h1.le).symm⟩
  have hat := hat _ (EdgePool.leaves_crash _)
  rw [resizeOps, List.take_length_add_append, EdgePool.run_append] at hat
  obtain ⟨-, hc, -⟩ := run_prepareOps g.foreign (g.edgePool old)
    fun op (h : op ∈ g.prepareOps new) => h
  set p := EdgePool.run g.foreign (g.prepareOps new) (g.edgePool old) with hp
  -- no store reaches the medium before its flush
  have hdur : ((p.run g.foreign ((g.switchOps new).take k)).crash.edgesOid = 0) ∨
      (p.run g.foreign ((g.switchOps new).take k)).crash.edgesOid = new ∧
      (p.run g.foreign ((g.switchOps new).take k)).crash.elemCapacity = g.bp.elemCapacity := by
    have hk : 0 < k ∧ k < 6 := by omega
    obtain ⟨hk1, hk2⟩ := hk
    interval_cases k
    · exact .inl rfl
    · exact .inl rfl
    · exact .inl rfl
    · exact .inr ⟨rfl, congrArg Cell.dur hc⟩
    · exact .inr ⟨rfl, congrArg Cell.dur hc⟩
  rcases hdur with h0 | ⟨hn, hs⟩
  · rcases hat with ⟨h, -⟩ | ⟨h, -⟩
    · exact hold (h.symm.trans h0)
    · exact hnew (h.symm.trans h0)
  · rcases hat with ⟨h, -⟩ | ⟨-, h, -⟩
    · exact hne (hn.symm.trans h)
    · exact hcap (hs.symm.trans h)

end Switch

/-- The layout holds, and the capacity is recorded in the pool. -/
structure Resizable (g : Graph) : Prop where
  layout : ∃ adj, g.Layout adj
  recorded : g.bp.elemCapacity = g.elemCapacity

section Reachable

variable {g g' g1 : Graph} {foreign : Foreign} {directed : Bool} {tid nVertices : ℕ}
  {base ops : List (ℕ × ℕ)}

/-- Behind a sequential run `resize_V1` can be called directly. -/
lemma Run.resizable (h : Run foreign directed tid nVertices base ops g) : g.Resizable :=
  ⟨⟨_, h.layout⟩, h.recorded.elemCapacity⟩

/-- The next insert may call it. -/
lemma ReachesResize.resizable {tid' src dst : ℕ} (hr : ReachesResize g tid' src dst g1) (h : g.Resizable)
    (hs : src < g.numVertices) : g1.Resizable := by
  obtain ⟨adj, hL⟩ := h.layout
  have hins := hL.doInsertion_spec hs hr.inserted
  exact ⟨⟨_, hins.layout hL hs⟩, by rw [hins.bp, h.recorded, hins.elemCapacity]⟩

/-- It can be called again behind a resize. -/
lemma Resizable.resizeV1 (h : g.Resizable) (hg : g.resizeV1 = some g') : g'.Resizable := by
  obtain ⟨adj, hL⟩ := h.layout
  have hres := hL.resizeV1_spec hg
  exact ⟨⟨adj, hres.layout hL⟩, by rw [hres.bp]⟩

/-- Whatever steps any number of threads have taken, one of them may call it. -/
lemma resizable_of_reach {n : ℕ} {g0 : Graph} {program : Fin n → List (ℕ × ℕ)} {c : Config n}
    (h2 : 2 ≤ nVertices) (hsorted : base.Pairwise fun e e' => e.1 ≤ e'.1)
    (hbase : ∀ e ∈ base, e.1 < nVertices ∧ e.2 < nVertices)
    (hcreate : create foreign directed nVertices base = some g0)
    (hprogram : ∀ i, ∀ e ∈ program i, e.1 < g0.numVertices ∧ e.2 < g0.numVertices)
    (hc : (inserts g0 program).Reach c) : c.g.Resizable := by
  have hD := inserts_data h2 hsorted hbase hcreate hprogram hc
  obtain ⟨ops, hL, -⟩ := hD.layout
  exact ⟨⟨_, hL⟩, hD.recorded⟩

/-- A resize changes the recorded capacity. -/
lemma Resizable.grows (h : g.Resizable) (hg : g.resizeV1 = some g') :
    g.bp.elemCapacity ≠ g'.elemCapacity := by
  obtain ⟨adj, hL⟩ := h.layout
  have hpos := hL.capacity_pos
  rw [h.recorded, (hL.resizeV1_spec hg).elemCapacity]
  omega

/-- Whenever `resize_V1` is called, there are crash points at which the pair leads neither to the old array
with the old capacity nor to the new array with the new one: all from the release of the old array to the
flush of the new capacity, and no other. -/
theorem resize_switch (h : g.Resizable) (hg : g.resizeV1 = some g') {old new : ℕ} (hold : old ≠ 0)
    (hnew : new ≠ 0) (hne : new ≠ old) :
    (¬∀ m, SwitchAtomicAt g g' old new m) ∧
    ∀ m, SwitchAtomicAt g g' old new m ↔
      m ≤ (g.prepareOps new).length ∨ (g.resizeOps new).length ≤ m := by
  obtain ⟨adj, hL⟩ := h.layout
  have hiff : ∀ m, SwitchAtomicAt g g' old new m ↔
      m ≤ (g.prepareOps new).length ∨ (g.resizeOps new).length ≤ m := by
    intro m
    constructor
    · intro hat
      by_contra hm
      rw [not_or, not_le, not_le] at hm
      exact not_switchAtomicAt hold hnew hne (h.grows hg) hm.1 hm.2 hat
    · rintro (hm | hm)
      · exact switchAtomicAt_prepare hne h.recorded hm
      · exact hL.switchAtomicAt_end hg hne hm
  refine ⟨fun hall => ?_, hiff⟩
  -- the point right behind the release of the old array
  have hlen : (g.resizeOps new).length = (g.prepareOps new).length + 6 := List.length_append
  have := (hiff _).1 (hall ((g.prepareOps new).length + 1))
  omega

/-- Two vertices: the fifth edge from the first vertex resizes the array, and a direct call resizes it again.
So it does when another thread waits for the lock of the leaf. -/
theorem resize_switch_two :
    (∃ g g1 g' g'', Run ⟨fun _ => 7, fun _ => .zero⟩ true 0 2 [] (List.replicate 4 (0, 1)) g ∧
      ReachesResize g 0 0 1 g1 ∧ g.insert 0 0 1 = some g' ∧ (¬∀ m, SwitchAtomicAt g1 g' 64 4096 m) ∧
      g'.resizeV1 = some g'' ∧ ¬∀ m, SwitchAtomicAt g' g'' 4096 64 m) ∧
    ∃ (g0 g' : Graph) (c : Config 2), create ⟨fun _ => 7, fun _ => .zero⟩ true 2 [] = some g0 ∧
      (inserts g0 ![List.replicate 5 (0, 1), [(1, 0)]]).Reach c ∧ (c.threads 0).pc = .resize ∧
      (c.threads 1).pc = .acquire ∧ c.g.resizeV1 = some g' ∧ ¬∀ m, SwitchAtomicAt c.g g' 64 4096 m := by
  constructor
  · obtain ⟨g, g1, g', hg, hr, hg', hp⟩ := Run.exists_resized_of_check ⟨fun _ => 7, fun _ => .zero⟩ true
      0 2 [] (List.replicate 4 (0, 1)) 0 1 (by decide) (by decide) (by decide) (by decide)
      (fun g1 => g1.resizeV1.any fun g' : Graph => g'.resizeV1.isSome) (by decide +kernel)
    have h1 : g1.Resizable := hr.resizable hg.resizable (by rw [hg.numVertices]; decide)
    have hres : g1.resizeV1 = some g' := by rw [← hr.insert_eq hg.layout, hg']
    rw [hres, Option.any_some] at hp
    obtain ⟨g'', hg''⟩ := Option.isSome_iff_exists.1 hp
    exact ⟨g, g1, g', g'', hg, hr, hg', (resize_switch h1 hres (by decide) (by decide) (by decide)).1,
      hg'', (resize_switch (h1.resizeV1 hres) hg'' (by decide) (by decide) (by decide)).1⟩
  · obtain ⟨g0, c, hg, hc, hp⟩ := reach_of_check (fun _ _ => True) ⟨fun _ => 7, fun _ => .zero⟩ true 2 []
      ![List.replicate 5 (0, 1), [(1, 0)]] (1 :: List.replicate 111 0)
      (fun c => (c.threads 0).pc == .resize && (c.threads 1).pc == .acquire && c.g.resizeV1.isSome)
      (by decide +kernel)
    simp only [Bool.and_eq_true, beq_iff_eq] at hp
    obtain ⟨⟨hpc0, hpc1⟩, hsome⟩ := hp
    obtain ⟨g', hg'⟩ := Option.isSome_iff_exists.1 hsome
    have hnum : g0.numVertices = 2 :=
      (create_spec (by decide) (by decide) (by decide) hg).shape.numVertices.trans (by decide)
    have h0 : c.g.Resizable := resizable_of_reach (by decide) (by decide) (by decide) hg
      (by rw [hnum]; decide) hc.of_restrict
    exact ⟨g0, g', c, hg, hc.of_restrict, hpc0, hpc1, hg',
      (resize_switch h0 hg' (by decide) (by decide) (by decide)).1⟩

/-- The same resize with a crash right behind the release of the old array: the oid is null. -/
theorem resize_switch_fails : ∃ g g1 g',
    Run ⟨fun _ => 7, fun _ => .zero⟩ true 0 2 [] (List.replicate 4 (0, 1)) g ∧
    ReachesResize g 0 0 1 g1 ∧ g.insert 0 0 1 = some g' ∧
    ¬SwitchAtomicAt g1 g' 64 4096 ((g1.prepareOps 4096).length + 1) := by
  obtain ⟨g, g1, g', hg, hr, hg', hp⟩ := Run.exists_resized_of_check ⟨fun _ => 7, fun _ => .zero⟩ true
    0 2 [] (List.replicate 4 (0, 1)) 0 1 (by decide) (by decide) (by decide) (by decide)
    (fun g1 => decide (g1.bp.elemCapacity = 8) &&
      g1.resizeV1.any fun g' : Graph => decide (g'.elemCapacity = 16)) (by decide +kernel)
  rw [← hr.insert_eq hg.layout, hg'] at hp
  simp only [Option.any_some, Bool.and_eq_true, decide_eq_true_eq] at hp
  refine ⟨g, g1, g', hg, hr, hg', not_switchAtomicAt (by decide) (by decide) (by decide)
    (by rw [hp.1, hp.2]; decide) (Nat.lt_succ_self _) ?_⟩
  rw [resizeOps, List.length_append]
  exact Nat.add_lt_add_left (show 1 < 6 by decide) _

end Reachable

end Graph

end Dgap
