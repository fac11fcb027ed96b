import Dgap.Adjacency.Trees
import Dgap.Bc.EdgeId
import Dgap.Bfs.Ends

/-!
# The search finds shortest paths

In every schedule of its loops `DOBFS` ends, and then its parents are a tree of shortest paths, however often
it has gone top down and bottom up (`dobfs_shortest_tree`). `in_neigh` of this graph has the body of `out_neigh`,
so the steps that go bottom up need every edge to have its reverse.
-/

namespace Dgap

namespace Bfs

open Multigraph

variable {inp : Input} {n : ℕ}

/-- The parent of a vertex, if it is visited. -/
def parentOf (parent : ℕ → ℤ) (v : ℕ) : Option ℕ := if parent v < 0 then none else some (parent v).toNat

/-- A visited vertex. -/
lemma parentOf_eq {parent : ℕ → ℤ} {u v : ℕ} (h : parent v = u) : parentOf parent v = some u := by
  rw [parentOf, h, if_neg (not_lt.2 (Int.natCast_nonneg u)), Int.toNat_natCast]

variable (inp) in
/-- The parents in the end. -/
def Found (parent : ℕ → ℤ) : Prop := ∀ v < inp.numNodes,
  (Reachable inp.outNeigh inp.source v → HasParent inp parent v) ∧
    (¬ Reachable inp.outNeigh inp.source v → parent v = -1)

/-- In the end the parents are a tree of shortest paths. -/
lemma Found.tree {parent : ℕ → ℤ} (h : Found inp parent) (hin : inp.Valid) :
    ShortestTree inp.outNeigh inp.source (Finset.range inp.numNodes) (parentOf parent) where
  root := by
    rcases (h inp.source hin.source).1 (.refl _) with ⟨-, hparent⟩ | ⟨u, j, -, hat, -⟩
    · exact parentOf_eq hparent
    · have := hat.unique atDist_start
      cases this
  up v hv hreach hne := by
    rcases (h v (Finset.mem_range.1 hv)).1 hreach with ⟨heq, -⟩ | ⟨u, j, hu, hat, hmem, hparent⟩
    · exact absurd heq hne
    · exact ⟨u, parentOf_eq hparent, hmem, hu.tight hat⟩
  none v hv hreach := by
    rw [parentOf, (h v (Finset.mem_range.1 hv)).2 hreach]
    rfl

section Run

variable (hin : inp.Valid)

include hin

/-- What holds of the search. -/
lemma outline : (dobfs n inp).LocalOutline (fun k s ts x => Open inp s ts x k) (fun k s ts x => Done inp s ts x k)
    (fun s _ => Found inp s.parent) (fun k s => Glob inp s k) (fun k s t => t.Ok inp k s)
    (fun k s ts => Team inp s ts k) where
  take := fun {k s ts i x} _ hok hcur hx hopen => Thread.Ok.start hcur hok hx hopen
  glob := fun {k s t x} hg hok hcur _ => (step_moves hin hg hok hcur).glob hok hg
  loc := fun {k s t x} hg hok hcur _ => (step_moves hin hg hok hcur).loc hok hg
  other := fun {k s t x u} hg hok hcur _ hd hne => (step_moves hin hg hok hcur).other hok hd hne
  keep_take := fun {k s ts i x y} _ _ _ hcur hd => hd.start hcur
  keep := fun {k s ts i x y} hg hok _ hwork hy hne hd =>
    (step_moves hin hg (hok i) hwork.cur).done hg (hok i) hwork.owner hwork.mem hy hne hd
  finish := fun {k s ts i x} hg hok _ hwork hcur =>
    (step_moves hin hg (hok i) hwork.cur).finish (hok i) hwork.owner hwork.cur hcur
  open_take := fun {k s ts i x y} hcur _ hopen => hopen.start hcur
  open_run := fun {k s ts i x y} hg hok _ hwork hne hopen =>
    (step_moves hin hg (hok i) hwork.cur).still_open hg (hok i) hne hopen
  team_take := fun {k s ts i x} _ ht hcur _ hopen => ht.start hcur hopen
  team_run := fun {k s ts i x} hg hok ht hwork =>
    (step_moves hin hg (hok i) hwork.cur).team hin hg (hok i) (fun j hj => hwork.alone hj) hwork.cur
      ((dobfs n inp).cur_step k s (ts i) x hwork.cur) ht
  next := by
    intro k s ts k' hg hok ht hcur hdone hk
    -- the loops that begin a parallel region
    have henter : ∀ {s' : State}, Enters inp n s' k' → Glob inp s' k' ∧
        (∀ i : Fin n, ((fun _ => .fresh : Fin n → Thread) i).Ok inp k' s') ∧
        Team inp s' (fun _ : Fin n => .fresh) k' ∧
        ∀ x ∈ k'.items n inp.numNodes, Open inp s' (fun _ : Fin n => .fresh) x k' :=
      fun h => ⟨h.glob, fun _ => ok_fresh k' _, h.team, h.opens⟩
    cases k with
    | init =>
      have hready := setUp_ready hin fun v hv => hdone v (Finset.mem_range.2 hv)
      cases hk
      exact henter hready.loopHead
    | topDown lo hi =>
      cases hk
      obtain ⟨hglob, hteam⟩ := topDown_enters hg ht (∑ i, (ts i).scoutCount) hdone
      refine ⟨hglob, fun i => ?_, hteam, fun _ _ => trivial⟩
      have hi' := hok i
      refine ⟨hi'.copies, hi'.calm, hi'.flushed, fun hno => absurd trivial hno, hi'.awake, ?_⟩
      show (ts i).pc.Ok inp .flushTopDown _
      rw [Pc.eq_idle (hcur i)]
      trivial
    | flushTopDown =>
      have hready := flushTopDown_ready hin hg ht hcur fun i => hdone i (Finset.mem_range.2 i.2) i.2
      cases hk
      exact henter hready.loopHead
    | toBitmap lo hi =>
      cases hk
      exact henter (toBitmap_enters hg hdone)
    | bottomUp =>
      simp only [dobfs, join] at hk ⊢
      split_ifs at hk ⊢ with hmany
      · cases hk
        exact henter (bottomUp_enters hin hg hok rfl hdone hmany)
      · cases hk
        exact henter (bottomUp_collects hin hg _ hdone)
    | toQueue =>
      cases hk
      refine ⟨hg, fun i => ?_, toQueue_team hin ht hdone, fun _ _ => trivial⟩
      have hi' := hok i
      refine ⟨hi'.copies, hi'.calm, hi'.flushed, fun hno => absurd trivial hno, hi'.awake, ?_⟩
      show (ts i).pc.Ok inp .flushToQueue _
      rw [Pc.eq_idle (hcur i)]
      trivial
    | flushToQueue =>
      have hready := flushToQueue_ready hg ht hcur fun i => hdone i (Finset.mem_range.2 i.2) i.2
      cases hk
      exact henter hready.loopHead
    | final => cases hk
  last := by
    intro k s ts hg hok ht hcur hdone hk
    cases k with
    | final =>
      intro v hv
      obtain ⟨hreach, hunreach⟩ := hg v hv
      have hge : -1 ≤ s.parent v := hdone v (Finset.mem_range.2 hv)
      refine ⟨hreach, fun hno => ?_⟩
      have hlt : s.parent v < 0 := hunreach hno
      show s.parent v = -1
      omega
    | bottomUp =>
      simp only [dobfs, join] at hk
      split_ifs at hk
    | _ => cases hk

/-- While there is a frontier the depth is below the number of vertices. -/
lemma level_lt {s : State} {k : Loop} (hg : Glob inp s k)
    (hk : k ≠ .init ∧ k ≠ .final ∧ k ≠ .toQueue ∧ k ≠ .flushToQueue) : s.level < inp.numNodes := by
  have hnonempty : ∃ v, inp.At s.level v := by
    cases k with
    | init => exact absurd rfl hk.1
    | topDown lo hi => exact hg.2.nonempty
    | flushTopDown => exact hg.2.1
    | toBitmap lo hi => exact hg.2.1.nonempty
    | bottomUp => exact hg.2.nonempty
    | toQueue => exact absurd rfl hk.2.2.1
    | flushToQueue => exact absurd rfl hk.2.2.2
    | final => exact absurd rfl hk.2.1
  obtain ⟨v, hv⟩ := hnonempty
  exact hin.depth_lt hv

/-- What is left of the search. -/
def ranking : (dobfs n inp).Ranking
    (fun k s ts => Glob inp s k ∧ (∀ i, (ts i).Ok inp k s) ∧ Team inp s ts k)
    (fun k s ts x => Done inp s ts x k) where
  outer k s := left inp s k
  cost k s x := (k.start x).rank inp s + 1
  rank _ s t := t.rank inp s
  take_lt := by
    intro k s ts i x _ _ _
    show (k.start x).rank inp s + (ts i).buffer.work <
      (k.start x).rank inp s + 1 + ((ts i).pc.rank inp s + (ts i).buffer.work)
    omega
  run_lt := fun {k s ts i x} h hwork => step_rank h.1 (h.2.1 i) hwork.cur
  run_other := by
    intro k s ts i x j h hwork _
    have hok := (h.2.1 j).pc
    refine Nat.add_le_add_right ((step_moves hin h.1 (h.2.1 i) hwork.cur).rank h.1 fun pos hpc => ?_).le _
    rw [hpc] at hok
    exact hok
  run_cost := by
    intro k s ts i x y h hwork hy _
    refine Nat.add_le_add_right ((step_moves hin h.1 (h.2.1 i) hwork.cur).rank h.1 fun pos hpc => ?_).le 1
    cases k with
    | topDown lo hi =>
      cases hpc
      exact Finset.mem_Ico.1 hy
    | _ => cases hpc
  run_outer := by
    intro k s ts i x h hwork
    have hlevel := (step_moves hin h.1 (h.2.1 i) hwork.cur).level
    show left inp (s.step inp (ts i)).1 k ≤ left inp s k
    cases k <;> simp only [left, hlevel, le_refl]
  next_lt := by
    intro k s ts k' h hcur hdone hk
    obtain ⟨hg, hok, ht⟩ := h
    -- behind the head of the loop, at a depth that has been reached
    have hhead : ∀ {s' : State}, Ready inp s' → ∀ m, 10 * (inp.numNodes - s'.level) + 7 < m → 0 < m →
        left inp (s'.loopHead inp).1 (s'.loopHead inp).2 < m := by
      intro s' hready m hm hpos
      have hdepth : ¬ s'.queue.isEmpty → s'.level < inp.numNodes := fun hempty => by
        obtain ⟨v, hv⟩ := hready.nonempty hempty
        exact hin.depth_lt hv
      rcases loopHead_left hdepth with hfinal | ⟨-, -, hle⟩
      · rw [hfinal]
        exact hpos
      · omega
    cases k with
    | init =>
      have hready := setUp_ready hin fun v hv => hdone v (Finset.mem_range.2 hv)
      cases hk
      refine hhead hready _ ?_ (Nat.succ_pos _)
      show 10 * (inp.numNodes - 0) + 7 < 10 * inp.numNodes + 20
      omega
    | topDown lo hi =>
      cases hk
      exact Nat.lt_succ_self _
    | flushTopDown =>
      have hlt := level_lt hin hg ⟨by simp, by simp, by simp, by simp⟩
      have hready := flushTopDown_ready hin hg ht hcur fun i => hdone i (Finset.mem_range.2 i.2) i.2
      cases hk
      refine hhead hready _ ?_ (Nat.succ_pos _)
      show 10 * (inp.numNodes - (s.level + 1)) + 7 < 10 * (inp.numNodes - s.level) + 4
      omega
    | toBitmap lo hi =>
      cases hk
      exact Nat.lt_succ_self _
    | bottomUp =>
      have hlt := level_lt hin hg ⟨by simp, by simp, by simp, by simp⟩
      simp only [dobfs, join] at hk ⊢
      split_ifs at hk ⊢
      · cases hk
        show 10 * (inp.numNodes - (s.level + 1)) + 6 < 10 * (inp.numNodes - s.level) + 6
        omega
      · cases hk
        show 10 * (inp.numNodes - (s.level + 1)) + 9 < 10 * (inp.numNodes - s.level) + 6
        omega
    | toQueue =>
      cases hk
      exact Nat.lt_succ_self _
    | flushToQueue =>
      have hready := flushToQueue_ready hg ht hcur fun i => hdone i (Finset.mem_range.2 i.2) i.2
      cases hk
      exact hhead hready _ (Nat.lt_succ_self _) (Nat.succ_pos _)
    | final => cases hk

end Run

/-- The runs of `DOBFS`: what the team shares is fresh memory. -/
def runs (n : ℕ) (inp : Input) : System (ForkJoin.Config n Loop ℕ State Thread) (ForkJoin.Action n ℕ) :=
  (dobfs n inp).system (fun _ ts => ∀ i, ts i = .fresh) .init

/-- In the beginning the threads know nothing and need not. -/
lemma start_ok {s : State} {ts : Fin n → Thread} (h : ∀ i, ts i = .fresh) :
    (Glob inp s .init ∧ (∀ i, (ts i).Ok inp .init s) ∧ Team inp s ts .init) ∧
      ∀ x ∈ (dobfs n inp).items .init, Open inp s ts x .init :=
  ⟨⟨trivial, fun i => by rw [h i]; exact ok_fresh .init s, trivial⟩, fun _ _ => trivial⟩

/-- Some run comes to the end. -/
lemma exists_found (hin : inp.Valid) (hn : 0 < n) (s : State) : ∃ c, (runs n inp).Reach c ∧ c.phase = none :=
  (ranking hin).exists_end (outline hin).outline (fun _ _ => start_ok) hn
    (.init ⟨s, fun _ => .fresh, fun _ => rfl, fun _ => rfl, rfl⟩)

/-- The queue has room for what is pushed. -/
lemma queue_le {c : ForkJoin.Config n Loop ℕ State Thread} (hin : inp.Valid) (hc : (runs n inp).Reach c) {k : Loop}
    (hphase : c.phase = some k) (hk : k.Queues) : c.shared.queue.sharedIn ≤ inp.numNodes := by
  cases (outline hin).outline.inv (fun _ _ => start_ok) hc with
  | loop hinv =>
    cases hphase
    exact hinv.2.2.length_le hin hinv.1 hk
  | ended => cases hphase

end Bfs

namespace Graph

/-- The vertices that `for (NodeID v : g.in_neigh(u))` runs over. -/
def inNeighbors (g : Graph) (u : ℕ) : List ℕ :=
  (((g.inNeigh u 0).collect (g.outDegree u).toNat (g.inNeigh u 0).begin).getD []).map Int.toNat

/-- What `DOBFS(g, source, alpha, beta)` reads. -/
def search (g : Graph) (source : ℕ) (alpha beta : ℤ) : Bfs.Input where
  numNodes := g.numVertices
  outNeigh := g.neighbors
  inNeigh := g.inNeighbors
  outDegree := g.outDegree
  numEdgesDirected := g.numEdgesDirected
  source
  alpha
  beta

end Graph

namespace Bfs

open Multigraph

variable {g : Graph} {adj : ℕ → List ℕ} {source : ℕ} {alpha beta : ℤ}

/-- What the loops over a vertex run over. -/
lemma mem_neighbors (h : g.Layout adj) : ∀ u ∈ Finset.range g.numVertices, ∀ v, v ∈ g.neighbors u ↔ v ∈ adj u :=
  fun _ hu _ => (h.neighbors (Finset.mem_range.1 hu)).2.1.mem_iff

/-- A graph that has the reverse of every edge is one to search. -/
lemma search_valid (h : g.Layout adj) (hids : Closed adj (Finset.range g.numVertices))
    (hsymm : Symmetric adj (Finset.range g.numVertices)) (hsource : source < g.numVertices) (halpha : alpha ≠ 0)
    (hbeta : 0 < beta) :
    (g.search source alpha beta).Valid where
  source := hsource
  closed u hu v hv :=
    Finset.mem_range.1 (hids u (Finset.mem_range.2 hu) v ((mem_neighbors h u (Finset.mem_range.2 hu) v).1 hv))
  inverse u hu v := by
    have hmem := mem_neighbors h
    have hu' : u ∈ Finset.range g.numVertices := Finset.mem_range.2 hu
    show v ∈ g.neighbors u ↔ v < g.numVertices ∧ u ∈ g.neighbors v
    constructor
    · intro hv
      have hv' := (hmem u hu' v).1 hv
      have hlt := hids u hu' v hv'
      exact ⟨Finset.mem_range.1 hlt, (hmem v hlt u).2 (hsymm u hu' v hv')⟩
    · rintro ⟨hlt, hv⟩
      have hlt' : v ∈ Finset.range g.numVertices := Finset.mem_range.2 hlt
      exact (hmem u hu' v).2 (hsymm v hlt' u ((hmem v hlt' u).1 hv))
  outDegree v hv := by
    show 0 ≤ g.outDegree v
    rw [(h.neighbors hv).2.2]
    exact Int.natCast_nonneg _
  alpha := halpha
  beta := hbeta

/-- On a graph that represents the edges `adj`, each with its reverse, `DOBFS` run by a team of threads ends in
every schedule, and then the parents are a tree of shortest paths: who follows them from a reachable vertex
walks a shortest path back to the source, and the other vertices have the parent -1. The queue never grows
beyond its array. -/
theorem dobfs_shortest_tree (h : g.Layout adj) (hids : Closed adj (Finset.range g.numVertices))
    (hsymm : Symmetric adj (Finset.range g.numVertices)) (hsource : source < g.numVertices) (halpha : alpha ≠ 0)
    (hbeta : 0 < beta) {numThreads : ℕ} (hthreads : 0 < numThreads) {c : ForkJoin.Config numThreads Loop ℕ State Thread}
    (hc : (runs numThreads (g.search source alpha beta)).Reach c) :
    Acc (fun c' c => ∃ a, (runs numThreads (g.search source alpha beta)).step c a c') c ∧
      (c.phase ≠ none → ∃ a c', (runs numThreads (g.search source alpha beta)).step c a c') ∧
      (∀ k, c.phase = some k → k.Queues → c.shared.queue.sharedIn ≤ g.numVertices) ∧
      (c.phase = none →
        ShortestTree adj source (Finset.range g.numVertices) (parentOf c.shared.parent) ∧
        (∀ v < g.numVertices, Reachable adj source v →
          ∃ p ∈ shortestPaths adj source v, Follows (parentOf c.shared.parent) p v) ∧
        ∀ v < g.numVertices, ¬ Reachable adj source v → c.shared.parent v = -1) := by
  have hin : (g.search source alpha beta).Valid := search_valid h hids hsymm hsource halpha hbeta
  have hmem := mem_neighbors h
  have hs : source ∈ Finset.range g.numVertices := Finset.mem_range.2 hsource
  have hclosed : Closed g.neighbors (Finset.range g.numVertices) := hin.closed_range
  refine ⟨(ranking hin).acc (outline hin).outline (fun _ _ => start_ok) hc,
    fun hphase => ForkJoin.exists_step hthreads hphase, fun k hphase hk => queue_le hin hc hphase hk, fun hend => ?_⟩
  have hfound : Found (g.search source alpha beta) c.shared.parent :=
    (outline hin).outline.post (fun _ _ => start_ok) hc hend
  have htree : ShortestTree adj source (Finset.range g.numVertices) (parentOf c.shared.parent) :=
    (hfound.tree hin).congr hclosed hs hmem
  refine ⟨htree, fun v _ hv => htree.exists_path hids hs hv, fun v hv hreach => ?_⟩
  refine (hfound v hv).2 fun hreach' => hreach ?_
  exact (reachable_congr hclosed hs hmem).1 hreach'

/-- Two threads on two vertices with an edge each way: the other vertex gets the source as its parent. -/
theorem dobfs_shortest_tree_two : ∃ g c, Graph.Run ⟨fun _ => 7, fun _ => .zero⟩ true 0 2 [(0, 1)] [(1, 0)] g ∧
    (runs 2 (g.search 0 15 18)).Reach c ∧ c.phase = none ∧ parentOf c.shared.parent 1 = some 0 := by
  obtain ⟨g, hg⟩ : ∃ g, Graph.Run ⟨fun _ => 7, fun _ => .zero⟩ true 0 2 [(0, 1)] [(1, 0)] g :=
    Graph.Run.exists_of_bound _ _ _ (by decide) (by decide) (by decide) (by decide) (by decide)
  have hn : g.numVertices = 2 := by
    rw [hg.numVertices]
    decide
  have hids : Closed (ofEdges ([(0, 1)] ++ [(1, 0)])) (Finset.range g.numVertices) := by
    rw [hn, Closed]
    decide
  have hsymm : Symmetric (ofEdges ([(0, 1)] ++ [(1, 0)])) (Finset.range g.numVertices) := by
    rw [hn, Multigraph.Symmetric]
    decide
  have hsource : 0 < g.numVertices := by omega
  have halpha : (15 : ℤ) ≠ 0 := by decide
  have hbeta : (0 : ℤ) < 18 := by decide
  obtain ⟨c, hc, hend⟩ := exists_found (n := 2) (search_valid hg.layout hids hsymm hsource halpha hbeta) (by decide)
    ⟨fun _ => 7, ⟨fun _ => 7, 7, 7, 7⟩, .reset, .reset, 0, 0, 0, 0, []⟩
  have htree := ((dobfs_shortest_tree hg.layout hids hsymm hsource halpha hbeta (by decide) hc).2.2.2
    hend).1
  have hedge : Reachable (ofEdges ([(0, 1)] ++ [(1, 0)])) 0 1 := (Reachable.refl 0).edge (by decide)
  obtain ⟨u, hu, hmem, -⟩ := htree.up 1 (Finset.mem_range.2 (by omega)) hedge (by decide)
  have hzero : ∀ u, 1 ∈ ofEdges ([(0, 1)] ++ [(1, 0)]) u → u = 0 := by
    intro u hu
    simpa [ofEdges, eq_comm] using hu
  exact ⟨g, c, hg, hc, hend, hzero u hmem ▸ hu⟩

end Bfs

end Dgap
