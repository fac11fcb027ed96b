import Dgap.Preprocess.Split

/-!
# Converting an adjacency graph

`adj_to_el_converter.cc`: a file in the adjacency format has a header, the numbers of vertices and edges,
the offset of each vertex and the targets. The numbers are read by `stoi`, which throws for a number that
an `int` cannot hold, into an array of 64-bit offsets, and `num_vertices + 3` is computed in an `int`. The
rest is what `split_dataset.cc` does (`dataset_partition`).
-/

namespace Dgap

namespace Preprocess

open Machine

/-- An adjacency graph: the offset of each vertex among the targets, and the targets. -/
structure AdjGraph where
  offsets : List ℕ
  targets : List ℕ

namespace AdjGraph

variable (g : AdjGraph)

/-- The offsets begin with 0 and do not decrease or leave the targets, and the targets are vertices. -/
structure WellFormed : Prop where
  first : g.offsets[0]? = some 0
  sorted : g.offsets.Pairwise (· ≤ ·)
  inside : ∀ o ∈ g.offsets, o ≤ g.targets.length
  ids : ∀ t ∈ g.targets, t < g.offsets.length

/-- The numbers of the file behind its header. -/
def tokens : List ℕ := g.offsets.length :: g.targets.length :: (g.offsets ++ g.targets)

/-- Where the targets of a vertex begin. -/
def start (u : ℕ) : ℕ := g.offsets.getD u g.targets.length

/-- The edges of a vertex. -/
def row (u : ℕ) : List (ℕ × ℕ) :=
  ((g.targets.drop (g.start u)).take (g.start (u + 1) - g.start u)).map (u, ·)

/-- The edges of the graph. -/
def edges : List (ℕ × ℕ) := (List.range' 0 g.offsets.length).flatMap g.row

end AdjGraph

/-- `stoi`: a number that an `int` cannot hold is an exception. -/
def stoi (x : ℕ) : Option ℕ := if x < 2 ^ 31 then some x else none

/-- The state of the loop over the file: the number of the word, and the arrays as far as they are
filled. -/
structure Reading where
  line : ℕ
  numVertices : ℕ
  numEdges : ℕ
  offsets : List ℕ
  rawEdges : List ℕ
  deriving DecidableEq

/-- A word behind the header; a write behind the end of an array is `none`. -/
def readToken (s : Reading) (x : ℕ) : Option Reading :=
  if s.line = 1 then (stoi x).map fun v => { s with line := s.line + 1, numVertices := v }
  else if s.line = 2 then some { s with line := s.line + 1, numEdges := x }
  else (stoi x).bind fun v =>
    if (s.line : ℤ) < signed 32 ((s.numVertices + 3 : ℕ) : ℤ) then
      if s.offsets.length < s.numVertices then
        some { s with line := s.line + 1, offsets := s.offsets ++ [v] }
      else none
    else if s.rawEdges.length < s.numEdges then
      some { s with line := s.line + 1, rawEdges := s.rawEdges ++ [v] }
    else none

/-- The pairs of `k` targets of vertex `u` from the `i`-th on. -/
def pairLoop (rawEdges : List ℕ) (u : ℕ) : ℕ → ℕ → List (ℕ × ℕ) → Option (List (ℕ × ℕ))
  | 0, _, edgeList => some edgeList
  | k + 1, i, edgeList =>
    rawEdges[i]?.bind fun v => pairLoop rawEdges u k (i + 1) (edgeList ++ [(u, v), (v, u)])

/-- The loop over `k` vertices from `u` on. -/
def vertexLoop (s : Reading) : ℕ → ℕ → List (ℕ × ℕ) → Option (List (ℕ × ℕ))
  | 0, _, edgeList => some edgeList
  | k + 1, u, edgeList =>
    s.offsets[u]?.bind fun st =>
      (if u + 1 = s.numVertices then some s.numEdges else s.offsets[u + 1]?).bind fun nd =>
        (pairLoop s.rawEdges u (nd - st) st edgeList).bind (vertexLoop s k (u + 1))

/-- `adj_to_el_converter`, from the words behind the header. -/
def convert (shuffle : List (ℕ × ℕ) → List (ℕ × ℕ)) (words : List ℕ) : Option Output :=
  (words.foldlM readToken ⟨1, 0, 0, [], []⟩).bind fun s =>
    (vertexLoop s s.numVertices 0 []).bind (writeOut shuffle (s.numEdges * 2))

variable {s s' : Reading} {words : List ℕ}

/-- A word that is an offset. -/
lemma readToken_offset {x : ℕ} (hline : 3 ≤ s.line)
    (hlimit : (s.line : ℤ) < signed 32 ((s.numVertices + 3 : ℕ) : ℤ)) :
    readToken s x = (stoi x).bind fun v =>
      if s.offsets.length < s.numVertices then
        some { s with line := s.line + 1, offsets := s.offsets ++ [v] }
      else none := by
  rw [readToken, if_neg (by omega), if_neg (by omega)]
  simp only [if_pos hlimit]

/-- A word that is a target. -/
lemma readToken_target {x : ℕ} (hline : 3 ≤ s.line)
    (hlimit : signed 32 ((s.numVertices + 3 : ℕ) : ℤ) ≤ s.line) :
    readToken s x = (stoi x).bind fun v =>
      if s.rawEdges.length < s.numEdges then
        some { s with line := s.line + 1, rawEdges := s.rawEdges ++ [v] }
      else none := by
  rw [readToken, if_neg (by omega), if_neg (by omega)]
  simp only [if_neg (not_lt.2 hlimit)]

/-- Words that are offsets. -/
lemma foldlM_offsets (hfit : s.numVertices + 3 < 2 ^ 31) (hline : s.line = s.offsets.length + 3)
    (hlen : s.offsets.length + words.length ≤ s.numVertices) (hwords : ∀ x ∈ words, x < 2 ^ 31) :
    words.foldlM readToken s =
      some { s with line := s.line + words.length, offsets := s.offsets ++ words } := by
  induction words generalizing s with
  | nil => simp
  | cons x words ih =>
    rw [List.length_cons] at hlen
    have hlimit : (s.line : ℤ) < signed 32 ((s.numVertices + 3 : ℕ) : ℤ) := by
      rw [signed_keep (by norm_num) hfit]
      omega
    rw [List.foldlM_cons, readToken_offset (by omega) hlimit, stoi, if_pos (hwords x List.mem_cons_self),
      Option.bind_some, if_pos (by omega), Option.bind_eq_bind, Option.bind_some]
    refine Eq.trans (ih ?_ ?_ ?_ fun y hy => hwords y (List.mem_cons_of_mem x hy)) ?_
    · exact hfit
    · simp [hline]
    · simp only [List.length_append, List.length_singleton]
      omega
    · simp [Nat.add_assoc, Nat.add_comm 1]

/-- Words that are targets. -/
lemma foldlM_targets (hfit : s.numVertices + 3 < 2 ^ 31) (hline : s.numVertices + 3 ≤ s.line)
    (hlen : s.rawEdges.length + words.length ≤ s.numEdges) (hwords : ∀ x ∈ words, x < 2 ^ 31) :
    words.foldlM readToken s =
      some { s with line := s.line + words.length, rawEdges := s.rawEdges ++ words } := by
  induction words generalizing s with
  | nil => simp
  | cons x words ih =>
    rw [List.length_cons] at hlen
    have hlimit : signed 32 ((s.numVertices + 3 : ℕ) : ℤ) ≤ s.line := by
      rw [signed_keep (by norm_num) hfit]
      omega
    rw [List.foldlM_cons, readToken_target (by omega) hlimit, stoi, if_pos (hwords x List.mem_cons_self),
      Option.bind_some, if_pos (by omega), Option.bind_eq_bind, Option.bind_some]
    refine Eq.trans (ih ?_ ?_ ?_ fun y hy => hwords y (List.mem_cons_of_mem x hy)) ?_
    · exact hfit
    · exact Nat.le_succ_of_le hline
    · simp only [List.length_append, List.length_singleton]
      omega
    · simp [Nat.add_assoc, Nat.add_comm 1]

/-- Words that could be read are numbers of an `int`; where the offsets are over at once, all of them are
targets. -/
lemma foldlM_read (h : words.foldlM readToken s = some s') (hline : 3 ≤ s.line)
    (hraw : s.rawEdges.length ≤ s.numEdges) :
    (∀ x ∈ words, x < 2 ^ 31) ∧ (signed 32 ((s.numVertices + 3 : ℕ) : ℤ) ≤ s.line →
      s.rawEdges.length + words.length ≤ s.numEdges) := by
  induction words generalizing s with
  | nil => exact ⟨fun x hx => (nomatch hx), fun _ => hraw⟩
  | cons x words ih =>
    obtain ⟨s1, h1, h⟩ := Option.bind_eq_some_iff.1 h
    have hstoi : ∀ {v}, stoi x = some v → x < 2 ^ 31 := fun hv => by
      unfold stoi at hv
      split at hv
      · assumption
      · cases hv
    have hcons : x < 2 ^ 31 → (∀ y ∈ words, y < 2 ^ 31) → ∀ y ∈ x :: words, y < 2 ^ 31 := fun hx hw y hy => by
      rcases List.mem_cons.1 hy with rfl | hy
      · exact hx
      · exact hw y hy
    rcases lt_or_ge (s.line : ℤ) (signed 32 ((s.numVertices + 3 : ℕ) : ℤ)) with hlimit | hlimit
    · rw [readToken_offset hline hlimit] at h1
      obtain ⟨v, hv, h1⟩ := Option.bind_eq_some_iff.1 h1
      split at h1
      case isTrue =>
        obtain rfl := Option.some.inj h1
        obtain ⟨hw, -⟩ := ih h (Nat.le_succ_of_le hline) hraw
        exact ⟨hcons (hstoi hv) hw, fun hle => absurd hle (not_le.2 hlimit)⟩
      case isFalse => cases h1
    · rw [readToken_target hline hlimit] at h1
      obtain ⟨v, hv, h1⟩ := Option.bind_eq_some_iff.1 h1
      split at h1
      case isTrue hroom =>
        obtain rfl := Option.some.inj h1
        obtain ⟨hw, hlen⟩ := ih h (Nat.le_succ_of_le hline) (by
          simp only [List.length_append, List.length_singleton]
          omega)
        refine ⟨hcons (hstoi hv) hw, fun hle => ?_⟩
        have := hlen (hle.trans (by push_cast; omega))
        simp only [List.length_append, List.length_singleton] at this
        rw [List.length_cons]
        omega
      case isFalse => cases h1

/-- The pairs of a run of targets. -/
lemma pairLoop_eq {rawEdges : List ℕ} {u k i : ℕ} (h : i + k ≤ rawEdges.length)
    (edgeList : List (ℕ × ℕ)) : pairLoop rawEdges u k i edgeList =
      some (edgeList ++ bothDirections (((rawEdges.drop i).take k).map (u, ·))) := by
  induction k generalizing i edgeList with
  | zero => simp [pairLoop, bothDirections]
  | succ k ih =>
    have hi : i < rawEdges.length := by omega
    rw [pairLoop, List.getElem?_eq_getElem hi, Option.bind_some, ih (by omega), List.drop_eq_getElem_cons hi,
      List.take_succ_cons, List.map_cons, List.append_assoc]
    rfl

namespace AdjGraph

variable {g : AdjGraph}

/-- Behind the last vertex the targets end. -/
lemma start_length : g.start g.offsets.length = g.targets.length := by
  rw [start, List.getD_eq_getElem?_getD, List.getElem?_eq_none (le_refl _), Option.getD_none]

/-- Where the targets of a vertex begin is its offset. -/
lemma offsets_getElem? {u : ℕ} (hu : u < g.offsets.length) : g.offsets[u]? = some (g.start u) := by
  rw [start, List.getD_eq_getElem?_getD, List.getElem?_eq_getElem hu, Option.getD_some]

namespace WellFormed

variable (h : g.WellFormed)

include h

/-- The rows lie behind one another. -/
lemma start_mono {u : ℕ} (hu : u < g.offsets.length) :
    g.start u ≤ g.start (u + 1) ∧ g.start (u + 1) ≤ g.targets.length := by
  have hmem : ∀ {v}, v < g.offsets.length → g.start v ∈ g.offsets := fun hv =>
    List.mem_of_getElem? (offsets_getElem? hv)
  rcases Nat.lt_or_ge (u + 1) g.offsets.length with hlt | hge
  · have h1 := List.getElem?_eq_some_iff.1 (offsets_getElem? hu)
    have h2 := List.getElem?_eq_some_iff.1 (offsets_getElem? hlt)
    refine ⟨?_, h.inside _ (hmem hlt)⟩
    rw [← h1.2, ← h2.2]
    exact List.pairwise_iff_getElem.1 h.sorted u (u + 1) hu hlt (Nat.lt_succ_self u)
  · rw [show u + 1 = g.offsets.length by omega, start_length]
    exact ⟨h.inside _ (hmem hu), le_refl _⟩

/-- The length of a row. -/
lemma length_row {u : ℕ} (hu : u < g.offsets.length) :
    (g.row u).length = g.start (u + 1) - g.start u := by
  have := h.start_mono hu
  rw [row, List.length_map, List.length_take, List.length_drop]
  omega

/-- There are as many edges as targets. -/
lemma length_edges : g.edges.length = g.targets.length := by
  have hrows : ∀ k ≤ g.offsets.length,
      ((List.range' 0 k).flatMap g.row).length = g.start k := by
    intro k
    induction k with
    | zero =>
      intro _
      rw [start, List.getD_eq_getElem?_getD, h.first]
      rfl
    | succ k ih =>
      intro hk
      have := h.start_mono hk
      rw [List.range'_concat, List.flatMap_append, List.length_append, ih (by omega)]
      simp only [Nat.zero_add, Nat.one_mul, List.flatMap_singleton, h.length_row hk]
      omega
  rw [edges, hrows _ (le_refl _), start_length]

/-- The loop over the vertices lists both directions of the edges. -/
lemma vertexLoop_eq (hs : s.numVertices = g.offsets.length ∧ s.numEdges = g.targets.length ∧
    s.offsets = g.offsets ∧ s.rawEdges = g.targets) {k u : ℕ} (hk : u + k = g.offsets.length)
    (edgeList : List (ℕ × ℕ)) :
    vertexLoop s k u edgeList =
      some (edgeList ++ bothDirections ((List.range' u k).flatMap g.row)) := by
  obtain ⟨h1, h2, h3, h4⟩ := hs
  induction k generalizing u edgeList with
  | zero => simp [vertexLoop, bothDirections]
  | succ k ih =>
    have hu : u < g.offsets.length := by omega
    have hmono := h.start_mono hu
    have hnd : (if u + 1 = s.numVertices then some s.numEdges else s.offsets[u + 1]?) =
        some (g.start (u + 1)) := by
      rw [h1, h2, h3]
      split
      case isTrue he => rw [he, start_length]
      case isFalse he => exact offsets_getElem? (by omega)
    rw [vertexLoop, h3, offsets_getElem? hu, Option.bind_some, ← h3, hnd, Option.bind_some, h4,
      pairLoop_eq (by omega), Option.bind_some, ih (by omega), List.range'_succ, List.flatMap_cons,
      List.append_assoc, ← row]
    congr 2
    rw [bothDirections, bothDirections, bothDirections, List.flatMap_append]

/-- The ids are vertices. -/
lemma edges_lt {e : ℕ × ℕ} (he : e ∈ g.edges) : e.1 < g.offsets.length ∧ e.2 < g.offsets.length := by
  obtain ⟨u, hu, hrow⟩ := List.mem_flatMap.1 he
  obtain ⟨t, ht, rfl⟩ := List.mem_map.1 hrow
  refine ⟨?_, h.ids t (List.mem_of_mem_drop (List.mem_of_mem_take ht))⟩
  simpa using hu

/-- A file that the converter can read. -/
lemma foldlM_tokens (hfit : g.offsets.length + 3 < 2 ^ 31) (hoffsets : ∀ o ∈ g.offsets, o < 2 ^ 31) :
    ∃ line, g.tokens.foldlM readToken ⟨1, 0, 0, [], []⟩ =
      some ⟨line, g.offsets.length, g.targets.length, g.offsets, g.targets⟩ := by
  have hfirst : readToken ⟨1, 0, 0, [], []⟩ g.offsets.length = some ⟨2, g.offsets.length, 0, [], []⟩ := by
    rw [readToken, if_pos rfl, stoi, if_pos (by omega)]
    rfl
  have hsecond : readToken ⟨2, g.offsets.length, 0, [], []⟩ g.targets.length =
      some ⟨3, g.offsets.length, g.targets.length, [], []⟩ := rfl
  have hthird := foldlM_offsets (s := ⟨3, g.offsets.length, g.targets.length, [], []⟩) hfit rfl
    (by simp) hoffsets
  refine ⟨3 + g.offsets.length + g.targets.length, ?_⟩
  rw [tokens, List.foldlM_cons, hfirst, Option.bind_eq_bind, Option.bind_some, List.foldlM_cons, hsecond,
    Option.bind_eq_bind, Option.bind_some, List.foldlM_append, hthird, Option.bind_eq_bind, Option.bind_some]
  refine Eq.trans (foldlM_targets ?_ ?_ ?_ fun t ht => ?_) ?_
  · exact hfit
  · simp only
    omega
  · simp
  · have := h.ids t ht
    omega
  · simp

omit h in
/-- A file that the converter has read. -/
lemma of_foldlM_tokens (hread : g.tokens.foldlM readToken ⟨1, 0, 0, [], []⟩ = some s)
    (hne : g.offsets ≠ []) : g.offsets.length + 3 < 2 ^ 31 ∧ ∀ o ∈ g.offsets, o < 2 ^ 31 := by
  rw [tokens] at hread
  obtain ⟨s1, h1, hread⟩ := Option.bind_eq_some_iff.1 hread
  obtain ⟨s2, h2, hread⟩ := Option.bind_eq_some_iff.1 hread
  rw [readToken, if_pos rfl, stoi] at h1
  split at h1
  case isFalse => cases h1
  case isTrue hn =>
    obtain rfl := Option.some.inj h1
    rw [readToken, if_neg (show ¬ 2 = 1 by decide), if_pos rfl] at h2
    obtain rfl := Option.some.inj h2
    obtain ⟨hwords, hlen⟩ := foldlM_read hread (le_refl 3) (Nat.zero_le _)
    refine ⟨?_, fun o ho => hwords o (List.mem_append_left _ ho)⟩
    by_contra hge
    have hpos : 0 < g.offsets.length := List.length_pos_iff.2 hne
    -- the limit is negative, so the offsets are taken for targets
    have hlimit : signed 32 ((g.offsets.length + 3 : ℕ) : ℤ) ≤ (3 : ℕ) := by
      rw [signed_of_upper (by norm_num) (by norm_num; omega) (by norm_num; omega)]
      norm_num
      omega
    have := hlen hlimit
    simp only [List.length_nil, List.length_append] at this
    omega

end WellFormed

end AdjGraph

variable {shuffle : List (ℕ × ℕ) → List (ℕ × ℕ)}

/-- The converter writes a partition exactly if it can read the file and what it writes can be taken in. -/
lemma convert_iff (hshuffle : ∀ l, (shuffle l).Perm l) {g : AdjGraph} (h : g.WellFormed)
    (hne : g.targets ≠ []) :
    (∃ out, convert shuffle g.tokens = some out ∧ Partition g.edges out) ↔
      g.offsets.length + 3 < 2 ^ 31 ∧ (∀ o ∈ g.offsets, o < 2 ^ 31) ∧
        (findMaxNodeID g.edges + 1 ≤ 31 * 2 ^ 26 ∨ ∃ a, ∀ e ∈ g.edges, e = (a, a)) := by
  have hedges : g.edges ≠ [] := by
    rw [← List.length_pos_iff, h.length_edges]
    exact List.length_pos_iff.2 hne
  -- a file that can be read has the edges of the graph
  have hread : g.offsets.length + 3 < 2 ^ 31 → (∀ o ∈ g.offsets, o < 2 ^ 31) →
      convert shuffle g.tokens = writeOut shuffle (g.edges.length * 2) (bothDirections g.edges) := by
    intro hfit hoffsets
    obtain ⟨line, hread⟩ := h.foldlM_tokens hfit hoffsets
    rw [convert, hread, Option.bind_some, h.vertexLoop_eq ⟨rfl, rfl, rfl, rfl⟩ (Nat.zero_add _),
      Option.bind_some, List.nil_append, ← AdjGraph.edges, ← h.length_edges]
  have hids : g.offsets.length + 3 < 2 ^ 31 → ∀ e ∈ g.edges, e.1 < 2 ^ 31 ∧ e.2 < 2 ^ 31 := fun hfit e he => by
    have := h.edges_lt he
    omega
  constructor
  · rintro ⟨out, hout, hpart⟩
    obtain ⟨s, hs, -⟩ := Option.bind_eq_some_iff.1 hout
    obtain ⟨hfit, hoffsets⟩ := AdjGraph.WellFormed.of_foldlM_tokens hs fun hnil => by
      have := h.first
      rw [hnil] at this
      cases this
    rw [hread hfit hoffsets] at hout
    exact ⟨hfit, hoffsets, (writeOut_iff hshuffle hedges (hids hfit)).1 ⟨out, hout, hpart⟩⟩
  · rintro ⟨hfit, hoffsets, hmax⟩
    rw [hread hfit hoffsets]
    exact (writeOut_iff hshuffle hedges (hids hfit)).2 hmax

/-- The files that the two tools write for an input are a partition of its pairs that the graphs can take in,
exactly if the table of DGAP can have all vertices up to the largest id, or nothing is left for the dynamic graph,
and, for `adj_to_el_converter`, if the offsets and the number of vertices can be read. -/
theorem dataset_partition (hshuffle : ∀ l, (shuffle l).Perm l) :
    (∀ input : List (ℕ × ℕ), input ≠ [] → (∀ e ∈ input, e.1 < 2 ^ 31 ∧ e.2 < 2 ^ 31) →
      ((∃ out, splitDataset shuffle input.length input = some out ∧ Partition input out) ↔
        findMaxNodeID input + 1 ≤ 31 * 2 ^ 26 ∨ ∃ a, ∀ e ∈ input, e = (a, a))) ∧
    ∀ g : AdjGraph, g.WellFormed → g.targets ≠ [] →
      ((∃ out, convert shuffle g.tokens = some out ∧ Partition g.edges out) ↔
        g.offsets.length + 3 < 2 ^ 31 ∧ (∀ o ∈ g.offsets, o < 2 ^ 31) ∧
          (findMaxNodeID g.edges + 1 ≤ 31 * 2 ^ 26 ∨ ∃ a, ∀ e ∈ g.edges, e = (a, a))) :=
  ⟨fun _ hne hids => writeOut_iff hshuffle hne hids, fun _ h hne => convert_iff hshuffle h hne⟩

/-- A path of two edges, and the same path in the adjacency format; the shuffle reverses. -/
theorem dataset_partition_two :
    (∃ out, splitDataset List.reverse 2 [(0, 1), (1, 2)] = some out ∧ Partition [(0, 1), (1, 2)] out) ∧
    ∃ out, convert List.reverse [3, 2, 0, 1, 2, 1, 2] = some out ∧
      Partition (AdjGraph.edges ⟨[0, 1, 2], [1, 2]⟩) out := by
  obtain ⟨hsplit, hconvert⟩ := dataset_partition List.reverse_perm
  refine ⟨(hsplit [(0, 1), (1, 2)] (List.cons_ne_nil _ _) (by decide)).2 (.inl (by decide)), ?_⟩
  exact (hconvert ⟨[0, 1, 2], [1, 2]⟩ ⟨rfl, by decide, by decide, by decide⟩ (List.cons_ne_nil _ _)).2
    ⟨by decide, by decide, .inl (by decide)⟩

/-- An adjacency graph of two vertices with `2 ^ 31` edges, all of the first one, is not converted; and an
edge to the last but one `int32_t` leaves a base graph for which DGAP has a negative number of vertices. -/
theorem dataset_partition_fails : ∃ g : AdjGraph, g.WellFormed ∧ g.targets ≠ [] ∧
    g.offsets = [0, 2 ^ 31] ∧ (∀ shuffle, convert shuffle g.tokens = none) ∧
    (∀ shuffle, ¬ ∃ out, convert shuffle g.tokens = some out ∧ Partition g.edges out) ∧
    (∀ base, findMaxNodeID base = 2 ^ 31 - 2 → ∀ symmetrize size, tableSize symmetrize base = some size → size < 0) ∧
    ¬ ∃ out, splitDataset id 1 [(0, 2 ^ 31 - 2)] = some out ∧ Partition [(0, 2 ^ 31 - 2)] out := by
  obtain ⟨targets, htargets⟩ : ∃ targets, targets = List.replicate (2 ^ 31) 0 := ⟨_, rfl⟩
  have hlen : targets.length = 2 ^ 31 := by rw [htargets, List.length_replicate]
  have hnone : ∀ shuffle, convert shuffle (AdjGraph.tokens ⟨[0, 2 ^ 31], targets⟩) = none := by
    intro shuffle
    rw [Option.eq_none_iff_forall_ne_some]
    intro out hout
    obtain ⟨s, hs, -⟩ := Option.bind_eq_some_iff.1 hout
    have := (AdjGraph.WellFormed.of_foldlM_tokens hs (List.cons_ne_nil _ _)).2 (2 ^ 31) (by simp)
    exact lt_irrefl _ this
  refine ⟨⟨[0, 2 ^ 31], targets⟩, ⟨rfl, by simp, fun o ho => ?_, fun t ht => ?_⟩, ?_, rfl, hnone, ?_,
    fun base hbase symmetrize size h => ?_, ?_⟩
  · rw [hlen]
    rcases List.mem_cons.1 ho with rfl | ho
    · exact Nat.zero_le _
    · exact (List.mem_singleton.1 ho).le
  · rw [htargets] at ht
    rw [List.eq_of_mem_replicate ht]
    exact Nat.succ_pos 1
  · rw [← List.length_pos_iff, hlen]
    norm_num
  · rintro shuffle ⟨out, hout, -⟩
    rw [hnone] at hout
    cases hout
  · exact tableSize_neg (by rw [hbase]; norm_num) (by rw [hbase]; norm_num) h
  · intro hex
    have hids : ∀ e ∈ [((0 : ℕ), (2 : ℕ) ^ 31 - 2)], e.1 < 2 ^ 31 ∧ e.2 < 2 ^ 31 := fun e he => by
      rw [List.mem_singleton.1 he]
      norm_num
    rcases (@writeOut_iff _ id List.Perm.refl (List.cons_ne_nil _ _) hids).1 hex with hlt | ⟨a, ha⟩
    · norm_num [findMaxNodeID] at hlt
    · have := ha _ (List.mem_singleton_self _)
      rw [Prod.mk.injEq] at this
      omega

end Preprocess

end Dgap
