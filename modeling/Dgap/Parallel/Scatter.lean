import Dgap.Adjacency.Multigraph
import Dgap.Memory.Slice
import Dgap.System.Reach

/-!
# Scattering by shared cursors

Every item has a key and a value. It takes the cell at the cursor of its key and advances the cursor, in
one step, and stores its value in that cell, in another one; the steps of all items are interleaved in any
way. If the cursors start where a counting sort puts them, every cell is written once and each key ends
up with its values side by side (`runs_sort`).
-/

namespace Scatter

variable {δ : Type*}

/-- The cursors, the cells, the items that have not taken a cell yet, the cells that are taken and not yet
written, and the cells that have been written, in that order. -/
structure Config (δ : Type*) where
  cursor : ℕ → ℤ
  cells : ℤ → δ
  todo : Multiset (ℕ × δ)
  pending : Multiset (ℤ × δ)
  written : List ℤ

/-- A step of one of the items. -/
inductive Step : Config δ → Config δ → Prop where
  | fetch {c e rest} : c.todo = e ::ₘ rest → Step c
      { c with
        cursor := Function.update c.cursor e.1 (c.cursor e.1 + 1)
        todo := rest
        pending := (c.cursor e.1, e.2) ::ₘ c.pending }
  | store {c p rest} : c.pending = p ::ₘ rest → Step c
      { c with
        cells := Function.update c.cells p.1 p.2
        pending := rest
        written := c.written ++ [p.1] }

/-- The runs over the items of a list. -/
def runs (cursor : ℕ → ℤ) (cells : ℤ → δ) (items : List (ℕ × δ)) : System (Config δ) Unit where
  init c := c = ⟨cursor, cells, items, 0, []⟩
  step c _ c' := Step c c'

variable {n : ℕ} {start : ℕ → ℕ} {items done : List (ℕ × δ)} {c c' : Config δ}

/-- The cells of the first `k` keys of which key `u` has taken `len u`. -/
def cellsOf (start len : ℕ → ℕ) (k : ℕ) : Multiset ℤ :=
  ∑ u ∈ Finset.range k, (Multiset.range (len u)).map fun j => ((start u + j : ℕ) : ℤ)

/-- A cell of a key. -/
lemma mem_cellsOf {len : ℕ → ℕ} {k : ℕ} {x : ℤ} :
    x ∈ cellsOf start len k ↔ ∃ u < k, ∃ j < len u, x = ((start u + j : ℕ) : ℤ) := by
  simp only [cellsOf, Multiset.mem_sum, Finset.mem_range, Multiset.mem_map, Multiset.mem_range, eq_comm]

/-- A key that has taken more cells. -/
lemma cellsOf_mono {len len' : ℕ → ℕ} (h : ∀ u, len u ≤ len' u) (k : ℕ) :
    cellsOf start len k ≤ cellsOf start len' k :=
  Finset.sum_le_sum fun u _ => Multiset.map_le_map (Multiset.range_le.2 (h u))

/-- Keys whose cells lie behind one another have all cells up to the last one. -/
lemma cellsOf_eq {len : ℕ → ℕ} (h0 : start 0 = 0) (hstart : ∀ u < n, start (u + 1) = start u + len u)
    {k : ℕ} (hk : k ≤ n) : cellsOf start len k = (Multiset.range (start k)).map (↑) := by
  induction k with
  | zero => rw [h0, Multiset.range_zero, Multiset.map_zero, cellsOf, Finset.sum_range_zero]
  | succ k ih =>
    rw [cellsOf, Finset.sum_range_succ, ← cellsOf, ih (by omega), hstart k (by omega), Multiset.range_add,
      Multiset.map_add, Multiset.map_map]
    rfl

/-- A key takes its next cell. -/
lemma cellsOf_update {len : ℕ → ℕ} {k u : ℕ} (hu : u < k) :
    cellsOf start (Function.update len u (len u + 1)) k =
      ((start u + len u : ℕ) : ℤ) ::ₘ cellsOf start len k := by
  have hmem : u ∈ Finset.range k := Finset.mem_range.2 hu
  rw [cellsOf, cellsOf, ← Finset.add_sum_erase _ _ hmem, ← Finset.add_sum_erase _ _ hmem,
    Function.update_self, Multiset.range_succ, Multiset.map_cons, Multiset.cons_add]
  congr 2
  refine Finset.sum_congr rfl fun v hv => ?_
  rw [Function.update_of_ne (Finset.ne_of_mem_erase hv)]

/-- How many items of each key have taken a cell. -/
def taken (done : List (ℕ × δ)) (u : ℕ) : ℕ := (Multigraph.ofEdges done u).length

/-- One more item. -/
lemma taken_concat (done : List (ℕ × δ)) (e : ℕ × δ) :
    taken (done ++ [e]) = Function.update (taken done) e.1 (taken done e.1 + 1) := by
  funext u
  by_cases hu : u = e.1
  · rw [hu, Function.update_self, taken, taken, Multigraph.ofEdges_concat, Multigraph.insert_self,
      List.length_append, List.length_singleton]
  · rw [Function.update_of_ne hu, taken, taken, Multigraph.ofEdges_concat, Multigraph.insert_of_ne hu]

/-- What holds in every state, if the items `done` have taken their cells in this order. -/
structure Inv (n : ℕ) (start : ℕ → ℕ) (items : List (ℕ × δ)) (c : Config δ) (done : List (ℕ × δ)) :
    Prop where
  count : (done : Multiset (ℕ × δ)) + c.todo = items
  cursor : ∀ u ≤ n, c.cursor u = ((start u + taken done u : ℕ) : ℤ)
  cells : (c.pending.map Prod.fst + c.written : Multiset ℤ) = cellsOf start (taken done) n
  pending : ∀ p ∈ c.pending, ∃ u j, p.1 = ((start u + j : ℕ) : ℤ) ∧
    (Multigraph.ofEdges done u)[j]? = some p.2
  written : ∀ x ∈ c.written, ∃ u j, x = ((start u + j : ℕ) : ℤ) ∧
    (Multigraph.ofEdges done u)[j]? = some (c.cells x)

/-- The items before the first step. -/
lemma Inv.init {cursor : ℕ → ℤ} (hcursor : ∀ u ≤ n, cursor u = start u) (cells : ℤ → δ) :
    Inv n start items ⟨cursor, cells, items, 0, []⟩ [] := by
  refine ⟨zero_add _, hcursor, ?_, fun p hp => absurd hp (Multiset.notMem_zero p), fun x hx => (nomatch hx)⟩
  rw [cellsOf]
  exact (Finset.sum_eq_zero fun _ _ => rfl).symm

/-- What an item has is kept when another one takes a cell. -/
lemma getElem?_concat {e : ℕ × δ} {u j : ℕ} {d : δ} (h : (Multigraph.ofEdges done u)[j]? = some d) :
    (Multigraph.ofEdges (done ++ [e]) u)[j]? = some d := by
  rw [Multigraph.ofEdges_append, List.getElem?_append_left (List.getElem?_eq_some_iff.1 h).1, h]

section Sorting

variable (h0 : start 0 = 0) (hstart : ∀ u < n, start (u + 1) = start u + taken items u)
  (hkeys : ∀ e ∈ items, e.1 < n)

include hkeys in
/-- An item takes a cell. -/
lemma Inv.fetch (h : Inv n start items c done) {e : ℕ × δ} {rest : Multiset (ℕ × δ)}
    (he : c.todo = e ::ₘ rest) :
    Inv n start items { c with
      cursor := Function.update c.cursor e.1 (c.cursor e.1 + 1)
      todo := rest
      pending := (c.cursor e.1, e.2) ::ₘ c.pending } (done ++ [e]) := by
  have hmem : e ∈ items := by
    rw [← Multiset.mem_coe, ← h.count, he]
    exact Multiset.mem_add.2 (.inr (Multiset.mem_cons_self e rest))
  have hkey := hkeys e hmem
  refine ⟨?_, fun u hun => ?_, ?_, fun p hp => ?_, fun x hx => ?_⟩
  · rw [← h.count, he, ← Multiset.coe_add, Multiset.coe_singleton, add_assoc, Multiset.singleton_add]
  · dsimp only
    rw [taken_concat]
    by_cases hu : u = e.1
    · rw [hu, Function.update_self, Function.update_self, h.cursor e.1 hkey.le]
      push_cast
      ring
    · rw [Function.update_of_ne hu, Function.update_of_ne hu, h.cursor u hun]
  · rw [taken_concat, cellsOf_update hkey, ← h.cells, Multiset.map_cons, h.cursor e.1 hkey.le,
      Multiset.cons_add]
  · rcases Multiset.mem_cons.1 hp with rfl | hp
    · refine ⟨e.1, taken done e.1, h.cursor e.1 hkey.le, ?_⟩
      rw [Multigraph.ofEdges_concat, Multigraph.insert_self, taken, List.getElem?_concat_length]
    · obtain ⟨u, j, hpos, hval⟩ := h.pending p hp
      exact ⟨u, j, hpos, getElem?_concat hval⟩
  · obtain ⟨u, j, hpos, hval⟩ := h.written x hx
    exact ⟨u, j, hpos, getElem?_concat hval⟩

include h0 hstart in
/-- No cell is taken twice. -/
lemma Inv.nodup (h : Inv n start items c done) : (c.pending.map Prod.fst + c.written).Nodup := by
  have hle : ∀ u, taken done u ≤ taken items u := fun u => by
    have hsub : (done : Multiset (ℕ × δ)) ≤ items := h.count ▸ Multiset.le_add_right _ _
    rw [taken, taken, Multigraph.ofEdges, Multigraph.ofEdges, List.length_map, List.length_map]
    exact ((Multiset.coe_le.1 hsub).filter _).length_le
  refine Multiset.nodup_of_le (h.cells ▸ cellsOf_mono hle n) ?_
  rw [cellsOf_eq h0 hstart (le_refl n)]
  exact (Multiset.nodup_range _).map Nat.cast_injective

include h0 hstart in
/-- An item writes its cell. -/
lemma Inv.store (h : Inv n start items c done) {p : ℤ × δ} {rest : Multiset (ℤ × δ)}
    (hp : c.pending = p ::ₘ rest) :
    Inv n start items { c with
      cells := Function.update c.cells p.1 p.2
      pending := rest
      written := c.written ++ [p.1] } done := by
  have hnodup := h.nodup h0 hstart
  rw [hp, Multiset.map_cons, Multiset.cons_add] at hnodup
  have hnot : p.1 ∉ c.written := fun hx =>
    (Multiset.nodup_cons.1 hnodup).1 (Multiset.mem_add.2 (.inr hx))
  refine ⟨h.count, h.cursor, ?_, fun q hq => h.pending q (hp ▸ Multiset.mem_cons_of_mem hq), fun x hx => ?_⟩
  · rw [← h.cells, hp, Multiset.map_cons, Multiset.cons_add, ← Multiset.coe_add, Multiset.coe_singleton,
      ← add_assoc, add_comm _ {p.1}, Multiset.singleton_add]
  · dsimp only
    rcases List.mem_append.1 hx with hx | hx
    · obtain ⟨u, j, hpos, hval⟩ := h.written x hx
      rw [Function.update_of_ne (ne_of_mem_of_not_mem hx hnot)]
      exact ⟨u, j, hpos, hval⟩
    · obtain rfl := List.mem_singleton.1 hx
      obtain ⟨u, j, hpos, hval⟩ := h.pending p (hp ▸ Multiset.mem_cons_self p rest)
      rw [Function.update_self]
      exact ⟨u, j, hpos, hval⟩

include h0 hstart hkeys in
/-- In every state of a run. -/
lemma Inv.reach {cursor : ℕ → ℤ} (hcursor : ∀ u ≤ n, cursor u = start u) {cells : ℤ → δ}
    (hc : (runs cursor cells items).Reach c) :
    ∃ done, Inv n start items c done := by
  refine hc.inv (I := fun c => ∃ done, Inv n start items c done) ?_ ?_
  · rintro _ rfl
    exact ⟨[], .init hcursor cells⟩
  · intro c a c' ⟨done, h⟩ hstep
    have hstep' : Step c c' := hstep
    cases hstep' with
    | fetch he => exact ⟨_, h.fetch hkeys he⟩
    | store hp => exact ⟨done, h.store h0 hstart hp⟩

include hstart in
/-- The cells of a key begin behind those of the keys before. -/
lemma start_le {u v : ℕ} (huv : u < v) (hv : v ≤ n) : start u + taken items u ≤ start v := by
  induction v with
  | zero => omega
  | succ v ih =>
    have hv' := hstart v (by omega)
    rcases Nat.lt_succ_iff_lt_or_eq.1 huv with hlt | rfl
    · have := ih hlt (by omega)
      omega
    · exact hv'.ge

include h0 hstart hkeys in
/-- When all items have written their cells, every cell has been written once, each key has its values
between its own start and that of the next one, and every cursor has come to the next start. -/
theorem runs_sort {cursor : ℕ → ℤ} (hcursor : ∀ u ≤ n, cursor u = start u) {cells : ℤ → δ}
    (hc : (runs cursor cells items).Reach c) (htodo : c.todo = 0) (hpending : c.pending = 0) :
    c.written.Perm ((List.range (start n)).map (↑)) ∧
    (∀ u < n, (Memory.slice c.cells (start u) (taken items u)).Perm (Multigraph.ofEdges items u)) ∧
    ∀ u ≤ n, c.cursor u = ((start u + taken items u : ℕ) : ℤ) := by
  obtain ⟨done, h⟩ := Inv.reach h0 hstart hkeys hcursor hc
  have hperm : done.Perm items := by
    have := h.count
    rw [htodo, add_zero] at this
    exact Multiset.coe_eq_coe.1 this
  have hof : ∀ u, (Multigraph.ofEdges done u).Perm (Multigraph.ofEdges items u) :=
    Multigraph.ofEdges_perm hperm
  have htaken : taken done = taken items := funext fun u => (hof u).length_eq
  have hcells := h.cells
  rw [hpending, Multiset.map_zero, zero_add, htaken] at hcells
  refine ⟨?_, fun u hu => ?_, fun u hu => by rw [h.cursor u hu, htaken]⟩
  · rw [cellsOf_eq h0 hstart (le_refl n)] at hcells
    exact Multiset.coe_eq_coe.1 hcells
  · refine List.Perm.trans (List.Perm.of_eq ?_) (hof u)
    refine List.ext_getElem (by rw [Memory.slice_length, ← htaken, taken]) fun j hj1 hj2 => ?_
    rw [Memory.slice_getElem]
    have hj : j < taken items u := by rwa [Memory.slice_length] at hj1
    have hx : ((start u : ℤ) + j) ∈ c.written := by
      rw [← Multiset.mem_coe, hcells, mem_cellsOf]
      exact ⟨u, hu, j, hj, by push_cast; rfl⟩
    obtain ⟨v, i, hpos, hval⟩ := h.written _ hx
    have hi : i < taken items v := by
      rw [← htaken]
      exact (List.getElem?_eq_some_iff.1 hval).1
    have hv : v < n := by
      by_contra hv
      have hempty : Multigraph.ofEdges items v = [] :=
        Multigraph.ofEdges_eq_nil fun e he heq => hv (heq ▸ hkeys e he)
      rw [taken, hempty] at hi
      exact absurd hi (Nat.not_lt_zero i)
    -- the cell belongs to no other key
    have hpos' : start u + j = start v + i := by exact_mod_cast hpos
    obtain rfl : u = v := by
      rcases lt_trichotomy u v with hlt | heq | hgt
      · have := start_le hstart hlt hv.le
        omega
      · exact heq
      · have := start_le hstart hgt hu.le
        omega
    obtain rfl : j = i := by omega
    rw [List.getElem?_eq_getElem hj2] at hval
    exact (Option.some.inj hval).symm

end Sorting

/-- Whatever the cursors are, some run comes to its end. -/
theorem runs_end (cursor : ℕ → ℤ) (cells : ℤ → δ) (items : List (ℕ × δ)) :
    ∃ c, (runs cursor cells items).Reach c ∧ c.todo = 0 ∧ c.pending = 0 := by
  have hstart : (runs cursor cells items).Reach ⟨cursor, cells, items, 0, []⟩ := .init rfl
  obtain ⟨c, hc, -, hend⟩ := hstart.exists_goal (P := fun _ => True)
    (Q := fun c => c.todo = 0 ∧ c.pending = 0)
    (m := fun c => 2 * Multiset.card c.todo + Multiset.card c.pending) (fun c _ _ hne => by
      by_cases htodo : c.todo = 0
      · obtain ⟨p, hp⟩ := Multiset.exists_mem_of_ne_zero fun h => hne ⟨htodo, h⟩
        obtain ⟨rest, hrest⟩ := Multiset.exists_cons_of_mem hp
        refine ⟨(), _, Step.store hrest, trivial, ?_⟩
        simp only [hrest, Multiset.card_cons]
        omega
      · obtain ⟨e, he⟩ := Multiset.exists_mem_of_ne_zero htodo
        obtain ⟨rest, hrest⟩ := Multiset.exists_cons_of_mem he
        refine ⟨(), _, Step.fetch hrest, trivial, ?_⟩
        simp only [hrest, Multiset.card_cons]
        omega) trivial
  exact ⟨c, hc, hend⟩

end Scatter
