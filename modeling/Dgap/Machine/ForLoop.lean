import Dgap.Machine.Width

/-!
# Counted loops

`ForLoop σ` is the loop `for (i = 0; i < bound; i++)` over a state `σ`, with a counter that is converted to
its type after every increment. `indices` are the values of the counter that the body runs with and `run`
is what the loop computes, both within some number of rounds. A loop whose counter can reach its bound runs
through `0 .. bound - 1` and ends, a loop whose counter cannot never ends (`ForLoop.visitsOnce_iff`).

`ParallelFor σ` is such a loop under `omp parallel for`. The number of its rounds is computed before the first
one, from the bound in the type of the counter, so it always ends; but with a bound that the type cannot hold it
has too few rounds (`ParallelFor.visitsOnce_iff`).
-/

namespace Machine

/-- `for (i = 0; i < bound; i++) body(i)`, where `conv` converts to the type of `i`; the body is `none` if it
reads or writes out of bounds. -/
structure ForLoop (σ : Type*) where
  conv : ℤ → ℤ
  bound : ℤ
  body : ℤ → σ → Option σ

/-- The element of an array at an index. -/
def at? {α : Type*} (l : List α) (i : ℤ) : Option α := if 0 ≤ i then l[i.toNat]? else none

/-- At an index that is not negative. -/
lemma at?_natCast {α : Type*} (l : List α) (i : ℕ) : at? l i = l[i]? := if_pos (Int.natCast_nonneg i)

namespace ForLoop

variable {σ α : Type*} (L : ForLoop σ)

/-- The values of the counter with which the body runs, from `i` on; `none` if the loop does not end in
`fuel` rounds. -/
def indices : ℕ → ℤ → Option (List ℤ)
  | 0, i => if i < L.bound then none else some []
  | fuel + 1, i => if i < L.bound then (indices fuel (L.conv (i + 1))).map (i :: ·) else some []

/-- What the loop computes; `none` if it reads out of bounds, or does not end in `fuel` rounds. -/
def run : ℕ → ℤ → σ → Option σ
  | 0, i, s => if i < L.bound then none else some s
  | fuel + 1, i, s =>
    if i < L.bound then (L.body i s).bind (run fuel (L.conv (i + 1))) else some s

/-- The loop ends, and its body runs once with each of `0 .. count - 1` and with no other value. -/
def VisitsOnce (count : ℕ) : Prop :=
  ∃ fuel l, L.indices fuel 0 = some l ∧ l.Perm ((List.range count).map (↑))

/-- The loop over the elements of an array. -/
def overList (conv : ℤ → ℤ) (l : List α) (f : σ → α → σ) : ForLoop σ where
  conv := conv
  bound := l.length
  body i s := (at? l i).map (f s)

variable {L} {limit count fuel : ℕ} {i : ℤ} {s : σ}

/-- A loop whose counter never reaches the bound does not end. -/
lemma indices_eq_none (hlt : ∀ i, L.conv i < L.bound) (hi : i < L.bound) :
    L.indices fuel i = none := by
  induction fuel generalizing i with
  | zero => exact if_pos hi
  | succ fuel ih => rw [indices, if_pos hi, ih (hlt _), Option.map_none]

/-- A loop that does not end does not visit every index. -/
lemma not_visitsOnce (h : ∀ fuel, L.indices fuel 0 = none) : ¬ L.VisitsOnce count := by
  rintro ⟨fuel, l, hl, -⟩
  rw [h fuel] at hl
  cases hl

/-- A loop whose counter is not changed by a conversion runs through the numbers below the bound. -/
lemma indices_eq (hkeep : ∀ j : ℕ, (j : ℤ) ≤ L.bound → L.conv j = j) {k i : ℕ}
    (hk : ((i + k : ℕ) : ℤ) = L.bound) :
    L.indices k i = some ((List.range' i k).map (↑)) := by
  induction k generalizing i with
  | zero => exact if_neg (by omega)
  | succ k ih =>
    have hsucc : L.conv ((i : ℤ) + 1) = ((i + 1 : ℕ) : ℤ) := by
      rw [← hkeep (i + 1) (by omega), Nat.cast_succ]
    rw [indices, if_pos (by omega), hsucc, ih (by rw [← hk]; congr 1; omega)]
    rfl

/-- The loops that visit every index once. -/
lemma visitsOnce_iff (hlimit : 0 < limit) (hkeep : ∀ j < limit, L.conv (j : ℕ) = j)
    (hlt : ∀ j, L.conv j < limit) (hbound : L.bound = count) : L.VisitsOnce count ↔ count < limit := by
  constructor
  · intro h
    by_contra hge
    exact not_visitsOnce (fun _ =>
      indices_eq_none (fun j => (hlt j).trans_le (by omega)) (by omega)) h
  · intro hc
    refine ⟨count, _, indices_eq (fun j hj => hkeep j (by omega)) (i := 0) (by omega), ?_⟩
    rw [List.range_eq_range']

/-- The loop over an array computes the fold over its elements. -/
lemma run_overList {conv : ℤ → ℤ} {l : List α} {f : σ → α → σ} (hkeep : ∀ j ≤ l.length, conv (j : ℕ) = j)
    {k i : ℕ} (hk : i + k = l.length) : (overList conv l f).run k i s = some ((l.drop i).foldl f s) := by
  induction k generalizing i s with
  | zero =>
    rw [List.drop_eq_nil_of_le (by omega)]
    exact if_neg (by simp only [overList]; omega)
  | succ k ih =>
    have hi : i < l.length := by omega
    have hsucc : conv ((i : ℤ) + 1) = ((i + 1 : ℕ) : ℤ) := by
      rw [← hkeep (i + 1) (by omega), Nat.cast_succ]
    rw [run, if_pos (by simp only [overList]; omega)]
    simp only [overList, at?_natCast, List.getElem?_eq_getElem hi, Option.map_some, Option.bind_some, hsucc]
    rw [List.drop_eq_getElem_cons hi, List.foldl_cons]
    exact ih (by omega)

end ForLoop

/-- The number of rounds of `for (i = 0; i < bound; i++)` under `omp parallel for`, where `conv` converts to the
type of `i`. -/
def tripCount (conv : ℤ → ℤ) (bound : ℤ) : ℕ := (conv bound).toNat

/-- `for (i = 0; i < bound; i++) body(i)` under `omp parallel for`; the body is `none` if it reads or writes out
of bounds. -/
structure ParallelFor (σ : Type*) where
  conv : ℤ → ℤ
  bound : ℤ
  body : ℕ → σ → Option σ

namespace ParallelFor

variable {σ α : Type*} (L : ParallelFor σ)

/-- The rounds, which the threads run in any order. -/
def rounds : List ℕ := List.range (tripCount L.conv L.bound)

/-- What the loop computes when its rounds are run in the order of the list. -/
def run (order : List ℕ) (s : σ) : Option σ := order.foldlM (fun s i => L.body i s) s

/-- There is one round for each of `0 .. count - 1` and no other one. -/
def VisitsOnce (count : ℕ) : Prop := L.rounds.Perm (List.range count)

/-- The loop over the elements of an array. -/
def overList (conv : ℤ → ℤ) (l : List α) (f : σ → α → σ) : ParallelFor σ where
  conv := conv
  bound := l.length
  body i s := l[i]?.map (f s)

variable {L} {limit count : ℕ} {s : σ}

/-- The loops that visit every index once. -/
lemma visitsOnce_iff (hkeep : ∀ j < limit, L.conv (j : ℕ) = j) (hlt : ∀ j, (L.conv j).toNat < limit)
    (hbound : L.bound = count) : L.VisitsOnce count ↔ count < limit := by
  rw [VisitsOnce, rounds, hbound]
  constructor
  · intro h
    have hlen : tripCount L.conv count = count := by simpa using h.length_eq
    rw [← hlen]
    exact hlt count
  · intro hc
    rw [tripCount, hkeep count hc, Int.toNat_natCast]

/-- The elements at the first indices. -/
lemma filterMap_range (l : List α) (k : ℕ) : (List.range k).filterMap (fun i => l[i]?) = l.take k := by
  induction k with
  | zero => rfl
  | succ k ih =>
    rw [List.range_succ, List.filterMap_append, ih, List.take_add_one]
    cases h : l[k]? <;> simp [h]

/-- The loop over an array computes the fold over the elements of its rounds, in their order. -/
lemma run_overList {conv : ℤ → ℤ} {l : List α} {f : σ → α → σ} {order : List ℕ}
    (horder : ∀ i ∈ order, i < l.length) :
    (overList conv l f).run order s = some ((order.filterMap fun i => l[i]?).foldl f s) := by
  induction order generalizing s with
  | nil => rfl
  | cons i order ih =>
    obtain ⟨hi, horder⟩ := List.forall_mem_cons.1 horder
    have hget : l[i]? = some l[i] := List.getElem?_eq_getElem hi
    have hbody : (overList conv l f).body i s = some (f s l[i]) := by
      show l[i]?.map (f s) = _
      rw [hget, Option.map_some]
    rw [run, List.foldlM_cons, hbody, Option.bind_eq_bind, Option.bind_some, List.filterMap_cons, hget,
      List.foldl_cons]
    exact ih horder

end ParallelFor

section Width

variable {w : ℕ}

/-- A signed counter is below its limit. -/
lemma signed_lt (hw : 0 < w) (x : ℤ) : signed w x < ((2 ^ (w - 1) : ℕ) : ℤ) := by
  have := (signed_mem hw x).2
  exact_mod_cast this

/-- So is its absolute value, if it is not negative. -/
lemma toNat_signed_lt (hw : 0 < w) (x : ℤ) : (signed w x).toNat < 2 ^ (w - 1) := by
  have h := signed_lt hw x
  have hpos : 0 < 2 ^ (w - 1) := by positivity
  omega

/-- An unsigned counter is below its limit. -/
lemma unsigned_lt (x : ℤ) : unsigned w x < ((2 ^ w : ℕ) : ℤ) := by
  have : x % 2 ^ w < 2 ^ w := Int.emod_lt_of_pos x (by positivity)
  exact_mod_cast this

/-- A loop with an `int` counter. -/
lemma ForLoop.visitsOnce_signed {σ : Type*} {L : ForLoop σ} {count : ℕ} (hw : 0 < w)
    (hconv : L.conv = signed w) (hbound : L.bound = count) : L.VisitsOnce count ↔ count < 2 ^ (w - 1) :=
  visitsOnce_iff (by positivity) (fun j hj => by rw [hconv, signed_keep hw hj])
    (fun j => by rw [hconv]; exact signed_lt hw j) hbound

/-- A loop with an unsigned counter. -/
lemma ForLoop.visitsOnce_unsigned {σ : Type*} {L : ForLoop σ} {count : ℕ}
    (hconv : L.conv = unsigned w) (hbound : L.bound = count) : L.VisitsOnce count ↔ count < 2 ^ w :=
  visitsOnce_iff (by positivity) (fun j hj => by rw [hconv, unsigned_keep hj])
    (fun j => by rw [hconv]; exact unsigned_lt j) hbound

/-- A loop with an `int` counter, shared out. -/
lemma ParallelFor.visitsOnce_signed {σ : Type*} {L : ParallelFor σ} {count : ℕ} (hw : 0 < w)
    (hconv : L.conv = signed w) (hbound : L.bound = count) : L.VisitsOnce count ↔ count < 2 ^ (w - 1) :=
  visitsOnce_iff (fun j hj => by rw [hconv, signed_keep hw hj])
    (fun j => by rw [hconv]; exact toNat_signed_lt hw j) hbound

/-- A loop with an unsigned counter, shared out. -/
lemma ParallelFor.visitsOnce_unsigned {σ : Type*} {L : ParallelFor σ} {count : ℕ}
    (hconv : L.conv = unsigned w) (hbound : L.bound = count) : L.VisitsOnce count ↔ count < 2 ^ w :=
  visitsOnce_iff (fun j hj => by rw [hconv, unsigned_keep hj])
    (fun j => by
      have hlt := unsigned_lt (w := w) j
      have hpos : 0 < 2 ^ w := by positivity
      rw [hconv]
      omega) hbound

/-- There are no more rounds than the bound says. -/
lemma tripCount_signed_le (hw : 0 < w) (count : ℕ) : tripCount (signed w) count ≤ count := by
  by_cases h : count < 2 ^ (w - 1)
  · rw [tripCount, signed_keep hw h, Int.toNat_natCast]
  · exact (toNat_signed_lt hw count).le.trans (not_lt.1 h)

end Width

end Machine
