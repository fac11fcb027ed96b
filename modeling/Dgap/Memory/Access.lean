import Dgap.Memory.Image

/-!
# Traces of memory accesses

The accesses that a loop makes, in order: reads of one array and writes to another. `replay` performs the
writes, so a trace says what the loop does to the array it writes to; and a property of every access,
such as a bound on its index, is a property of the members of the trace. `copying` is the trace of an
element-by-element copy.
-/

/-- A read of one array, or a write to another. -/
inductive Access (α : Type*) where
  | read (i : ℤ)
  | write (i : ℤ) (x : α)

namespace Access

variable {α : Type*} {l l' : List (Access α)} {a : Image α} {m : ℤ → α} {src dst i : ℤ} {k : ℕ}

/-- What an access does to the array that is written. -/
def run (a : Image α) : Access α → Image α
  | .read _ => a
  | .write i x => a.store i x

/-- What a trace does to the array that is written. -/
def replay (l : List (Access α)) (a : Image α) : Image α := l.foldl run a

/-- The index of a read. -/
def index? : Access α → Option ℤ
  | .read i => some i
  | .write _ _ => none

/-- The indices that a trace reads, in order. -/
def reads (l : List (Access α)) : List ℤ := l.filterMap index?

@[simp] lemma replay_nil : replay ([] : List (Access α)) a = a := rfl

@[simp] lemma replay_cons (e : Access α) : replay (e :: l) a = replay l (run a e) := rfl

@[simp] lemma replay_append : replay (l ++ l') a = replay l' (replay l a) := List.foldl_append ..

@[simp] lemma reads_nil : reads ([] : List (Access α)) = [] := rfl

@[simp] lemma reads_append : reads (l ++ l') = reads l ++ reads l' := List.filterMap_append ..

@[simp] lemma reads_read : reads (.read i :: l) = i :: reads l := rfl

@[simp] lemma reads_write (x : α) : reads (.write i x :: l) = reads l := rfl

/-- The reads of a family of traces. -/
lemma reads_flatMap {β : Type*} (s : List β) (f : β → List (Access α)) :
    reads (s.flatMap f) = s.flatMap fun b => reads (f b) := List.filterMap_flatMap

/-- The reads of a trace. -/
lemma mem_reads : i ∈ reads l ↔ .read i ∈ l := by
  rw [reads, List.mem_filterMap]
  constructor
  · rintro ⟨e, he, hi⟩
    cases e with
    | read j =>
      obtain rfl := Option.some.inj hi
      exact he
    | write j x => cases hi
  · exact fun h => ⟨_, h, rfl⟩

/-- What is not written is unchanged. -/
lemma replay_outside (h : ∀ x, .write i x ∉ l) : (replay l a).cur i = a.cur i := by
  induction l generalizing a with
  | nil => rfl
  | cons e l ih =>
    rw [replay_cons, ih fun x hx => h x (List.mem_cons_of_mem _ hx)]
    cases e with
    | read j => rfl
    | write j x =>
      refine Function.update_of_ne (fun hij => ?_) _ _
      subst hij
      exact h x List.mem_cons_self

/-- Copying `k` elements of `m` from `src` upwards to `dst` upwards. -/
def copying (m : ℤ → α) : ℕ → ℤ → ℤ → List (Access α)
  | 0, _, _ => []
  | k + 1, src, dst => .read src :: .write dst (m src) :: copying m k (src + 1) (dst + 1)

/-- A copy reads its source from the lowest index on. -/
lemma reads_copying : reads (copying m k src dst) = (List.range k).map fun j : ℕ => src + (j : ℤ) := by
  induction k generalizing src dst with
  | zero => rfl
  | succ k ih =>
    rw [copying, reads_read, reads_write, ih, List.range_succ_eq_map, List.map_cons, List.map_map]
    congr 1
    · simp
    · apply List.map_congr_left
      intro j _
      simp only [Function.comp_apply]
      push_cast
      ring

/-- A copy writes inside its target. -/
lemma write_mem_copying {x : α} (h : .write i x ∈ copying m k src dst) :
    dst ≤ i ∧ i < dst + k := by
  induction k generalizing src dst with
  | zero => cases h
  | succ k ih =>
    rcases List.mem_cons.1 h with h | h
    · cases h
    rcases List.mem_cons.1 h with h | h
    · cases h
      omega
    · have := ih h
      omega

end Access
