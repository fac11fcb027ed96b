import Dgap.Memory.Slice

/-!
# Memories with a durable image

An `Image` is an array in persistent memory: `cur` is what loads see, `dur` is what survives a power
failure. A store changes `cur` only; a flush of a block makes `dur` agree with `cur` there. The
`@[simp]` lemmas say what each operation does to either side, so that a development can reason about
`cur` alone and come back to `dur` where durability is the question.
-/

/-- An array in persistent memory. -/
structure Image (α : Type*) where
  cur : ℤ → α
  dur : ℤ → α

namespace Image

variable {α : Type*}

/-- An array whose contents are already durable. -/
def durable (m : ℤ → α) : Image α := ⟨m, m⟩

/-- Store `x` at index `i`. -/
def store (a : Image α) (i : ℤ) (x : α) : Image α := { a with cur := Function.update a.cur i x }

/-- Store `x` at the `k` indices from `i` on. -/
def fill (a : Image α) (i k : ℤ) (x : α) : Image α :=
  { a with cur := fun j => if i ≤ j ∧ j < i + k then x else a.cur j }

/-- Flush the `k` indices from `i` on. -/
def flush (a : Image α) (i k : ℤ) : Image α :=
  { a with dur := fun j => if i ≤ j ∧ j < i + k then a.cur j else a.dur j }

/-- What a power failure leaves. -/
def crash (a : Image α) : Image α := durable a.dur

/-- What an orderly shutdown leaves: every store has reached the array. -/
def settle (a : Image α) : Image α := durable a.cur

@[simp] lemma durable_cur (m : ℤ → α) : (durable m).cur = m := rfl
@[simp] lemma durable_dur (m : ℤ → α) : (durable m).dur = m := rfl
@[simp] lemma store_cur (a : Image α) (i : ℤ) (x : α) :
    (a.store i x).cur = Function.update a.cur i x := rfl
@[simp] lemma store_dur (a : Image α) (i : ℤ) (x : α) : (a.store i x).dur = a.dur := rfl
@[simp] lemma fill_dur (a : Image α) (i k : ℤ) (x : α) : (a.fill i k x).dur = a.dur := rfl
@[simp] lemma flush_cur (a : Image α) (i k : ℤ) : (a.flush i k).cur = a.cur := rfl
@[simp] lemma crash_cur (a : Image α) : a.crash.cur = a.dur := rfl
@[simp] lemma settle_cur (a : Image α) : a.settle.cur = a.cur := rfl

/-- A filled block holds the value, the rest is unchanged. -/
lemma fill_cur (a : Image α) (i k : ℤ) (x : α) (j : ℤ) :
    (a.fill i k x).cur j = if i ≤ j ∧ j < i + k then x else a.cur j := rfl

/-- A flushed block is durable, the rest is unchanged. -/
lemma flush_dur (a : Image α) (i k j : ℤ) :
    (a.flush i k).dur j = if i ≤ j ∧ j < i + k then a.cur j else a.dur j := rfl

/-- `a` is durable at index `j`. -/
def DurableAt (a : Image α) (j : ℤ) : Prop := a.dur j = a.cur j

/-- A store followed by a flush of its index keeps every index as durable as it was. -/
lemma DurableAt.store_flush {a : Image α} {j : ℤ} (h : a.DurableAt j) (i : ℤ) (x : α) :
    ((a.store i x).flush i 1).DurableAt j := by
  unfold DurableAt at h ⊢
  rw [flush_dur, flush_cur, store_cur, store_dur]
  by_cases e : j = i
  · subst e
    rw [if_pos (by omega)]
  · rw [if_neg (by omega), Function.update_of_ne e, h]

/-- Whatever was stored before, a flushed index is durable. -/
lemma DurableAt.of_flush (a : Image α) {i k j : ℤ} (h1 : i ≤ j) (h2 : j < i + k) :
    (a.flush i k).DurableAt j := by
  unfold DurableAt
  rw [flush_dur, if_pos ⟨h1, h2⟩, flush_cur]

end Image
