import Dgap.Memory.Image

/-!
# Persistent variables whose stores are on their way

A `Cell` is a variable in persistent memory together with the values that have been stored since its last
flush. A store can reach the medium at any time from then on, and does so at the latest when the variable
is flushed, so a crash leaves the durable value or any value stored since (`Survives`). An `Image` slot is
a cell of which only the last stored value is known (`ofImage`).
-/

/-- A variable in persistent memory: what is durable, and what has been stored since the last flush. -/
structure Cell (α : Type*) where
  dur : α
  stored : List α

namespace Cell

variable {α : Type*}

/-- A variable whose value is durable. -/
def durable (x : α) : Cell α := ⟨x, []⟩

/-- What a load sees. -/
def cur (c : Cell α) : α := c.stored.getLastD c.dur

/-- A store. -/
def store (c : Cell α) (x : α) : Cell α := { c with stored := c.stored ++ [x] }

/-- A flush. -/
def flush (c : Cell α) : Cell α := durable c.cur

/-- What a crash may leave. -/
def Survives (c : Cell α) (x : α) : Prop := x ∈ c.dur :: c.stored

/-- The slot of an array in persistent memory. -/
def ofImage (a : Image α) (i : ℤ) : Cell α := ⟨a.dur i, [a.cur i]⟩

@[simp] lemma durable_cur (x : α) : (durable x).cur = x := rfl

@[simp] lemma store_cur (c : Cell α) (x : α) : (c.store x).cur = x := by
  simp [cur, store]

@[simp] lemma flush_cur (c : Cell α) : c.flush.cur = c.cur := rfl

@[simp] lemma ofImage_cur (a : Image α) (i : ℤ) : (ofImage a i).cur = a.cur i := rfl

/-- Only the value of a durable variable survives. -/
@[simp] lemma survives_durable {x y : α} : (durable x).Survives y ↔ y = x := by
  simp [Survives, durable]

/-- The durable value survives. -/
lemma survives_dur (c : Cell α) : c.Survives c.dur := List.mem_cons_self

end Cell
