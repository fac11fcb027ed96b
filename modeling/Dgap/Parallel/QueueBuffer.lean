import Mathlib

/-!
# Buffers in front of a queue

`SlidingQueue` and `QueueBuffer` of `sliding_queue.h`: a thread appends to a buffer of its own, and flushes it
by taking cells of the shared queue with one fetch-and-add and copying the buffer into them, one cell a step,
while the other threads do the same. `order` is what the cells will hold once all copies have been made;
nothing is lost and nothing is doubled, whatever the interleaving: a cell that is not yet right lies in front
of the copy of some thread (`Filled`), every copy writes what `order` says (`Copies`), and the cells of the
window are right (`Settled`).
-/

namespace Dgap

/-- `SlidingQueue`. -/
structure SlidingQueue (α : Type*) where
  shared : ℕ → α
  sharedIn : ℕ
  sharedOutStart : ℕ
  sharedOutEnd : ℕ

namespace SlidingQueue

variable {α : Type*} (q : SlidingQueue α)

/-- `push_back`. -/
def pushBack (x : α) : SlidingQueue α :=
  { q with shared := Function.update q.shared q.sharedIn x, sharedIn := q.sharedIn + 1 }

/-- `empty`. -/
def isEmpty : Prop := q.sharedOutStart = q.sharedOutEnd

instance : Decidable q.isEmpty := inferInstanceAs (Decidable (_ = _))

/-- `reset`. -/
def reset : SlidingQueue α := { q with sharedOutStart := 0, sharedOutEnd := 0, sharedIn := 0 }

/-- `slide_window`. -/
def slideWindow : SlidingQueue α := { q with sharedOutStart := q.sharedOutEnd, sharedOutEnd := q.sharedIn }

/-- `begin`. -/
def begin : ℕ := q.sharedOutStart

end SlidingQueue

/-- `QueueBuffer`, with the cells that `std::copy` has not copied yet and the position of the next one. -/
structure QueueBuffer (α : Type*) where
  localQueue : List α
  copying : Option (ℕ × List α)
  deriving DecidableEq

namespace QueueBuffer

variable {α : Type*}

/-- `given_size`. -/
def localSize : ℕ := 16384

/-- The constructor. -/
def fresh : QueueBuffer α := ⟨[], none⟩

/-- `copy_start = fetch_and_add(sq.shared_in, in)` of `flush`. -/
def reserve (b : QueueBuffer α) (q : SlidingQueue α) : SlidingQueue α × QueueBuffer α :=
  ({ q with sharedIn := q.sharedIn + b.localQueue.length }, { b with copying := some (q.sharedIn, b.localQueue) })

/-- A step of a flush under way: a cell is copied, or `in = 0` after the last one. -/
def copyStep (b : QueueBuffer α) (q : SlidingQueue α) : Option (SlidingQueue α × QueueBuffer α) :=
  match b.copying with
  | some (pos, x :: rest) =>
    some ({ q with shared := Function.update q.shared pos x }, { b with copying := some (pos + 1, rest) })
  | some (_, []) => some (q, fresh)
  | none => none

/-- `local_queue[in++] = to_append`. -/
def append (b : QueueBuffer α) (x : α) : QueueBuffer α := { b with localQueue := b.localQueue ++ [x] }

/-- What is in the buffer alone: once the cells are taken it is the queue's. -/
def pending (b : QueueBuffer α) : List α := if b.copying = none then b.localQueue else []

/-- How many steps a flush still takes, and those that the flush of what is pending will take. -/
def work (b : QueueBuffer α) : ℕ :=
  match b.copying with
  | none => 3 * b.localQueue.length
  | some (_, rest) => rest.length + 1

/-- A buffer that is copied holds the values of its cells, which lie behind the window. -/
def Copies (b : QueueBuffer α) (q : SlidingQueue α) (order : List α) : Prop :=
  ∀ pos rest, b.copying = some (pos, rest) →
    q.sharedOutEnd ≤ pos ∧ ∀ m x, rest[m]? = some x → order[pos + m]? = some x

/-- The queue will hold `order`, and the cells of the window hold it already. -/
structure Settled (q : SlidingQueue α) (order : List α) : Prop where
  length : order.length = q.sharedIn
  outEnd_le : q.sharedOutEnd ≤ order.length
  seen : ∀ j < q.sharedOutEnd, ∀ x, order[j]? = some x → q.shared j = x

/-- A cell that does not hold its value yet will get it from the copy of some thread. -/
def Filled {n : ℕ} (q : SlidingQueue α) (order : List α) (bs : Fin n → QueueBuffer α) : Prop :=
  ∀ j x, order[j]? = some x → q.shared j = x ∨
    ∃ i pos rest, (bs i).copying = some (pos, rest) ∧ pos ≤ j ∧ j < pos + rest.length

variable {n : ℕ} {q q' : SlidingQueue α} {order : List α} {b b' : QueueBuffer α} {bs : Fin n → QueueBuffer α}
  {i : Fin n}

/-- A buffer whose copy is done does not step by itself. -/
lemma copyStep_eq_none : b.copyStep q = none ↔ b.copying = none := by
  rw [copyStep]
  split <;> simp [*]

/-- What is appended is pending. -/
lemma pending_append (h : b.copying = none) (x : α) : (b.append x).pending = b.pending ++ [x] := by
  simp [pending, append, h]

/-- Once the cells are taken nothing is pending. -/
lemma pending_reserve (q : SlidingQueue α) : (b.reserve q).2.pending = [] := by simp [pending, reserve]

/-- What is appended brings its copy. -/
lemma work_append (h : b.copying = none) (x : α) : (b.append x).work = b.work + 3 := by
  simp [work, append, h]
  omega

/-- A flush makes the copies. -/
lemma work_reserve (h : b.copying = none) (q : SlidingQueue α) :
    (b.reserve q).2.work = b.localQueue.length + 1 ∧ b.work = 3 * b.localQueue.length := by
  simp [work, reserve, h]

/-- The cells of the window hold what they will hold. -/
lemma Settled.get (h : Settled q order) {j : ℕ} (hj : j < q.sharedOutEnd) :
    order[j]? = some (q.shared j) := by
  have hget := List.getElem?_eq_getElem (hj.trans_le h.outEnd_le)
  rw [hget, h.seen j hj _ hget]

/-- A buffer that is not copied promises nothing. -/
lemma Copies.of_none (h : b.copying = none) : b.Copies q order := by
  intro pos rest hcopy
  rw [h] at hcopy
  cases hcopy

/-- The cells that a flush takes. -/
lemma Settled.reserve (h : Settled q order) : Settled (b.reserve q).1 (order ++ b.localQueue) where
  length := by
    rw [List.length_append, h.length]
    rfl
  outEnd_le := by
    rw [List.length_append]
    exact h.outEnd_le.trans (Nat.le_add_right _ _)
  seen j hj x hx := by
    have hlt := Nat.lt_of_lt_of_le hj h.outEnd_le
    rw [List.getElem?_append_left hlt] at hx
    exact h.seen j hj x hx

/-- A flush copies into the cells it takes. -/
lemma Copies.reserve (h : Settled q order) :
    (b.reserve q).2.Copies (b.reserve q).1 (order ++ b.localQueue) := by
  intro pos rest hcopy
  cases hcopy
  refine ⟨h.length ▸ h.outEnd_le, fun m x hx => ?_⟩
  rw [← h.length, List.getElem?_append_right (Nat.le_add_right _ _), Nat.add_sub_cancel_left]
  exact hx

/-- The flush of another thread takes cells further back. -/
lemma Copies.reserve_other (h : b'.Copies q order) : b'.Copies (b.reserve q).1 (order ++ b.localQueue) := by
  intro pos rest hcopy
  obtain ⟨hpos, hrest⟩ := h pos rest hcopy
  refine ⟨hpos, fun m x hx => ?_⟩
  have hold := hrest m x hx
  rw [List.getElem?_append_left (List.getElem?_eq_some_iff.1 hold).1]
  exact hold

/-- The cells that a flush takes will get their values from it. -/
lemma Filled.reserve (h : Filled q order bs) (hs : Settled q order) (hi : (bs i).copying = none) :
    Filled ((bs i).reserve q).1 (order ++ (bs i).localQueue) (Function.update bs i ((bs i).reserve q).2) := by
  intro j x hx
  rcases Nat.lt_or_ge j order.length with hj | hj
  · rw [List.getElem?_append_left hj] at hx
    rcases h j x hx with hcell | ⟨i', pos, rest, hcopy, hpos⟩
    · exact .inl hcell
    · refine .inr ⟨i', pos, rest, ?_, hpos⟩
      rw [Function.update_of_ne, hcopy]
      rintro rfl
      rw [hi] at hcopy
      cases hcopy
  · have hlt := (List.getElem?_eq_some_iff.1 hx).1
    rw [List.length_append] at hlt
    refine .inr ⟨i, q.sharedIn, (bs i).localQueue, by rw [Function.update_self]; rfl, hs.length ▸ hj, ?_⟩
    rw [← hs.length]
    exact hlt

section Copy

variable (hstep : b.copyStep q = some (q', b'))

include hstep

/-- A flush leaves the window and the end of the queue alone. -/
lemma copyStep_window : q'.sharedIn = q.sharedIn ∧ q'.sharedOutStart = q.sharedOutStart ∧
    q'.sharedOutEnd = q.sharedOutEnd := by
  rw [copyStep] at hstep
  split at hstep <;> cases hstep <;> exact ⟨rfl, rfl, rfl⟩

/-- What is pending does not change in a flush. -/
lemma copyStep_pending : b'.pending = b.pending := by
  rw [copyStep] at hstep
  split at hstep <;> cases hstep <;> simp [pending, fresh, *]

/-- A flush under way takes one step less. -/
lemma copyStep_work : b'.work < b.work := by
  rw [copyStep] at hstep
  split at hstep <;> cases hstep <;> simp [work, fresh, *]

/-- The last step of a flush empties the buffer. -/
lemma copyStep_none (h : b'.copying = none) : b' = fresh := by
  rw [copyStep] at hstep
  split at hstep <;> cases hstep
  · cases h
  · rfl

/-- Only a flush under way takes a step. -/
lemma copyStep_copying : b.copying ≠ none := by
  intro h
  rw [copyStep, h] at hstep
  cases hstep

/-- A copy writes behind the window. -/
lemma copyStep_shared (hb : b.Copies q order) {j : ℕ} (hj : j < q.sharedOutEnd) : q'.shared j = q.shared j := by
  rw [copyStep] at hstep
  split at hstep <;> cases hstep
  case h_1 pos x rest hcopy =>
    have hpos := (hb pos (x :: rest) hcopy).1
    exact Function.update_of_ne (by omega) _ _
  case h_2 => rfl

/-- A copy writes what the queue is to hold. -/
lemma copyStep_cell (hb : b.Copies q order) {j : ℕ} {x : α} (hx : order[j]? = some x) (hcell : q.shared j = x) :
    q'.shared j = x := by
  rw [copyStep] at hstep
  split at hstep <;> cases hstep
  case h_1 pos y rest hcopy =>
    have hy := (hb pos (y :: rest) hcopy).2 0 y rfl
    by_cases hj : j = pos
    · subst hj
      rw [Nat.add_zero, hx] at hy
      cases hy
      exact Function.update_self ..
    · exact (Function.update_of_ne hj _ _).trans hcell
  case h_2 => exact hcell

/-- The window stays settled. -/
lemma Settled.copyStep (h : Settled q order) (hb : b.Copies q order) : Settled q' order := by
  obtain ⟨hin, -, hend⟩ := copyStep_window hstep
  refine ⟨h.length.trans hin.symm, hend ▸ h.outEnd_le, fun j hj x hx => ?_⟩
  exact copyStep_cell hstep hb hx (h.seen j (hend ▸ hj) x hx)

/-- The rest of the copy. -/
lemma Copies.copyStep (hb : b.Copies q order) : b'.Copies q' order := by
  obtain ⟨-, -, hend⟩ := copyStep_window hstep
  rw [QueueBuffer.copyStep] at hstep
  split at hstep <;> cases hstep
  case h_1 pos x rest hcopy =>
    intro pos' rest' hcopy'
    cases hcopy'
    obtain ⟨hpos, hrest⟩ := hb pos (x :: rest) hcopy
    refine ⟨by rw [hend]; omega, fun m y hy => ?_⟩
    rw [Nat.add_right_comm, Nat.add_assoc]
    exact hrest (m + 1) y hy
  case h_2 => exact .of_none rfl

/-- The copy of another thread. -/
lemma Copies.copyStep_other {d : QueueBuffer α} (hd : d.Copies q order) : d.Copies q' order := by
  obtain ⟨-, -, hend⟩ := copyStep_window hstep
  intro pos rest hcopy
  rw [hend]
  exact hd pos rest hcopy

/-- A copied cell has its value. -/
lemma Filled.copyStep (h : Filled q order bs) (hi : bs i = b) (hb : b.Copies q order) :
    Filled q' order (Function.update bs i b') := by
  intro j x hx
  rcases h j x hx with hcell | ⟨i', pos, rest, hcopy, hlow, hhigh⟩
  · exact .inl (copyStep_cell hstep hb hx hcell)
  · by_cases hne : i' = i
    · subst hne
      rw [hi] at hcopy
      have hcells := hb pos rest hcopy
      rw [QueueBuffer.copyStep, hcopy] at hstep
      cases rest with
      | nil => exact absurd hhigh (by rw [List.length_nil]; omega)
      | cons y rest =>
        cases hstep
        by_cases hj : j = pos
        · subst hj
          have hy := hcells.2 0 y rfl
          rw [Nat.add_zero, hx] at hy
          cases hy
          exact .inl (Function.update_self ..)
        · refine .inr ⟨i', pos + 1, rest, by rw [Function.update_self], by omega, ?_⟩
          rw [List.length_cons] at hhigh
          omega
    · exact .inr ⟨i', pos, rest, by rw [Function.update_of_ne hne, hcopy], hlow, hhigh⟩

end Copy

/-- A buffer changes and takes nothing of the queue. -/
lemma Filled.update (h : Filled q order bs) (hi : (bs i).copying = none) (b' : QueueBuffer α) :
    Filled q order (Function.update bs i b') := by
  intro j x hx
  rcases h j x hx with hcell | ⟨i', pos, rest, hcopy, hpos⟩
  · exact .inl hcell
  · refine .inr ⟨i', pos, rest, ?_, hpos⟩
    rw [Function.update_of_ne, hcopy]
    rintro rfl
    rw [hi] at hcopy
    cases hcopy

/-- When no copy is under way, every cell holds its value. -/
lemma Filled.cell (h : Filled q order bs) (hidle : ∀ i, (bs i).copying = none) {j : ℕ} {x : α}
    (hx : order[j]? = some x) : q.shared j = x := by
  rcases h j x hx with hcell | ⟨i, pos, rest, hcopy, -⟩
  · exact hcell
  · rw [hidle i] at hcopy
    cases hcopy

/-- When no copy is under way the window may slide. -/
lemma Settled.slideWindow (h : Settled q order) (hf : Filled q order bs) (hidle : ∀ i, (bs i).copying = none) :
    Settled q.slideWindow order where
  length := h.length
  outEnd_le := h.length.ge
  seen _ _ _ hx := hf.cell hidle hx

end QueueBuffer

end Dgap
