import Dgap.System.Along

/-!
# An undo log of a memory

An undo log holds a copy of `size` slots of a memory from `origin` on, made by the last `load`. `Undo` is
the memory with its log and, as a ghost, the memory as it was at that load. A slot is covered if the log
holds the value it had then (`Covers`); a list of loads and stores is `Covered` if every store finds its
slot covered. A load covers exactly the slots it names, and a store takes no cover away.
-/

/-- What happens to a memory and its undo log. -/
inductive UndoEvent (α : Type*) where
  | load (start size : ℤ)
  | store (w : ℤ) (x : α)
  deriving DecidableEq

/-- A memory, its undo log, and what the memory was when the log was loaded. -/
structure Undo (α : Type*) where
  mem : ℤ → α
  log : ℤ → α
  origin : ℤ
  size : ℤ
  snapshot : ℤ → α

namespace Undo

variable {α : Type*} {u : Undo α} {l l' : List (UndoEvent α)} {start size w : ℤ} {x : α}

/-- What an event does. -/
def step (u : Undo α) : UndoEvent α → Undo α
  | .load start size =>
    { mem := u.mem
      log := fun k => if 0 ≤ k ∧ k < size then u.mem (start + k) else u.log k
      origin := start
      size := size
      snapshot := u.mem }
  | .store w x => { u with mem := Function.update u.mem w x }

/-- What a list of events does. -/
def replay (u : Undo α) (l : List (UndoEvent α)) : Undo α := l.foldl step u

/-- The log holds the value that slot `w` had at the last load. -/
def Covers (u : Undo α) (w : ℤ) : Prop :=
  u.origin ≤ w ∧ w < u.origin + u.size ∧ u.log (w - u.origin) = u.snapshot w

/-- Every store happens while its slot is covered. -/
def Covered (u : Undo α) (l : List (UndoEvent α)) : Prop :=
  System.Along step (fun u e => ∀ w x, e = .store w x → u.Covers w) u l

@[simp] lemma replay_nil : u.replay [] = u := rfl

@[simp] lemma replay_append : u.replay (l ++ l') = (u.replay l).replay l' := List.foldl_append ..

/-- A load covers exactly the slots it names. -/
lemma covers_load : (u.step (.load start size)).Covers w ↔ start ≤ w ∧ w < start + size := by
  refine ⟨fun h => ⟨h.1, h.2.1⟩, fun h => ⟨h.1, h.2, ?_⟩⟩
  have hk : 0 ≤ w - start ∧ w - start < size := by omega
  simp only [step, if_pos hk]
  rw [add_sub_cancel]

/-- No event. -/
lemma covered_nil : u.Covered [] := System.along_nil

/-- A load, then the others. -/
lemma covered_load : u.Covered (.load start size :: l) ↔ (u.step (.load start size)).Covered l := by
  rw [Covered, System.along_cons]
  exact and_iff_right fun w x h => by cases h

/-- A store, then the others. -/
lemma covered_store :
    u.Covered (.store w x :: l) ↔ u.Covers w ∧ (u.step (.store w x)).Covered l := by
  rw [Covered, System.along_cons]
  refine and_congr_left fun _ => ⟨fun h => h w x rfl, fun h w' x' he => ?_⟩
  cases he
  exact h

/-- Some events, then the others. -/
lemma covered_append : u.Covered (l ++ l') ↔ u.Covered l ∧ (u.replay l).Covered l' :=
  System.along_append

end Undo
