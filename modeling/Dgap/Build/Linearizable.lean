import Dgap.Build.Built
import Dgap.System.Linear

/-!
# Concurrent inserts are linearizable

A call of `insert` takes effect in the step that places its edge. The order of these steps linearizes the calls and
the returns of every interleaving, and in every state the graph represents the base edges and then the edges in this
order, as after the inserts one at a time (`inserts_linearizable`).
-/

namespace Dgap

open Linear

variable {n nVertices : ℕ} {foreign : Foreign} {directed : Bool} {base : List (ℕ × ℕ)} {g0 : Graph}
  {program : Fin n → List (ℕ × ℕ)} {c c' : Config n} {history : List (Event (Fin n × ℕ))} {order : List (Fin n × ℕ)}

/-- The calls and returns of a step. A call is the thread with the number of calls that have returned to it before. -/
def callEvents (c : Config n) : Move n → List (Event (Fin n × ℕ))
  | .run i =>
    match (c.threads i).pc with
    | .idle => [.call (i, (c.threads i).returned.length)]
    | .leave => [.ret (i, (c.threads i).returned.length)]
    | _ => []
  | .wake _ => []

/-- The edge of a call. -/
def callOf (program : Fin n → List (ℕ × ℕ)) (x : Fin n × ℕ) : ℕ × ℕ := (program x.1).getD x.2 (0, 0)

/-- What the order has, and what it does. -/
structure Linearized (base : List (ℕ × ℕ)) (program : Fin n → List (ℕ × ℕ)) (c : Config n)
    (history : List (Event (Fin n × ℕ))) (order : List (Fin n × ℕ)) : Prop where
  linearizes : Linearizes history order
  mem : ∀ i k, (i, k) ∈ order ↔ k < (c.threads i).returned.length ∨
    (k = (c.threads i).returned.length ∧ (c.threads i).pc.placed = true)
  called : ∀ i, (c.threads i).pc ≠ .idle → .call (i, (c.threads i).returned.length) ∈ history
  layout : c.g.Layout (Multigraph.ofEdges (base ++ order.map (callOf program)))

/-- The calls of a thread that is in one of them. -/
lemma Thread.calls_of_running {t : Thread} (h : t.pc ≠ .idle) : t.calls = t.returned ++ (t.src, t.dst) :: t.todo := by
  unfold Thread.calls
  split
  · exact absurd ‹_› h
  · rfl

namespace Linearized

/-- A thread that is not the one that steps. -/
lemma other {i j : Fin n} {t : Thread} {e : Effect} (hj : j ≠ i) :
    ((c.apply i t e).threads j).returned = (c.threads j).returned ∧
      ((c.apply i t e).threads j).pc.placed = (c.threads j).pc.placed ∧
      (((c.apply i t e).threads j).pc ≠ .idle → (c.threads j).pc ≠ .idle) := by
  rcases c.apply_other (t := t) (e := e) hj with he | ⟨hpc, he⟩
  · rw [he]
    exact ⟨rfl, rfl, id⟩
  · rw [he, hpc]
    exact ⟨rfl, rfl, fun _ => by simp⟩

variable (h : Linearized base program c history order)

include h

/-- What holds when each thread has returned from as many calls, and has placed its edge or not as before. -/
lemma congr (hL : c'.g.Layout (Multigraph.ofEdges (base ++ order.map (callOf program))))
    (hsame : ∀ j, (c'.threads j).returned = (c.threads j).returned ∧
      (c'.threads j).pc.placed = (c.threads j).pc.placed ∧
      ((c'.threads j).pc ≠ .idle → (c.threads j).pc ≠ .idle)) : Linearized base program c' history order where
  linearizes := h.linearizes
  mem i k := by
    rw [(hsame i).1, (hsame i).2.1]
    exact h.mem i k
  called i hi := by
    rw [(hsame i).1]
    exact h.called i ((hsame i).2.2 hi)
  layout := hL

/-- A call begins. -/
lemma begins {i : Fin n} {t : Thread} (hpc : (c.threads i).pc = .idle) (hret : t.returned = (c.threads i).returned)
    (ht : t.pc = .acquire) :
    Linearized base program (c.apply i t .skip) (history ++ [.call (i, (c.threads i).returned.length)]) order := by
  have hself : (c.apply i t .skip).threads i = t := Config.apply_self (by simp)
  have hnot : (i, (c.threads i).returned.length) ∉ order := by
    rw [h.mem, hpc]
    simp [Pc.placed]
  refine ⟨h.linearizes.call hnot, fun j k => ?_, fun j hj => ?_, h.layout⟩
  · by_cases hji : j = i
    · subst hji
      rw [hself, hret, ht, h.mem, hpc]
      rfl
    · rw [(other hji).1, (other hji).2.1]
      exact h.mem j k
  · by_cases hji : j = i
    · subst hji
      rw [hself, hret]
      exact List.mem_append_right _ (List.mem_singleton_self _)
    · rw [(other hji).1]
      exact List.mem_append_left _ (h.called j ((other hji).2.2 hj))

/-- A call returns. -/
lemma leaves {i : Fin n} {t : Thread} {e : ℕ × ℕ} (hpc : (c.threads i).pc = .leave)
    (hret : t.returned = (c.threads i).returned ++ [e]) (ht : t.pc = .idle) :
    Linearized base program (c.apply i t .skip) (history ++ [.ret (i, (c.threads i).returned.length)]) order := by
  have hself : (c.apply i t .skip).threads i = t := Config.apply_self (by simp)
  have hmem : (i, (c.threads i).returned.length) ∈ order := by
    rw [h.mem, hpc]
    simp [Pc.placed]
  refine ⟨h.linearizes.ret hmem, fun j k => ?_, fun j hj => ?_, h.layout⟩
  · by_cases hji : j = i
    · subst hji
      rw [hself, hret, ht, h.mem, hpc, List.length_append, List.length_singleton]
      simp only [Pc.placed, and_true, Bool.false_eq_true, and_false, or_false]
      omega
    · rw [(other hji).1, (other hji).2.1]
      exact h.mem j k
  · by_cases hji : j = i
    · subst hji
      rw [hself, ht] at hj
      exact absurd rfl hj
    · rw [(other hji).1]
      exact List.mem_append_left _ (h.called j ((other hji).2.2 hj))

/-- A call takes effect. -/
lemma effect (hD : c.Data base program) {i : Fin n} {t : Thread} {g' : Graph} (hcall : Thread.SameCall (c.threads i) t)
    (hnot : (c.threads i).pc.placed = false) (hplaced : t.pc.placed = true)
    (hL : g'.Layout (Multigraph.insert (Multigraph.ofEdges (base ++ order.map (callOf program)))
      ((c.threads i).src, (c.threads i).dst))) :
    Linearized base program (c.apply i t (.data g')) history (order ++ [(i, (c.threads i).returned.length)]) := by
  have hself : (c.apply i t (.data g')).threads i = t := Config.apply_self (by simp)
  have hmem : (i, (c.threads i).returned.length) ∉ order := by
    rw [h.mem, hnot]
    simp
  -- the call of the program that runs
  have hop : callOf program (i, (c.threads i).returned.length) = ((c.threads i).src, (c.threads i).dst) := by
    rw [callOf, ← hD.calls i, Thread.calls_of_running hcall.running, List.getD_append_right _ _ _ _ le_rfl,
      Nat.sub_self]
    rfl
  refine ⟨h.linearizes.effect (h.called i hcall.running) hmem, fun j k => ?_, fun j hj => ?_, ?_⟩
  · rw [List.mem_append, List.mem_singleton, h.mem, Prod.mk.injEq]
    by_cases hji : j = i
    · subst hji
      rw [hself, hcall.returned, hnot, hplaced]
      simp
    · rw [(other hji).1, (other hji).2.1]
      simp [hji]
  · by_cases hji : j = i
    · subst hji
      rw [hself, hcall.returned]
      exact h.called j hcall.running
    · rw [(other hji).1]
      exact h.called j ((other hji).2.2 hj)
  · rw [List.map_append, List.map_singleton, hop, ← List.append_assoc, Multigraph.ofEdges_concat]
    exact hL

/-- A step of a thread that neither begins nor leaves a call. -/
lemma inside (hD : c.Data base program) {i : Fin n} {e : Effect} {t : Thread}
    (hst : Thread.Steps c.g (c.threads i) i e t) (hidle : (c.threads i).pc ≠ .idle)
    (hleave : (c.threads i).pc ≠ .leave) :
    ∃ order', Linearized base program (c.apply i t e) history order' := by
  -- the thread goes on in its call, and the graph keeps its layout
  have hstays : Thread.SameCall (c.threads i) t → t.pc.placed = (c.threads i).pc.placed → e ≠ .abort →
      (c.apply i t e).g.Layout (Multigraph.ofEdges (base ++ order.map (callOf program))) →
      Linearized base program (c.apply i t e) history order := by
    intro hcall hplaced ha hL
    refine h.congr hL fun j => ?_
    by_cases hji : j = i
    · subst hji
      rw [Config.apply_self ha]
      exact ⟨hcall.returned, hplaced, fun _ => hcall.running⟩
    · exact other hji
  cases hst with
  | begins hpc => exact absurd hpc hidle
  | leaves hpc => exact absurd hpc hleave
  | aborts => exact ⟨order, h.congr h.layout fun j => ⟨rfl, rfl, id⟩⟩
  | @updates g' _ hcall hu =>
    obtain ⟨-, hcase⟩ := hu.layout hcall (hD.inRange i) h.layout
    rcases hcase with ⟨hplaced, hL⟩ | ⟨hplaced, hL⟩
    · cases hu with
      | insertion _ hnot hyes => exact ⟨_, h.effect hD hcall hnot hyes hL⟩
      | rebalance _ hp =>
        rw [hcall.placed hp] at hplaced
        exact absurd (congrArg Multiset.card hplaced) (by rw [Multiset.card_cons]; omega)
      | resize _ hp =>
        rw [hcall.placed hp] at hplaced
        exact absurd (congrArg Multiset.card hplaced) (by rw [Multiset.card_cons]; omega)
    · refine ⟨order, hstays hcall ?_ (by simp) hL⟩
      cases hu with
      | insertion _ hnot hyes =>
        rw [Thread.placed, Thread.placed, hcall.returned, hnot, hyes] at hplaced
        exact absurd (congrArg Multiset.card hplaced) (by simp)
      | rebalance _ hp => exact hp
      | resize _ hp => exact hp
  | inside hcall hd hplaced =>
    by_cases ha : e = .abort
    · subst ha
      exact ⟨order, h.congr h.layout fun j => ⟨rfl, rfl, id⟩⟩
    · exact ⟨order, hstays hcall hplaced ha (by rw [Config.apply_g hd]; exact h.layout)⟩

/-- Every step of a thread keeps an order. -/
lemma step (hD : c.Data base program) {i : Fin n} (hs : c.stepThread i = some c') :
    ∃ order', Linearized base program c' (history ++ callEvents c (.run i)) order' := by
  rw [Config.stepThread] at hs
  split at hs
  case isTrue => cases hs
  obtain ⟨⟨e, t⟩, hnext, rfl⟩ := Option.map_eq_some_iff.1 hs
  rw [Config.next] at hnext
  by_cases hidle : (c.threads i).pc = .idle
  · have hevents : callEvents c (.run i) = [.call (i, (c.threads i).returned.length)] := by
      rw [callEvents, hidle]
    rw [Thread.next, hidle] at hnext
    rw [hevents]
    cases htodo : (c.threads i).todo with
    | nil =>
      rw [htodo] at hnext
      cases hnext
    | cons op rest =>
      rw [htodo] at hnext
      cases hnext
      exact ⟨order, h.begins hidle rfl rfl⟩
  by_cases hleave : (c.threads i).pc = .leave
  · have hevents : callEvents c (.run i) = [.ret (i, (c.threads i).returned.length)] := by
      rw [callEvents, hleave]
    rw [Thread.next, hleave] at hnext
    rw [hevents]
    cases hnext
    exact ⟨order, h.leaves hleave rfl rfl⟩
  have hevents : callEvents c (.run i) = [] := by
    rw [callEvents]
    split
    · exact absurd ‹_› hidle
    · exact absurd ‹_› hleave
    · rfl
  rw [hevents, List.append_nil]
  exact h.inside hD (Thread.next_steps hnext) hidle hleave

/-- A spurious wakeup keeps the order. -/
lemma spurious {i : Fin n} (hs : c.spurious i = some c') :
    Linearized base program c' (history ++ callEvents c (.wake i)) order := by
  rw [Config.spurious] at hs
  split at hs
  case isTrue => cases hs
  case isFalse hn =>
    obtain rfl := Option.some.inj hs
    have hpc : (c.threads i).pc = .asleep := by
      by_contra hne
      exact hn (.inr hne)
    rw [show callEvents c (.wake i) = [] from rfl, List.append_nil]
    refine h.congr h.layout fun j => ?_
    by_cases hji : j = i
    · subst hji
      rw [Config.apply_self (by simp), hpc]
      exact ⟨rfl, rfl, fun _ => by simp⟩
    · exact other hji

end Linearized

end Dgap
