import Dgap.Threads.Protocol

/-!
# The lock protocol does not stick

`Config.Protocol` is the invariant of the calm runs: mutexes belong to the threads that hold them, counters
count the threads that owe to them, and a thread that waits for a rebalance has somebody who will wake it.
From it, no thread ever waits for a mutex it holds, a thread between two calls holds and owes nothing, and
some thread can always move (`Protocol.progress`): batches are locked in ascending order, so the holder of
the greatest mutex is not blocked, and when no mutex is held a sleeping thread waits for one that is awake.

`lock_protocol` says so for all runs whose steps are calm. A run that is not calm can leave a counter
raised for ever (`lock_protocol_fails`): two threads pass the check of the root at the same time, one of
them resizes the array, and the other then returns early with its own segment marked.
-/

namespace Dgap

open Locks

namespace Thread

variable {n : ℕ} {t t' : Thread} {g : Graph} {r : ℕ → ℤ} {o : ℕ → Option (Fin n)} {i : Fin n}
  {e : Effect} {s : ℕ}

/-- A thread that will notify the condition variable of `s` unless the counter is raised. -/
def Pending (t : Thread) (s : ℕ) : Prop :=
  match t.pc with
  | .readDepend seg | .notify seg => seg = s
  | .unlockSeg seg rebalDepend => seg = s ∧ rebalDepend = 0
  | _ => False

/-- A thread that has inserted its edge does not go to sleep before it returns. -/
lemma Steps.placed_mono (h : Steps g t i e t') (ha : e ≠ .abort) (hp : t.pc.placed = true) :
    t'.pc.placed = true ∨ t'.pc = .idle := by
  cases h with
  | begins hpc _ => rw [hpc] at hp; cases hp
  | leaves _ => exact .inr rfl
  | aborts => exact absurd rfl ha
  | updates _ hu =>
    cases hu with
    | insertion _ h0 _ => rw [h0] at hp; cases hp
    | rebalance _ h1 => exact .inl (h1.trans hp)
    | resize _ h1 => exact .inl (h1.trans hp)
  | inside _ _ h1 => exact .inl (h1.trans hp)

/-- A thread decides to sleep when it finds its counter raised, and falls asleep when it releases its mutex
in `cv.wait`. -/
lemma next_waits (h : t.next g r o i = some (e, t')) (ha : e ≠ .abort)
    (hpc' : t'.pc = .sleep ∨ t'.pc = .asleep) :
    (t.pc = .testRebalance ∧ r t.current ≠ 0 ∧ t'.pc = .sleep ∧ t'.current = t.current ∧ e = .skip) ∨
      t.pc = .sleep ∧ t'.pc = .asleep ∧ t'.current = t.current ∧ e = .unlock t.current := by
  -- a thread whose edge is placed does not wait any more
  have hmono : t.pc.placed ≠ true := fun hp => by
    rcases (next_steps h).placed_mono ha hp with h1 | h1
    all_goals rcases hpc' with hpc' | hpc' <;> simp [hpc', Pc.placed] at h1
  unfold next at h
  cases hpc : t.pc with
  | testRebalance =>
    simp only [hpc] at h
    obtain ⟨rfl, rfl⟩ := Prod.mk.inj (Option.some.inj h)
    by_cases hr : r t.current = 0
    · simp [hr] at hpc'
    · exact .inl ⟨rfl, hr, by simp [hr], rfl, rfl⟩
  | sleep =>
    simp only [hpc] at h
    obtain ⟨rfl, rfl⟩ := Prod.mk.inj (Option.some.inj h)
    exact .inr ⟨rfl, rfl, rfl, rfl⟩
  | idle =>
    simp only [hpc] at h
    split at h
    · cases h
    · obtain ⟨rfl, rfl⟩ := Prod.mk.inj (Option.some.inj h)
      simp at hpc'
  | acquire =>
    simp only [hpc] at h
    split at h
    · obtain ⟨rfl, rfl⟩ := Prod.mk.inj (Option.some.inj h)
      simp at hpc'
    · cases h
  | asleep => simp [hpc] at h
  | insertion =>
    simp only [hpc] at h
    split at h
    · obtain ⟨rfl, rfl⟩ := Prod.mk.inj (Option.some.inj h)
      exact absurd rfl ha
    · obtain ⟨rfl, rfl⟩ := Prod.mk.inj (Option.some.inj h)
      simp at hpc'
  | _ => simp [hpc, Pc.placed] at hmono

/-- A pending notification is made, stays pending, or finds the counter raised. -/
lemma next_pending (h : t.next g r o i = some (e, t')) (hp : t.Pending s) :
    e = .notify s ∨ t'.Pending s ∨ (e = .skip ∧ r s ≠ 0) := by
  unfold Pending at hp
  unfold next at h
  cases hpc : t.pc with
  | readDepend seg =>
    simp only [hpc] at h hp
    obtain ⟨rfl, rfl⟩ := Prod.mk.inj (Option.some.inj h)
    subst hp
    by_cases hr : r seg = 0
    · exact .inr (.inl ⟨rfl, hr⟩)
    · exact .inr (.inr ⟨rfl, hr⟩)
  | unlockSeg seg rebalDepend =>
    simp only [hpc] at h hp
    obtain ⟨rfl, rfl⟩ := Prod.mk.inj (Option.some.inj h)
    rw [if_pos hp.2]
    exact .inr (.inl hp.1)
  | notify seg =>
    simp only [hpc] at h hp
    obtain ⟨rfl, rfl⟩ := Prod.mk.inj (Option.some.inj h)
    exact .inl (by rw [hp])
  | _ => simp [hpc] at hp

/-- A thread can move unless it sleeps, has nothing to do, or waits for a locked mutex. -/
lemma next_isSome (h1 : t.pc ≠ .asleep) (h2 : t.pc = .idle → t.todo ≠ [])
    (h3 : ∀ w, t.wants = some w → o w = none) : ∃ e t', t.next g r o i = some (e, t') := by
  rw [← Prod.exists (p := fun x => t.next g r o i = some x), ← Option.isSome_iff_exists]
  unfold next
  unfold wants at h3
  cases hpc : t.pc with
  | idle =>
    cases htodo : t.todo with
    | nil => exact absurd htodo (h2 hpc)
    | cons e rest => rfl
  | asleep => exact absurd hpc h1
  | acquire =>
    simp only [hpc] at h3 ⊢
    rw [if_pos (h3 _ rfl)]
    rfl
  | lockSeg seg =>
    simp only [hpc] at h3 ⊢
    rw [if_pos (h3 _ rfl)]
    rfl
  | readTotal k actual => cases k <;> rfl
  | _ =>
    simp only
    repeat' split
    all_goals rfl

end Thread

namespace Config

variable {n : ℕ} {c c' : Config n} {base : List (ℕ × ℕ)} {program : Fin n → List (ℕ × ℕ)}
  {i : Fin n} {t : Thread} {e : Effect}

/-- The invariant of the calm runs. -/
structure Protocol (c : Config n) : Prop where
  legal : ∀ i, (c.threads i).Legal c.g.segmentCount
  owns : Owns c.owner fun i => (c.threads i).held
  counts : Counts c.onRebalance fun i => (c.threads i).owed
  net : ∀ i s, c.net i s = if s ∈ (c.threads i).owed then 1 else 0
  sleep : ∀ i, (c.threads i).pc = .sleep → ∃ j, (c.threads i).current ∈ (c.threads j).owed
  asleep : ∀ i, (c.threads i).pc = .asleep →
    ∃ j, (c.threads i).current ∈ (c.threads j).owed ∨ (c.threads j).Pending (c.threads i).current

/-- Only the thread that steps changes the mutexes it holds. -/
lemma apply_held (ha : e ≠ .abort) : (fun j => ((c.apply i t e).threads j).held) =
    Function.update (fun j => (c.threads j).held) i t.held := by
  funext j
  by_cases hj : j = i
  · subst hj
    rw [apply_self ha, Function.update_self]
  · rw [Function.update_of_ne hj]
    rcases c.apply_other (t := t) (e := e) hj with he | ⟨hpc, he⟩
    · rw [he]
    · rw [he]
      simp [Thread.held, hpc]

/-- Only the thread that steps changes the counters it owes to. -/
lemma apply_owed (ha : e ≠ .abort) : (fun j => ((c.apply i t e).threads j).owed) =
    Function.update (fun j => (c.threads j).owed) i t.owed := by
  funext j
  by_cases hj : j = i
  · subst hj
    rw [apply_self ha, Function.update_self]
  · rw [Function.update_of_ne hj]
    rcases c.apply_other (t := t) (e := e) hj with he | ⟨hpc, he⟩
    · rw [he]
    · rw [he]
      simp [Thread.owed, hpc]

/-- A thread that can move. -/
lemma stepThread_isSome (ha : c.aborted = false)
    (h1 : (c.threads i).pc ≠ .asleep) (h2 : (c.threads i).pc = .idle → (c.threads i).todo ≠ [])
    (h3 : ∀ w, (c.threads i).wants = some w → c.owner w = none) :
    ∃ c', c.stepThread i = some c' := by
  obtain ⟨e, t, hn⟩ := Thread.next_isSome (g := c.g) (r := c.onRebalance) (i := i) h1 h2 h3
  have hn : c.next i = some (e, t) := hn
  exact ⟨c.apply i t e, by rw [stepThread, ha, hn]; rfl⟩

namespace Protocol

/-- The mutexes after a step. -/
lemma owns_apply (h : Protocol c) (ha : e ≠ .abort)
    (hr : (c.threads i).Respects c.onRebalance c.owner e t) :
    Owns (c.apply i t e).owner fun j => ((c.apply i t e).threads j).held := by
  rw [apply_held ha]
  have keep : t.held = (c.threads i).held → Function.update (fun j => (c.threads j).held) i t.held =
      fun j => (c.threads j).held := fun he => by
    rw [he]
    exact Function.update_eq_self i _
  cases e with
  | abort => exact absurd rfl ha
  | lock s =>
    obtain ⟨hfree, hheld, -⟩ := hr
    rw [hheld]
    exact h.owns.lock hfree
  | unlock s =>
    obtain ⟨hmem, hheld, -⟩ := hr
    rw [hheld]
    exact h.owns.unlock hmem
  | _ =>
    rw [keep hr.1]
    exact h.owns

/-- The counters after a step. -/
lemma counts_apply (h : Protocol c) (ha : e ≠ .abort)
    (hr : (c.threads i).Respects c.onRebalance c.owner e t) :
    Counts (c.apply i t e).onRebalance fun j => ((c.apply i t e).threads j).owed := by
  rw [apply_owed ha]
  have keep : t.owed = (c.threads i).owed → Function.update (fun j => (c.threads j).owed) i t.owed =
      fun j => (c.threads j).owed := fun he => by
    rw [he]
    exact Function.update_eq_self i _
  cases e with
  | abort => exact absurd rfl ha
  | write s x d =>
    obtain ⟨-, ⟨hx, -, hmem, howed⟩ | ⟨hx, -, hmem, -, howed, -⟩⟩ := hr
    · rw [howed]
      show Counts (Function.update c.onRebalance s x) _
      rw [hx]
      exact h.counts.raise hmem
    · rw [howed]
      show Counts (Function.update c.onRebalance s x) _
      rw [hx]
      exact h.counts.lower hmem
  | lock s | unlock s =>
    rw [keep hr.2.2]
    exact h.counts
  | _ =>
    rw [keep hr.2]
    exact h.counts

/-- What the threads have added to the counters after a step. -/
lemma net_apply (h : Protocol c) (ha : e ≠ .abort)
    (hr : (c.threads i).Respects c.onRebalance c.owner e t) (j : Fin n) (s : ℕ) :
    (c.apply i t e).net j s = if s ∈ ((c.apply i t e).threads j).owed then 1 else 0 := by
  have howed : ((c.apply i t e).threads j).owed =
      Function.update (fun j => (c.threads j).owed) i t.owed j := congrFun (apply_owed ha) j
  rw [howed]
  have keep : t.owed = (c.threads i).owed →
      c.net j s = if s ∈ Function.update (fun j => (c.threads j).owed) i t.owed j then 1 else 0 := by
    intro he
    rw [he, Function.update_eq_self i fun j => (c.threads j).owed]
    exact h.net j s
  cases e with
  | abort => exact absurd rfl ha
  | write q x d =>
    show Function.update c.net i (Function.update (c.net i) q (c.net i q + d)) j s = _
    by_cases hj : j = i
    · subst hj
      rw [Function.update_self, Function.update_self]
      obtain ⟨-, ⟨-, hd, hmem, howed⟩ | ⟨-, hd, hmem, -, howed, -⟩⟩ := hr
      all_goals
        rw [howed]
        by_cases hs : s = q
        · subst hs
          rw [Function.update_self, h.net, hd]
          simp [hmem]
        · rw [Function.update_of_ne hs, h.net]
          simp [hs]
    · rw [Function.update_of_ne hj, Function.update_of_ne hj]
      exact h.net j s
  | lock _ | unlock _ => exact keep hr.2.2
  | _ => exact keep hr.2

/-- A counter that was owed to is owed to after a step, or the thread that stepped will notify. -/
lemma owed_apply (ha : e ≠ .abort)
    (hr : (c.threads i).Respects c.onRebalance c.owner e t) {k : Fin n} {s : ℕ}
    (hk : s ∈ (c.threads k).owed) :
    s ∈ ((c.apply i t e).threads k).owed ∨ (k = i ∧ s ∈ (c.threads i).held ∧ t.Pending s) := by
  have howed : ((c.apply i t e).threads k).owed =
      Function.update (fun j => (c.threads j).owed) i t.owed k := congrFun (apply_owed ha) k
  rw [howed]
  by_cases hki : k = i
  · subst hki
    rw [Function.update_self]
    cases e with
    | abort => exact absurd rfl ha
    | write q x d =>
      obtain ⟨-, ⟨-, -, -, howed⟩ | ⟨-, -, -, hheld, howed, hpc⟩⟩ := hr
      · rw [howed]
        exact .inl (Finset.mem_insert_of_mem hk)
      · by_cases hs : s = q
        · subst hs
          refine .inr ⟨rfl, hheld, ?_⟩
          simp [Thread.Pending, hpc]
        · rw [howed]
          exact .inl (Finset.mem_erase.2 ⟨hs, hk⟩)
    | lock _ | unlock _ =>
      rw [hr.2.2]
      exact .inl hk
    | _ =>
      rw [hr.2]
      exact .inl hk
  · rw [Function.update_of_ne hki]
    exact .inl hk

/-- A thread other than the one that steps, if it is not woken. -/
lemma other_eq {j : Fin n} (hj : j ≠ i) (hpc : ((c.apply i t e).threads j).pc ≠ .acquire) :
    (c.apply i t e).threads j = c.threads j :=
  (c.apply_other (t := t) (e := e) hj).resolve_right fun h => hpc (by rw [h.2]; rfl)

/-- A raised counter is owed to. -/
lemma exists_owed (h : Protocol c) {s : ℕ} (hs : c.onRebalance s ≠ 0) :
    ∃ j, s ∈ (c.threads j).owed := by
  by_contra hnone
  push Not at hnone
  exact hs (h.counts.eq_zero_iff.2 hnone)

/-- A thread that is about to sleep has somebody who will wake it. -/
lemma sleep_apply (h : Protocol c) (ha : e ≠ .abort) (hn : c.next i = some (e, t))
    (hr : (c.threads i).Respects c.onRebalance c.owner e t) (j : Fin n)
    (hpc : ((c.apply i t e).threads j).pc = .sleep) :
    ∃ k, ((c.apply i t e).threads j).current ∈ ((c.apply i t e).threads k).owed := by
  by_cases hj : j = i
  · subst hj
    rw [apply_self ha] at hpc ⊢
    obtain ⟨-, hne, -, hcur, rfl⟩ := (Thread.next_waits hn ha (.inl hpc)).resolve_right fun hw => by
      rw [hpc] at hw
      cases hw.2.1
    obtain ⟨k, hk⟩ := h.exists_owed hne
    rw [hcur]
    refine ⟨k, (owed_apply ha hr hk).resolve_right fun hp => ?_⟩
    simp [Thread.Pending, hpc] at hp
  · have he := other_eq hj (by rw [hpc]; simp)
    rw [he] at hpc ⊢
    obtain ⟨k, hk⟩ := h.sleep j hpc
    refine ⟨k, (owed_apply ha hr hk).resolve_right fun hp => ?_⟩
    -- the counter of a segment is only lowered under its mutex, which the sleeper still holds
    have hheld : (c.threads j).current ∈ (c.threads j).held := by simp [Thread.held, hpc]
    exact hj (h.owns.exclusive hheld hp.2.1)

/-- A thread that sleeps has somebody who will wake it. -/
lemma asleep_apply (h : Protocol c) (ha : e ≠ .abort) (hn : c.next i = some (e, t))
    (hr : (c.threads i).Respects c.onRebalance c.owner e t) (j : Fin n)
    (hpc : ((c.apply i t e).threads j).pc = .asleep) :
    ∃ k, ((c.apply i t e).threads j).current ∈ ((c.apply i t e).threads k).owed ∨
      ((c.apply i t e).threads k).Pending ((c.apply i t e).threads j).current := by
  have settle : ∀ {s : ℕ} {k : Fin n}, s ∈ (c.threads k).owed →
      ∃ k, s ∈ ((c.apply i t e).threads k).owed ∨ ((c.apply i t e).threads k).Pending s := by
    intro s k hk
    rcases owed_apply ha hr hk with hk' | ⟨-, -, hp⟩
    · exact ⟨k, .inl hk'⟩
    · exact ⟨i, .inr (by rw [apply_self ha]; exact hp)⟩
  by_cases hj : j = i
  · subst hj
    rw [apply_self ha] at hpc ⊢
    obtain ⟨hpc0, -, hcur, -⟩ := (Thread.next_waits hn ha (.inr hpc)).resolve_left fun hw => by
      rw [hpc] at hw
      cases hw.2.2.1
    obtain ⟨k, hk⟩ := h.sleep j hpc0
    rw [hcur]
    exact settle hk
  · have he := other_eq hj (by rw [hpc]; simp)
    rw [he] at hpc ⊢
    obtain ⟨k, hk | hk⟩ := h.asleep j hpc
    · exact settle hk
    · by_cases hki : k = i
      · subst hki
        rcases Thread.next_pending hn hk with rfl | hp | ⟨rfl, hne⟩
        · -- the notification wakes the sleeper
          exfalso
          have : (c.apply k t (.notify (c.threads j).current)).threads j =
              (c.threads j).wake (c.threads j).current := by
            simp only [apply, Function.update_of_ne hj]
          rw [this] at he
          rw [Thread.wake, if_pos ⟨hpc, rfl⟩] at he
          rw [← he] at hpc
          cases hpc
        · exact ⟨k, .inr (by rw [apply_self ha]; exact hp)⟩
        · obtain ⟨k', hk'⟩ := h.exists_owed hne
          exact settle hk'
      · -- another thread that will notify is not woken itself
        have hk' := (c.apply_other (t := t) (e := e) hki).resolve_right fun hw => by
          simp [Thread.Pending, hw.1] at hk
        exact ⟨k, .inr (by rw [hk']; exact hk)⟩

/-- A calm step keeps the protocol. -/
lemma step (h : Protocol c) (hD : Data base program c)
    (hcalm : (c.threads i).Calm c.g c.onRebalance) (hs : c.stepThread i = some c') :
    Protocol c' := by
  have hshape := (hD.step hs).2
  unfold stepThread at hs
  split at hs
  case isTrue => cases hs
  obtain ⟨⟨e, t⟩, hn, rfl⟩ := Option.map_eq_some_iff.1 hs
  obtain ⟨ops, hL, -⟩ := hD.layout
  by_cases ha : e = .abort
  · subst ha
    exact ⟨h.legal, h.owns, h.counts, h.net, h.sleep, h.asleep⟩
  obtain ⟨hlegal, hr⟩ :=
    (Thread.next_legal hL.geometry (hD.inRange i) (h.legal i) hcalm hn).resolve_left ha
  refine ⟨fun j => ?_, h.owns_apply ha hr, h.counts_apply ha hr, h.net_apply ha hr,
    h.sleep_apply ha hn hr, h.asleep_apply ha hn hr⟩
  rw [hshape.segmentCount]
  by_cases hj : j = i
  · subst hj
    rw [apply_self ha]
    exact hlegal
  · rcases c.apply_other (t := t) (e := e) hj with he | ⟨-, he⟩
    · rw [he]
      exact h.legal j
    · rw [he]
      exact trivial

/-- A spurious wakeup keeps the protocol. -/
lemma spurious (h : Protocol c) (hs : c.spurious i = some c') : Protocol c' := by
  unfold Config.spurious at hs
  split at hs
  case isTrue => cases hs
  case isFalse hcond =>
    obtain rfl := Option.some.inj hs
    have hpc : (c.threads i).pc = .asleep := by
      by_contra hne
      exact hcond (.inr hne)
    have ha : (.skip : Effect) ≠ .abort := by simp
    have hr : (c.threads i).Respects c.onRebalance c.owner .skip ((c.threads i).goto .acquire) :=
      ⟨by simp [Thread.held, hpc], by simp [Thread.owed, hpc]⟩
    have hother : ∀ j, j ≠ i → (c.apply i ((c.threads i).goto .acquire) .skip).threads j =
        c.threads j := fun j hj => by simp only [apply, Function.update_of_ne hj]
    have hself : ∀ j, ((c.apply i ((c.threads i).goto .acquire) .skip).threads j).pc ≠ .acquire →
        j ≠ i := fun j hpc' hj => hpc' (by rw [hj, apply_self ha]; rfl)
    have howed : ∀ {k s}, s ∈ (c.threads k).owed →
        s ∈ ((c.apply i ((c.threads i).goto .acquire) .skip).threads k).owed := fun hk =>
      (owed_apply ha hr hk).resolve_right fun hp => by simp [Thread.Pending] at hp
    refine ⟨fun j => ?_, h.owns_apply ha hr, h.counts_apply ha hr, h.net_apply ha hr,
      fun j hpc' => ?_, fun j hpc' => ?_⟩
    · by_cases hj : j = i
      · subst hj
        rw [apply_self ha]
        exact trivial
      · rw [hother j hj]
        exact h.legal j
    · have he := hother j (hself j (by rw [hpc']; simp))
      rw [he] at hpc' ⊢
      obtain ⟨k, hk⟩ := h.sleep j hpc'
      exact ⟨k, howed hk⟩
    · have he := hother j (hself j (by rw [hpc']; simp))
      rw [he] at hpc' ⊢
      obtain ⟨k, hk | hk⟩ := h.asleep j hpc'
      · exact ⟨k, .inl (howed hk)⟩
      · have hki : k ≠ i := by
          rintro rfl
          simp [Thread.Pending, hpc] at hk
        exact ⟨k, .inr (by rw [hother k hki]; exact hk)⟩

/-- Some thread can move as long as a call is running or to come. -/
lemma progress (h : Protocol c) (ha : c.aborted = false)
    (hrun : ∃ i, (c.threads i).pc ≠ .idle ∨ (c.threads i).todo ≠ []) :
    ∃ i c', c.stepThread i = some c' := by
  by_cases hheld : ∃ i, (c.threads i).held.Nonempty
  · -- the holder of the greatest mutex
    obtain ⟨i, ⟨s, hs⟩, hfree⟩ := h.owns.exists_unblocked (fun i => (c.threads i).wants)
      (fun i w hw s hs => by
        simp only [Thread.wants] at hw
        split at hw
        · rename_i hpc
          simp [Thread.held, hpc] at hs
        · rename_i seg hpc
          obtain rfl := Option.some.inj hw
          simp only [Thread.held, hpc, Finset.mem_Ico] at hs
          exact hs.2
        · cases hw)
      hheld
    obtain ⟨c', hc'⟩ := stepThread_isSome ha (fun hpc => by simp [Thread.held, hpc] at hs)
      (fun hpc => by simp [Thread.held, hpc] at hs) hfree
    exact ⟨i, c', hc'⟩
  · -- no mutex is held, so only sleepers cannot move
    have hfree : ∀ s, c.owner s = none := by
      intro s
      cases ho : c.owner s with
      | none => rfl
      | some j => exact absurd ⟨j, s, (h.owns s j).1 ho⟩ hheld
    have awake : ∀ i, (c.threads i).pc ≠ .asleep →
        ((c.threads i).pc = .idle → (c.threads i).todo ≠ []) → ∃ i c', c.stepThread i = some c' :=
      fun i h1 h2 => by
        obtain ⟨c', hc'⟩ := stepThread_isSome ha h1 h2 fun w _ => hfree w
        exact ⟨i, c', hc'⟩
    obtain ⟨i, hi⟩ := hrun
    by_cases hpc : (c.threads i).pc = .asleep
    · obtain ⟨j, hj⟩ := h.asleep i hpc
      refine awake j (fun hpcj => ?_) fun hpcj => ?_
      all_goals
        rcases hj with hj | hj
        · simp [Thread.owed, hpcj] at hj
        · simp [Thread.Pending, hpcj] at hj
    · exact awake i hpc fun hidle => hi.resolve_left fun hne => hne hidle

end Protocol

/-- What the lock protocol promises in a state: a thread between two calls holds no mutex and owes to no
counter, so that all mutexes are free and all counters zero when no call is running; no thread waits for
a mutex that it holds; and while a call is running or to come, some thread can move, unless a failed
assertion has ended the process. -/
structure LockSafe (c : Config n) : Prop where
  returned : ∀ i, (c.threads i).pc = .idle → (∀ s, c.owner s ≠ some i) ∧ ∀ s, c.net i s = 0
  quiet : (∀ i, (c.threads i).pc = .idle) →
    (∀ s, c.owner s = none) ∧ ∀ s, c.onRebalance s = 0
  noRelock : ∀ i s, (c.threads i).wants = some s → c.owner s ≠ some i
  progress : c.aborted = false → (∃ i, (c.threads i).pc ≠ .idle ∨ (c.threads i).todo ≠ []) →
    ∃ i c', c.stepThread i = some c'

/-- The invariant implies the promise. -/
lemma Protocol.lockSafe (h : Protocol c) : LockSafe c := by
  have hidle : ∀ i, (c.threads i).pc = .idle → ∀ s, s ∉ (c.threads i).held ∧ s ∉ (c.threads i).owed :=
    fun i hpc s => by simp [Thread.held, Thread.owed, hpc]
  refine ⟨fun i hpc => ⟨fun s ho => (hidle i hpc s).1 ((h.owns s i).1 ho), fun s => ?_⟩,
    fun hall => ⟨fun s => ?_, fun s => ?_⟩, fun i s hw ho => ?_, h.progress⟩
  · rw [h.net, if_neg (hidle i hpc s).2]
  · cases ho : c.owner s with
    | none => rfl
    | some j => exact absurd ((h.owns s j).1 ho) (hidle j (hall j) s).1
  · exact h.counts.eq_zero_iff.2 fun i => (hidle i (hall i) s).2
  · have hm := (h.owns s i).1 ho
    simp only [Thread.wants] at hw
    split at hw
    · rename_i hpc
      simp [Thread.held, hpc] at hm
    · rename_i seg hpc
      obtain rfl := Option.some.inj hw
      simp [Thread.held, hpc] at hm
    · cases hw

end Config

/-- A move that keeps the protocol. -/
def CalmMove {n : ℕ} (c : Config n) : Move n → Prop
  | .run i => (c.threads i).Calm c.g c.onRebalance
  | .wake _ => True

instance {n : ℕ} : ∀ (c : Config n) (m : Move n), Decidable (CalmMove c m)
  | c, .run i => inferInstanceAs (Decidable ((c.threads i).Calm c.g c.onRebalance))
  | _, .wake _ => .isTrue trivial

section Concurrent

variable {n nVertices : ℕ} {foreign : Foreign} {directed : Bool} {base : List (ℕ × ℕ)} {g0 : Graph}
  {program : Fin n → List (ℕ × ℕ)} {c : Config n}

/-- Every state of a run whose steps are all calm keeps the promise of the lock protocol. -/
theorem lock_protocol (h2 : 2 ≤ nVertices) (hsorted : base.Pairwise fun e e' => e.1 ≤ e'.1)
    (hbase : ∀ e ∈ base, e.1 < nVertices ∧ e.2 < nVertices)
    (hcreate : Graph.create foreign directed nVertices base = some g0)
    (hprogram : ∀ i, ∀ e ∈ program i, e.1 < g0.numVertices ∧ e.2 < g0.numVertices)
    (hc : ((inserts g0 program).restrict CalmMove).Reach c) : c.LockSafe := by
  have hcr := Graph.create_spec h2 hsorted (fun e he => (hbase e he).1) hcreate
  suffices h : c.Data base program ∧ c.Protocol from h.2.lockSafe
  refine hc.inv (I := fun c => c.Data base program ∧ c.Protocol) ?_ ?_
  · rintro c rfl
    refine ⟨inserts_data h2 hsorted hbase hcreate hprogram (.init rfl), ⟨fun i => trivial,
      fun s i => ?_, fun s => ?_, fun i s => ?_, fun i hpc => ?_, fun i hpc => ?_⟩⟩
    · simp [Config.start, Thread.start, Thread.held]
    · simp [Config.start, Thread.start, Thread.owed]
    · simp [Config.start, Thread.start, Thread.owed]
    · cases hpc
    · cases hpc
  · rintro c m c' ⟨hD, hP⟩ ⟨hcalm, hst⟩
    cases m with
    | run i => exact ⟨(hD.step hst).1, hP.step hD hcalm hst⟩
    | wake i => exact ⟨(hD.spurious hst).1, hP.spurious hst⟩

end Concurrent

/-- One insert by one thread and three by another, the last of which walks past the root and resizes. -/
theorem lock_protocol_two : ∃ (g0 : Graph) (c : Config 2),
    Graph.create ⟨fun _ => 0, fun _ => .zero⟩ true 2 [] = some g0 ∧
      ((inserts g0 ![[(0, 1), (0, 1), (0, 1)], [(1, 0)]]).restrict CalmMove).Reach c ∧
      ((c.threads 0).returned.length = 3 ∧ (c.threads 1).returned.length = 1) ∧ c.LockSafe := by
  obtain ⟨g0, c, hg, hc, hp⟩ := reach_of_check CalmMove ⟨fun _ => 0, fun _ => .zero⟩ true 2 []
    ![[(0, 1), (0, 1), (0, 1)], [(1, 0)]] (List.replicate 8 1 ++ List.replicate 82 0)
    (fun c => (c.threads 0).returned.length == 3 && (c.threads 1).returned.length == 1)
    (by decide +kernel)
  simp only [Bool.and_eq_true, beq_iff_eq] at hp
  have hnum : g0.numVertices = 2 :=
    (Graph.create_spec (by decide) (by decide) (by decide) hg).shape.numVertices.trans (by decide)
  refine ⟨g0, c, hg, hc, hp, lock_protocol (by decide) (by decide) (by decide) hg ?_ hc⟩
  rw [hnum]
  decide

/-- Two threads pass the check of the root at the same time; one of them resizes the array, and the other
returns early with its own segment marked. No call is running then, but a counter is not zero. -/
theorem lock_protocol_fails : ∃ (g0 : Graph) (c : Config 2),
    Graph.create ⟨fun _ => 0, fun _ => .zero⟩ true 2 [] = some g0 ∧
      (inserts g0 ![[(0, 1), (0, 1), (0, 1)], [(1, 0), (1, 0), (1, 0)]]).Reach c ∧ ¬ c.LockSafe := by
  obtain ⟨g0, c, hg, hc, hp⟩ := reach_of_check (fun _ _ => True) ⟨fun _ => 0, fun _ => .zero⟩ true 2 []
    ![[(0, 1), (0, 1), (0, 1)], [(1, 0), (1, 0), (1, 0)]]
    (List.replicate 16 0 ++ List.replicate 16 1 ++ List.replicate 9 0 ++ List.replicate 9 1 ++
      List.replicate 33 0 ++ List.replicate 33 1 ++ List.replicate 21 0 ++ List.replicate 3 1)
    (fun c => (c.threads 0).pc == .idle && (c.threads 1).pc == .idle && c.onRebalance 1 == 1)
    (by decide +kernel)
  simp only [Bool.and_eq_true, beq_iff_eq] at hp
  refine ⟨g0, c, hg, hc.of_restrict, fun h => ?_⟩
  have hidle : ∀ i, (c.threads i).pc = .idle := Fin.forall_fin_two.2 hp.1
  have := (h.quiet hidle).2 1
  omega

end Dgap
