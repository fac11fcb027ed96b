import Mathlib

/-!
# Removing repeats from a sorted array, in place

`uniqueLoop` is the loop that moves every element that differs from the one kept last to the front of the
array; `dropRepeats` is the list it leaves there (`uniqueLoop_take`). On a sorted array no element is left
twice and none is lost.
-/

namespace Memory

variable {α : Type*} [DecidableEq α]

/-- The elements that differ from the one before, if `last` comes before the first. -/
def dropRepeats : Option α → List α → List α
  | _, [] => []
  | last, a :: l => if some a = last then dropRepeats last l else a :: dropRepeats (some a) l

/-- `if (a[i] == last) continue; a[out++] = a[i]; last = a[i];` for `k` values of `i`. -/
def uniqueLoop : ℕ → ℕ → ℕ → Option α → List α → List α × ℕ
  | 0, _, out, _, arr => (arr, out)
  | k + 1, i, out, last, arr =>
    match arr[i]? with
    | none => (arr, out)
    | some a =>
      if some a = last then uniqueLoop k (i + 1) out last arr
      else uniqueLoop k (i + 1) (out + 1) (some a) (arr.set out a)

/-- What the loop leaves at the front of the array. -/
lemma uniqueLoop_take (k i out : ℕ) (last : Option α) (arr : List α) (hk : i + k = arr.length)
    (hout : out ≤ i) :
    (uniqueLoop k i out last arr).1.take (uniqueLoop k i out last arr).2 =
        arr.take out ++ dropRepeats last (arr.drop i) ∧
      (uniqueLoop k i out last arr).2 = out + (dropRepeats last (arr.drop i)).length ∧
      (uniqueLoop k i out last arr).1.length = arr.length := by
  induction k generalizing i out last arr with
  | zero =>
    rw [List.drop_eq_nil_of_le (by omega)]
    exact ⟨(List.append_nil _).symm, rfl, rfl⟩
  | succ k ih =>
    have hi : i < arr.length := by omega
    rw [List.drop_eq_getElem_cons hi, uniqueLoop, List.getElem?_eq_getElem hi, dropRepeats]
    dsimp only
    by_cases hsame : some arr[i] = last
    · rw [if_pos hsame, if_pos hsame]
      exact ih (i + 1) out last arr (by omega) (by omega)
    · rw [if_neg hsame, if_neg hsame]
      obtain ⟨htake, hlen, hall⟩ := ih (i + 1) (out + 1) (some arr[i]) (arr.set out arr[i])
        (by rw [List.length_set]; omega) (by omega)
      -- the elements behind `i` are not touched, the one at `out` is the one at `i`
      rw [List.drop_set_of_lt (by omega)] at htake hlen
      have hfront : (arr.set out arr[i]).take (out + 1) = arr.take out ++ [arr[i]] := by
        rw [List.take_add_one, List.take_set_of_le (le_refl out), List.getElem?_set_self (by omega)]
        rfl
      rw [hfront, List.append_assoc, List.singleton_append] at htake
      refine ⟨htake, ?_, by rw [hall, List.length_set]⟩
      rw [hlen, List.length_cons]
      omega

variable {r : α → α → Prop} {l : List α} {last : Option α}

/-- Nothing is added. -/
lemma dropRepeats_sublist (last : Option α) (l : List α) : (dropRepeats last l).Sublist l := by
  induction l generalizing last with
  | nil => exact .slnil
  | cons a l ih =>
    rw [dropRepeats]
    split
    · exact (ih last).cons a
    · exact (ih (some a)).cons_cons a

/-- In a sorted list only the repeats are dropped. -/
lemma mem_dropRepeats (hanti : ∀ a b, r a b → r b a → a = b) (hl : l.Pairwise r)
    (hlast : ∀ a, last = some a → ∀ b ∈ l, r a b) {x : α} :
    x ∈ dropRepeats last l ↔ x ∈ l ∧ some x ≠ last := by
  induction l generalizing last with
  | nil => simp [dropRepeats]
  | cons a l ih =>
    obtain ⟨ha, hl⟩ := List.pairwise_cons.1 hl
    rw [dropRepeats]
    by_cases hsame : some a = last
    · rw [if_pos hsame, ih hl fun b hb c hc => hlast b hb c (List.mem_cons_of_mem a hc), List.mem_cons]
      refine ⟨fun h => ⟨.inr h.1, h.2⟩, fun ⟨h, hne⟩ => ⟨h.resolve_left ?_, hne⟩⟩
      rintro rfl
      exact hne hsame
    · rw [if_neg hsame, List.mem_cons, List.mem_cons,
        ih hl fun b hb c hc => Option.some.inj hb ▸ ha c hc]
      constructor
      · rintro (rfl | ⟨hx, hne⟩)
        · exact ⟨.inl rfl, hsame⟩
        · -- an element that was kept before would have to be both below and above `a`
          refine ⟨.inr hx, fun heq => hne (congrArg some ?_)⟩
          exact hanti x a (hlast x heq.symm a List.mem_cons_self) (ha x hx)
      · rintro ⟨rfl | hx, hne⟩
        · exact .inl rfl
        · by_cases hxa : x = a
          · exact .inl hxa
          · exact .inr ⟨hx, fun h => hxa (Option.some.inj h)⟩

/-- In a sorted list no element is left twice. -/
lemma dropRepeats_nodup (hanti : ∀ a b, r a b → r b a → a = b) (hl : l.Pairwise r) (last : Option α) :
    (dropRepeats last l).Nodup := by
  induction l generalizing last with
  | nil => exact List.nodup_nil
  | cons a l ih =>
    obtain ⟨ha, hl⟩ := List.pairwise_cons.1 hl
    rw [dropRepeats]
    split
    · exact ih hl last
    · refine List.nodup_cons.2 ⟨fun hmem => ?_, ih hl (some a)⟩
      exact ((mem_dropRepeats hanti hl fun b hb c hc => Option.some.inj hb ▸ ha c hc).1 hmem).2 rfl

end Memory
