import Mathlib

/-!
# Integer-indexed memories

A memory is a total map from integer indices, so that an index outside an allocated block still
denotes something (the map says what a stray read sees). `slice` reads a block as a list. `copyUp`
and `copyDown` are the two element-by-element copy loops, `blit` is what either of them computes when
it runs in the safe direction (`copyUp_eq` / `copyDown_eq`), and `writeDown` stores a list from the
top of a block downwards.
-/

namespace Memory

variable {α : Type*}

/-- The `k` values of `m` from index `i` on. -/
def slice (m : ℤ → α) (i : ℤ) : ℕ → List α
  | 0 => []
  | k + 1 => m i :: slice m (i + 1) k

/-- A slice has as many values as it was asked for. -/
@[simp] lemma slice_length (m : ℤ → α) (i : ℤ) (k : ℕ) : (slice m i k).length = k := by
  induction k generalizing i with
  | zero => rfl
  | succ k ih => simp [slice, ih]

/-- The values of a slice. -/
lemma slice_getElem (m : ℤ → α) (i : ℤ) (k j : ℕ) (h : j < (slice m i k).length) :
    (slice m i k)[j] = m (i + j) := by
  induction k generalizing i j with
  | zero => simp at h
  | succ k ih =>
    cases j with
    | zero => simp [slice]
    | succ j =>
      simp only [slice, List.getElem_cons_succ]
      rw [ih]
      congr 1
      push_cast
      ring

/-- Two memories that agree on a block have the same slice there. -/
lemma slice_congr {m m' : ℤ → α} {i i' : ℤ} {k : ℕ}
    (h : ∀ j : ℕ, j < k → m (i + j) = m' (i' + j)) : slice m i k = slice m' i' k := by
  apply List.ext_getElem (by simp)
  intro j h1 h2
  rw [slice_getElem, slice_getElem]
  exact h j (by simpa using h1)

/-- A slice splits where its length does. -/
lemma slice_add (m : ℤ → α) (i : ℤ) (a b : ℕ) :
    slice m i (a + b) = slice m i a ++ slice m (i + a) b := by
  induction a generalizing i with
  | zero => simp [slice]
  | succ a ih =>
    rw [Nat.succ_add]
    simp only [slice, List.cons_append, ih]
    rw [show i + 1 + (a : ℤ) = i + ((a + 1 : ℕ) : ℤ) by push_cast; ring]

/-- Dropping the first values of a slice leaves the slice behind them. -/
lemma slice_drop (m : ℤ → α) (i : ℤ) {k j : ℕ} (h : j ≤ k) :
    (slice m i k).drop j = slice m (i + j) (k - j) := by
  obtain ⟨b, rfl⟩ := Nat.exists_eq_add_of_le h
  rw [slice_add, List.drop_left' (slice_length m i j), Nat.add_sub_cancel_left]

/-- The first values of a slice. -/
lemma slice_take (m : ℤ → α) (i : ℤ) {k j : ℕ} (h : j ≤ k) : (slice m i k).take j = slice m i j := by
  obtain ⟨b, rfl⟩ := Nat.exists_eq_add_of_le h
  rw [slice_add, List.take_left' (slice_length m i j)]

/-- Copy `k` values from `r` upwards to `w` upwards, lowest first. -/
def copyUp : ℕ → ℤ → ℤ → (ℤ → α) → ℤ → α
  | 0, _, _, m => m
  | k + 1, r, w, m => copyUp k (r + 1) (w + 1) (Function.update m w (m r))

/-- Copy `k` values from `r` downwards to `w` downwards, highest first. -/
def copyDown : ℕ → ℤ → ℤ → (ℤ → α) → ℤ → α
  | 0, _, _, m => m
  | k + 1, r, w, m => copyDown k (r - 1) (w - 1) (Function.update m w (m r))

/-- The memory `m` with the block of length `k` at `src` placed at `dst`, read from a snapshot. -/
def blit (m : ℤ → α) (src dst : ℤ) (k : ℕ) : ℤ → α :=
  fun x => if dst ≤ x ∧ x < dst + k then m (x - dst + src) else m x

/-- Inside its target, a blit holds the source block. -/
lemma blit_inside {m : ℤ → α} {src dst x : ℤ} {k : ℕ} (h1 : dst ≤ x) (h2 : x < dst + k) :
    blit m src dst k x = m (x - dst + src) := if_pos ⟨h1, h2⟩

/-- Outside its target, a blit changes nothing. -/
lemma blit_outside {m : ℤ → α} {src dst x : ℤ} {k : ℕ} (h : x < dst ∨ dst + k ≤ x) :
    blit m src dst k x = m x := if_neg (by omega)

/-- Copying upwards to a lower address reads every value before it is overwritten. -/
lemma copyUp_eq {r w : ℤ} (h : w ≤ r) (k : ℕ) (m : ℤ → α) : copyUp k r w m = blit m r w k := by
  induction k generalizing r w m with
  | zero =>
    funext x
    rw [blit_outside (by push_cast; omega)]
    rfl
  | succ k ih =>
    funext x
    rw [copyUp, ih (by omega)]
    by_cases hx : w ≤ x ∧ x < w + (k + 1 : ℕ)
    · rw [blit_inside hx.1 hx.2]
      by_cases e : x = w
      · subst e
        rw [blit_outside (by omega), Function.update_self]
        congr 1
        omega
      · rw [blit_inside (by omega) (by push_cast at hx; omega),
          Function.update_of_ne (by omega)]
        congr 1
        omega
    · rw [blit_outside (by push_cast at hx ⊢; omega), blit_outside (by push_cast at hx; omega),
        Function.update_of_ne (by push_cast at hx; omega)]

/-- Copying downwards to a higher address reads every value before it is overwritten. -/
lemma copyDown_eq {r w : ℤ} (h : r ≤ w) (k : ℕ) (m : ℤ → α) :
    copyDown k (r + k - 1) (w + k - 1) m = blit m r w k := by
  induction k generalizing m with
  | zero =>
    funext x
    rw [blit_outside (by push_cast; omega)]
    rfl
  | succ k ih =>
    funext x
    rw [copyDown]
    rw [show r + ((k + 1 : ℕ) : ℤ) - 1 - 1 = r + k - 1 by push_cast; ring,
      show w + ((k + 1 : ℕ) : ℤ) - 1 - 1 = w + k - 1 by push_cast; ring, ih]
    by_cases hx : w ≤ x ∧ x < w + (k + 1 : ℕ)
    · rw [blit_inside hx.1 hx.2]
      by_cases e : x = w + k
      · subst e
        rw [blit_outside (by omega), Function.update_apply, if_pos (by push_cast; ring)]
        congr 1
        push_cast
        ring
      · rw [blit_inside (by omega) (by push_cast at hx; omega), Function.update_of_ne]
        push_cast at hx ⊢
        omega
    · rw [blit_outside (by push_cast at hx ⊢; omega), blit_outside (by push_cast at hx; omega),
        Function.update_of_ne (by push_cast at hx ⊢; omega)]

/-- Copy `k` values of `m` from `src` upwards into `a` from `dst` upwards. -/
def copyFrom (m : ℤ → α) : ℕ → ℤ → ℤ → (ℤ → α) → ℤ → α
  | 0, _, _, a => a
  | k + 1, src, dst, a => copyFrom m k (src + 1) (dst + 1) (Function.update a dst (m src))

/-- Outside its target, a copy from another memory changes nothing. -/
lemma copyFrom_outside {m a : ℤ → α} {src dst x : ℤ} {k : ℕ} (h : x < dst ∨ dst + k ≤ x) :
    copyFrom m k src dst a x = a x := by
  induction k generalizing src dst a with
  | zero => rfl
  | succ k ih =>
    rw [copyFrom, ih (by push_cast at h; omega), Function.update_of_ne (by push_cast at h; omega)]

/-- Inside its target, a copy from another memory holds the source block. -/
lemma copyFrom_inside {m a : ℤ → α} {src dst x : ℤ} {k : ℕ} (h1 : dst ≤ x) (h2 : x < dst + k) :
    copyFrom m k src dst a x = m (x - dst + src) := by
  induction k generalizing src dst a with
  | zero => push_cast at h2; omega
  | succ k ih =>
    rw [copyFrom]
    by_cases e : x = dst
    · subst e
      rw [copyFrom_outside (by omega), Function.update_self]
      congr 1
      omega
    · rw [ih (by omega) (by push_cast at h2; omega)]
      congr 1
      omega

/-- Store a list at `w` and the indices below it. -/
def writeDown : List α → ℤ → (ℤ → α) → ℤ → α
  | [], _, m => m
  | x :: xs, w, m => writeDown xs (w - 1) (Function.update m w x)

/-- Outside the indices it stores to, `writeDown` changes nothing. -/
lemma writeDown_outside {l : List α} {w x : ℤ} {m : ℤ → α} (h : x ≤ w - l.length ∨ w < x) :
    writeDown l w m x = m x := by
  induction l generalizing w m with
  | nil => rfl
  | cons y ys ih =>
    rw [writeDown, ih (by push_cast [List.length_cons] at h; omega), Function.update_of_ne]
    push_cast [List.length_cons] at h
    omega

/-- The value that `writeDown` leaves `j` below the top. -/
lemma writeDown_inside {l : List α} {w : ℤ} {m : ℤ → α} {j : ℕ} (h : j < l.length) :
    writeDown l w m (w - j) = l[j] := by
  induction l generalizing w m j with
  | nil => simp at h
  | cons y ys ih =>
    cases j with
    | zero =>
      rw [writeDown, writeDown_outside (by right; simp)]
      simp
    | succ j =>
      rw [writeDown, show w - ((j + 1 : ℕ) : ℤ) = w - 1 - j by push_cast; ring,
        ih (by simpa using h)]
      rfl

/-- Read upwards, what `writeDown` stored is the reversed list. -/
lemma slice_writeDown (l : List α) (i : ℤ) (m : ℤ → α) :
    slice (writeDown l (i + l.length - 1) m) i l.length = l.reverse := by
  apply List.ext_getElem (by simp)
  intro j h1 h2
  have hj : j < l.length := by simpa using h1
  rw [slice_getElem, List.getElem_reverse]
  rw [show i + (j : ℤ) = i + l.length - 1 - ((l.length - 1 - j : ℕ) : ℤ) by omega,
    writeDown_inside]

end Memory
