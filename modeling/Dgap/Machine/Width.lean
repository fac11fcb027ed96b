import Mathlib

/-!
# Integers of a fixed width

`signed w x` is what a signed integer of `w` bits holds after `x` has been converted to it, the number
modulo `2 ^ w` that lies in the range of the type; `unsigned w x` is the same for an unsigned one. A
number in the range is kept (`signed_of_mem`, `unsigned_of_mem`), and a sum may be taken before or after
the conversion (`signed_add`). `checked` is signed arithmetic, whose overflow is undefined.
-/

namespace Machine

/-- The conversion to a signed integer of `w` bits. -/
def signed (w : ℕ) (x : ℤ) : ℤ := x.bmod (2 ^ w)

/-- The conversion to an unsigned integer of `w` bits. -/
def unsigned (w : ℕ) (x : ℤ) : ℤ := x % 2 ^ w

/-- The range of a signed integer of `w` bits. -/
def Fits (w : ℕ) (x : ℤ) : Prop := -2 ^ (w - 1) ≤ x ∧ x < 2 ^ (w - 1)

instance (w : ℕ) (x : ℤ) : Decidable (Fits w x) := inferInstanceAs (Decidable (_ ∧ _))

variable {w : ℕ} {x y : ℤ}

/-- A number in the range is kept. -/
lemma signed_of_mem (hw : 0 < w) (h : Fits w x) : signed w x = x := by
  obtain ⟨n, rfl⟩ : ∃ n, w = n + 1 := ⟨w - 1, by omega⟩
  obtain ⟨h1, h2⟩ := h
  rw [Nat.add_sub_cancel] at h1 h2
  have hpow : ((2 ^ (n + 1) : ℕ) : ℤ) = 2 * 2 ^ n := by
    push_cast
    ring
  refine Int.bmod_eq_of_le_mul_two ?_ ?_ <;> rw [hpow] <;> linarith

/-- A converted number is in the range. -/
lemma signed_mem (hw : 0 < w) (x : ℤ) : Fits w (signed w x) := by
  obtain ⟨n, rfl⟩ : ∃ n, w = n + 1 := ⟨w - 1, by omega⟩
  have hpos : 0 < 2 ^ (n + 1) := by positivity
  have h1 := Int.le_bmod (x := x) hpos
  have h2 := Int.bmod_lt (x := x) hpos
  have hpow : ((2 ^ (n + 1) : ℕ) : ℤ) = 2 * 2 ^ n := by
    push_cast
    ring
  have hpow' : (0 : ℤ) < 2 ^ n := by positivity
  rw [hpow] at h1 h2
  unfold Fits signed
  rw [Nat.add_sub_cancel]
  omega

/-- A converted number may be converted again behind an addition. -/
lemma signed_add (w : ℕ) (x y : ℤ) : signed w (signed w x + y) = signed w (x + y) :=
  Int.bmod_add_bmod

/-- A number in the upper half of the unsigned range becomes negative. -/
lemma signed_of_upper (hw : 0 < w) (h1 : 2 ^ (w - 1) ≤ x) (h2 : x < 2 ^ w) : signed w x = x - 2 ^ w := by
  have hpow : ((2 ^ w : ℕ) : ℤ) = 2 ^ w := by push_cast; rfl
  have hshift : signed w x = signed w (x - 2 ^ w) := by
    rw [signed, signed, ← hpow, Int.sub_bmod_right]
  have hhalf : (2 : ℤ) ^ w = 2 * 2 ^ (w - 1) := by
    rw [← pow_succ', Nat.sub_add_cancel hw]
  rw [hshift]
  exact signed_of_mem hw ⟨by linarith, by linarith⟩

/-- A non-negative number below the size of the type is kept. -/
lemma unsigned_of_mem (h0 : 0 ≤ x) (h : x < 2 ^ w) : unsigned w x = x := Int.emod_eq_of_lt h0 h

/-- A natural that is small enough is in the range of the signed type. -/
lemma fits_natCast {j : ℕ} (h : j < 2 ^ (w - 1)) : Fits w j :=
  ⟨(neg_nonpos.2 (by positivity)).trans (Int.natCast_nonneg j), by exact_mod_cast h⟩

/-- A signed word keeps the naturals that fit. -/
lemma signed_keep (hw : 0 < w) {j : ℕ} (hj : j < 2 ^ (w - 1)) : signed w (j : ℤ) = j :=
  signed_of_mem hw (fits_natCast hj)

/-- An unsigned word keeps the naturals that fit. -/
lemma unsigned_keep {j : ℕ} (hj : j < 2 ^ w) : unsigned w (j : ℤ) = j :=
  unsigned_of_mem (Int.natCast_nonneg j) (by exact_mod_cast hj)

/-- The result of signed arithmetic, undefined when it overflows. -/
def checked (w : ℕ) (x : ℤ) : Option ℤ := if Fits w x then some x else none

/-- A result that fits. -/
lemma checked_of_fits (h : Fits w x) : checked w x = some x := if_pos h

/-- The leading zeros of a word of 64 bits, undefined at 0. -/
def clzll (x : ℤ) : Option ℤ := if x = 0 then none else some (63 - Nat.log2 x.toNat)

end Machine
