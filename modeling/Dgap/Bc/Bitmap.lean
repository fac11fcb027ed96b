import Mathlib

/-!
# The bitmap of successors

`Bitmap` of `bitmap.h`: words of 64 bits. Setting a bit, taken as one step, changes that bit only
(`getBit_setBit`).
-/

namespace Dgap

/-- The words of a bitmap. -/
structure Bitmap where
  words : ℕ → BitVec 64

namespace Bitmap

/-- `kBitsPerWord`. -/
def bitsPerWord : ℕ := 64

/-- `word_offset`. -/
def wordOffset (n : ℕ) : ℕ := n / bitsPerWord

/-- `bit_offset`. -/
def bitOffset (n : ℕ) : ℕ := n &&& (bitsPerWord - 1)

/-- `reset`. -/
def reset : Bitmap := ⟨fun _ => 0⟩

/-- `set_bit_atomic`. -/
def setBit (b : Bitmap) (pos : ℕ) : Bitmap :=
  ⟨Function.update b.words (wordOffset pos) (b.words (wordOffset pos) ||| ((1 : BitVec 64) <<< bitOffset pos))⟩

/-- `get_bit`. -/
def getBit (b : Bitmap) (pos : ℕ) : Bool := (b.words (wordOffset pos) >>> bitOffset pos) &&& 1 != 0

/-- The offset within a word. -/
lemma bitOffset_eq (n : ℕ) : bitOffset n = n % 64 := Nat.and_two_pow_sub_one_eq_mod n 6

/-- A bit is a bit of its word. -/
lemma getBit_eq (b : Bitmap) (pos : ℕ) : b.getBit pos = (b.words (wordOffset pos)).getLsbD (bitOffset pos) := by
  have hone : ∀ x : BitVec 64, (x &&& 1 != 0) = x.getLsbD 0 := by
    intro x
    have hx : x &&& 1 = if x.getLsbD 0 then 1 else 0 := by
      ext i hi
      rcases Nat.eq_zero_or_pos i with rfl | hpos
      · cases h : x.getLsbD 0 <;> simp_all
      · cases h : x.getLsbD 0 <;> simp [BitVec.getElem_one, hpos.ne']
    rw [hx]
    cases x.getLsbD 0 <;> rfl
  rw [getBit, hone, BitVec.getLsbD_ushiftRight, Nat.add_zero]

/-- No bit is set in the beginning. -/
@[simp] lemma getBit_reset (pos : ℕ) : reset.getBit pos = false := by
  rw [getBit_eq]
  exact BitVec.getLsbD_zero

/-- Setting a bit changes no other one. -/
lemma getBit_setBit (b : Bitmap) (pos q : ℕ) : (b.setBit pos).getBit q = (decide (q = pos) || b.getBit q) := by
  have hlt : ∀ n, bitOffset n < 64 := fun n => by
    rw [bitOffset_eq]
    exact Nat.mod_lt n (by decide)
  have hword : ∀ n, wordOffset n = n / 64 := fun _ => rfl
  have hbit := bitOffset_eq
  rw [getBit_eq, getBit_eq, setBit]
  dsimp only
  by_cases hw : wordOffset q = wordOffset pos
  · rw [hw, Function.update_self, BitVec.getLsbD_or, Bool.or_comm]
    congr 1
    rw [BitVec.getLsbD_shiftLeft]
    rcases lt_trichotomy (bitOffset q) (bitOffset pos) with h | h | h
    · have hne : q ≠ pos := fun heq => h.ne (by rw [heq])
      simp [h, hne]
    · have heq : q = pos := by
        rw [hword, hword] at hw
        rw [hbit, hbit] at h
        omega
      simp [heq, hlt]
    · have hne : q ≠ pos := fun heq => h.ne (by rw [heq])
      have hpos : bitOffset q - bitOffset pos ≠ 0 := by omega
      simp [h.not_gt, hne, hpos]
  · have hne : q ≠ pos := fun heq => hw (by rw [heq])
    rw [Function.update_of_ne hw, decide_eq_false hne, Bool.false_or]

end Bitmap

end Dgap
