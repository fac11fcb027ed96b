import Dgap.Layout.Load
import Dgap.Machine.Width

/-!
# The geometry of the array, in machine words

`compute_capacity` and the tree set-up of the constructor compute with words of 32 and 64 bits, with a
leading-zero count that is undefined at 0, and with divisions. `Word` holds the helpers of `util.h` on
unsigned words and `setUp` the two fragments on the members of `CSRGraph`; both are `none` where C++ leaves
the result undefined or an assertion fails. For up to `2 ^ 30` vertices nothing of this happens, and the
words hold what `computeCapacity` and `allocate` say (`word_setUp_eq`). The positions that the base load
spreads the vertices to are exact rationals with the truncations of the code, and degrees are exact integers.
-/

namespace Machine

/-- A computation that goes on with a result. -/
lemma bind_of_eq {α β : Type} {x : Option α} {a : α} {f : α → Option β} (h : x = some a) : x >>= f = f a := by
  rw [h]
  rfl

end Machine

namespace Dgap

open Machine

/-- `low_h`, the lower density threshold of the root. -/
def lowH : ℚ := 1 / 2

/-- The members of `CSRGraph` that `compute_capacity` and the tree set-up assign. -/
structure Capacity where
  numVertices : ℤ
  segmentSize : ℤ
  segmentCount : ℤ
  avgDegree : ℤ
  elemCapacity : ℤ
  treeHeight : ℤ
  deltaUp : ℚ
  deltaLow : ℚ

namespace Word

/-- `last_bit_set`. -/
def lastBitSet (x : ℤ) : Option ℤ := (clzll x).map fun zeros => unsigned 64 (64 - zeros)

/-- `floor_log2`. -/
def floorLog2 (x : ℤ) : Option ℤ := (lastBitSet x).map fun bit => unsigned 64 (bit - 1)

/-- `ceil_log2`. -/
def ceilLog2 (x : ℤ) : Option ℤ := if 0 < x then lastBitSet (unsigned 64 (x - 1)) else none

/-- `ceil_div`. -/
def ceilDiv (x y : ℤ) : Option ℤ :=
  if x = 0 then some 0
  else if y = 0 then none
  else some (unsigned 64 (1 + unsigned 64 (x - 1) / y))

/-- `hyperfloor`; a shift by 64 or more is undefined. -/
def hyperfloor (x : ℤ) : Option ℤ :=
  (floorLog2 x).bind fun k => if k < 64 then some (unsigned 64 (1 <<< k.toNat : ℕ)) else none

/-- `compute_capacity`, given `num_edges_` and `num_vertices`: the segment size, the segment count and the
new `num_vertices`, `avg_degree` and `elem_capacity`. -/
def computeCapacity (numEdges numVertices : ℤ) : Option (ℤ × ℤ × ℤ × ℤ × ℤ) := do
  let segmentSize ← (ceilLog2 (unsigned 64 numVertices)).map (signed 32)
  let segmentCount ← (ceilDiv (unsigned 64 numVertices) (unsigned 64 segmentSize)).map (signed 64)
  let segmentCount ← (hyperfloor (unsigned 64 segmentCount)).map (signed 64)
  let segmentSize ← (ceilDiv (unsigned 64 numVertices) (unsigned 64 segmentCount)).map (signed 32)
  let numVertices ← (checked 64 (segmentCount * segmentSize)).map (signed 32)
  let avgDegree ← (ceilDiv (unsigned 64 numEdges) (unsigned 64 numVertices)).map (signed 64)
  let sum ← checked 64 (numEdges + numVertices)
  let elemCapacity ← checked 64 (sum * maxSparseness)
  some (segmentSize, segmentCount, numVertices, avgDegree, elemCapacity)

/-- The constructor from `num_edges_ = n_edges` to `delta_low`. -/
def setUp (nEdges nVertices : ℤ) : Option Capacity := do
  let (segmentSize, segmentCount, numVertices, avgDegree, elemCapacity) ←
    computeCapacity nEdges (signed 32 nVertices)
  let treeHeight ← (floorLog2 (unsigned 64 segmentCount)).map (signed 32)
  if treeHeight = 0 then none
  else some {
    numVertices, segmentSize, segmentCount, avgDegree, elemCapacity, treeHeight
    deltaUp := (up0 - upH) / treeHeight
    deltaLow := (lowH - low0) / treeHeight }

variable {x y : ℕ}

/-- `last_bit_set` of a word other than 0. -/
lemma lastBitSet_eq (h0 : 0 < x) (h : x < 2 ^ 64) : lastBitSet x = some (Dgap.lastBitSet x : ℤ) := by
  have hlog : Nat.log2 x < 64 := (Nat.log2_lt (by omega)).2 h
  rw [lastBitSet, clzll, if_neg (by omega), Option.map_some, Int.toNat_natCast,
    show (64 : ℤ) - (63 - Nat.log2 x) = (Dgap.lastBitSet x : ℕ) by rw [Dgap.lastBitSet]; omega,
    unsigned_keep]
  rw [Dgap.lastBitSet]
  omega

/-- `floor_log2` of a word other than 0. -/
lemma floorLog2_eq (h0 : 0 < x) (h : x < 2 ^ 64) : floorLog2 x = some (Dgap.floorLog2 x : ℤ) := by
  have hlog : Nat.log2 x < 64 := (Nat.log2_lt (by omega)).2 h
  rw [floorLog2, lastBitSet_eq h0 h, Option.map_some,
    show (Dgap.lastBitSet x : ℤ) - 1 = (Dgap.floorLog2 x : ℕ) by rw [Dgap.floorLog2, Dgap.lastBitSet]; omega,
    unsigned_keep]
  rw [Dgap.floorLog2_eq]
  omega

/-- `ceil_log2` of a word above 1. -/
lemma ceilLog2_eq (h2 : 2 ≤ x) (h : x < 2 ^ 64) : ceilLog2 x = some (Dgap.ceilLog2 x : ℤ) := by
  rw [ceilLog2, if_pos (by omega), show (x : ℤ) - 1 = (x - 1 : ℕ) by omega, unsigned_keep (by omega),
    lastBitSet_eq (by omega) (by omega), Dgap.ceilLog2]

/-- `ceil_div` by a word other than 0. -/
lemma ceilDiv_eq (hy : 0 < y) (h : x < 2 ^ 63) : ceilDiv x y = some (Dgap.ceilDiv x y : ℤ) := by
  rcases Nat.eq_zero_or_pos x with rfl | hx
  · rfl
  · have hdiv : (x - 1) / y ≤ x - 1 := Nat.div_le_self ..
    rw [ceilDiv, if_neg (by omega), if_neg (by omega), show (x : ℤ) - 1 = (x - 1 : ℕ) by omega,
      unsigned_keep (by omega), show (1 : ℤ) + ((x - 1 : ℕ) : ℤ) / y = (1 + (x - 1) / y : ℕ) by push_cast; rfl,
      unsigned_keep (by omega), Dgap.ceilDiv, if_neg (by omega)]

/-- `hyperfloor` of a word other than 0. -/
lemma hyperfloor_eq (h0 : 0 < x) (h : x < 2 ^ 64) : hyperfloor x = some (Dgap.hyperfloor x : ℤ) := by
  have hlog : Nat.log2 x < 64 := (Nat.log2_lt (by omega)).2 h
  rw [hyperfloor, floorLog2_eq h0 h, Option.bind_some, Dgap.floorLog2_eq, if_pos (by exact_mod_cast hlog),
    Int.toNat_natCast, unsigned_keep, Dgap.hyperfloor, Dgap.floorLog2_eq]
  rw [Nat.shiftLeft_eq, Nat.one_mul]
  exact Nat.pow_lt_pow_right (by omega) hlog

end Word

namespace Graph

variable {n : ℕ}

/-- The ideal size of a segment. -/
lemma ceilLog2_mem (h : 2 ≤ n) : 1 ≤ ceilLog2 n ∧ ceilLog2 n < n := by
  have hlog : Nat.log2 (n - 1) < n - 1 ∨ n = 2 := by
    rcases Nat.lt_or_ge 2 n with h3 | h3
    · exact .inl ((Nat.log2_lt (by omega)).2 Nat.lt_two_pow_self)
    · exact .inr (by omega)
  rcases hlog with hlog | rfl
  · rw [ceilLog2, lastBitSet]
    omega
  · decide

/-- From 6 on, a power of two is above the product with the number before. -/
lemma mul_pred_le_two_pow {l : ℕ} (h : 6 ≤ l) : l * (l - 1) ≤ 2 ^ (l - 1) := by
  induction l, h using Nat.le_induction with
  | base => decide
  | succ l hl ih =>
    obtain ⟨k, rfl⟩ : ∃ k, l = k + 1 := ⟨l - 1, by omega⟩
    simp only [Nat.add_sub_cancel] at *
    rw [pow_succ]
    nlinarith

/-- Rounding down to a power of two. -/
lemma hyperfloor_le {x : ℕ} (h : 0 < x) : 0 < hyperfloor x ∧ hyperfloor x ≤ x := by
  rw [hyperfloor, floorLog2_eq, Nat.shiftLeft_eq, Nat.one_mul]
  exact ⟨by positivity, Nat.log2_self_le (by omega)⟩

/-- The quotient is below a number when the product with its predecessor is reached. -/
lemma le_ceilDiv {l x y : ℕ} (hx : 0 < x) (hy : 0 < y) (h : (l - 1) * y ≤ x - 1) : l ≤ ceilDiv x y := by
  have := (Nat.le_div_iff_mul_le hy).2 h
  rw [ceilDiv, if_neg (by omega)]
  omega

/-- A quotient is at most the dividend. -/
lemma ceilDiv_le {x y : ℕ} : ceilDiv x y ≤ x := by
  have := Nat.div_le_self (x - 1) y
  rw [ceilDiv]
  split <;> omega

/-- Up to 32 vertices a segment is at least as large as the ideal size. -/
lemma ceilLog2_le_segmentSize_of_le : ∀ n < 33, 2 ≤ n → ceilLog2 n ≤ (computeCapacity n).1 := by
  decide +kernel

/-- A segment is at least as large as the ideal size: rounding down the number of segments enlarges them,
and where it is a power of two already it is above the ideal size, so that rounding up the quotient twice
does not make them smaller. -/
lemma ceilLog2_le_segmentSize (h : 2 ≤ n) : ceilLog2 n ≤ (computeCapacity n).1 := by
  rcases Nat.lt_or_ge n 33 with hlt | hge
  · exact ceilLog2_le_segmentSize_of_le n hlt h
  obtain ⟨hpos, -⟩ := ceilLog2_mem h
  have hlog : 2 ^ (ceilLog2 n - 1) ≤ n - 1 := by
    rw [ceilLog2, lastBitSet, Nat.add_sub_cancel]
    exact Nat.log2_self_le (by omega)
  have hsix : 6 ≤ ceilLog2 n := by
    rw [ceilLog2, lastBitSet]
    exact Nat.succ_le_succ ((Nat.le_log2 (by omega)).2 (by omega))
  have hsq := (mul_pred_le_two_pow hsix).trans hlog
  obtain ⟨hc0, hcle⟩ := hyperfloor_le (x := ceilDiv n (ceilLog2 n)) (by have := two_le_ceilDiv h; omega)
  show ceilLog2 n ≤ ceilDiv n (hyperfloor (ceilDiv n (ceilLog2 n)))
  refine le_ceilDiv (by omega) hc0 ?_
  have hideal : ceilDiv n (ceilLog2 n) = 1 + (n - 1) / ceilLog2 n := if_neg (by omega)
  set l := ceilLog2 n
  set q := (n - 1) / l
  have hq : q * l ≤ n - 1 := Nat.div_mul_le_self ..
  have hlq : l - 1 ≤ q := (Nat.le_div_iff_mul_le hpos).2 (by rw [Nat.mul_comm]; exact hsq)
  calc (l - 1) * hyperfloor (ceilDiv n l) ≤ (l - 1) * (1 + q) := Nat.mul_le_mul_left _ (hideal ▸ hcle)
    _ = (l - 1) * q + (l - 1) := by ring
    _ ≤ (l - 1) * q + q := by omega
    _ = l * q := by rw [← Nat.succ_mul, Nat.succ_eq_add_one, Nat.sub_add_cancel hpos]
    _ ≤ n - 1 := by rwa [Nat.mul_comm]

/-- The sizes that `compute_capacity` computes. -/
structure Sizes (n : ℕ) : Prop where
  count : (computeCapacity n).2.1 = 2 ^ floorLog2 (computeCapacity n).2.1
  height : 1 ≤ floorLog2 (computeCapacity n).2.1
  size : 1 ≤ (computeCapacity n).1
  vertices : (computeCapacity n).2.2 = (computeCapacity n).1 * (computeCapacity n).2.1
  le : n ≤ (computeCapacity n).2.2
  lt : (computeCapacity n).2.2 < n + (computeCapacity n).2.1
  ideal : ceilLog2 n ≤ (computeCapacity n).1
  countLe : (computeCapacity n).2.1 ≤ n

/-- The sizes for at least two vertices. -/
lemma sizes (h : 2 ≤ n) : Sizes n := by
  obtain ⟨hg, hle⟩ := allocate_geometry ⟨fun _ => 0, fun _ => .zero⟩ true 0 h
  obtain ⟨hc0, hcle⟩ := hyperfloor_le (x := ceilDiv n (ceilLog2 n)) (by have := two_le_ceilDiv h; omega)
  refine ⟨hg.count, hg.height, hg.size, hg.vertices, hle, ?_, ceilLog2_le_segmentSize h, ?_⟩
  · show hyperfloor (ceilDiv n (ceilLog2 n)) * ceilDiv n (hyperfloor (ceilDiv n (ceilLog2 n))) <
      n + hyperfloor (ceilDiv n (ceilLog2 n))
    set c := hyperfloor (ceilDiv n (ceilLog2 n))
    have hdiv := Nat.mul_div_le (n - 1) c
    rw [ceilDiv, if_neg (by omega), Nat.mul_add, Nat.mul_one]
    omega
  · show hyperfloor (ceilDiv n (ceilLog2 n)) ≤ n
    exact hcle.trans ceilDiv_le

/-- Rounding down to the power of two right below. -/
lemma hyperfloor_eq {x k : ℕ} (h1 : 2 ^ k ≤ x) (h2 : x < 2 ^ (k + 1)) : hyperfloor x = 2 ^ k := by
  have hpos : 0 < 2 ^ k := by positivity
  rw [hyperfloor, floorLog2_eq, Nat.shiftLeft_eq, Nat.one_mul, (Nat.log2_eq_iff (by omega)).2 ⟨h1, h2⟩]

/-- From `2 ^ 30` vertices on the ideal size of a segment is 31. -/
lemma ceilLog2_of_gt (h1 : 2 ^ 30 < n) (h2 : n < 2 ^ 31) : ceilLog2 n = 31 := by
  rw [ceilLog2, lastBitSet, (Nat.log2_eq_iff (by omega)).2 (show 2 ^ 30 ≤ n - 1 ∧ n - 1 < 2 ^ 31 by omega)]

/-- For up to `31 * 2 ^ 26` vertices their rounded number fits into `int32_t`. -/
lemma Sizes.lt_two_pow (h : Sizes n) (hn : n ≤ 31 * 2 ^ 26) : (computeCapacity n).2.2 < 2 ^ 31 := by
  rcases Nat.lt_or_ge (2 ^ 30) n with hgt | hle
  · have hideal : ceilDiv n (ceilLog2 n) = 1 + (n - 1) / 31 := by
      rw [ceilLog2_of_gt hgt (hn.trans_lt (by norm_num)), ceilDiv, if_neg (by omega)]
    show hyperfloor (ceilDiv n (ceilLog2 n)) * ceilDiv n (hyperfloor (ceilDiv n (ceilLog2 n))) < 2 ^ 31
    rw [hideal]
    rcases Nat.lt_or_ge (1 + (n - 1) / 31) (2 ^ 26) with hlt | hge
    · -- half as many segments, of up to 62 vertices
      rw [hyperfloor_eq (k := 25) (by omega) hlt, ceilDiv, if_neg (by omega)]
      omega
    · rw [hyperfloor_eq (k := 26) hge (by omega), ceilDiv, if_neg (by omega)]
      omega
  · calc (computeCapacity n).2.2 < n + (computeCapacity n).2.1 := h.lt
      _ ≤ 2 ^ 30 + 2 ^ 30 := Nat.add_le_add hle (h.countLe.trans hle)
      _ = 2 ^ 31 := by norm_num

/-- For more vertices their rounded number is `2 ^ 31`: there are `2 ^ 26` segments of 32 vertices. -/
lemma computeCapacity_of_gt (h1 : 31 * 2 ^ 26 < n) (h2 : n < 2 ^ 31) : (computeCapacity n).2.2 = 2 ^ 31 := by
  have hideal : ceilDiv n (ceilLog2 n) = 1 + (n - 1) / 31 := by
    rw [ceilLog2_of_gt (by omega) h2, ceilDiv, if_neg (by omega)]
  show hyperfloor (ceilDiv n (ceilLog2 n)) * ceilDiv n (hyperfloor (ceilDiv n (ceilLog2 n))) = 2 ^ 31
  rw [hideal, hyperfloor_eq (k := 26) (by omega) (by omega), ceilDiv, if_neg (by omega)]
  omega

/-- The conversions of `compute_capacity` keep what fits into `int32_t`. -/
lemma converted {x : ℕ} (h : x < 2 ^ 31) :
    unsigned 64 (x : ℤ) = x ∧ signed 64 (x : ℤ) = x ∧ signed 32 (x : ℤ) = x ∧ x < 2 ^ 63 ∧ x < 2 ^ 64 := by
  have h63 : x < 2 ^ 63 := h.trans (by norm_num)
  have h64 : x < 2 ^ 64 := h.trans (by norm_num)
  exact ⟨unsigned_keep h64, signed_keep (by decide) h63, signed_keep (by decide) h, h63, h64⟩

/-- The sum fits where its product with the sparseness does. -/
lemma lt_of_fits {a b : ℕ} (h : Machine.Fits 64 ((a + b : ℕ) * maxSparseness)) :
    a < 2 ^ 63 ∧ Machine.Fits 64 ((a : ℤ) + b) := by
  obtain ⟨-, h⟩ := h
  unfold maxSparseness at h
  unfold Machine.Fits
  norm_num at *
  omega

/-- `compute_capacity` takes no leading-zero count of 0 and divides by no 0 before it converts the number of
vertices to `int32_t`. -/
lemma word_computeCapacity (h2 : 2 ≤ n) (hn : n < 2 ^ 31) (numEdges : ℤ) :
    Word.computeCapacity numEdges n =
      ((Word.ceilDiv (unsigned 64 numEdges) (unsigned 64 (signed 32 (computeCapacity n).2.2))).map (signed 64) >>=
        fun avgDegree => checked 64 (numEdges + signed 32 (computeCapacity n).2.2) >>= fun sum =>
          checked 64 (sum * maxSparseness) >>= fun elemCapacity =>
            some (((computeCapacity n).1 : ℤ), ((computeCapacity n).2.1 : ℤ), signed 32 (computeCapacity n).2.2,
              avgDegree, elemCapacity)) := by
  have hs := sizes h2
  obtain ⟨hl1, hl⟩ := ceilLog2_mem h2
  have hi2 := two_le_ceilDiv h2
  have hi0 := zero_lt_two.trans_le hi2
  have hc : (computeCapacity n).2.1 = hyperfloor (ceilDiv n (ceilLog2 n)) := rfl
  have hc0 : 0 < (computeCapacity n).2.1 := (hyperfloor_le hi0).1
  obtain ⟨hu, -, -, hn63, hn64⟩ := converted hn
  obtain ⟨hlu, -, hls, -⟩ := converted (hl.trans hn)
  obtain ⟨hiu, his, -, -, hi64⟩ := converted ((ceilDiv_le (x := n) (y := ceilLog2 n)).trans_lt hn)
  obtain ⟨hcu, hcs, -⟩ := converted (hs.countLe.trans_lt hn)
  obtain ⟨-, -, hss, -⟩ := converted ((ceilDiv_le (x := n) (y := (computeCapacity n).2.1)).trans_lt hn)
  have hN63 : (computeCapacity n).2.2 < 2 ^ 63 :=
    (hs.lt.trans_le (Nat.add_le_add hn.le (hs.countLe.trans hn.le))).trans (by norm_num)
  have hprod : ((computeCapacity n).2.1 : ℤ) * (computeCapacity n).1 = ((computeCapacity n).2.2 : ℕ) := by
    rw [hs.vertices]
    push_cast
    ring
  have hlog : (Word.ceilLog2 (unsigned 64 n)).map (signed 32) = some (ceilLog2 n : ℤ) := by
    rw [hu, Word.ceilLog2_eq h2 hn64, Option.map_some, hls]
  have hideal : (Word.ceilDiv (unsigned 64 n) (unsigned 64 (ceilLog2 n))).map (signed 64) =
      some (ceilDiv n (ceilLog2 n) : ℤ) := by
    rw [hu, hlu, Word.ceilDiv_eq hl1 hn63, Option.map_some, his]
  have hcount : (Word.hyperfloor (unsigned 64 (ceilDiv n (ceilLog2 n)))).map (signed 64) =
      some ((computeCapacity n).2.1 : ℤ) := by
    rw [hiu, Word.hyperfloor_eq hi0 hi64, Option.map_some, ← hc, hcs]
  have hsize : (Word.ceilDiv (unsigned 64 n) (unsigned 64 (computeCapacity n).2.1)).map (signed 32) =
      some ((computeCapacity n).1 : ℤ) := by
    rw [hu, hcu, Word.ceilDiv_eq hc0 hn63, Option.map_some, hss]
    rfl
  have hvertices : (checked 64 ((computeCapacity n).2.1 * (computeCapacity n).1)).map (signed 32) =
      some (signed 32 (computeCapacity n).2.2) := by
    rw [hprod, checked_of_fits (fits_natCast hN63), Option.map_some]
  exact (bind_of_eq hlog).trans <| (bind_of_eq hideal).trans <| (bind_of_eq hcount).trans <|
    (bind_of_eq hsize).trans (bind_of_eq hvertices)

/-- Nor does it overflow when the rounded number of vertices and the products fit. -/
lemma word_computeCapacity_eq (h2 : 2 ≤ n) (hn : n ≤ 31 * 2 ^ 26) {nEdges : ℕ}
    (hfits : Machine.Fits 64 ((nEdges + (computeCapacity n).2.2 : ℕ) * maxSparseness)) :
    Word.computeCapacity nEdges n = some (((computeCapacity n).1 : ℤ), ((computeCapacity n).2.1 : ℤ),
      ((computeCapacity n).2.2 : ℤ), (ceilDiv nEdges (computeCapacity n).2.2 : ℤ),
      (nEdges + (computeCapacity n).2.2 : ℕ) * maxSparseness) := by
  have hs := sizes h2
  obtain ⟨hNu, -, hNs, -⟩ := converted (hs.lt_two_pow hn)
  obtain ⟨hE63, hsum⟩ := lt_of_fits hfits
  have havg : (Word.ceilDiv (unsigned 64 nEdges) (unsigned 64 (computeCapacity n).2.2)).map (signed 64) =
      some (ceilDiv nEdges (computeCapacity n).2.2 : ℤ) := by
    rw [unsigned_keep (hE63.trans (by norm_num)), hNu, Word.ceilDiv_eq (two_pos.trans_le (h2.trans hs.le)) hE63,
      Option.map_some, signed_keep (by decide) (ceilDiv_le.trans_lt hE63)]
  rw [word_computeCapacity h2 (hn.trans_lt (by norm_num)), hNs]
  rw [Nat.cast_add] at *
  exact (bind_of_eq havg).trans <| (bind_of_eq (checked_of_fits hsum)).trans <|
    bind_of_eq (checked_of_fits hfits)

/-- The tree set-up divides by the height of a tree with at least two leaves. -/
lemma word_setUp_eq (h2 : 2 ≤ n) (hn : n ≤ 31 * 2 ^ 26) {nEdges : ℕ}
    (hfits : Machine.Fits 64 ((nEdges + (computeCapacity n).2.2 : ℕ) * maxSparseness)) :
    Word.setUp nEdges n = some
      { numVertices := (computeCapacity n).2.2
        segmentSize := (computeCapacity n).1
        segmentCount := (computeCapacity n).2.1
        avgDegree := ceilDiv nEdges (computeCapacity n).2.2
        elemCapacity := (nEdges + (computeCapacity n).2.2 : ℕ) * maxSparseness
        treeHeight := floorLog2 (computeCapacity n).2.1
        deltaUp := (up0 - upH) / (floorLog2 (computeCapacity n).2.1 : ℤ)
        deltaLow := (lowH - low0) / (floorLog2 (computeCapacity n).2.1 : ℤ) } := by
  have hs := sizes h2
  have hn' : n < 2 ^ 31 := hn.trans_lt (by norm_num)
  have hc0 : 0 < (computeCapacity n).2.1 := by
    rw [hs.count]
    positivity
  obtain ⟨hcu, -, -, -, hc64⟩ := converted (hs.countLe.trans_lt hn')
  have hkeep : signed 32 (n : ℤ) = n := signed_keep (by decide) hn'
  have hheight : (Word.floorLog2 (unsigned 64 (computeCapacity n).2.1)).map (signed 32) =
      some (floorLog2 (computeCapacity n).2.1 : ℤ) := by
    have hlog : floorLog2 (computeCapacity n).2.1 < 2 ^ 31 := by
      rw [floorLog2_eq, Nat.log2_lt (by omega)]
      exact (hs.countLe.trans_lt hn').trans Nat.lt_two_pow_self
    rw [hcu, Word.floorLog2_eq hc0 hc64, Option.map_some, (converted hlog).2.2.1]
  have hcap := word_computeCapacity_eq h2 hn hfits
  rw [← hkeep] at hcap
  refine (bind_of_eq hcap).trans <| (bind_of_eq hheight).trans (if_neg ?_)
  have := hs.height
  omega

/-- What the constructor holds as the number of vertices, where nothing is undefined. -/
lemma word_setUp_numVertices (h2 : 2 ≤ n) (hn : n < 2 ^ 31) {nEdges : ℤ} {c : Capacity}
    (h : Word.setUp nEdges n = some c) : c.numVertices = signed 32 (computeCapacity n).2.2 := by
  rw [Word.setUp, signed_keep (by decide) hn, word_computeCapacity h2 hn] at h
  generalize signed 32 ((computeCapacity n).2.2 : ℤ) = numVertices at h ⊢
  obtain ⟨_, hcap, h⟩ := Option.bind_eq_some_iff.1 h
  obtain ⟨_, -, hcap⟩ := Option.bind_eq_some_iff.1 hcap
  obtain ⟨_, -, hcap⟩ := Option.bind_eq_some_iff.1 hcap
  obtain ⟨_, -, hcap⟩ := Option.bind_eq_some_iff.1 hcap
  obtain rfl := Option.some.inj hcap
  obtain ⟨_, -, h⟩ := Option.bind_eq_some_iff.1 h
  split at h
  · cases h
  · exact (congrArg Capacity.numVertices (Option.some.inj h)).symm

/-- From `31 * 2 ^ 26 + 1` vertices on the rounded number overflows. -/
lemma word_setUp_overflow (h1 : 31 * 2 ^ 26 < n) (h2 : n < 2 ^ 31) {nEdges : ℤ} {c : Capacity}
    (h : Word.setUp nEdges n = some c) : c.numVertices = -2 ^ 31 := by
  rw [word_setUp_numVertices (by omega) h2 h, computeCapacity_of_gt h1 h2]
  decide +kernel

/-- For `INT32_MIN` vertices the product of the sizes overflows. -/
lemma word_setUp_min (nEdges : ℤ) : Word.setUp nEdges (-2 ^ 31) = none := by
  have hlog : (Word.ceilLog2 (unsigned 64 (-2 ^ 31))).map (signed 32) = some 64 := by decide +kernel
  have hideal : (Word.ceilDiv (unsigned 64 (-2 ^ 31)) (unsigned 64 64)).map (signed 64) =
      some (2 ^ 58 - 2 ^ 25) := by decide +kernel
  have hcount : (Word.hyperfloor (unsigned 64 (2 ^ 58 - 2 ^ 25))).map (signed 64) = some (2 ^ 57) := by
    decide +kernel
  have hsize : (Word.ceilDiv (unsigned 64 (-2 ^ 31)) (unsigned 64 (2 ^ 57))).map (signed 32) = some 128 := by
    decide +kernel
  have hvertices : (checked 64 (2 ^ 57 * 128)).map (signed 32) = none := by decide +kernel
  have hcap : Word.computeCapacity nEdges (-2 ^ 31) = none := by
    refine (bind_of_eq hlog).trans <| (bind_of_eq hideal).trans <| (bind_of_eq hcount).trans <|
      (bind_of_eq hsize).trans ?_
    rw [hvertices]
    rfl
  rw [Word.setUp, show signed 32 (-2 ^ 31) = -2 ^ 31 by decide +kernel, hcap]
  rfl

/-- No assertion of `calculate_positions` fails after the base load: there are three free slots for each
element. -/
lemma Loaded.positions {foreign : Foreign} {directed : Bool} {edgeList : List (ℕ × ℕ)} {g : Graph}
    (h : Loaded g foreign directed n edgeList) :
    ∃ new, g.calculatePositions 0 g.numVertices (g.elemCapacity - g.numEdges) g.numEdges = some new := by
  have hp := h.toPacked
  have htwo := hp.geometry.two_le_vertices
  have hcount := h.count
  have hcap := h.elemCapacity
  have hindex : (g.vertices 0).index = 0 := (hp.index 0 (by omega)).trans rfl
  have hbound : g.bound g.numVertices = g.elemCapacity := bound_of_ge (le_refl _)
  have hstep : 0 < toInt64 (((g.elemCapacity - g.numEdges : ℤ) : ℚ) /
      ((g.numEdges + (g.numVertices - 0 : ℕ) : ℤ) : ℚ) * precisionPos) := by
    refine Int.lt_of_lt_of_le zero_lt_one (le_toInt64 ?_)
    have hpos : (0 : ℚ) < ((g.numEdges + (g.numVertices - 0 : ℕ) : ℤ) : ℚ) := by
      exact_mod_cast (show 0 < g.numEdges + ((g.numVertices - 0 : ℕ) : ℤ) by omega)
    have hle : ((g.numEdges + (g.numVertices - 0 : ℕ) : ℤ) : ℚ) ≤ ((g.elemCapacity - g.numEdges : ℤ) : ℚ) := by
      exact_mod_cast (show g.numEdges + ((g.numVertices - 0 : ℕ) : ℤ) ≤ g.elemCapacity - g.numEdges by omega)
    rw [precisionPos, div_mul_eq_mul_div, le_div_iff₀ hpos]
    push_cast at *
    linarith
  obtain ⟨new, hnew, -⟩ := calculatePositions_fits (by omega) hp.degree_nonneg hindex.ge (by omega) hp.numEdges
    (by omega) hstep
  exact ⟨new, hnew⟩

end Graph

end Dgap
