import Dgap.Graph.Load
import Dgap.Layout.Shift

/-!
# The positions that `calculate_positions` computes

When none of its assertions fails, `calculate_positions` returns `Targets` for the window
(`calculatePositions_targets`); this needs no relation between the degrees and the arguments, the
assertions are enough. When `total_degree` is the sum of the degrees, the window has a gap, and the
elements and vertices are at most `10^8`, no assertion fails (`calculatePositions_isSome`): the gaps that
are handed out sum up to at most the rounded-down step times the number of elements and vertices
(`calculatePositions_fits`). Each gap is the product of the step and the degree plus one, rounded down
(`calculatePositions_packs`).
-/

namespace Dgap

/-- The conversion is exact on integers. -/
@[simp] lemma toInt64_intCast (m : ℤ) : toInt64 (m : ℚ) = m := by
  simp [toInt64]

/-- On non-negative numbers the conversion rounds down. -/
lemma toInt64_of_nonneg {q : ℚ} (h : 0 ≤ q) : toInt64 q = ⌊q⌋ := by
  change q.num.tdiv q.den = q.floor
  rw [Rat.floor_def, Int.tdiv_eq_ediv_of_nonneg (Rat.num_nonneg.2 h)]

/-- The conversion does not pass below an integer. -/
lemma le_toInt64 {q : ℚ} {m : ℤ} (h : (m : ℚ) ≤ q) : m ≤ toInt64 q := by
  have hfloor : m ≤ q.num / q.den := by
    rw [← Rat.floor_def]
    exact Int.le_floor.2 h
  have hsign : (q.den : ℤ).sign = 1 := Int.sign_eq_one_of_pos (by exact_mod_cast q.den_pos)
  rw [toInt64, Int.tdiv_eq_ediv, hsign]
  split <;> omega

/-- On non-negative numbers the conversion does not round up. -/
lemma toInt64_le {q : ℚ} (h : 0 ≤ q) : (toInt64 q : ℚ) ≤ q := by
  rw [toInt64_of_nonneg h]
  exact Int.floor_le q

namespace Graph

variable {g : Graph} {b : ℤ} {step d : ℚ} {k i : ℕ} {l : List ℤ}

/-- One iteration of the loop. -/
lemma positionsLoop_succ (h : g.positionsLoop b step (k + 1) i d = some l) :
    toInt64 d + (g.vertices i).degree ≤ b ∧ ∃ rest, l = toInt64 d :: rest ∧
      g.positionsLoop b step k (i + 1)
        (toInt64 d + ((g.vertices i).degree + step * ((g.vertices i).degree + 1))) = some rest := by
  simp only [positionsLoop] at h
  split at h
  · rename_i hle
    cases hr : g.positionsLoop b step k (i + 1)
        (toInt64 d + ((g.vertices i).degree + step * ((g.vertices i).degree + 1))) with
    | none => simp [hr] at h
    | some rest =>
      rw [hr] at h
      exact ⟨hle, rest, (Option.some.inj h).symm, rfl⟩
  · cases h

/-- A vertex' position is followed by its elements and a gap that is not negative. -/
lemma next_position (hs : 0 ≤ step) {m n : ℤ} (hn : 0 ≤ n) :
    m + n ≤ toInt64 ((m : ℚ) + (n + step * (n + 1))) := by
  apply le_toInt64
  have hn' : (0 : ℚ) ≤ n := by exact_mod_cast hn
  have : 0 ≤ step * ((n : ℚ) + 1) := by positivity
  push_cast
  linarith

/-- The positions come in order and inside the boundary. -/
lemma positionsLoop_spec (hs : 0 ≤ step)
    (hd : ∀ v, i ≤ v → v < i + k → 0 ≤ (g.vertices v).degree)
    (h : g.positionsLoop b step k i d = some l) :
    l.length = k ∧ (0 < k → l.getD 0 0 = toInt64 d) ∧
      (∀ j < k, l.getD j 0 + (g.vertices (i + j)).degree ≤ b) ∧
      ∀ j, j + 1 < k → l.getD j 0 + (g.vertices (i + j)).degree ≤ l.getD (j + 1) 0 := by
  induction k generalizing i d l with
  | zero =>
    obtain rfl : [] = l := Option.some.inj h
    exact ⟨rfl, by omega, by omega, by omega⟩
  | succ k ih =>
    obtain ⟨hle, rest, rfl, hr⟩ := positionsLoop_succ h
    obtain ⟨h1, h2, h3, h4⟩ := ih (fun v hv1 hv2 => hd v (by omega) (by omega)) hr
    refine ⟨by simp [h1], fun _ => rfl, fun j hj => ?_, fun j hj => ?_⟩
    · cases j with
      | zero => simpa using hle
      | succ j =>
        have := h3 j (by omega)
        rwa [show i + 1 + j = i + (j + 1) by omega] at this
    · cases j with
      | zero =>
        have := next_position hs (m := toInt64 d) (hd i (le_refl _) (by omega))
        simp only [List.getD_cons_zero, List.getD_cons_succ, Nat.add_zero]
        rw [h2 (by omega)]
        exact this
      | succ j =>
        have := h4 j (by omega)
        rwa [show i + 1 + j = i + (j + 1) by omega] at this

variable {startVertex endVertex : ℕ} {gaps totalDegree : ℤ}

/-- What `calculate_positions` returns are targets for the window. -/
lemma calculatePositions_targets (h1 : startVertex < endVertex) (h2 : endVertex ≤ g.numVertices)
    (hd : ∀ v, startVertex ≤ v → v < endVertex → 0 ≤ (g.vertices v).degree)
    (h : g.calculatePositions startVertex endVertex gaps totalDegree = some l) :
    g.Targets startVertex endVertex (newAt l startVertex) ∧
      newAt l startVertex startVertex = g.bound startVertex := by
  simp only [calculatePositions] at h
  split at h
  case isFalse => cases h
  case isTrue hstep =>
    have hs : (0 : ℚ) ≤ toInt64 ((gaps : ℚ) / ((totalDegree + (endVertex - startVertex : ℕ) : ℤ) : ℚ)
        * precisionPos) / precisionPos := by
      have : (0 : ℚ) < toInt64 ((gaps : ℚ) / ((totalDegree + (endVertex - startVertex : ℕ) : ℤ) : ℚ)
        * precisionPos) := by exact_mod_cast hstep
      unfold precisionPos at *
      positivity
    obtain ⟨hlen, h0, hle, hmono⟩ := positionsLoop_spec hs
      (fun v hv1 hv2 => hd v hv1 (by omega)) h
    have hfirst : newAt l startVertex startVertex = g.bound startVertex := by
      rw [newAt, Nat.sub_self, h0 (by omega), toInt64_intCast, bound_of_lt (by omega)]
    refine ⟨⟨h1, h2, hfirst.ge, fun v hv1 hv2 => ?_, ?_⟩, hfirst⟩
    · have := hmono (v - startVertex) (by omega)
      rw [show startVertex + (v - startVertex) = v by omega] at this
      rw [newAt, newAt, show v + 1 - startVertex = v - startVertex + 1 by omega]
      exact this
    · have := hle (endVertex - 1 - startVertex) (by omega)
      rw [show startVertex + (endVertex - 1 - startVertex) = endVertex - 1 by omega] at this
      exact this

/-- The sum of the degrees of the vertices in `[a, b)`. -/
def degreeSum (g : Graph) (a b : ℕ) : ℤ := ∑ v ∈ Finset.Ico a b, (g.vertices v).degree

/-- A sum of degrees that are not negative. -/
lemma degreeSum_nonneg {a b : ℕ} (hd : ∀ v, a ≤ v → v < b → 0 ≤ (g.vertices v).degree) :
    0 ≤ g.degreeSum a b :=
  Finset.sum_nonneg fun v hv => hd v (Finset.mem_Ico.1 hv).1 (Finset.mem_Ico.1 hv).2

/-- The step that `calculate_positions` hands out per element, truncated to eight decimals. -/
def truncatedStep (gaps totalDegree : ℤ) (size : ℕ) : ℚ :=
  toInt64 ((gaps : ℚ) / ((totalDegree + size : ℤ) : ℚ) * precisionPos) / precisionPos

/-- The gap behind a vertex. -/
def gapOf (g : Graph) (step : ℚ) (v : ℕ) : ℤ := ⌊step * ((g.vertices v).degree + 1)⌋

/-- A gap is not negative. -/
lemma gapOf_nonneg (hs : 0 ≤ step) {v : ℕ} (hv : 0 ≤ (g.vertices v).degree) : 0 ≤ g.gapOf step v := by
  have hv' : (0 : ℚ) ≤ (g.vertices v).degree := by exact_mod_cast hv
  exact Int.floor_nonneg.2 (by positivity)

/-- A vertex' position is followed by its elements and its gap. -/
lemma next_position_eq (hs : 0 ≤ step) {m : ℤ} {v : ℕ} (hm : 0 ≤ m) (hv : 0 ≤ (g.vertices v).degree) :
    toInt64 ((m : ℚ) + ((g.vertices v).degree + step * ((g.vertices v).degree + 1))) =
      m + (g.vertices v).degree + g.gapOf step v := by
  have hm' : (0 : ℚ) ≤ m := by exact_mod_cast hm
  have hv' : (0 : ℚ) ≤ (g.vertices v).degree := by exact_mod_cast hv
  rw [toInt64_of_nonneg (by positivity), gapOf, ← Int.floor_intCast_add]
  push_cast
  rw [add_assoc]

/-- Each position is followed by the elements and the gap of its vertex. -/
lemma positionsLoop_gap (hs : 0 ≤ step) (hd0 : 0 ≤ d)
    (hd : ∀ v, i ≤ v → v < i + k → 0 ≤ (g.vertices v).degree)
    (h : g.positionsLoop b step k i d = some l) {j : ℕ} (hj : j + 1 < k) :
    l.getD (j + 1) 0 = l.getD j 0 + (g.vertices (i + j)).degree + g.gapOf step (i + j) := by
  induction k generalizing i d l j with
  | zero => omega
  | succ k ih =>
    obtain ⟨-, rest, rfl, hr⟩ := positionsLoop_succ h
    have hdi := hd i (le_refl _) (by omega)
    have hint : 0 ≤ toInt64 d := le_toInt64 (by exact_mod_cast hd0)
    have hdi' : (0 : ℚ) ≤ (g.vertices i).degree := by exact_mod_cast hdi
    have hint' : (0 : ℚ) ≤ toInt64 d := by exact_mod_cast hint
    have hrest : ∀ v, i + 1 ≤ v → v < i + 1 + k → 0 ≤ (g.vertices v).degree :=
      fun v hv1 hv2 => hd v (by omega) (by omega)
    cases j with
    | zero =>
      obtain ⟨-, h0, -, -⟩ := positionsLoop_spec hs hrest hr
      rw [List.getD_cons_succ, List.getD_cons_zero, h0 (by omega), next_position_eq hs hint hdi]
      rfl
    | succ j =>
      have := ih (by positivity) hrest hr (j := j) (by omega)
      rwa [show i + 1 + j = i + (j + 1) by omega] at this

/-- The loop fails no assertion when the elements and their gaps fit before the boundary, and the gap
behind the last vertex fits as well. -/
lemma positionsLoop_fits (hs : 0 ≤ step) (hd0 : 0 ≤ d)
    (hd : ∀ v, i ≤ v → v < i + k → 0 ≤ (g.vertices v).degree)
    (hb : (toInt64 d : ℚ) + g.degreeSum i (i + k) + step * (g.degreeSum i (i + k) + k) ≤ b) :
    ∃ l, g.positionsLoop b step k i d = some l ∧ (0 < k →
      l.getD (k - 1) 0 + (g.vertices (i + (k - 1))).degree + g.gapOf step (i + (k - 1)) ≤ b) := by
  induction k generalizing i d with
  | zero => exact ⟨[], rfl, by omega⟩
  | succ k ih =>
    have hsplit : g.degreeSum i (i + (k + 1)) =
        (g.vertices i).degree + g.degreeSum (i + 1) (i + 1 + k) := by
      unfold degreeSum
      rw [Finset.sum_eq_sum_Ico_succ_bot (by omega), show i + (k + 1) = i + 1 + k by omega]
    have hrest : 0 ≤ g.degreeSum (i + 1) (i + 1 + k) :=
      degreeSum_nonneg fun v hv1 hv2 => hd v (by omega) (by omega)
    have hdi := hd i (le_refl _) (by omega)
    have hdi' : (0 : ℚ) ≤ (g.vertices i).degree := by exact_mod_cast hdi
    have hrest' : (0 : ℚ) ≤ g.degreeSum (i + 1) (i + 1 + k) := by exact_mod_cast hrest
    have hk : (0 : ℚ) ≤ k := by positivity
    have hint : 0 ≤ toInt64 d := le_toInt64 (by exact_mod_cast hd0)
    have hint' : (0 : ℚ) ≤ toInt64 d := by exact_mod_cast hint
    rw [hsplit] at hb
    push_cast at hb
    -- the elements of the vertex and its gap fit
    have hgap : toInt64 d + (g.vertices i).degree + g.gapOf step i ≤ b := by
      have h1 : 0 ≤ step * (g.degreeSum (i + 1) (i + 1 + k) + k) := by positivity
      have h2 : ((g.gapOf step i : ℤ) : ℚ) ≤ step * ((g.vertices i).degree + 1) := Int.floor_le _
      have h3 : ((toInt64 d + (g.vertices i).degree + g.gapOf step i : ℤ) : ℚ) ≤ b := by
        push_cast
        linarith
      exact_mod_cast h3
    have hle : toInt64 d + (g.vertices i).degree ≤ b := by
      have := gapOf_nonneg (g := g) hs hdi
      omega
    have hnext : (0 : ℚ) ≤ toInt64 d +
        ((g.vertices i).degree + step * ((g.vertices i).degree + 1)) := by positivity
    have htr := toInt64_le hnext
    obtain ⟨rest, hr, hlast⟩ := ih (i := i + 1) hnext (fun v hv1 hv2 => hd v (by omega) (by omega))
      (by linarith)
    refine ⟨toInt64 d :: rest, ?_, fun _ => ?_⟩
    · rw [positionsLoop]
      simp only [if_pos hle]
      rw [hr]
      rfl
    · rcases Nat.eq_zero_or_pos k with rfl | hkpos
      · exact hgap
      · have := hlast hkpos
        rw [show i + 1 + (k - 1) = i + k by omega] at this
        rw [Nat.add_sub_cancel, show k = k - 1 + 1 by omega, List.getD_cons_succ,
          show i + (k - 1 + 1) = i + k by omega]
        exact this

/-- A step that passes the assertion is positive. -/
lemma truncatedStep_pos {size : ℕ}
    (h : 0 < toInt64 ((gaps : ℚ) / ((totalDegree + size : ℤ) : ℚ) * precisionPos)) :
    0 < truncatedStep gaps totalDegree size := by
  have h' : (0 : ℚ) < toInt64 ((gaps : ℚ) / ((totalDegree + size : ℤ) : ℚ) * precisionPos) := by
    exact_mod_cast h
  unfold truncatedStep precisionPos at *
  positivity

/-- The truncated step hands out at most the gaps. -/
lemma truncatedStep_mul_le {size : ℕ} (hgaps : 0 ≤ gaps) (htotal : 0 < totalDegree + size) :
    truncatedStep gaps totalDegree size * ((totalDegree + size : ℤ) : ℚ) ≤ gaps := by
  have htotal' : (0 : ℚ) < ((totalDegree + size : ℤ) : ℚ) := by exact_mod_cast htotal
  have hgaps' : (0 : ℚ) ≤ gaps := by exact_mod_cast hgaps
  set ratio : ℚ := (gaps : ℚ) / ((totalDegree + size : ℤ) : ℚ) with hratio
  have hle : (toInt64 (ratio * precisionPos) : ℚ) / precisionPos ≤ ratio := by
    rw [div_le_iff₀ (by norm_num [precisionPos])]
    exact toInt64_le (by unfold precisionPos; positivity)
  calc truncatedStep gaps totalDegree size * ((totalDegree + size : ℤ) : ℚ)
      ≤ ratio * ((totalDegree + size : ℤ) : ℚ) := mul_le_mul_of_nonneg_right hle htotal'.le
    _ = gaps := by rw [hratio, div_mul_cancel₀ _ htotal'.ne']

/-- The assertions on the positions do not fail when the one on the step does not and there is room for
the gaps; the gap behind the last vertex fits as well. -/
lemma calculatePositions_fits (h1 : startVertex < endVertex)
    (hd : ∀ v, startVertex ≤ v → v < endVertex → 0 ≤ (g.vertices v).degree)
    (hindex : 0 ≤ (g.vertices startVertex).index) (hgaps : 0 ≤ gaps)
    (htotal : totalDegree = g.degreeSum startVertex endVertex)
    (hboundary : (g.vertices startVertex).index + totalDegree + gaps ≤ g.bound endVertex)
    (hstep : 0 < toInt64 ((gaps : ℚ) / ((totalDegree + (endVertex - startVertex : ℕ) : ℤ) : ℚ)
      * precisionPos)) :
    ∃ l, g.calculatePositions startVertex endVertex gaps totalDegree = some l ∧
      l.getD (endVertex - startVertex - 1) 0 + (g.vertices (endVertex - 1)).degree +
        g.gapOf (truncatedStep gaps totalDegree (endVertex - startVertex)) (endVertex - 1) ≤
        g.bound endVertex := by
  have hpos := truncatedStep_pos hstep
  have hT0 : 0 ≤ totalDegree := htotal ▸ degreeSum_nonneg hd
  have htotal0 : 0 < totalDegree + ((endVertex - startVertex : ℕ) : ℤ) := by omega
  have hle := truncatedStep_mul_le hgaps htotal0
  have hsum : g.degreeSum startVertex (startVertex + (endVertex - startVertex)) = totalDegree := by
    rw [Nat.add_sub_cancel' h1.le, htotal]
  obtain ⟨l, hl, hlast⟩ := positionsLoop_fits (g := g) (b := g.bound endVertex)
    (k := endVertex - startVertex) (i := startVertex) (d := (g.vertices startVertex).index) hpos.le
    (by exact_mod_cast hindex) (fun v hv1 hv2 => hd v hv1 (by omega)) (by
      rw [toInt64_intCast, hsum]
      have : (((g.vertices startVertex).index + totalDegree + gaps : ℤ) : ℚ) ≤ g.bound endVertex := by
        exact_mod_cast hboundary
      push_cast at this hle ⊢
      linarith)
  refine ⟨l, ?_, ?_⟩
  · simp only [calculatePositions]
    rw [if_pos hstep]
    exact hl
  · have := hlast (by omega)
    rwa [show startVertex + (endVertex - startVertex - 1) = endVertex - 1 by omega] at this

/-- No assertion of `calculate_positions` fails when there is a gap and the numbers stay below the
precision of the step. -/
lemma calculatePositions_isSome (startVertex endVertex : ℕ) (gaps totalDegree : ℤ)
    (h1 : startVertex < endVertex) (h2 : endVertex ≤ g.numVertices)
    (hd : ∀ v, startVertex ≤ v → v < endVertex → 0 ≤ (g.vertices v).degree)
    (hindex : 0 ≤ g.bound startVertex) (hgaps : 1 ≤ gaps)
    (htotal : totalDegree = g.degreeSum startVertex endVertex)
    (hsize : totalDegree + (endVertex - startVertex : ℕ) ≤ 100000000)
    (hboundary : g.bound startVertex + totalDegree + gaps ≤ g.bound endVertex) :
    ∃ l, g.calculatePositions startVertex endVertex gaps totalDegree = some l := by
  have hT0 : 0 ≤ totalDegree := htotal ▸ degreeSum_nonneg hd
  have hTpos : 0 < totalDegree + ((endVertex - startVertex : ℕ) : ℤ) := by omega
  have hTpos' : (0 : ℚ) < ((totalDegree + (endVertex - startVertex : ℕ) : ℤ) : ℚ) := by
    exact_mod_cast hTpos
  have hgaps' : (1 : ℚ) ≤ gaps := by exact_mod_cast hgaps
  have hsize' : ((totalDegree + (endVertex - startVertex : ℕ) : ℤ) : ℚ) ≤ 100000000 := by
    exact_mod_cast hsize
  have hone : (1 : ℚ) ≤ (gaps : ℚ) / ((totalDegree + (endVertex - startVertex : ℕ) : ℤ) : ℚ)
      * precisionPos := by
    rw [precisionPos, div_mul_eq_mul_div, le_div_iff₀ hTpos']
    linarith
  rw [bound_of_lt (by omega)] at hindex hboundary
  obtain ⟨l, hl, -⟩ := calculatePositions_fits h1 hd hindex (by omega) htotal hboundary
    (Int.lt_of_lt_of_le zero_lt_one (le_toInt64 (by exact_mod_cast hone)))
  exact ⟨l, hl⟩

/-- The positions start at the first index of the window, leave behind each vertex its elements and the
rounded-down product of the step and its degree plus one, and end before the boundary, so that no
assertion on them fails: only the one on the step can. -/
theorem calculatePositions_packs (h1 : startVertex < endVertex)
    (hd : ∀ v, startVertex ≤ v → v < endVertex → 1 ≤ (g.vertices v).degree)
    (hindex : 0 ≤ (g.vertices startVertex).index)
    (htotal : totalDegree = ∑ v ∈ Finset.Ico startVertex endVertex, (g.vertices v).degree)
    (hgaps : gaps = g.bound endVertex - (g.vertices startVertex).index - totalDegree) (hgaps0 : 0 ≤ gaps)
    (hstep : 0 < toInt64 ((gaps : ℚ) / ((totalDegree + (endVertex - startVertex : ℕ) : ℤ) : ℚ)
      * precisionPos)) :
    let step := truncatedStep gaps totalDegree (endVertex - startVertex)
    ∃ l, g.calculatePositions startVertex endVertex gaps totalDegree = some l ∧
      l.length = endVertex - startVertex ∧
      l.getD 0 0 = (g.vertices startVertex).index ∧
      (∀ i, i + 1 < endVertex - startVertex →
        l.getD i 0 + (g.vertices (startVertex + i)).degree ≤ l.getD (i + 1) 0 ∧
        l.getD (i + 1) 0 - (l.getD i 0 + (g.vertices (startVertex + i)).degree) =
          ⌊step * ((g.vertices (startVertex + i)).degree + 1)⌋) ∧
      (∀ i < endVertex - startVertex,
        l.getD i 0 + (g.vertices (startVertex + i)).degree ≤ g.bound endVertex) ∧
      l.getD (endVertex - startVertex - 1) 0 + (g.vertices (endVertex - 1)).degree +
        ⌊step * ((g.vertices (endVertex - 1)).degree + 1)⌋ ≤ g.bound endVertex := by
  have hd0 : ∀ v, startVertex ≤ v → v < endVertex → 0 ≤ (g.vertices v).degree := fun v hv1 hv2 => by
    have := hd v hv1 hv2
    omega
  obtain ⟨l, hl, hlast⟩ := calculatePositions_fits h1 hd0 hindex hgaps0 htotal (by omega) hstep
  have hs := (truncatedStep_pos hstep).le
  have hloop := hl
  simp only [calculatePositions] at hloop
  rw [if_pos hstep] at hloop
  have hdk : ∀ v, startVertex ≤ v → v < startVertex + (endVertex - startVertex) →
      0 ≤ (g.vertices v).degree := fun v hv1 hv2 => hd0 v hv1 (by omega)
  obtain ⟨hlen, hfirst, hle, hmono⟩ := positionsLoop_spec hs hdk hloop
  refine ⟨l, hl, hlen, ?_, fun i hi => ⟨hmono i hi, ?_⟩, hle, hlast⟩
  · rw [hfirst (by omega), toInt64_intCast]
  · have := positionsLoop_gap hs (by exact_mod_cast hindex) hdk hloop hi
    rw [gapOf] at this
    unfold truncatedStep at *
    omega

/-- Two vertices with three and two elements in an array of twenty slots. -/
theorem calculatePositions_packs_two : ∃ (g : Graph) (l : List ℤ),
    g.calculatePositions 0 2 15 5 = some l ∧ l.length = 2 ∧ l.getD 0 0 = 0 ∧
    l.getD 1 0 - (l.getD 0 0 + 3) = ⌊truncatedStep 15 5 2 * (3 + 1)⌋ := by
  let g : Graph := { allocate ⟨fun _ => 7, fun _ => .zero⟩ true 3 2 with
    vertices := fun v => if v = 0 then ⟨0, 3, -1⟩ else ⟨3, 2, -1⟩ }
  obtain ⟨l, hl, hlen, h0, hgap, -⟩ := @calculatePositions_packs g 0 2 15 5 (by decide) (by decide)
    (by decide) (by decide) (by decide) (by decide) (by decide +kernel)
  refine ⟨g, l, hl, hlen, h0, ?_⟩
  have := (hgap 0 (by decide)).2
  exact this.trans (by norm_num [g])

end Graph

end Dgap
