import Dgap.Crash.Recovered

/-!
# Recovering the segment logs

The last loop of `recovery` stores the index of an entry where the number of entries belongs, stops at an
entry whose source or destination is 0 or that continues a chain at entry 0, and leaves
`log_segment_idx_` as `malloc` returned it when it finds no entry. Nothing in `recovery` writes the
offset of a vertex or counts a logged edge. So what is right about the logs afterwards was right in the
memory that `malloc` returned (`recovery_logs`).
-/

namespace Dgap

namespace Graph

variable {g : Graph} {fresh : Fresh} {s : Scan} {v : ℕ}

/-- `r` has the logs of `g`: as many entries, every logged edge counted, and the heads of the chains. -/
structure LogsRecovered (g r : Graph) : Prop where
  logIdx : ∀ t < g.segmentCount, r.logSegmentIdx t = g.logSegmentIdx t
  degree : ∀ v < g.numVertices, (r.vertices v).degree = (g.vertices v).degree
  offset : ∀ v < g.numVertices, (r.vertices v).offset = (g.vertices v).offset

/-- The log scan keeps the index it found, or stores that of an entry it takes for used. -/
lemma scanLog_spec (log : ℤ → LogEntry) (k : ℕ) (i idx : ℤ) : scanLog log k i idx = idx ∨
    (i ≤ scanLog log k i idx ∧ logEntryUsed (log (scanLog log k i idx)) = true) := by
  induction k generalizing i idx with
  | zero => exact .inl rfl
  | succ k ih =>
    rw [scanLog]
    split
    case isTrue hused =>
      rcases ih (i + 1) i with h | ⟨h1, h2⟩
      · exact .inr (by rw [h]; exact ⟨le_refl i, hused⟩)
      · exact .inr ⟨by omega, h2⟩
    case isFalse => exact .inl rfl

/-- The log scan finds fewer entries than there are, or none. -/
lemma Layout.scanLog_lt {adj : ℕ → List ℕ} (hL : g.Layout adj) {t : ℕ} (ht : t < g.segmentCount)
    (k : ℕ) (idx : ℤ) : scanLog (g.logPtr t).cur k 0 idx = idx ∨
      scanLog (g.logPtr t).cur k 0 idx < g.logSegmentIdx t := by
  rcases scanLog_spec (g.logPtr t).cur k 0 idx with h | ⟨-, hused⟩
  · exact .inl h
  · right
    by_contra hge
    rw [hL.logClear t ht _ (not_lt.1 hge)] at hused
    cases hused

/-- The scan writes no offset. -/
lemma Layout.scan_offset {adj : ℕ → List ℕ} (hL : g.Layout adj) (hs : g.scan (blank fresh) = some s)
    (v : ℕ) : (s.vertices v).offset = (fresh.vertices v).offset := by
  obtain ⟨z, -, -, -, -, rfl⟩ := hL.scan_some hs
  rw [scanRest_offset, Scan.counts_offset, Scan.pivot_offset]
  rfl

section Sequential

variable {foreign : Foreign} {directed : Bool} {tid nVertices : ℕ} {base ops : List (ℕ × ℕ)}

/-- Whatever a run has left in the logs, `recovery` does not find it again: it does so only where `malloc`
returned memory that has the log indices and the heads of the chains already. -/
theorem recovery_logs (h : Run foreign directed tid nVertices base ops g) :
    (∀ fresh r, g.settle.powerOff.reopen foreign fresh = some r → g.LogsRecovered r →
      (∀ t < g.segmentCount, fresh.logSegmentIdx t = g.logSegmentIdx t) ∧
        ∀ v < g.numVertices, (fresh.vertices v).offset = (g.vertices v).offset) ∧
    ¬∀ fresh, ∃ r, g.settle.powerOff.reopen foreign fresh = some r ∧ g.LogsRecovered r := by
  have hL := h.layout
  have hrec := h.recorded
  have hcount : ∀ fresh, (g.settle.powerOff.mount foreign fresh).segmentCount = g.segmentCount :=
    fun _ => hrec.segmentCount
  have hmain : ∀ fresh r, g.settle.powerOff.reopen foreign fresh = some r → g.LogsRecovered r →
      (∀ t < g.segmentCount, fresh.logSegmentIdx t = g.logSegmentIdx t) ∧
        ∀ v < g.numVertices, (fresh.vertices v).offset = (g.vertices v).offset := by
    intro fresh r hr hrecovered
    cases hs : g.scan (blank fresh) with
    | none => rw [hrec.reopen_none foreign hs] at hr; cases hr
    | some s =>
      obtain ⟨r', hr', hb⟩ := hrec.reopen_some foreign hs
      obtain rfl : r' = r := Option.some.inj (hr'.symm.trans hr)
      refine ⟨fun t ht => ?_, fun v hv => ?_⟩
      · have hidx : r'.logSegmentIdx t = scanLog (g.logPtr t).cur maxLogEntries 0
            (fresh.logSegmentIdx t) := hb.logIdx t (by rwa [hcount])
        rw [hrecovered.logIdx t ht] at hidx
        rcases hL.scanLog_lt ht maxLogEntries (fresh.logSegmentIdx t) with he | hlt
        · rw [hidx, he]
        · omega
      · rw [← hrecovered.offset v hv, hb.vertices, hL.scan_offset hs]
  refine ⟨hmain, fun hall => ?_⟩
  -- memory with another offset for vertex 0
  obtain ⟨r, hr, hrecovered⟩ := hall
    ⟨fun v => ⟨0, 0, (g.vertices v).offset + 1⟩, fun _ => 0⟩
  have hpos := hL.geometry.two_le_vertices
  have := (hmain _ r hr hrecovered).2 0 (by omega)
  simp at this

/-- Four edges of vertex 2, the last of them in the log. -/
theorem recovery_logs_four : ∃ g, Run ⟨fun _ => 7, fun _ => .zero⟩ true 0 4 []
    [(2, 1), (2, 1), (2, 1), (2, 1)] g ∧
    ¬∀ fresh, ∃ r, g.settle.powerOff.reopen ⟨fun _ => 7, fun _ => .zero⟩ fresh = some r ∧
      g.LogsRecovered r := by
  obtain ⟨g, hg⟩ : ∃ g, Run ⟨fun _ => 7, fun _ => .zero⟩ true 0 4 []
      [(2, 1), (2, 1), (2, 1), (2, 1)] g :=
    Run.exists_of_bound _ _ _ (by decide) (by decide) (by decide) (by decide) (by decide)
  exact ⟨g, hg, (recovery_logs hg).2⟩

/-- The log of leaf 1 has one entry and `malloc` returned exactly what was there before the crash, but
`recovery` sets the log index to 0, so that the next entry overwrites it. -/
theorem recovery_logs_fails : ∃ g, Run ⟨fun _ => 0, fun _ => .zero⟩ true 0 4 []
    [(2, 1), (2, 1), (2, 1), (2, 1)] g ∧ g.logSegmentIdx 1 = 1 ∧
    ∃ r, g.settle.powerOff.reopen ⟨fun _ => 0, fun _ => .zero⟩ ⟨g.vertices, g.logSegmentIdx⟩ = some r ∧
      r.logSegmentIdx 1 = 0 ∧ ¬g.LogsRecovered r := by
  obtain ⟨g, hg, hp⟩ := Run.exists_of_check ⟨fun _ => 0, fun _ => .zero⟩ true 0 4 []
    [(2, 1), (2, 1), (2, 1), (2, 1)] (by decide) (by decide) (by decide) (by decide)
    (fun g => decide (g.segmentCount = 2 ∧ g.logSegmentIdx 1 = 1) &&
      (g.settle.powerOff.reopen ⟨fun _ => 0, fun _ => .zero⟩ ⟨g.vertices, g.logSegmentIdx⟩).any
        fun r => r.logSegmentIdx 1 = 0) (by decide +kernel)
  rw [Bool.and_eq_true, decide_eq_true_iff, Option.any_eq_true] at hp
  obtain ⟨⟨hs, hone⟩, r, hr, hr0⟩ := hp
  rw [decide_eq_true_iff] at hr0
  refine ⟨g, hg, hone, r, hr, hr0, fun h => ?_⟩
  have := h.logIdx 1 (by omega)
  omega

end Sequential

end Graph

end Dgap
