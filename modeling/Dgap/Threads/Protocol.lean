import Dgap.Threads.Data
import Dgap.System.Locks

/-!
# The lock protocol of concurrent inserts

`Thread.held` and `Thread.owed` say, from the program counter of a thread alone, which mutexes it holds and
which counters `on_rebalance` it has raised and not lowered again. `Thread.Legal` is the invariant of its
local variables, and `next_legal` says what every step does to these: a mutex that is taken is not held
yet, a counter that is raised is not owed to yet. It needs the step to be `Calm`: the walk up the tree must
not find a window below its threshold above the root, a thread that is about to resize must still find its
segment full, and `on_rebalance += 1` must not overwrite the change of another thread.
-/

namespace Dgap

namespace Thread

variable {n : ℕ} {t t' : Thread} {g : Graph} {r : ℕ → ℤ} {o : ℕ → Option (Fin n)} {i : Fin n}
  {e : Effect}

/-- The mutexes that a thread holds. -/
def held (t : Thread) : Finset ℕ :=
  match t.pc with
  | .idle | .acquire | .asleep | .climb | .leave => ∅
  | .readActual .resize | .readTotal .resize _ => ∅
  | .testRebalance | .sleep | .insertion | .incRead | .incWrite _ | .release _ => {t.current}
  | .readActual .inserted | .readTotal .inserted _ => {t.current}
  | .raiseRead seg | .raiseCas seg _ | .lockSeg seg | .notify seg => Finset.Ico t.left seg
  | .sumActual seg | .sumTotal seg => Finset.Ico t.left (seg + 1)
  | .lowerRead seg | .lowerCas seg _ | .readDepend seg | .unlockSeg seg _ =>
    Finset.Ico t.left (seg + 1)
  | .decide | .rebalance | .resize => Finset.Ico t.left t.right
  | .readActual .window | .readTotal .window _ => Finset.Ico t.left t.right

/-- The counters that a thread has raised and not lowered. -/
def owed (t : Thread) : Finset ℕ :=
  match t.pc with
  | .idle | .acquire | .testRebalance | .sleep | .asleep | .insertion | .incRead | .incWrite _ |
    .leave | .release false => ∅
  | .readActual .inserted | .readTotal .inserted _ => ∅
  | .release true | .climb | .readActual .resize | .readTotal .resize _ => {t.current}
  | .raiseRead seg | .raiseCas seg _ => insert t.current (Finset.Ico t.left seg)
  | .lockSeg seg | .sumActual seg | .sumTotal seg =>
    insert t.current (Finset.Ico t.left (seg + 1))
  | .decide | .rebalance | .resize => insert t.current (Finset.Ico t.left t.right)
  | .readActual .window | .readTotal .window _ => insert t.current (Finset.Ico t.left t.right)
  | .lowerRead seg | .lowerCas seg _ =>
    bif t.keep then insert t.current (Finset.Ico t.left (seg + 1)) else Finset.Ico t.left (seg + 1)
  | .readDepend seg | .unlockSeg seg _ | .notify seg =>
    bif t.keep then insert t.current (Finset.Ico t.left seg) else Finset.Ico t.left seg

/-- The mutex that a thread waits for. -/
def wants (t : Thread) : Option ℕ :=
  match t.pc with
  | .acquire => some t.current
  | .lockSeg seg => some seg
  | _ => none

/-- The batch of segments of a thread contains its own. -/
structure Batch (count : ℕ) (t : Thread) : Prop where
  left_le : t.left ≤ t.current
  lt_right : t.current < t.right
  right_le : t.right ≤ count

/-- The invariant of the local variables of a thread. -/
def Legal (count : ℕ) (t : Thread) : Prop :=
  match t.pc with
  | .raiseRead seg | .raiseCas seg _ =>
    t.Batch count ∧ t.left ≤ seg ∧ seg < t.right ∧ seg ≠ t.current ∧ (t.resizing = true ∨ t.keep = true)
  | .lockSeg seg | .sumActual seg | .sumTotal seg =>
    t.Batch count ∧ t.left ≤ seg ∧ seg < t.right ∧ (t.resizing = true ∨ t.keep = true)
  | .decide => t.Batch count ∧ t.keep = true
  | .rebalance | .resize | .readActual .window | .readTotal .window _ => t.Batch count
  | .readActual .resize | .readTotal .resize _ =>
    t.Batch count ∧ t.left = 0 ∧ t.right = count
  | .lowerRead seg | .lowerCas seg _ =>
    t.Batch count ∧ t.left ≤ seg ∧ seg < t.right ∧ (t.keep = true → seg ≠ t.current)
  | .readDepend seg | .unlockSeg seg _ | .notify seg => t.Batch count ∧ t.left ≤ seg ∧ seg < t.right
  | _ => True

/-- The steps that keep the protocol. -/
def Calm (g : Graph) (r : ℕ → ℤ) (t : Thread) : Prop :=
  match t.pc with
  | .decide => t.window = 0 → g.upHeight t.height ≤ (t.metaActual : ℚ) / (t.metaTotal : ℚ)
  | .readTotal .resize actual =>
    up0 ≤ (actual : ℚ) / (g.segmentEdgesTotal (t.current + g.segmentCount) : ℚ)
  | .incWrite old => r t.current = old
  | _ => True

instance : Decidable (t.Calm g r) := by
  unfold Calm
  exact match t.pc with
  | .decide => inferInstanceAs (Decidable (_ → _))
  | .readTotal .resize _ => inferInstanceAs (Decidable (_ ≤ _))
  | .incWrite _ => inferInstanceAs (Decidable (_ = _))
  | .readTotal .inserted _ | .readTotal .window _ => .isTrue trivial
  | .idle | .acquire | .testRebalance | .sleep | .asleep | .insertion | .readActual _ | .incRead
  | .release _ | .climb | .raiseRead _ | .raiseCas _ _ | .lockSeg _ | .sumActual _ | .sumTotal _
  | .rebalance | .resize | .lowerRead _ | .lowerCas _ _ | .readDepend _ | .unlockSeg _ _
  | .notify _ | .leave => .isTrue trivial

/-- What a step does to the mutexes and counters. -/
def Respects (r : ℕ → ℤ) (o : ℕ → Option (Fin n)) (t : Thread) (e : Effect) (t' : Thread) : Prop :=
  match e with
  | .skip | .data _ | .notify _ => t'.held = t.held ∧ t'.owed = t.owed
  | .lock s => o s = none ∧ t'.held = insert s t.held ∧ t'.owed = t.owed
  | .unlock s => s ∈ t.held ∧ t'.held = t.held.erase s ∧ t'.owed = t.owed
  | .write s x d => t'.held = t.held ∧
    ((x = r s + 1 ∧ d = 1 ∧ s ∉ t.owed ∧ t'.owed = insert s t.owed) ∨
      (x = r s - 1 ∧ d = -1 ∧ s ∈ t.owed ∧ s ∈ t.held ∧ t'.owed = t.owed.erase s ∧
        t'.pc = .readDepend s))
  | .abort => True

@[simp] lemma goto_left (pc : Pc) : (t.goto pc).left = t.left := rfl
@[simp] lemma goto_right (pc : Pc) : (t.goto pc).right = t.right := rfl
@[simp] lemma goto_keep (pc : Pc) : (t.goto pc).keep = t.keep := rfl
@[simp] lemma goto_resizing (pc : Pc) : (t.goto pc).resizing = t.resizing := rfl

/-- A batch does not depend on where the thread is. -/
lemma Batch.goto {count : ℕ} (h : t.Batch count) (pc : Pc) : (t.goto pc).Batch count :=
  ⟨h.left_le, h.lt_right, h.right_le⟩

/-- At the loop head of `lock_in_batch` the segments below are locked and raised. -/
lemma lockFrom_spec (seg : ℕ) {count : ℕ} (hb : t.Batch count) (h1 : t.left ≤ seg) (h2 : seg ≤ t.right)
    (hk : t.resizing = true ∨ t.keep = true) :
    (t.lockFrom seg).Legal count ∧ (t.lockFrom seg).held = Finset.Ico t.left seg ∧
      (t.lockFrom seg).owed = insert t.current (Finset.Ico t.left seg) := by
  unfold lockFrom
  split
  case isTrue hlt =>
    split
    case isTrue he =>
      refine ⟨⟨hb.goto _, h1, hlt, hk⟩, rfl, ?_⟩
      -- the own segment counts as raised before it is locked
      ext s
      simp only [owed, goto_pc, goto_current, goto_left, Finset.mem_insert, Finset.mem_Ico]
      omega
    case isFalse hne => exact ⟨⟨hb.goto _, h1, hlt, hne, hk⟩, rfl, rfl⟩
  case isFalse hge =>
    obtain rfl : seg = t.right := by omega
    split
    case isTrue hr => exact ⟨hb.goto _, rfl, rfl⟩
    case isFalse hr => exact ⟨⟨hb.goto _, hk.resolve_left hr⟩, rfl, rfl⟩

/-- At the loop head of `unlock_in_batch` the segments below are still locked and raised. -/
lemma unlockBelow_spec {count hi : ℕ} (hb : t.Batch count) (h1 : t.left ≤ hi) (h2 : hi ≤ t.right) :
    (t.unlockBelow hi).Legal count ∧ (t.unlockBelow hi).held = Finset.Ico t.left hi ∧
      (t.unlockBelow hi).owed =
        bif t.keep then insert t.current (Finset.Ico t.left hi) else Finset.Ico t.left hi := by
  unfold unlockBelow
  split
  case isTrue hlt =>
    have hpred : hi - 1 + 1 = hi := by omega
    split
    case isTrue he =>
      refine ⟨⟨hb.goto _, by simp only [goto_left]; omega, by simp only [goto_right]; omega⟩, ?_, ?_⟩
      · simp [held, hpred]
      · simp only [owed, goto_pc, goto_keep, goto_current, goto_left, he.1, cond_true]
        ext s
        simp only [Finset.mem_insert, Finset.mem_Ico]
        omega
    case isFalse hne =>
      refine ⟨⟨hb.goto _, by simp only [goto_left]; omega, by simp only [goto_right]; omega,
        fun hk he => hne ⟨hk, he⟩⟩, ?_, ?_⟩
      · simp [held, hpred]
      · simp [owed, hpred]
  case isFalse hge =>
    obtain rfl : hi = t.left := by omega
    split
    case isTrue hk => exact ⟨trivial, by simp [held], by simp [owed, hk]⟩
    case isFalse hk => exact ⟨trivial, by simp [held], by simp [owed, hk]⟩

/-- When a window is given up, all its segments are still locked and raised, the own one among them. -/
lemma unlockWindow_spec {count : ℕ} (hb : t.Batch count) :
    (({ t with keep := false }).unlockBelow t.right).Legal count ∧
      (({ t with keep := false }).unlockBelow t.right).held = Finset.Ico t.left t.right ∧
      (({ t with keep := false }).unlockBelow t.right).owed =
        insert t.current (Finset.Ico t.left t.right) := by
  obtain ⟨h1, h2, h3⟩ := unlockBelow_spec (t := { t with keep := false })
    ⟨hb.left_le, hb.lt_right, hb.right_le⟩ (hb.left_le.trans hb.lt_right.le) (le_refl _)
  refine ⟨h1, h2, h3.trans ?_⟩
  rw [Finset.insert_eq_of_mem (Finset.mem_Ico.2 ⟨hb.left_le, hb.lt_right⟩)]
  rfl

/-- The end of a density check: a thread that gives up a window or a resize lowers what it has raised. -/
lemma readTotal_legal {k : Check} {actual : ℤ} (hl : t.Legal g.segmentCount) (hc : t.Calm g r)
    (hpc : t.pc = .readTotal k actual) (h : t.next g r o i = some (e, t')) :
    e = .abort ∨ (t'.Legal g.segmentCount ∧ Respects r o t e t') := by
  simp only [next, hpc] at h
  cases k with
  | inserted =>
    obtain ⟨rfl, rfl⟩ := Prod.mk.inj (Option.some.inj h)
    split
    all_goals exact .inr ⟨trivial, by simp [held, hpc], by simp [owed, hpc]⟩
  | window =>
    obtain ⟨rfl, rfl⟩ := Prod.mk.inj (Option.some.inj h)
    simp only [Legal, hpc] at hl
    split
    · exact .inr ⟨hl.goto _, by simp [held, hpc], by simp [owed, hpc]⟩
    · obtain ⟨h1, h2, h3⟩ := unlockWindow_spec hl
      exact .inr ⟨h1, h2.trans (by simp [held, hpc]), h3.trans (by simp [owed, hpc])⟩
  | resize =>
    obtain ⟨rfl, rfl⟩ := Prod.mk.inj (Option.some.inj h)
    simp only [Legal, hpc] at hl
    simp only [Calm, hpc] at hc
    obtain ⟨hb, hleft, hright⟩ := hl
    rw [if_pos (by simpa using hc)]
    obtain ⟨h1, h2, h3⟩ := lockFrom_spec
      (t := { t with resizing := true, metaActual := 0, metaTotal := 0 }) t.left
      ⟨hb.left_le, hb.lt_right, hb.right_le⟩ (le_refl _) (hb.left_le.trans hb.lt_right.le)
      (.inl rfl)
    exact .inr ⟨h1, h2.trans (by simp [held, hpc]), h3.trans (by simp [owed, hpc])⟩

/-- One level up: the batch of the next window contains the own segment. -/
lemma climb_legal (hg : g.Geometry) (hin : t.InRange g) (hpc : t.pc = .climb)
    (h : t.next g r o i = some (e, t')) :
    e = .abort ∨ (t'.Legal g.segmentCount ∧ Respects r o t e t') := by
  simp only [next, hpc] at h
  split at h
  case isTrue hw =>
    obtain ⟨rfl, rfl⟩ := Prod.mk.inj (Option.some.inj h)
    have hsrc := hin.src (by simp [hpc])
    have hcur := hin.current (by simp [hpc])
    obtain ⟨-, -, hw1, hw2, hw3⟩ := hg.window hsrc (t.height + 1)
    rw [← hcur] at hw1 hw2
    obtain ⟨h1, h2, h3⟩ := lockFrom_spec
      (t := { t with
        window := t.window / 2
        height := t.height + 1
        left := g.leftSegment t.src (t.height + 1)
        right := g.rightSegment t.src (t.height + 1)
        metaActual := 0
        metaTotal := 0
        resizing := false
        keep := true }) (g.leftSegment t.src (t.height + 1))
      ⟨hw1, hw2, hw3⟩ (le_refl _) (hw1.trans hw2.le) (.inr rfl)
    exact .inr ⟨h1, h2.trans (by simp [held, hpc]), h3.trans (by simp [owed, hpc])⟩
  case isFalse hw =>
    obtain ⟨rfl, rfl⟩ := Prod.ext_iff.1 (Option.some.inj h)
    unfold afterLoop
    split
    · exact .inl rfl
    · rw [if_neg (by omega)]
      have hcur := hin.current (by simp [hpc])
      have hlt := hg.leafOf_lt (hin.src (by simp [hpc]))
      exact .inr ⟨⟨⟨Nat.zero_le _, by simp only; omega, le_refl _⟩, rfl, rfl⟩,
        by simp [held, hpc], by simp [owed, hpc]⟩

/-- A counter of the batch is raised once. -/
lemma raiseCas_legal {seg : ℕ} {old : ℤ} (hl : t.Legal g.segmentCount) (hpc : t.pc = .raiseCas seg old)
    (h : t.next g r o i = some (e, t')) :
    e = .abort ∨ (t'.Legal g.segmentCount ∧ Respects r o t e t') := by
  simp only [next, hpc] at h
  simp only [Legal, hpc] at hl
  obtain ⟨hb, h1, h2, hne, hk⟩ := hl
  split at h
  case isTrue he =>
    obtain ⟨rfl, rfl⟩ := Prod.mk.inj (Option.some.inj h)
    refine .inr ⟨⟨hb.goto _, h1, h2, hk⟩, by simp [held, hpc], .inl ⟨by rw [he], rfl, ?_, ?_⟩⟩
    · simp [owed, hpc, hne]
    · simp only [owed, hpc, goto_pc, goto_current, goto_left]
      ext s
      simp only [Finset.mem_insert, Finset.mem_Ico]
      omega
  case isFalse he =>
    obtain ⟨rfl, rfl⟩ := Prod.mk.inj (Option.some.inj h)
    exact .inr ⟨⟨hb.goto _, h1, h2, hne, hk⟩, by simp [held, hpc], by simp [owed, hpc]⟩

/-- A window below its threshold is kept, and any other given up. -/
lemma decide_legal (hl : t.Legal g.segmentCount) (hc : t.Calm g r) (hpc : t.pc = .decide)
    (h : t.next g r o i = some (e, t')) :
    e = .abort ∨ (t'.Legal g.segmentCount ∧ Respects r o t e t') := by
  simp only [next, hpc] at h
  simp only [Legal, hpc] at hl
  simp only [Calm, hpc] at hc
  split at h
  case isTrue hlt =>
    obtain ⟨rfl, rfl⟩ := Prod.ext_iff.1 (Option.some.inj h)
    unfold afterLoop
    split
    · exact .inl rfl
    · rw [if_pos fun hw => absurd (hc hw) (not_le.2 hlt)]
      exact .inr ⟨hl.1.goto _, by simp [held, hpc], by simp [owed, hpc]⟩
  case isFalse hge =>
    obtain ⟨rfl, rfl⟩ := Prod.mk.inj (Option.some.inj h)
    obtain ⟨h1, h2, h3⟩ := unlockBelow_spec hl.1 (hl.1.left_le.trans hl.1.lt_right.le) (le_refl _)
    exact .inr ⟨h1, h2.trans (by simp [held, hpc]), h3.trans (by simp [owed, hpc, hl.2])⟩

/-- A counter of the batch is lowered once, by the thread that has raised it. -/
lemma lowerCas_legal {seg : ℕ} {old : ℤ} (hl : t.Legal g.segmentCount) (hpc : t.pc = .lowerCas seg old)
    (h : t.next g r o i = some (e, t')) :
    e = .abort ∨ (t'.Legal g.segmentCount ∧ Respects r o t e t') := by
  simp only [next, hpc] at h
  simp only [Legal, hpc] at hl
  obtain ⟨hb, h1, h2, hk⟩ := hl
  split at h
  case isTrue he =>
    obtain ⟨rfl, rfl⟩ := Prod.mk.inj (Option.some.inj h)
    refine .inr ⟨⟨hb.goto _, h1, h2⟩, by simp [held, hpc], .inr ⟨by rw [he], rfl, ?_, ?_, ?_, rfl⟩⟩
    · simp only [owed, hpc]
      cases t.keep
      · exact Finset.mem_Ico.2 ⟨h1, Nat.lt_succ_self _⟩
      · exact Finset.mem_insert_of_mem (Finset.mem_Ico.2 ⟨h1, Nat.lt_succ_self _⟩)
    · simp only [held, hpc]
      exact Finset.mem_Ico.2 ⟨h1, Nat.lt_succ_self _⟩
    · simp only [owed, hpc, goto_pc, goto_keep, goto_current, goto_left]
      cases hkeep : t.keep with
      | false =>
        ext s
        simp only [cond_false, Finset.mem_erase, Finset.mem_Ico]
        omega
      | true =>
        have hne := hk hkeep
        ext s
        simp only [cond_true, Finset.mem_erase, Finset.mem_insert, Finset.mem_Ico]
        omega
  case isFalse he =>
    obtain ⟨rfl, rfl⟩ := Prod.mk.inj (Option.some.inj h)
    exact .inr ⟨⟨hb.goto _, h1, h2, hk⟩, by simp [held, hpc], by simp [owed, hpc]⟩

/-- A mutex of the batch is released once. -/
lemma unlockSeg_legal {seg : ℕ} {rebalDepend : ℤ} (hl : t.Legal g.segmentCount)
    (hpc : t.pc = .unlockSeg seg rebalDepend)
    (h : t.next g r o i = some (e, t')) :
    e = .abort ∨ (t'.Legal g.segmentCount ∧ Respects r o t e t') := by
  simp only [next, hpc] at h
  simp only [Legal, hpc] at hl
  obtain ⟨hb, h1, h2⟩ := hl
  obtain ⟨rfl, rfl⟩ := Prod.mk.inj (Option.some.inj h)
  have hmem : seg ∈ t.held := by
    simp only [held, hpc]
    exact Finset.mem_Ico.2 ⟨h1, Nat.lt_succ_self _⟩
  have herase : t.held.erase seg = Finset.Ico t.left seg := by
    simp only [held, hpc]
    ext s
    simp only [Finset.mem_erase, Finset.mem_Ico]
    omega
  split
  · exact .inr ⟨⟨hb.goto _, h1, h2⟩, hmem, by rw [herase]; simp [held], by simp [owed, hpc]⟩
  · obtain ⟨h3, h4, h5⟩ := unlockBelow_spec hb h1 h2.le
    exact .inr ⟨h3, hmem, by rw [h4, herase], by rw [h5]; simp [owed, hpc]⟩

/-- A calm step respects the mutexes and counters and keeps the local variables legal. -/
lemma next_legal (hg : g.Geometry) (hin : t.InRange g) (hl : t.Legal g.segmentCount)
    (hc : t.Calm g r) (h : t.next g r o i = some (e, t')) :
    e = .abort ∨ (t'.Legal g.segmentCount ∧ Respects r o t e t') := by
  cases hpc : t.pc with
  | idle =>
    simp only [next, hpc] at h
    split at h
    · cases h
    · obtain ⟨rfl, rfl⟩ := Prod.mk.inj (Option.some.inj h)
      exact .inr ⟨trivial, by simp [held, hpc], by simp [owed, hpc]⟩
  | acquire =>
    simp only [next, hpc] at h
    split at h
    · obtain ⟨rfl, rfl⟩ := Prod.mk.inj (Option.some.inj h)
      exact .inr ⟨trivial, ‹_›, by simp [held, hpc], by simp [owed, hpc]⟩
    · cases h
  | testRebalance =>
    simp only [next, hpc] at h
    obtain ⟨rfl, rfl⟩ := Prod.mk.inj (Option.some.inj h)
    split
    all_goals exact .inr ⟨trivial, by simp [held, hpc], by simp [owed, hpc]⟩
  | sleep =>
    simp only [next, hpc] at h
    obtain ⟨rfl, rfl⟩ := Prod.mk.inj (Option.some.inj h)
    exact .inr ⟨trivial, by simp [held, hpc], by simp [held, hpc], by simp [owed, hpc]⟩
  | asleep => simp [next, hpc] at h
  | insertion =>
    simp only [next, hpc] at h
    split at h
    · obtain ⟨rfl, rfl⟩ := Prod.mk.inj (Option.some.inj h)
      exact .inl rfl
    · obtain ⟨rfl, rfl⟩ := Prod.mk.inj (Option.some.inj h)
      exact .inr ⟨trivial, by simp [held, hpc], by simp [owed, hpc]⟩
  | readActual k =>
    simp only [next, hpc] at h
    obtain ⟨rfl, rfl⟩ := Prod.mk.inj (Option.some.inj h)
    simp only [Legal, hpc] at hl
    cases k with
    | inserted => exact .inr ⟨trivial, by simp [held, hpc], by simp [owed, hpc]⟩
    | window => exact .inr ⟨hl.goto _, by simp [held, hpc], by simp [owed, hpc]⟩
    | resize => exact .inr ⟨⟨hl.1.goto _, hl.2⟩, by simp [held, hpc], by simp [owed, hpc]⟩
  | readTotal k actual => exact readTotal_legal hl hc hpc h
  | incRead | leave =>
    simp only [next, hpc] at h
    obtain ⟨rfl, rfl⟩ := Prod.mk.inj (Option.some.inj h)
    exact .inr ⟨trivial, by simp [held, hpc], by simp [owed, hpc]⟩
  | incWrite old =>
    simp only [next, hpc] at h
    obtain ⟨rfl, rfl⟩ := Prod.mk.inj (Option.some.inj h)
    simp only [Calm, hpc] at hc
    exact .inr ⟨trivial, by simp [held, hpc], .inl ⟨by rw [hc], rfl, by simp [owed, hpc],
      by simp [owed, hpc]⟩⟩
  | release climbs =>
    simp only [next, hpc] at h
    obtain ⟨rfl, rfl⟩ := Prod.mk.inj (Option.some.inj h)
    cases climbs
    all_goals exact .inr ⟨trivial, by simp [held, hpc], by simp [held, hpc], by simp [owed, hpc]⟩
  | climb => exact climb_legal hg hin hpc h
  | raiseRead | lowerRead | readDepend =>
    simp only [next, hpc] at h
    obtain ⟨rfl, rfl⟩ := Prod.mk.inj (Option.some.inj h)
    simp only [Legal, hpc] at hl
    exact .inr ⟨⟨hl.1.goto _, hl.2⟩, by simp [held, hpc], by simp [owed, hpc]⟩
  | raiseCas seg old => exact raiseCas_legal hl hpc h
  | lockSeg seg =>
    simp only [next, hpc] at h
    simp only [Legal, hpc] at hl
    split at h
    · obtain ⟨rfl, rfl⟩ := Prod.mk.inj (Option.some.inj h)
      refine .inr ⟨⟨hl.1.goto _, hl.2⟩, ‹_›, ?_, by simp [owed, hpc]⟩
      simp only [held, hpc, goto_pc, goto_left]
      exact (Finset.insert_Ico_right_eq_Ico_add_one hl.2.1).symm
    · cases h
  | sumActual seg =>
    simp only [next, hpc] at h
    obtain ⟨rfl, rfl⟩ := Prod.mk.inj (Option.some.inj h)
    simp only [Legal, hpc] at hl
    exact .inr ⟨⟨⟨hl.1.left_le, hl.1.lt_right, hl.1.right_le⟩, hl.2⟩, by simp [held, hpc],
      by simp [owed, hpc]⟩
  | sumTotal seg =>
    simp only [next, hpc] at h
    obtain ⟨rfl, rfl⟩ := Prod.mk.inj (Option.some.inj h)
    simp only [Legal, hpc] at hl
    obtain ⟨hb, hl1, hl2, hk⟩ := hl
    obtain ⟨h1, h2, h3⟩ := lockFrom_spec
      (t := { t with metaTotal := t.metaTotal + g.segmentEdgesTotal (seg + g.segmentCount) })
      (seg + 1) ⟨hb.left_le, hb.lt_right, hb.right_le⟩ (by simp only; omega) hl2 hk
    exact .inr ⟨h1, h2.trans (by simp [held, hpc]), h3.trans (by simp [owed, hpc])⟩
  | decide => exact decide_legal hl hc hpc h
  | rebalance | resize =>
    simp only [next, hpc] at h
    simp only [Legal, hpc] at hl
    split at h
    · obtain ⟨rfl, rfl⟩ := Prod.mk.inj (Option.some.inj h)
      exact .inl rfl
    · obtain ⟨rfl, rfl⟩ := Prod.mk.inj (Option.some.inj h)
      obtain ⟨h1, h2, h3⟩ := unlockWindow_spec hl
      exact .inr ⟨h1, h2.trans (by simp [held, hpc]), h3.trans (by simp [owed, hpc])⟩
  | lowerCas seg old => exact lowerCas_legal hl hpc h
  | unlockSeg seg rebalDepend => exact unlockSeg_legal hl hpc h
  | notify seg =>
    simp only [next, hpc] at h
    simp only [Legal, hpc] at hl
    obtain ⟨hb, h1, h2⟩ := hl
    obtain ⟨rfl, rfl⟩ := Prod.mk.inj (Option.some.inj h)
    obtain ⟨h3, h4, h5⟩ := unlockBelow_spec hb h1 h2.le
    exact .inr ⟨h3, by rw [h4]; simp [held, hpc], by rw [h5]; simp [owed, hpc]⟩

end Thread

end Dgap
