import Dgap.System.Reach

/-!
# Teams of threads and their loops

A `ForkJoin` program is a sequence of loops that a team of threads shares out. A free thread takes any
iteration that nobody has taken, or, where the iteration belongs to a thread, this thread does; the threads
run their iterations interleaved, one access to what they share a step; when every iteration is over, the
team passes a barrier, which runs the serial code up to the next loop. Every schedule of the loops is a run.

Three rules say what holds of every run. In all of them the iterations are shared out: each is open, or at
work in exactly one thread, or done. An `Outline` gives an invariant of each loop and what a done iteration
leaves behind; the barrier then knows that every iteration has left it behind (`Outline.inv`). A team that
has a thread is never stuck (`exists_step`). A `Ranking` gives what is left to do of an iteration and of the
loops behind; every run ends (`Ranking.acc`).
-/

/-- A sequence of loops for a team of `n` threads: `κ` are the loops, `ι` their iterations, `σ` is what the
threads share and `τ` what each has by itself. -/
structure ForkJoin (n : ℕ) (κ ι σ τ : Type*) where
  /-- The iterations of a loop. -/
  items : κ → Finset ι
  /-- The thread that has to run an iteration, if it has to be a certain one. -/
  owner : κ → ι → Option (Fin n)
  /-- The iteration a thread is in. -/
  cur : τ → Option ι
  /-- A thread enters an iteration. -/
  start : κ → ι → τ → τ
  /-- A thread goes on with its iteration. -/
  step : κ → σ → τ → σ × τ
  /-- The serial code behind a loop, and the next loop. -/
  join : κ → σ → (Fin n → τ) → σ × (Fin n → τ) × Option κ
  cur_start : ∀ k x t, cur (start k x t) = some x
  cur_step : ∀ k s t x, cur t = some x → cur (step k s t).2 = none ∨ cur (step k s t).2 = some x
  cur_join : ∀ k s ts, (∀ i, cur (ts i) = none) → ∀ i, cur ((join k s ts).2.1 i) = none

namespace ForkJoin

variable {n : ℕ} {κ ι σ τ : Type*}

/-- The loop the team is in, what it shares, the iterations that nobody has taken, and the threads. -/
@[ext]
structure Config (n : ℕ) (κ ι σ τ : Type*) where
  phase : Option κ
  shared : σ
  todo : Finset ι
  threads : Fin n → τ

/-- A thread takes an iteration, a thread goes on, or the team passes the barrier. -/
inductive Action (n : ℕ) (ι : Type*) where
  | take (i : Fin n) (x : ι)
  | run (i : Fin n)
  | barrier

/-- One thread in another state. -/
lemma sum_update {M : Type*} [AddCommMonoid M] (f : τ → M) (ts : Fin n → τ) (i : Fin n) (t : τ) :
    ∑ j, f (Function.update ts i t j) + f (ts i) = ∑ j, f (ts j) + f t := by
  have hrest : ∑ j ∈ Finset.univ.erase i, f (Function.update ts i t j) = ∑ j ∈ Finset.univ.erase i, f (ts j) :=
    Finset.sum_congr rfl fun j hj => by rw [Function.update_of_ne (Finset.ne_of_mem_erase hj)]
  rw [← Finset.add_sum_erase _ _ (Finset.mem_univ i), ← Finset.add_sum_erase _ _ (Finset.mem_univ i), hrest,
    Function.update_self]
  ac_rfl

section Tiling

variable {P : ForkJoin n κ ι σ τ}

variable (P) in
/-- How the iterations of a loop are shared out: each is open, or at work in exactly one thread, or done. -/
structure Tiled (k : κ) (fresh done : ι → Prop) (todo : Finset ι) (ts : Fin n → τ) : Prop where
  todo_sub : todo ⊆ P.items k
  fresh : ∀ x ∈ todo, fresh x
  cur_mem : ∀ {i x}, P.cur (ts i) = some x → x ∈ P.items k ∧ x ∉ todo
  owned : ∀ {i x}, P.cur (ts i) = some x → ∀ j, P.owner k x = some j → j = i
  inj : ∀ {i j x}, P.cur (ts i) = some x → P.cur (ts j) = some x → i = j
  covered : ∀ x ∈ P.items k, x ∈ todo ∨ (∃ i, P.cur (ts i) = some x) ∨ done x

variable {k : κ} {fresh fresh' done done' : ι → Prop} {todo : Finset ι} {ts : Fin n → τ} {i : Fin n} {x : ι}

/-- The state of another thread. -/
lemma cur_update_of_ne {j : Fin n} (h : j ≠ i) (t : τ) : P.cur (Function.update ts i t j) = P.cur (ts j) := by
  rw [Function.update_of_ne h]

/-- The iterations are open at the entry of a loop. -/
lemma Tiled.enter (h : ∀ i, P.cur (ts i) = none) (hfresh : ∀ x ∈ P.items k, fresh x) :
    P.Tiled k fresh done (P.items k) ts := by
  have hcur : ∀ {i x}, P.cur (ts i) ≠ some x := fun {i x} he => by
    rw [h i] at he
    cases he
  exact ⟨subset_rfl, hfresh, fun he => absurd he hcur, fun he => absurd he hcur, fun he => absurd he hcur,
    fun x hx => .inl hx⟩

/-- A thread takes an iteration. -/
lemma Tiled.take [DecidableEq ι] (h : P.Tiled k fresh done todo ts) (hcur : P.cur (ts i) = none) (hx : x ∈ todo)
    (howner : ∀ j, P.owner k x = some j → j = i) (hfresh : ∀ y ∈ P.items k, y ≠ x → fresh y → fresh' y)
    (hdone : ∀ y, done y → done' y) :
    P.Tiled k fresh' done' (todo.erase x) (Function.update ts i (P.start k x (ts i))) := by
  have hself : P.cur (Function.update ts i (P.start k x (ts i)) i) = some x := by
    rw [Function.update_self, P.cur_start]
  -- who is at an iteration now: the thread at the one it took, another where it was
  have hinv : ∀ {j y}, P.cur (Function.update ts i (P.start k x (ts i)) j) = some y →
      (j = i ∧ y = x) ∨ (j ≠ i ∧ P.cur (ts j) = some y) := by
    intro j y hy
    by_cases hj : j = i
    · subst hj
      exact .inl ⟨rfl, Option.some.inj (hy.symm.trans hself)⟩
    · exact .inr ⟨hj, by rwa [cur_update_of_ne hj] at hy⟩
  refine ⟨(Finset.erase_subset x todo).trans h.todo_sub, fun y hy => ?_, fun {j y} hy => ?_, fun {j y} hy => ?_,
    fun {j j' y} hy hy' => ?_, fun y hy => ?_⟩
  · obtain ⟨hne, hy⟩ := Finset.mem_erase.1 hy
    exact hfresh y (h.todo_sub hy) hne (h.fresh y hy)
  · rcases hinv hy with ⟨rfl, rfl⟩ | ⟨hj, hy⟩
    · exact ⟨h.todo_sub hx, Finset.notMem_erase y todo⟩
    · exact ⟨(h.cur_mem hy).1, fun hmem => (h.cur_mem hy).2 (Finset.mem_of_mem_erase hmem)⟩
  · rcases hinv hy with ⟨rfl, rfl⟩ | ⟨hj, hy⟩
    · exact howner
    · exact h.owned hy
  · rcases hinv hy with ⟨rfl, rfl⟩ | ⟨-, hj⟩
    · rcases hinv hy' with ⟨rfl, -⟩ | ⟨-, hj'⟩
      · rfl
      · exact absurd hx (h.cur_mem hj').2
    · rcases hinv hy' with ⟨-, rfl⟩ | ⟨-, hj'⟩
      · exact absurd hx (h.cur_mem hj).2
      · exact h.inj hj hj'
  · by_cases hyx : y = x
    · exact .inr (.inl ⟨i, by rw [hself, hyx]⟩)
    · rcases h.covered y hy with hy | ⟨j, hj⟩ | hy
      · exact .inl (Finset.mem_erase.2 ⟨hyx, hy⟩)
      · have hji : j ≠ i := fun he => by
          rw [he, hcur] at hj
          cases hj
        exact .inr (.inl ⟨j, by rw [cur_update_of_ne hji, hj]⟩)
      · exact .inr (.inr (hdone y hy))

/-- A thread goes on with its iteration, or has done it. -/
lemma Tiled.run {t : τ} (h : P.Tiled k fresh done todo ts) (hcur : P.cur (ts i) = some x)
    (ht : P.cur t = none ∨ P.cur t = some x) (hfresh : ∀ y ∈ P.items k, y ≠ x → fresh y → fresh' y)
    (hdone : ∀ y ∈ P.items k, y ≠ x → done y → done' y)
    (hx : P.cur t = none → done' x) : P.Tiled k fresh' done' todo (Function.update ts i t) := by
  have hinv : ∀ {j y}, P.cur (Function.update ts i t j) = some y → P.cur (ts j) = some y := by
    intro j y hy
    by_cases hj : j = i
    · subst hj
      rw [Function.update_self] at hy
      rcases ht with ht | ht
      · rw [ht] at hy
        cases hy
      · rw [← hy, ht, hcur]
    · rwa [cur_update_of_ne hj] at hy
  refine ⟨h.todo_sub, fun y hy => ?_, fun hy => h.cur_mem (hinv hy), fun hy => h.owned (hinv hy),
    fun hy hy' => h.inj (hinv hy) (hinv hy'), fun y hy => ?_⟩
  · refine hfresh y (h.todo_sub hy) ?_ (h.fresh y hy)
    rintro rfl
    exact (h.cur_mem hcur).2 hy
  by_cases hyx : y = x
  · subst hyx
    rcases ht with ht | ht
    · exact .inr (.inr (hx ht))
    · exact .inr (.inl ⟨i, by rw [Function.update_self, ht]⟩)
  · rcases h.covered y hy with hy | ⟨j, hj⟩ | hdy
    · exact .inl hy
    · have hji : j ≠ i := fun he => by
        rw [he, hcur] at hj
        exact hyx (Option.some.inj hj).symm
      exact .inr (.inl ⟨j, by rw [cur_update_of_ne hji, hj]⟩)
    · exact .inr (.inr (hdone y hy hyx hdy))

/-- When no iteration is open or at work, every one is done. -/
lemma Tiled.all_done (h : P.Tiled k fresh done ∅ ts) (hcur : ∀ i, P.cur (ts i) = none) : ∀ x ∈ P.items k, done x := by
  intro x hx
  rcases h.covered x hx with hx | ⟨i, hi⟩ | hx
  · cases hx
  · rw [hcur i] at hi
    cases hi
  · exact hx

end Tiling

variable [DecidableEq ι] (P : ForkJoin n κ ι σ τ)

/-- The team enters a loop, or has come to the end. -/
def enter (s : σ) (ts : Fin n → τ) (k : Option κ) : Config n κ ι σ τ := ⟨k, s, k.elim ∅ P.items, ts⟩

/-- What an action does. -/
def act (c : Config n κ ι σ τ) (a : Action n ι) : Option (Config n κ ι σ τ) :=
  c.phase.bind fun k =>
    match a with
    | .take i x =>
      if P.cur (c.threads i) = none ∧ x ∈ c.todo ∧ ∀ j, P.owner k x = some j → j = i then
        some { c with todo := c.todo.erase x, threads := Function.update c.threads i (P.start k x (c.threads i)) }
      else none
    | .run i =>
      if P.cur (c.threads i) = none then none
      else
        let r := P.step k c.shared (c.threads i)
        some { c with shared := r.1, threads := Function.update c.threads i r.2 }
    | .barrier =>
      if c.todo = ∅ ∧ ∀ i, P.cur (c.threads i) = none then
        let r := P.join k c.shared c.threads
        some (P.enter r.1 r.2.1 r.2.2)
      else none

/-- The runs of a team that enters loop `k` first. -/
def system (init : σ → (Fin n → τ) → Prop) (k : κ) : System (Config n κ ι σ τ) (Action n ι) where
  init c := ∃ s ts, init s ts ∧ (∀ i, P.cur (ts i) = none) ∧ c = P.enter s ts (some k)
  step c a c' := P.act c a = some c'

/-- The steps of a team. -/
inductive Step : Config n κ ι σ τ → Config n κ ι σ τ → Prop where
  | take {k : κ} {s : σ} {todo : Finset ι} {ts : Fin n → τ} {i : Fin n} {x : ι} : P.cur (ts i) = none →
      x ∈ todo → (∀ j, P.owner k x = some j → j = i) →
      Step ⟨some k, s, todo, ts⟩ ⟨some k, s, todo.erase x, Function.update ts i (P.start k x (ts i))⟩
  | run {k : κ} {s : σ} {todo : Finset ι} {ts : Fin n → τ} {i : Fin n} {x : ι} : P.cur (ts i) = some x →
      Step ⟨some k, s, todo, ts⟩
        ⟨some k, (P.step k s (ts i)).1, todo, Function.update ts i (P.step k s (ts i)).2⟩
  | barrier {k : κ} {s : σ} {ts : Fin n → τ} : (∀ i, P.cur (ts i) = none) →
      Step ⟨some k, s, ∅, ts⟩ (P.enter (P.join k s ts).1 (P.join k s ts).2.1 (P.join k s ts).2.2)

variable {P} {c c' : Config n κ ι σ τ}

/-- What an action does is a step. -/
lemma act_step : (∃ a, P.act c a = some c') ↔ P.Step c c' := by
  obtain ⟨phase, s, todo, ts⟩ := c
  constructor
  · rintro ⟨a, h⟩
    cases phase with
    | none => cases h
    | some k =>
      cases a with
      | take i x =>
        simp only [act, Option.bind_some] at h
        split_ifs at h with hif
        cases h
        exact .take hif.1 hif.2.1 hif.2.2
      | run i =>
        simp only [act, Option.bind_some] at h
        split_ifs at h with hif
        cases h
        obtain ⟨x, hx⟩ := Option.ne_none_iff_exists'.1 hif
        exact .run hx
      | barrier =>
        simp only [act, Option.bind_some] at h
        split_ifs at h with hif
        cases h
        obtain ⟨rfl, hcur⟩ := hif
        exact .barrier hcur
  · intro h
    cases h with
    | @take k _ _ _ i x hcur hx howner =>
      refine ⟨.take i x, ?_⟩
      rw [act, Option.bind_some]
      exact if_pos ⟨hcur, hx, howner⟩
    | @run k _ _ _ i x hcur =>
      refine ⟨.run i, ?_⟩
      rw [act, Option.bind_some]
      exact if_neg (by rw [hcur]; exact Option.some_ne_none x)
    | @barrier k _ _ hcur =>
      refine ⟨.barrier, ?_⟩
      rw [act, Option.bind_some]
      exact if_pos ⟨rfl, hcur⟩

/-- When the team has come to the end, no step is possible. -/
lemma Step.phase (h : P.Step c c') : c.phase ≠ none := by
  cases h <;> exact Option.some_ne_none _

/-- A team that has a thread goes on until it comes to the end. -/
theorem exists_step (hn : 0 < n) (hc : c.phase ≠ none) : ∃ a c', P.act c a = some c' := by
  suffices h : ∃ c', P.Step c c' by
    obtain ⟨c', h⟩ := h
    obtain ⟨a, ha⟩ := act_step.2 h
    exact ⟨a, c', ha⟩
  obtain ⟨phase, s, todo, ts⟩ := c
  obtain ⟨k, rfl⟩ := Option.ne_none_iff_exists'.1 hc
  by_cases hcur : ∀ i, P.cur (ts i) = none
  · rcases todo.eq_empty_or_nonempty with rfl | ⟨x, hx⟩
    · exact ⟨_, .barrier hcur⟩
    · cases howner : P.owner k x with
      | none => exact ⟨_, .take (hcur ⟨0, hn⟩) hx fun j hj => by rw [howner] at hj; cases hj⟩
      | some i => exact ⟨_, .take (hcur i) hx fun j hj => by rw [howner] at hj; cases hj; rfl⟩
  · obtain ⟨i, hi⟩ := not_forall.1 hcur
    obtain ⟨x, hx⟩ := Option.ne_none_iff_exists'.1 hi
    exact ⟨_, .run hx⟩

section Rules

variable (P) in
/-- Thread `i` is at iteration `x`, and no other thread is. -/
structure AtWork (k : κ) (ts : Fin n → τ) (i : Fin n) (x : ι) : Prop where
  cur : P.cur (ts i) = some x
  mem : x ∈ P.items k
  alone : ∀ {j}, j ≠ i → P.cur (ts j) ≠ some x
  owner : ∀ j, P.owner k x = some j → j = i

variable (P) in
/-- What holds in each loop, what holds of an open iteration, what a done one leaves behind, and what holds in
the end. -/
structure Outline (I : κ → σ → (Fin n → τ) → Prop) (O D : κ → σ → (Fin n → τ) → ι → Prop)
    (Q : σ → (Fin n → τ) → Prop) : Prop where
  take : ∀ {k s ts i x}, I k s ts → P.cur (ts i) = none → x ∈ P.items k → O k s ts x →
    I k s (Function.update ts i (P.start k x (ts i)))
  run : ∀ {k s ts i x}, I k s ts → P.AtWork k ts i x →
    I k (P.step k s (ts i)).1 (Function.update ts i (P.step k s (ts i)).2)
  open_take : ∀ {k s ts i x y}, I k s ts → P.cur (ts i) = none → y ≠ x → O k s ts y →
    O k s (Function.update ts i (P.start k x (ts i))) y
  open_run : ∀ {k s ts i x y}, I k s ts → P.AtWork k ts i x → y ≠ x → O k s ts y →
    O k (P.step k s (ts i)).1 (Function.update ts i (P.step k s (ts i)).2) y
  keep_take : ∀ {k s ts i x y}, I k s ts → P.cur (ts i) = none → D k s ts y →
    D k s (Function.update ts i (P.start k x (ts i))) y
  keep : ∀ {k s ts i x y}, I k s ts → P.AtWork k ts i x → y ∈ P.items k → y ≠ x → D k s ts y →
    D k (P.step k s (ts i)).1 (Function.update ts i (P.step k s (ts i)).2) y
  finish : ∀ {k s ts i x}, I k s ts → P.AtWork k ts i x → P.cur (P.step k s (ts i)).2 = none →
    D k (P.step k s (ts i)).1 (Function.update ts i (P.step k s (ts i)).2) x
  next : ∀ {k s ts k'}, I k s ts → (∀ i, P.cur (ts i) = none) → (∀ x ∈ P.items k, D k s ts x) →
    (P.join k s ts).2.2 = some k' → I k' (P.join k s ts).1 (P.join k s ts).2.1 ∧
    ∀ x ∈ P.items k', O k' (P.join k s ts).1 (P.join k s ts).2.1 x
  last : ∀ {k s ts}, I k s ts → (∀ i, P.cur (ts i) = none) → (∀ x ∈ P.items k, D k s ts x) →
    (P.join k s ts).2.2 = none → Q (P.join k s ts).1 (P.join k s ts).2.1

variable {I : κ → σ → (Fin n → τ) → Prop} {O D : κ → σ → (Fin n → τ) → ι → Prop} {Q : σ → (Fin n → τ) → Prop}

variable (P I O D Q) in
/-- The team is in a loop, or it has come to the end. -/
inductive Inv : Config n κ ι σ τ → Prop where
  | loop {k : κ} {s : σ} {todo : Finset ι} {ts : Fin n → τ} : I k s ts → P.Tiled k (O k s ts) (D k s ts) todo ts →
      Inv ⟨some k, s, todo, ts⟩
  | ended {s : σ} {ts : Fin n → τ} : Q s ts → Inv ⟨none, s, ∅, ts⟩

omit [DecidableEq ι] in
/-- A thread that is at an iteration is alone there. -/
lemma Tiled.atWork {k : κ} {f d : ι → Prop} {todo : Finset ι} {ts : Fin n → τ} {i : Fin n} {x : ι}
    (h : P.Tiled k f d todo ts) (hcur : P.cur (ts i) = some x) : P.AtWork k ts i x :=
  ⟨hcur, (h.cur_mem hcur).1, fun hne he => hne (h.inj he hcur), h.owned hcur⟩

/-- A step of the team keeps the outline. -/
lemma Outline.step (o : P.Outline I O D Q) (h : P.Inv I O D Q c) (hstep : P.Step c c') :
    P.Inv I O D Q c' := by
  cases hstep with
  | take hcur hx howner =>
    cases h with
    | loop hinv htiled =>
      exact .loop (o.take hinv hcur (htiled.todo_sub hx) (htiled.fresh _ hx))
        (htiled.take hcur hx howner (fun y _ hne hy => o.open_take hinv hcur hne hy)
          fun y hd => o.keep_take hinv hcur hd)
  | run hcur =>
    cases h with
    | loop hinv htiled =>
      have hwork := htiled.atWork hcur
      exact .loop (o.run hinv hwork) (htiled.run hcur (P.cur_step _ _ _ _ hcur)
        (fun y _ hne hy => o.open_run hinv hwork hne hy) (fun y hy hne hd => o.keep hinv hwork hy hne hd)
        (o.finish hinv hwork))
  | @barrier k s ts hcur =>
    cases h with
    | loop hinv htiled =>
      have hdone := htiled.all_done hcur
      cases hk : (P.join k s ts).2.2 with
      | none => exact .ended (o.last hinv hcur hdone hk)
      | some k' =>
        obtain ⟨hinv', hopen⟩ := o.next hinv hcur hdone hk
        exact .loop hinv' (.enter (P.cur_join k s ts hcur) hopen)

variable {init : σ → (Fin n → τ) → Prop} {k : κ}

/-- The outline holds of every state of a run. -/
theorem Outline.inv (o : P.Outline I O D Q) (hinit : ∀ s ts, init s ts → I k s ts ∧ ∀ x ∈ P.items k, O k s ts x)
    (h : (P.system init k).Reach c) : P.Inv I O D Q c := by
  induction h with
  | init hc =>
    obtain ⟨s, ts, hs, hcur, rfl⟩ := hc
    exact .loop (hinit s ts hs).1 (.enter hcur (hinit s ts hs).2)
  | step _ hstep ih => exact o.step ih (act_step.1 ⟨_, hstep⟩)

/-- What holds when the team has come to the end. -/
lemma Outline.post (o : P.Outline I O D Q) (hinit : ∀ s ts, init s ts → I k s ts ∧ ∀ x ∈ P.items k, O k s ts x)
    (h : (P.system init k).Reach c) (hend : c.phase = none) : Q c.shared c.threads := by
  cases o.inv hinit h with
  | loop => cases hend
  | ended hpost => exact hpost

section Local

variable {G : κ → σ → Prop} {L : κ → σ → τ → Prop} {T : κ → σ → (Fin n → τ) → Prop}

variable (P O D Q G L T) in
/-- An outline by what holds of the shared state, what holds of each thread, and what holds of the team as a
whole: a thread keeps what holds of itself, and its steps do not interfere with what holds of a thread that
is at another iteration. -/
structure LocalOutline : Prop where
  take : ∀ {k s ts i x}, G k s → L k s (ts i) → P.cur (ts i) = none → x ∈ P.items k → O k s ts x →
    L k s (P.start k x (ts i))
  glob : ∀ {k s t x}, G k s → L k s t → P.cur t = some x → x ∈ P.items k → G k (P.step k s t).1
  loc : ∀ {k s t x}, G k s → L k s t → P.cur t = some x → x ∈ P.items k → L k (P.step k s t).1 (P.step k s t).2
  other : ∀ {k s t x u}, G k s → L k s t → P.cur t = some x → x ∈ P.items k → L k s u → P.cur u ≠ some x →
    L k (P.step k s t).1 u
  keep_take : ∀ {k s ts i x y}, G k s → (∀ j, L k s (ts j)) → T k s ts → P.cur (ts i) = none → D k s ts y →
    D k s (Function.update ts i (P.start k x (ts i))) y
  keep : ∀ {k s ts i x y}, G k s → (∀ j, L k s (ts j)) → T k s ts → P.AtWork k ts i x → y ∈ P.items k → y ≠ x →
    D k s ts y → D k (P.step k s (ts i)).1 (Function.update ts i (P.step k s (ts i)).2) y
  finish : ∀ {k s ts i x}, G k s → (∀ j, L k s (ts j)) → T k s ts → P.AtWork k ts i x →
    P.cur (P.step k s (ts i)).2 = none →
    D k (P.step k s (ts i)).1 (Function.update ts i (P.step k s (ts i)).2) x
  open_take : ∀ {k s ts i x y}, P.cur (ts i) = none → y ≠ x → O k s ts y →
    O k s (Function.update ts i (P.start k x (ts i))) y
  open_run : ∀ {k s ts i x y}, G k s → (∀ j, L k s (ts j)) → T k s ts → P.AtWork k ts i x → y ≠ x → O k s ts y →
    O k (P.step k s (ts i)).1 (Function.update ts i (P.step k s (ts i)).2) y
  team_take : ∀ {k s ts i x}, (∀ j, L k s (ts j)) → T k s ts → P.cur (ts i) = none → x ∈ P.items k → O k s ts x →
    T k s (Function.update ts i (P.start k x (ts i)))
  team_run : ∀ {k s ts i x}, G k s → (∀ j, L k s (ts j)) → T k s ts → P.AtWork k ts i x →
    T k (P.step k s (ts i)).1 (Function.update ts i (P.step k s (ts i)).2)
  next : ∀ {k s ts k'}, G k s → (∀ i, L k s (ts i)) → T k s ts → (∀ i, P.cur (ts i) = none) →
    (∀ x ∈ P.items k, D k s ts x) → (P.join k s ts).2.2 = some k' → G k' (P.join k s ts).1 ∧
    (∀ i, L k' (P.join k s ts).1 ((P.join k s ts).2.1 i)) ∧ T k' (P.join k s ts).1 (P.join k s ts).2.1 ∧
    ∀ x ∈ P.items k', O k' (P.join k s ts).1 (P.join k s ts).2.1 x
  last : ∀ {k s ts}, G k s → (∀ i, L k s (ts i)) → T k s ts → (∀ i, P.cur (ts i) = none) →
    (∀ x ∈ P.items k, D k s ts x) → (P.join k s ts).2.2 = none → Q (P.join k s ts).1 (P.join k s ts).2.1

omit [DecidableEq ι] in
/-- A local outline is an outline. -/
lemma LocalOutline.outline (o : P.LocalOutline O D Q G L T) :
    P.Outline (fun k s ts => G k s ∧ (∀ i, L k s (ts i)) ∧ T k s ts) O D Q where
  take := by
    intro k s ts i x h hcur hx hopen
    refine ⟨h.1, fun j => ?_, o.team_take h.2.1 h.2.2 hcur hx hopen⟩
    by_cases hj : j = i
    · subst hj
      rw [Function.update_self]
      exact o.take h.1 (h.2.1 j) hcur hx hopen
    · rw [Function.update_of_ne hj]
      exact h.2.1 j
  run := by
    intro k s ts i x h hwork
    refine ⟨o.glob h.1 (h.2.1 i) hwork.cur hwork.mem, fun j => ?_, o.team_run h.1 h.2.1 h.2.2 hwork⟩
    by_cases hj : j = i
    · subst hj
      rw [Function.update_self]
      exact o.loc h.1 (h.2.1 j) hwork.cur hwork.mem
    · rw [Function.update_of_ne hj]
      exact o.other h.1 (h.2.1 i) hwork.cur hwork.mem (h.2.1 j) (hwork.alone hj)
  keep_take h hcur hd := o.keep_take h.1 h.2.1 h.2.2 hcur hd
  keep h hwork hy hne hd := o.keep h.1 h.2.1 h.2.2 hwork hy hne hd
  finish h hwork hcur := o.finish h.1 h.2.1 h.2.2 hwork hcur
  open_take _ hcur hne hy := o.open_take hcur hne hy
  open_run h hwork hne hy := o.open_run h.1 h.2.1 h.2.2 hwork hne hy
  next h hcur hdone hk := by
    obtain ⟨hG, hL, hT, hopen⟩ := o.next h.1 h.2.1 h.2.2 hcur hdone hk
    exact ⟨⟨hG, hL, hT⟩, hopen⟩
  last h hcur hdone hk := o.last h.1 h.2.1 h.2.2 hcur hdone hk

end Local

section Ranking

variable (P I D) in
/-- What is left: of the loops behind, of an open iteration, and of the iteration a thread is in. -/
structure Ranking where
  outer : κ → σ → ℕ
  cost : κ → σ → ι → ℕ
  rank : κ → σ → τ → ℕ
  take_lt : ∀ {k s ts i x}, I k s ts → P.cur (ts i) = none → x ∈ P.items k →
    rank k s (P.start k x (ts i)) < cost k s x + rank k s (ts i)
  run_lt : ∀ {k s ts i x}, I k s ts → P.AtWork k ts i x →
    rank k (P.step k s (ts i)).1 (P.step k s (ts i)).2 < rank k s (ts i)
  run_other : ∀ {k s ts i x j}, I k s ts → P.AtWork k ts i x → j ≠ i →
    rank k (P.step k s (ts i)).1 (ts j) ≤ rank k s (ts j)
  run_cost : ∀ {k s ts i x y}, I k s ts → P.AtWork k ts i x → y ∈ P.items k → y ≠ x →
    cost k (P.step k s (ts i)).1 y ≤ cost k s y
  run_outer : ∀ {k s ts i x}, I k s ts → P.AtWork k ts i x → outer k (P.step k s (ts i)).1 ≤ outer k s
  next_lt : ∀ {k s ts k'}, I k s ts → (∀ i, P.cur (ts i) = none) → (∀ x ∈ P.items k, D k s ts x) →
    (P.join k s ts).2.2 = some k' → outer k' (P.join k s ts).1 < outer k s

variable (r : P.Ranking I D)

/-- What is left of the loop. -/
def Ranking.work (k : κ) (s : σ) (todo : Finset ι) (ts : Fin n → τ) : ℕ :=
  ∑ x ∈ todo, r.cost k s x + ∑ i, r.rank k s (ts i)

/-- What is left of the run. -/
def Ranking.measure : Config n κ ι σ τ → ℕ ×ₗ ℕ
  | ⟨some k, s, todo, ts⟩ => toLex (r.outer k s + 1, r.work k s todo ts)
  | ⟨none, _, _, _⟩ => toLex (0, 0)

/-- Every step leaves less to do. -/
lemma Ranking.step_lt (h : P.Inv I O D Q c) (hstep : P.Step c c') : r.measure c' < r.measure c := by
  cases hstep with
  | @take k s todo ts i x hcur hx howner =>
    cases h with
    | loop hinv htiled =>
      refine Prod.Lex.toLex_lt_toLex.2 (.inr ⟨rfl, ?_⟩)
      have hlt := r.take_lt hinv hcur (htiled.todo_sub hx)
      have hthreads := sum_update (r.rank k s) ts i (P.start k x (ts i))
      have htodo := Finset.add_sum_erase todo (r.cost k s) hx
      show r.work k s (todo.erase x) _ < r.work k s todo ts
      rw [work, work]
      omega
  | @run k s todo ts i x hcur =>
    cases h with
    | loop hinv htiled =>
      have hwork := htiled.atWork hcur
      have hcost : ∑ y ∈ todo, r.cost k (P.step k s (ts i)).1 y ≤ ∑ y ∈ todo, r.cost k s y := by
        refine Finset.sum_le_sum fun y hy => r.run_cost hinv hwork (htiled.todo_sub hy) ?_
        rintro rfl
        exact (htiled.cur_mem hcur).2 hy
      have hrank : ∑ j, r.rank k (P.step k s (ts i)).1 (Function.update ts i (P.step k s (ts i)).2 j) <
          ∑ j, r.rank k s (ts j) := by
        refine Finset.sum_lt_sum (fun j _ => ?_) ⟨i, Finset.mem_univ i, ?_⟩
        · by_cases hj : j = i
          · subst hj
            rw [Function.update_self]
            exact (r.run_lt hinv hwork).le
          · rw [Function.update_of_ne hj]
            exact r.run_other hinv hwork hj
        · rw [Function.update_self]
          exact r.run_lt hinv hwork
      rcases (r.run_outer hinv hwork).lt_or_eq with hlt | heq
      · exact Prod.Lex.toLex_lt_toLex.2 (.inl (Nat.succ_lt_succ hlt))
      · exact Prod.Lex.toLex_lt_toLex.2 (.inr ⟨congrArg Nat.succ heq, Nat.add_lt_add_of_le_of_lt hcost hrank⟩)
  | @barrier k s ts hcur =>
    cases h with
    | loop hinv htiled =>
      refine Prod.Lex.toLex_lt_toLex.2 (.inl ?_)
      cases hk : (P.join k s ts).2.2 with
      | none => exact Nat.succ_pos _
      | some k' => exact Nat.succ_lt_succ (r.next_lt hinv hcur (htiled.all_done hcur) hk)

include r in
/-- Every run ends. -/
theorem Ranking.acc (o : P.Outline I O D Q) (hinit : ∀ s ts, init s ts → I k s ts ∧ ∀ x ∈ P.items k, O k s ts x)
    (h : (P.system init k).Reach c) : Acc (fun c' c => ∃ a, (P.system init k).step c a c') c :=
  h.acc fun _ _ _ hr hstep => r.step_lt (o.inv hinit hr) (act_step.1 ⟨_, hstep⟩)

include r in
/-- A team that has a thread can come to the end from every state of a run. -/
theorem Ranking.exists_end (o : P.Outline I O D Q)
    (hinit : ∀ s ts, init s ts → I k s ts ∧ ∀ x ∈ P.items k, O k s ts x) (hn : 0 < n)
    (h : (P.system init k).Reach c) : ∃ c', (P.system init k).Reach c' ∧ c'.phase = none := by
  have hgoal := h.exists_goal (m := r.measure) (P := fun _ => True) (Q := fun c => c.phase = none)
    (fun c hc _ hphase => ?_) trivial
  · obtain ⟨c', hc', -, hend⟩ := hgoal
    exact ⟨c', hc', hend⟩
  · obtain ⟨a, c', hact⟩ := exists_step (P := P) hn hphase
    exact ⟨a, c', hact, trivial, r.step_lt (o.inv hinit hc) (act_step.1 ⟨a, hact⟩)⟩

end Ranking

end Rules

end ForkJoin
