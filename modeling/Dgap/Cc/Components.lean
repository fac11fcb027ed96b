import Dgap.Bc.EdgeId
import Dgap.Cc.Labels

/-!
# The labels are the components

Every step of a thread is a `HookEffect` or a `CompressEffect` and leaves the thread with what it has to
know (`hook_step`, `compress_step`). So the labels are a `Labelling` in every state of a run; when a hooking
loop has found nothing to change, they agree along the edges, and the run ends with the least vertex of its
component as the label of every vertex. The outer loop is run at most once for each vertex.
-/

namespace Dgap

namespace Cc

open Multigraph

variable {nbrs : ℕ → List ℕ} {numNodes : ℕ} {s s' : State} {u v x k value : ℕ} {pc : Pc}

section Steps

variable (hvs : Closed nbrs (Finset.range numNodes)) (hs : Labels nbrs numNodes s)

include hvs hs

/-- A statement of the loop that hooks: its effect, and what the thread knows behind it. -/
lemma hook_step {stage : Hook} (hok : (Pc.hook u k stage).Ok nbrs numNodes .hook s) :
    HookEffect nbrs numNodes s (s.hookStep nbrs u k stage).1 ∧
      (s.hookStep nbrs u k stage).2.Ok nbrs numNodes .hook (s.hookStep nbrs u k stage).1 := by
  obtain ⟨-, hu, hseen, hstage⟩ := hok
  have hlabel : ∀ {w}, w ∈ Finset.range numNodes → Joined nbrs (Finset.range numNodes) w (s.comp w) :=
    fun {w} hw => hs.labels.joined w hw
  -- the thread goes on to the next edge
  have hnext : ∀ {s'}, (s'.change = false → ∀ w, (nbrs u)[k]? = some w → s'.comp u = s'.comp w) →
      HookEffect nbrs numNodes s s' → (Pc.hook u (k + 1) .loadU).Ok nbrs numNodes .hook s' := by
    intro s' hagree heffect
    refine ⟨rfl, hu, fun hc j hj w hw => ?_, trivial⟩
    rcases Nat.lt_succ_iff_lt_or_eq.1 hj with hj | rfl
    · exact heffect.seen hseen hc j hj w hw
    · exact hagree hc w hw
  cases stage with
  | loadU =>
    refine ⟨.same, ?_⟩
    rw [State.hookStep]
    dsimp only
    split_ifs with hk
    · exact ⟨rfl, hu, hseen, hk, hlabel hu, fun _ => rfl⟩
    · trivial
  | loadV compU =>
    obtain ⟨hk, hjoined, hcomp⟩ := hstage
    have hv := List.getElem?_eq_getElem hk
    have hmem := List.getElem_mem hk
    generalize (nbrs u)[k] = w at hv hmem
    have hw : w ∈ Finset.range numNodes := hvs u hu w hmem
    simp only [State.hookStep, hv]
    refine ⟨.same, ?_⟩
    split_ifs with heq
    · refine hnext (fun hc w' hw' => ?_) .same
      obtain rfl : w = w' := Option.some.inj (hv.symm.trans hw')
      rw [← hcomp hc, heq]
    · have hjoinedV := (Joined.edge hu hmem).trans (hlabel hw)
      refine ⟨rfl, hu, hseen, hk, .of_ne (fun x hx => (hx.mem hvs).1 hu) hjoined hjoinedV heq, fun hc => ?_⟩
      rw [highComp]
      split_ifs
      · rw [hcomp hc, hs.flat hc u hu]
      · exact hs.flat hc w hw
  | test high low =>
    obtain ⟨hk, hpair, hroot⟩ := hstage
    refine ⟨.same, ?_⟩
    rw [State.hookStep]
    dsimp only
    split_ifs with hif
    · exact ⟨rfl, hu, hseen, hk, hpair, .inl hif.symm⟩
    · exact hnext (fun hc => absurd (hroot hc).symm hif) .same
  | change high low =>
    refine ⟨.change, rfl, hu, fun hc => (by cases hc), hstage.1, hstage.2.1, hstage.2.2, rfl⟩
  | store high low =>
    obtain ⟨hk, hpair, hroot, hchange⟩ := hstage
    have heffect : HookEffect nbrs numNodes s (s.setComp high low) := .store hpair hroot hchange
    refine ⟨heffect, hnext (fun hc => ?_) heffect⟩
    rw [show s.change = false from hc] at hchange
    cases hchange

/-- A statement of the loop that compresses: its effect, what the owner knows behind it, and that the label is
a root when the loop is over. -/
lemma compress_step {stage : Compress} (hok : (Pc.compress v stage).Ok nbrs numNodes .compress s) :
    CompressEffect nbrs numNodes s v (s.compressStep v stage).1 ∧
      (s.compressStep v stage).2.Ok nbrs numNodes .compress (s.compressStep v stage).1 ∧
      ((s.compressStep v stage).2.cur = none → s.comp (s.comp v) = s.comp v) := by
  obtain ⟨-, hv, hstage⟩ := hok
  have hmem := hs.labels.mem hvs hv
  cases stage with
  | left => exact ⟨.same, ⟨rfl, hv, rfl⟩, fun hcur => (by cases hcur)⟩
  | right compN => exact ⟨.same, ⟨rfl, hv, hstage, rfl⟩, fun hcur => (by cases hcur)⟩
  | compare compN inner =>
    obtain ⟨rfl, rfl⟩ := hstage
    rw [State.compressStep]
    dsimp only
    refine ⟨.same, ?_⟩
    split_ifs with hif
    · have hlt := lt_of_le_of_ne (hs.labels.le _ hmem) (Ne.symm hif)
      refine ⟨⟨rfl, hv, ?_, hlt⟩, fun hcur => (by cases hcur)⟩
      cases hc : s.change with
      | true => rfl
      | false => exact absurd (hs.flat hc v hv).symm hif
    · exact ⟨trivial, fun _ => (not_ne_iff.1 hif).symm⟩
  | load => exact ⟨.same, ⟨rfl, hv, hstage.1, rfl, hstage.2⟩, fun hcur => (by cases hcur)⟩
  | loadComp inner =>
    obtain ⟨hchange, rfl, hlt⟩ := hstage
    have hne : s.comp v ≠ v := by
      intro heq
      rw [heq, heq] at hlt
      exact lt_irrefl v hlt
    refine ⟨.same, ⟨rfl, hv, hchange, hlt, lt_of_le_of_ne (hs.labels.le v hv) hne, ?_⟩,
      fun hcur => (by cases hcur)⟩
    exact (hs.labels.joined v hv).trans (hs.labels.joined _ hmem)
  | store value =>
    obtain ⟨hchange, hlt, hltv, hjoined⟩ := hstage
    exact ⟨.store hchange hlt hltv hjoined, ⟨rfl, hv, trivial⟩, fun hcur => (by cases hcur)⟩

end Steps

section Run

variable (nbrs numNodes)

/-- What holds of the shared state in each loop. -/
def Glob : Loop → State → Prop
  | .init, _ => True
  | .hook, s => Labels nbrs numNodes s
  | .compress, s => Labels nbrs numNodes s ∧
      (s.change = false → Agree nbrs (Finset.range numNodes) s.comp)

/-- What an iteration leaves behind. -/
def Done : Loop → State → ℕ → Prop
  | .init, s, x => s.comp x = x
  | .hook, s, u => s.change = false → ∀ v ∈ nbrs u, s.comp u = s.comp v
  | .compress, s, x => s.comp (s.comp x) = s.comp x

/-- When something has changed, a vertex has ceased to be a root, or some thread is about to see to it. -/
def Team {n : ℕ} : Loop → State → (Fin n → Pc) → Prop
  | .init, _, _ => True
  | .hook, s, pcs => s.change = true → s.Hooked numNodes ∨ ∃ i u k high low, pcs i = .hook u k (.store high low)
  | .compress, s, _ => s.change = true → s.Hooked numNodes

/-- The result: the label of a vertex is the least vertex of its component. -/
structure Found (s : State) : Prop where
  isLeast : ∀ v < numNodes, IsLeast {w | Joined nbrs (Finset.range numNodes) v w} (s.comp v)
  numIter_le : s.numIter ≤ max 1 numNodes

variable {nbrs numNodes} {n : ℕ} {loop loop' : Loop}

/-- The lowest vertex is always a root. -/
lemma Labels.numIter_le (hs : Labels nbrs numNodes s) : s.numIter ≤ max 1 numNodes := by
  have hbound := hs.bound
  rcases Nat.eq_zero_or_pos numNodes with rfl | hpos
  · exact le_max_of_le_left (by omega)
  · have hmem : 0 ∈ Finset.range numNodes := Finset.mem_range.2 hpos
    have hroot : 0 ∈ s.roots numNodes := Finset.mem_filter.2 ⟨hmem, Nat.le_zero.1 (hs.labels.le 0 hmem)⟩
    have hcard := Finset.card_pos.2 ⟨0, hroot⟩
    exact le_max_of_le_right (by omega)

/-- The head of the outer loop, when the labels are roots. -/
lemma Labels.hookHead (hlabels : Labelling nbrs (Finset.range numNodes) s.comp) (hflat : s.Flat numNodes)
    (hbound : (s.roots numNodes).card + s.numIter ≤ numNodes) :
    Labels nbrs numNodes { s with change := false, numIter := s.numIter + 1 } :=
  ⟨hlabels, fun _ => hflat, Nat.add_le_add_right hbound 1⟩

/-- The labels after the first loop. -/
lemma Labels.first (h : ∀ x ∈ Finset.range numNodes, s.comp x = x) :
    Labels nbrs numNodes { s with change := false, numIter := 0 + 1 } := by
  refine Labels.hookHead (s := { s with numIter := 0 }) ⟨fun x hx => (h x hx).le, fun x hx => ?_⟩
    (fun x hx => ?_) ?_
  · rw [h x hx]
    exact .refl x
  · show s.comp (s.comp x) = s.comp x
    rw [h x hx, h x hx]
  · exact (Finset.card_filter_le _ _).trans (Finset.card_range numNodes).le

/-- A vertex that ends its loop has labels that agree along its edges, if nothing has changed. -/
lemma hook_finish {stage : Hook} (hseen : s.Seen nbrs u k) (hstage : stage.Ok nbrs numNodes s u k)
    (hcur : (s.hookStep nbrs u k stage).2.cur = none) : Done nbrs .hook (s.hookStep nbrs u k stage).1 u := by
  cases stage with
  | loadU =>
    simp only [State.hookStep] at hcur ⊢
    split_ifs at hcur with hk
    · cases hcur
    · intro hc v hv
      obtain ⟨j, hj⟩ := List.getElem?_of_mem hv
      have hlt := (List.getElem?_eq_some_iff.1 hj).1
      exact hseen hc j (by omega) v hj
  | loadV compU =>
    simp only [State.hookStep, List.getElem?_eq_getElem hstage.1] at hcur
    split_ifs at hcur <;> cases hcur
  | test high low =>
    simp only [State.hookStep] at hcur
    split_ifs at hcur <;> cases hcur
  | change high low => cases hcur
  | store high low => cases hcur

/-- A step of the team in the loop that hooks. -/
lemma team_hook {pcs : Fin n → Pc} {i : Fin n} {stage : Hook} (hs : Labels nbrs numNodes s)
    (hi : pcs i = .hook u k stage) (hstage : stage.Ok nbrs numNodes s u k) (hteam : Team numNodes .hook s pcs) :
    Team numNodes .hook (s.hookStep nbrs u k stage).1
      (Function.update pcs i (s.hookStep nbrs u k stage).2) := by
  -- a statement that only loads leaves alone whoever is about to store
  have hload : ∀ {pc : Pc}, (∀ high low, stage ≠ .store high low) →
      Team numNodes .hook s (Function.update pcs i pc) := by
    intro pc hne hc
    rcases hteam hc with hh | ⟨j, w, k', high, low, hj⟩
    · exact .inl hh
    · refine .inr ⟨j, w, k', high, low, ?_⟩
      rw [Function.update_of_ne, hj]
      rintro rfl
      rw [hi] at hj
      cases hj
      exact hne _ _ rfl
  cases stage with
  | loadU => exact hload fun _ _ h => by cases h
  | loadV compU =>
    simp only [State.hookStep, List.getElem?_eq_getElem hstage.1]
    exact hload fun _ _ h => by cases h
  | test high low => exact hload fun _ _ h => by cases h
  | change high low => exact fun _ => .inr ⟨i, u, k, high, low, Function.update_self ..⟩
  | store high low => exact fun _ => .inl (hstage.2.2.1.setComp hs hstage.2.1.mem hstage.2.1.lt.ne)

section Outline

variable {t : Pc} {pcs : Fin n → Pc} {i : Fin n} {y : ℕ}

/-- A new iteration disturbs nobody who is about to store. -/
lemma team_take (hteam : Team numNodes loop s pcs) (hcur : (pcs i).cur = none) :
    Team numNodes loop s (Function.update pcs i (loop.start x)) := by
  cases loop with
  | init => trivial
  | compress => exact hteam
  | hook =>
    intro hc
    rcases hteam hc with hh | ⟨j, w, e, high, low, hj⟩
    · exact .inl hh
    · refine .inr ⟨j, w, e, high, low, ?_⟩
      rw [Function.update_of_ne, hj]
      rintro rfl
      rw [hj] at hcur
      cases hcur

/-- The threads behind the last iteration know what they need in any loop. -/
lemma ok_of_cur_none (h : t.cur = none) : t.Ok nbrs numNodes loop s := by
  cases t with
  | idle => trivial
  | init => cases h
  | hook => cases h
  | compress => cases h

section Step

variable (hvs : Closed nbrs (Finset.range numNodes)) (hs : Glob nbrs numNodes loop s)
  (ht : t.Ok nbrs numNodes loop s) (hcur : t.cur = some x)

include hvs hs ht hcur

/-- A step keeps what holds of the shared state. -/
lemma glob_step : Glob nbrs numNodes loop (s.step nbrs t).1 := by
  cases t with
  | idle => cases hcur
  | init v =>
    obtain rfl : loop = .init := ht
    trivial
  | hook u e stage =>
    obtain rfl := ht.1
    exact (hook_step hvs hs ht).1.labels hs
  | compress v stage =>
    obtain rfl := ht.1
    have heffect := (compress_step hvs hs.1 ht).1
    refine ⟨heffect.labels hs.1, fun hc => ?_⟩
    have hc' : s.change = false := heffect.change.symm.trans hc
    rw [show (s.step nbrs (.compress v stage)).1 = s from heffect.calm hc']
    exact hs.2 hc'

/-- A thread that steps knows what it needs. -/
lemma ok_step : (s.step nbrs t).2.Ok nbrs numNodes loop (s.step nbrs t).1 := by
  cases t with
  | idle => cases hcur
  | init v => trivial
  | hook u e stage =>
    obtain rfl := ht.1
    exact (hook_step hvs hs ht).2
  | compress v stage =>
    obtain rfl := ht.1
    exact (compress_step hvs hs.1 ht).2.1

/-- What a thread knows at another iteration stays true. -/
lemma ok_other (hpc : pc.Ok nbrs numNodes loop s) (hne : pc.cur ≠ some x) :
    pc.Ok nbrs numNodes loop (s.step nbrs t).1 := by
  cases pc with
  | idle => trivial
  | init w => exact hpc
  | hook w e' stage' =>
    obtain rfl := hpc.1
    cases t with
    | idle => cases hcur
    | init v => cases (show Loop.hook = .init from ht)
    | hook u e stage =>
      have heffect := (hook_step hvs hs ht).1
      exact ⟨rfl, hpc.2.1, heffect.seen hpc.2.2.1, heffect.stage hs hpc.2.2.2⟩
    | compress v stage => cases ht.1
  | compress w stage' =>
    obtain rfl := hpc.1
    cases t with
    | idle => cases hcur
    | init v => cases (show Loop.compress = .init from ht)
    | hook u e stage => cases ht.1
    | compress v stage =>
      refine ⟨rfl, hpc.2.1, (compress_step hvs hs.1 ht).1.stage (fun he => hne ?_) hpc.2.2⟩
      rw [he]
      exact hcur

/-- What an iteration has left behind stays true. -/
lemma done_other (hne : y ≠ x) (hd : Done nbrs loop s y) : Done nbrs loop (s.step nbrs t).1 y := by
  cases t with
  | idle => cases hcur
  | init v =>
    obtain rfl : loop = .init := ht
    cases hcur
    exact (Function.update_of_ne hne _ _).trans hd
  | hook u e stage =>
    obtain rfl := ht.1
    intro hc
    have heq := (hook_step hvs hs ht).1.calm hc
    rw [State.step, heq] at hc ⊢
    exact hd hc
  | compress v stage =>
    obtain rfl := ht.1
    obtain rfl : v = x := Option.some.inj hcur
    have heffect := (compress_step hvs hs.1 ht).1
    show (s.compressStep v stage).1.comp ((s.compressStep v stage).1.comp y) = (s.compressStep v stage).1.comp y
    rw [heffect.comp_of_ne hne]
    exact heffect.comp_root hd

/-- What the last step of an iteration leaves behind. -/
lemma done_step (hend : (s.step nbrs t).2.cur = none) : Done nbrs loop (s.step nbrs t).1 x := by
  cases t with
  | idle => cases hcur
  | init v =>
    obtain rfl : loop = .init := ht
    cases hcur
    exact Function.update_self ..
  | hook u e stage =>
    obtain rfl := ht.1
    cases hcur
    exact hook_finish ht.2.2.1 ht.2.2.2 hend
  | compress v stage =>
    obtain rfl := ht.1
    cases hcur
    have hroot := (compress_step hvs hs.1 ht).2.2 hend
    cases stage with
    | compare compN inner => exact hroot
    | left => cases hend
    | right => cases hend
    | load => cases hend
    | loadComp => cases hend
    | store => cases hend

/-- Once something has changed, some vertex ceases to be a root. -/
lemma team_step (hi : pcs i = t) (hteam : Team numNodes loop s pcs) :
    Team numNodes loop (s.step nbrs t).1 (Function.update pcs i (s.step nbrs t).2) := by
  cases t with
  | idle => cases hcur
  | init v =>
    obtain rfl : loop = .init := ht
    trivial
  | hook u e stage =>
    obtain rfl := ht.1
    exact team_hook hs hi ht.2.2.2 hteam
  | compress v stage =>
    obtain rfl := ht.1
    have heffect := (compress_step hvs hs.1 ht).1
    intro hc
    rw [show (s.step nbrs (.compress v stage)).1.change = s.change from heffect.change] at hc
    have hh := hteam hc
    show State.Hooked numNodes (s.compressStep v stage).1
    generalize (s.compressStep v stage).1 = s' at heffect
    cases heffect with
    | same => exact hh
    | store _ hlt hltv => exact hh.setComp (hlt.trans hltv).ne

end Step

section Join

variable (hs : Glob nbrs numNodes loop s) (hdone : ∀ x ∈ Finset.range numNodes, Done nbrs loop s x)

include hs hdone

/-- The next loop begins with what has to hold there. -/
lemma glob_join (hteam : Team numNodes loop s pcs) (hidle : ∀ i, (pcs i).cur = none)
    (hk : (join s loop).2 = some loop') :
    Glob nbrs numNodes loop' (join s loop).1 ∧ Team numNodes loop' (join s loop).1 pcs := by
  cases loop with
  | init =>
    cases hk
    exact ⟨.first hdone, fun hc => (by cases hc)⟩
  | hook =>
    cases hk
    refine ⟨⟨hs, fun hc u hu v hv => hdone u hu hc v hv⟩, fun hc => ?_⟩
    rcases hteam hc with hh | ⟨i, u, e, high, low, hi⟩
    · exact hh
    · have := hidle i
      rw [hi] at this
      cases this
  | compress =>
    rw [join, State.loopHead] at hk ⊢
    split_ifs at hk ⊢ with hc
    cases hk
    exact ⟨.hookHead hs.1.labels hdone (hteam hc), fun hc => (by cases hc)⟩

omit hdone in
/-- When there is no next loop, the labels are the least vertices. -/
lemma found_join (hvs : Closed nbrs (Finset.range numNodes)) (hk : (join s loop).2 = none) :
    Found nbrs numNodes (join s loop).1 := by
  cases loop with
  | init => cases hk
  | hook => cases hk
  | compress =>
    rw [join, State.loopHead] at hk ⊢
    split_ifs at hk ⊢ with hc
    have hc' : s.change = false := by simpa using hc
    exact ⟨fun v hv => hs.1.labels.isLeast hvs (hs.2 hc') (Finset.mem_range.2 hv), hs.1.numIter_le⟩

end Join

/-- What the threads know in each loop, and what they leave behind. -/
lemma outline (hvs : Closed nbrs (Finset.range numNodes)) :
    (shiloachVishkin n nbrs numNodes).LocalOutline (fun _ _ _ _ => True) (fun k s _ => Done nbrs k s)
      (fun s _ => Found nbrs numNodes s) (Glob nbrs numNodes) (Pc.Ok nbrs numNodes) (Team numNodes) where
  take := by
    intro k s pcs i x _ _ _ hx _
    cases k with
    | init => rfl
    | hook => exact ⟨rfl, hx, fun _ j hj => absurd hj (Nat.not_lt_zero j), trivial⟩
    | compress => exact ⟨rfl, hx, trivial⟩
  glob hs ht hcur _ := glob_step hvs hs ht hcur
  loc hs ht hcur _ := ok_step hvs hs ht hcur
  other hs ht hcur _ hpc hne := ok_other hvs hs ht hcur hpc hne
  keep_take _ _ _ _ hd := hd
  keep hs hpcs _ hwork _ hne hd := done_other hvs hs (hpcs _) hwork.cur hne hd
  finish hs hpcs _ hwork hend := done_step hvs hs (hpcs _) hwork.cur hend
  open_take _ _ h := h
  open_run _ _ _ _ _ h := h
  team_take _ hteam hcur _ _ := team_take hteam hcur
  team_run hs hpcs hteam hwork := team_step hvs hs (hpcs _) hwork.cur rfl hteam
  next hs _ hteam hidle hdone hk := by
    obtain ⟨hglob, hteam'⟩ := glob_join hs hdone hteam hidle hk
    exact ⟨hglob, fun i => ok_of_cur_none (hidle i), hteam', fun _ _ => trivial⟩
  last hs _ _ _ _ hk := found_join hs hvs hk

end Outline

section Ends

/-- How many statements of the body are left. -/
def Hook.rank : Hook → ℕ
  | .loadU => 5
  | .loadV _ => 4
  | .test _ _ => 3
  | .change _ _ => 2
  | .store _ _ => 1

/-- How many statements of the body are left. -/
def Compress.rank : Compress → ℕ
  | .left => 6
  | .right _ => 5
  | .compare _ _ => 4
  | .load => 3
  | .loadComp _ => 2
  | .store _ => 1

/-- What is left of an iteration: the edges, or the way of the label down to its root. -/
def Pc.rank (nbrs : ℕ → List ℕ) (s : State) : Pc → ℕ
  | .idle => 0
  | .init _ => 1
  | .hook u k stage => 6 * ((nbrs u).length - k) + stage.rank
  | .compress v stage => 8 * s.comp v + stage.rank

/-- A statement of the loop that hooks leaves less of it. -/
lemma hook_rank {stage : Hook} (hok : (Pc.hook u k stage).Ok nbrs numNodes .hook s) :
    (s.hookStep nbrs u k stage).2.rank nbrs (s.hookStep nbrs u k stage).1 < (Pc.hook u k stage).rank nbrs s := by
  obtain ⟨-, -, -, hstage⟩ := hok
  -- the next edge
  have hnext : ∀ {s'}, k < (nbrs u).length →
      (Pc.hook u (k + 1) .loadU).rank nbrs s' < 6 * ((nbrs u).length - k) + 1 := by
    intro s' hk
    show 6 * ((nbrs u).length - (k + 1)) + 5 < _
    omega
  cases stage with
  | loadU =>
    simp only [State.hookStep]
    split_ifs
    · exact Nat.lt_succ_self _
    · exact Nat.succ_pos _
  | loadV compU =>
    simp only [State.hookStep, List.getElem?_eq_getElem hstage.1]
    split_ifs
    · exact (hnext hstage.1).trans_le (Nat.add_le_add_left (show 1 ≤ _ from Nat.le_add_left 1 _) _)
    · exact Nat.lt_succ_self _
  | test high low =>
    simp only [State.hookStep]
    split_ifs
    · exact Nat.lt_succ_self _
    · exact (hnext hstage.1).trans_le (Nat.add_le_add_left (show 1 ≤ _ from Nat.le_add_left 1 _) _)
  | change high low => exact Nat.lt_succ_self _
  | store high low => exact hnext hstage.1

/-- A statement of the loop that compresses leaves less of it. -/
lemma compress_rank {stage : Compress} (hok : stage.Ok nbrs numNodes s v) :
    (s.compressStep v stage).2.rank nbrs (s.compressStep v stage).1 < (Pc.compress v stage).rank nbrs s := by
  cases stage with
  | compare compN inner =>
    simp only [State.compressStep]
    split_ifs
    · exact Nat.lt_succ_self _
    · exact Nat.succ_pos _
  | store value =>
    have hlt := hok.2.1
    show 8 * (s.setComp v value).comp v + 6 < 8 * s.comp v + 1
    rw [show (s.setComp v value).comp v = value from Function.update_self ..]
    omega
  | left => exact Nat.lt_succ_self _
  | right => exact Nat.lt_succ_self _
  | load => exact Nat.lt_succ_self _
  | loadComp => exact Nat.lt_succ_self _

/-- No label rises in the loop that compresses. -/
lemma step_comp_le (hvs : Closed nbrs (Finset.range numNodes)) (hs : Labels nbrs numNodes s)
    (hok : pc.Ok nbrs numNodes .compress s) (x : ℕ) : (s.step nbrs pc).1.comp x ≤ s.comp x := by
  cases pc with
  | idle => exact le_rfl
  | init v => cases (show Loop.compress = .init from hok)
  | hook u e stage => cases hok.1
  | compress v stage => exact (compress_step hvs hs hok).1.comp_le x

/-- The threads do not count the iterations of the outer loop. -/
lemma step_numIter (nbrs : ℕ → List ℕ) (s : State) (pc : Pc) : (s.step nbrs pc).1.numIter = s.numIter := by
  cases pc with
  | idle => rfl
  | init v => rfl
  | hook u k stage =>
    cases stage with
    | loadV compU =>
      simp only [State.step, State.hookStep]
      split <;> rfl
    | _ => rfl
  | compress v stage => cases stage <;> rfl

variable (numNodes) in
/-- How many loops are left at most. -/
def left : Loop → State → ℕ
  | .init, _ => 2 * (numNodes + 2)
  | .hook, s => 2 * (numNodes + 2 - s.numIter) + 1
  | .compress, s => 2 * (numNodes + 2 - s.numIter)

/-- What is left of the run: every iteration of the outer loop costs a root. -/
def ranking (hvs : Closed nbrs (Finset.range numNodes)) : (shiloachVishkin n nbrs numNodes).Ranking
    (fun k s pcs => Glob nbrs numNodes k s ∧ (∀ i, (pcs i).Ok nbrs numNodes k s) ∧ Team numNodes k s pcs)
    (fun k s _ => Done nbrs k s) where
  outer := left numNodes
  cost
    | .init, _, _ => 2
    | .hook, _, u => 6 * (nbrs u).length + 6
    | .compress, s, v => 8 * s.comp v + 7
  rank _ s pc := pc.rank nbrs s
  take_lt := by
    intro k s pcs i x _ _ _
    refine Nat.lt_add_right _ ?_
    cases k <;> exact Nat.lt_succ_self _
  run_lt := by
    intro k s pcs i x h hwork
    have hok := h.2.1 i
    have hcur := hwork.cur
    cases hpc : pcs i with
    | idle =>
      rw [hpc] at hcur
      cases hcur
    | init v => exact Nat.succ_pos _
    | hook u e stage =>
      rw [hpc] at hok
      obtain rfl := hok.1
      exact hook_rank hok
    | compress v stage =>
      rw [hpc] at hok
      exact compress_rank hok.2.2
  run_other := by
    intro k s pcs i x j h _ _
    have hokj := h.2.1 j
    cases hpcj : pcs j with
    | idle => exact le_rfl
    | init v => exact le_rfl
    | hook u e stage => exact le_rfl
    | compress w stage' =>
      rw [hpcj] at hokj
      obtain rfl := hokj.1
      exact Nat.add_le_add_right (Nat.mul_le_mul_left 8 (step_comp_le hvs h.1.1 (h.2.1 i) w)) _
  run_cost := by
    intro k s pcs i x y h _ _ _
    cases k with
    | init => exact le_rfl
    | hook => exact le_rfl
    | compress => exact Nat.add_le_add_right (Nat.mul_le_mul_left 8 (step_comp_le hvs h.1.1 (h.2.1 i) y)) _
  run_outer := by
    intro k s pcs i x _ _
    have hnum : (s.step nbrs (pcs i)).1.numIter = s.numIter := step_numIter ..
    cases k with
    | init => exact le_rfl
    | hook => exact (congrArg (fun j => 2 * (numNodes + 2 - j) + 1) hnum).le
    | compress => exact (congrArg (fun j => 2 * (numNodes + 2 - j)) hnum).le
  next_lt := by
    intro k s pcs k' h _ _ hk
    cases k with
    | init =>
      cases hk
      show 2 * (numNodes + 2 - (0 + 1)) + 1 < 2 * (numNodes + 2)
      omega
    | hook =>
      cases hk
      exact Nat.lt_succ_self _
    | compress =>
      have hbound := h.1.1.bound
      have hhead : s.loopHead.2 = some k' := hk
      show left numNodes k' s.loopHead.1 < 2 * (numNodes + 2 - s.numIter)
      rw [State.loopHead] at hhead ⊢
      split_ifs at hhead ⊢
      cases hhead
      show 2 * (numNodes + 2 - (s.numIter + 1)) + 1 < 2 * (numNodes + 2 - s.numIter)
      omega

end Ends

end Run

variable {n : ℕ}

/-- The runs of `ShiloachVishkin`: `comp` is fresh memory. -/
def runs (n : ℕ) (nbrs : ℕ → List ℕ) (numNodes : ℕ) : System (ForkJoin.Config n Loop ℕ State Pc)
    (ForkJoin.Action n ℕ) :=
  (shiloachVishkin n nbrs numNodes).system (fun _ pcs => ∀ i, pcs i = .idle) .init

/-- In the beginning the threads know nothing and need not. -/
lemma start_ok {s : State} {pcs : Fin n → Pc} (h : ∀ i, pcs i = .idle) :
    (Glob nbrs numNodes .init s ∧ (∀ i, (pcs i).Ok nbrs numNodes .init s) ∧ Team numNodes .init s pcs) ∧
      ∀ x ∈ (shiloachVishkin n nbrs numNodes).items .init, True :=
  ⟨⟨trivial, fun i => by rw [h i]; trivial, trivial⟩, fun _ _ => trivial⟩

/-- Some run comes to the end. -/
lemma exists_found (hvs : Closed nbrs (Finset.range numNodes)) (hn : 0 < n) (s : State) :
    ∃ c, (runs n nbrs numNodes).Reach c ∧ c.phase = none :=
  (ranking hvs).exists_end (outline hvs).outline (fun _ _ => start_ok) hn
    (.init ⟨s, fun _ => .idle, fun _ => rfl, fun _ => rfl, rfl⟩)

/-- On a graph that represents the edges `adj`, `ShiloachVishkin` run by a team of threads ends in every
schedule, and then the label of each vertex is the least vertex that edges, pointing either way, join to it.
The outer loop has run at most once for each vertex. -/
theorem connected_components {g : Graph} {adj : ℕ → List ℕ} (h : g.Layout adj)
    (hids : ∀ u < g.numVertices, ∀ v ∈ adj u, v < g.numVertices) {numThreads : ℕ} (hthreads : 0 < numThreads)
    {c : ForkJoin.Config numThreads Loop ℕ State Pc} (hc : (runs numThreads g.neighbors g.numVertices).Reach c) :
    Acc (fun c' c => ∃ a, (runs numThreads g.neighbors g.numVertices).step c a c') c ∧
      (c.phase ≠ none → ∃ a c', (runs numThreads g.neighbors g.numVertices).step c a c') ∧
      (c.phase = none → (∀ v < g.numVertices,
        IsLeast {w | Joined adj (Finset.range g.numVertices) v w} (c.shared.comp v)) ∧
        c.shared.numIter ≤ max 1 g.numVertices) := by
  have hperm := fun u hu => (h.neighbors (u := u) hu).2.1
  have hvs : Closed g.neighbors (Finset.range g.numVertices) := fun u hu v hv =>
    Finset.mem_range.2 (hids u (Finset.mem_range.1 hu) v ((hperm u (Finset.mem_range.1 hu)).subset hv))
  have hjoined : ∀ v w, Joined adj (Finset.range g.numVertices) v w ↔
      Joined g.neighbors (Finset.range g.numVertices) v w := fun v w =>
    ⟨.mono fun u hu v hv => .edge hu ((hperm u (Finset.mem_range.1 hu)).symm.subset hv),
      .mono fun u hu v hv => .edge hu ((hperm u (Finset.mem_range.1 hu)).subset hv)⟩
  refine ⟨(ranking hvs).acc (outline hvs).outline (fun _ _ => start_ok) hc,
    fun hphase => ForkJoin.exists_step hthreads hphase, fun hend => ?_⟩
  have hfound := (outline hvs).outline.post (fun _ _ => start_ok) hc hend
  refine ⟨fun v hv => ?_, hfound.numIter_le⟩
  simp only [hjoined]
  exact hfound.isLeast v hv

/-- Two threads on two vertices, with an edge from each to the other: both get the label 0. -/
theorem connected_components_two : ∃ g c, Graph.Run ⟨fun _ => 7, fun _ => .zero⟩ true 0 2 [(0, 1)] [(1, 0)] g ∧
    (runs 2 g.neighbors g.numVertices).Reach c ∧ c.phase = none ∧ c.shared.comp 0 = 0 ∧ c.shared.comp 1 = 0 := by
  obtain ⟨g, hg⟩ : ∃ g, Graph.Run ⟨fun _ => 7, fun _ => .zero⟩ true 0 2 [(0, 1)] [(1, 0)] g :=
    Graph.Run.exists_of_bound _ _ _ (by decide) (by decide) (by decide) (by decide) (by decide)
  have hn : g.numVertices = 2 := by
    rw [hg.numVertices]
    decide
  have hids : ∀ u < g.numVertices, ∀ v ∈ ofEdges ([(0, 1)] ++ [(1, 0)]) u, v < g.numVertices := by
    rw [hn]
    decide
  have hvs : Closed g.neighbors (Finset.range g.numVertices) := fun u hu v hv =>
    Finset.mem_range.2 (hids u (Finset.mem_range.1 hu) v
      ((hg.layout.neighbors (Finset.mem_range.1 hu)).2.1.subset hv))
  obtain ⟨c, hc, hend⟩ := exists_found (n := 2) hvs (by decide) ⟨fun _ => 7, false, 0⟩
  have hleast := ((connected_components hg.layout hids (by decide) hc).2.2 hend).1
  have hjoined : Joined (ofEdges ([(0, 1)] ++ [(1, 0)])) (Finset.range g.numVertices) 1 0 :=
    .edge (Finset.mem_range.2 (by omega)) (by decide)
  exact ⟨g, c, hg, hc, hend, Nat.le_zero.1 ((hleast 0 (by omega)).2 (.refl 0)),
    Nat.le_zero.1 ((hleast 1 (by omega)).2 hjoined)⟩

end Cc

end Dgap
