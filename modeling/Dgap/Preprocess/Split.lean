import Dgap.Build.MakeGraph
import Dgap.Layout.Capacity
import Dgap.Memory.Unique

/-!
# Splitting a data set

What `split_dataset.cc` and `adj_to_el_converter.cc` have in common: both list every edge in both
directions, sort the list, remove the repeats in place, shuffle all but the last pair, and write the first
tenth and the last pair to the base graph and the rest to the dynamic graph. `Partition` is what the two
files should be. The last pair of the sorted list has the largest id, so the base graph has it. The graphs size
their vertex tables from this id: BAL takes the number of vertices as it is, DGAP rounds it up to whole segments,
which overflows from `31 * 2 ^ 26 + 1` vertices on (`writeOut_iff`).

`last_u` and `last_v` begin with -1, which is no id; here the last pair is `none` then. A 64-bit counter
holds the size of any file, so those are natural numbers.
-/

namespace Dgap

namespace Preprocess

open Machine

/-- The order of pairs that `sort` uses. -/
def pairLe (a b : ℕ × ℕ) : Bool := decide (a.1 < b.1 ∨ a.1 = b.1 ∧ a.2 ≤ b.2)

/-- Both directions of every edge. -/
def bothDirections (input : List (ℕ × ℕ)) : List (ℕ × ℕ) :=
  input.flatMap fun e => [(e.1, e.2), (e.2, e.1)]

/-- The two files that are written. -/
structure Output where
  base : List (ℕ × ℕ)
  dyn : List (ℕ × ℕ)
  deriving DecidableEq

/-- The tools from `sort` on; `none` if they read or write out of bounds. -/
def writeOut (shuffle : List (ℕ × ℕ) → List (ℕ × ℕ)) (inLines : ℕ) (edgeList : List (ℕ × ℕ)) :
    Option Output :=
  if edgeList.length ≠ inLines then none
  else
    let (arr, outLine) := Memory.uniqueLoop inLines 0 0 none (edgeList.mergeSort pairLe)
    if outLine = 0 then none
    else
      let arr := shuffle (arr.take (outLine - 1)) ++ arr.drop (outLine - 1)
      let outLineB := outLine / 10
      some {
        base := (List.range' 0 outLineB).map (arr.getD · (0, 0)) ++ [arr.getD (outLine - 1) (0, 0)]
        dyn := (List.range' outLineB (outLine - 1 - outLineB)).map (arr.getD · (0, 0)) }

/-- `split_dataset`, when it is told that the input has `lines` lines. -/
def splitDataset (shuffle : List (ℕ × ℕ) → List (ℕ × ℕ)) (lines : ℕ) (input : List (ℕ × ℕ)) :
    Option Output :=
  writeOut shuffle (lines * 2) (bothDirections input)

/-- The number of vertices that `MakeGraph` computes from the base graph, in the type of the ids. -/
def numNodes (base : List (ℕ × ℕ)) : ℤ := signed 32 (findMaxNodeID base + 1)

/-- The size of the vertex table that DGAP allocates for the base graph, which `MakeGraph` may have mirrored;
`none` if an operation of the constructor is undefined. -/
def tableSize (symmetrize : Bool) (base : List (ℕ × ℕ)) : Option ℤ :=
  (Word.setUp ((if symmetrize then base.length * 2 else base.length : ℕ) : ℤ) (numNodes base)).map
    Capacity.numVertices

/-- The two files are a partition of the pairs of an input, and the graphs that are built from the first one,
BAL with a table of `numNodes` vertices and DGAP with one of `tableSize`, have a vertex for every id in the second
one. -/
structure Partition (input : List (ℕ × ℕ)) (out : Output) : Prop where
  disjoint : out.base.Disjoint out.dyn
  nodup : out.base.Nodup ∧ out.dyn.Nodup
  union : ∀ e, e ∈ out.base ∨ e ∈ out.dyn ↔ e ∈ input ∨ e.swap ∈ input
  count : out.base.length = (out.base.length + out.dyn.length) / 10 + 1
  bound : ∀ e ∈ out.dyn, e.1 ≤ findMaxNodeID out.base ∧ e.2 ≤ findMaxNodeID out.base
  covers : ∀ e ∈ out.dyn, (e.1 : ℤ) < numNodes out.base ∧ (e.2 : ℤ) < numNodes out.base
  table : ∀ e ∈ out.dyn, ∀ symmetrize, ∃ size, tableSize symmetrize out.base = some size ∧
    (e.1 : ℤ) < size ∧ (e.2 : ℤ) < size

/-- The pairs of both directions. -/
lemma mem_bothDirections {input : List (ℕ × ℕ)} {e : ℕ × ℕ} :
    e ∈ bothDirections input ↔ e ∈ input ∨ e.swap ∈ input := by
  rw [bothDirections, List.mem_flatMap]
  constructor
  · rintro ⟨e', he', hm⟩
    rcases List.mem_cons.1 hm with rfl | hm
    · exact .inl he'
    · obtain rfl := List.mem_singleton.1 hm
      exact .inr he'
  · rintro (he | he)
    · exact ⟨e, he, List.mem_cons_self⟩
    · exact ⟨e.swap, he, List.mem_cons_of_mem _ (List.mem_singleton_self _)⟩

/-- Two pairs for every edge. -/
lemma length_bothDirections (input : List (ℕ × ℕ)) :
    (bothDirections input).length = input.length * 2 := by
  induction input with
  | nil => rfl
  | cons e input ih =>
    rw [bothDirections, List.flatMap_cons, ← bothDirections, List.length_append, ih, List.length_cons]
    simp only [List.length_cons, List.length_nil]
    omega

/-- The order of pairs is one. -/
lemma pairLe_antisymm (a b : ℕ × ℕ) (h : pairLe a b = true) (h' : pairLe b a = true) : a = b := by
  simp only [pairLe, decide_eq_true_eq] at h h'
  exact Prod.ext (by omega) (by omega)

/-- The pairs after `sort`. -/
lemma sorted_pairs (l : List (ℕ × ℕ)) : (l.mergeSort pairLe).Pairwise fun a b => pairLe a b = true := by
  refine List.pairwise_mergeSort (fun a b c h h' => ?_) (fun a b => ?_) l
  · simp only [pairLe, decide_eq_true_eq] at h h' ⊢
    omega
  · simp only [pairLe, Bool.or_eq_true, decide_eq_true_eq]
    omega

/-- The sorted pairs without repeats. -/
def uniquePairs (edgeList : List (ℕ × ℕ)) : List (ℕ × ℕ) :=
  Memory.dropRepeats none (edgeList.mergeSort pairLe)

variable {edgeList input : List (ℕ × ℕ)} {shuffle : List (ℕ × ℕ) → List (ℕ × ℕ)} {out : Output}

/-- They are the pairs of the list. -/
lemma mem_uniquePairs {e : ℕ × ℕ} : e ∈ uniquePairs edgeList ↔ e ∈ edgeList := by
  rw [uniquePairs, Memory.mem_dropRepeats pairLe_antisymm (sorted_pairs _)
    (fun a ha => by cases ha), List.mem_mergeSort]
  exact and_iff_left (Option.some_ne_none e)

/-- None of them twice. -/
lemma nodup_uniquePairs (edgeList : List (ℕ × ℕ)) : (uniquePairs edgeList).Nodup :=
  Memory.dropRepeats_nodup pairLe_antisymm (sorted_pairs _) none

/-- The last of them has the largest source. -/
lemma fst_le_getLast (hne : uniquePairs edgeList ≠ []) {e : ℕ × ℕ} (he : e ∈ uniquePairs edgeList) :
    e.1 ≤ ((uniquePairs edgeList).getLast hne).1 := by
  have hsorted : (uniquePairs edgeList).Pairwise fun a b => pairLe a b = true :=
    (sorted_pairs edgeList).sublist (Memory.dropRepeats_sublist _ _)
  rw [← List.dropLast_append_getLast hne] at hsorted he
  rcases List.mem_append.1 he with he | he
  · have := (List.pairwise_append.1 hsorted).2.2 e he _ (List.mem_singleton_self _)
    simp only [pairLe, decide_eq_true_eq] at this
    omega
  · rw [List.mem_singleton.1 he]

/-- Values of an array by their indices. -/
lemma map_getD_range' {α : Type*} (l : List α) (d : α) {a k : ℕ} (h : a + k ≤ l.length) :
    (List.range' a k).map (l.getD · d) = (l.drop a).take k := by
  refine List.ext_getElem (by simp; omega) fun i h1 h2 => ?_
  have hi : i < k := by simpa using h1
  rw [List.getElem_map, List.getElem_range', List.getElem_take, List.getElem_drop,
    List.getD_eq_getElem?_getD, List.getElem?_eq_getElem (by omega), Option.getD_some]
  simp

/-- What is written: the last pair and a tenth of the shuffled others, and the rest of these. -/
lemma writeOut_eq (hshuffle : ∀ l, (shuffle l).Perm l) (hne : uniquePairs edgeList ≠ []) :
    ∃ (sh : List (ℕ × ℕ)) (m : ℕ × ℕ), (sh ++ [m]).Perm (uniquePairs edgeList) ∧
      (∀ e ∈ uniquePairs edgeList, e.1 ≤ m.1) ∧
      writeOut shuffle edgeList.length edgeList = some {
        base := sh.take ((sh.length + 1) / 10) ++ [m]
        dyn := sh.drop ((sh.length + 1) / 10) } := by
  have hloop := Memory.uniqueLoop_take edgeList.length 0 0 none (edgeList.mergeSort pairLe)
    (by rw [List.length_mergeSort, Nat.zero_add]) (le_refl 0)
  rw [List.drop_zero, ← uniquePairs, List.take_zero, List.nil_append, Nat.zero_add] at hloop
  rw [writeOut, if_neg (not_not_intro rfl)]
  generalize Memory.uniqueLoop edgeList.length 0 0 none (edgeList.mergeSort pairLe) = res at hloop ⊢
  obtain ⟨arr, outLine⟩ := res
  obtain ⟨htake, hlen, -⟩ := hloop
  dsimp only at htake hlen ⊢
  have hpos : 0 < (uniquePairs edgeList).length := List.length_pos_iff.2 hne
  have hmax := fun e => fst_le_getLast hne (e := e)
  generalize uniquePairs edgeList = u at *
  subst hlen
  rw [if_neg hpos.ne']
  -- the array begins with the unique pairs
  obtain ⟨junk, rfl⟩ : ∃ junk, arr = u ++ junk := ⟨arr.drop u.length, by
    conv_lhs => rw [← List.take_append_drop u.length arr, htake]⟩
  have hinit : (u ++ junk).take (u.length - 1) = u.dropLast := by
    rw [List.take_append_of_le_length (by omega), List.dropLast_eq_take]
  have hdrop : (u ++ junk).drop (u.length - 1) = u.getLast hne :: junk := by
    rw [List.drop_append_of_le_length (by omega), List.drop_length_sub_one hne, List.singleton_append]
  rw [hinit, hdrop]
  have hsh : (shuffle u.dropLast).length = u.length - 1 := by
    rw [(hshuffle u.dropLast).length_eq, List.length_dropLast]
  refine ⟨shuffle u.dropLast, u.getLast hne, ?_, hmax, ?_⟩
  · refine ((hshuffle _).append_right _).trans (.of_eq (List.dropLast_append_getLast hne))
  generalize shuffle u.dropLast = sh at hsh ⊢
  have hlength : (sh ++ u.getLast hne :: junk).length = u.length + junk.length := by
    rw [List.length_append, List.length_cons, hsh]
    omega
  generalize u.getLast hne = m at hlength ⊢
  have hbase : (sh ++ m :: junk).take (u.length / 10) = sh.take (u.length / 10) :=
    List.take_append_of_le_length (by omega)
  have hdyn : ((sh ++ m :: junk).drop (u.length / 10)).take (u.length - 1 - u.length / 10) =
      sh.drop (u.length / 10) := by
    rw [List.drop_append_of_le_length (by omega), List.take_left' (by rw [List.length_drop]; omega)]
  have hlast : (sh ++ m :: junk).getD (u.length - 1) (0, 0) = m := by
    rw [← hsh, List.getD_eq_getElem?_getD, List.getElem?_append_right (le_refl _), Nat.sub_self]
    rfl
  rw [map_getD_range' _ _ (by omega), map_getD_range' _ _ (by omega), List.drop_zero, hbase, hdyn, hlast,
    show sh.length + 1 = u.length by omega]

/-- No id is larger, so the largest one is not. -/
lemma findMaxNodeID_le {el : List (ℕ × ℕ)} {k : ℕ} (hle : ∀ e ∈ el, e.1 ≤ k ∧ e.2 ≤ k) :
    findMaxNodeID el ≤ k := by
  have hup : ∀ (l : List (ℕ × ℕ)) (m : ℕ), m ≤ k → (∀ e ∈ l, e.1 ≤ k ∧ e.2 ≤ k) →
      l.foldl (fun maxSeen e => max (max maxSeen e.1) e.2) m ≤ k := by
    intro l
    induction l with
    | nil => exact fun m hm _ => hm
    | cons e l ih =>
      intro m hm hl
      obtain ⟨h1, h2⟩ := hl e List.mem_cons_self
      exact ih _ (max_le (max_le hm h1) h2) fun e' he' => hl e' (List.mem_cons_of_mem e he')
  exact hup el 0 (Nat.zero_le _) hle

/-- The largest id of a list. -/
lemma findMaxNodeID_eq {el : List (ℕ × ℕ)} {k : ℕ} (hle : ∀ e ∈ el, e.1 ≤ k ∧ e.2 ≤ k)
    (hmem : ∃ e ∈ el, e.1 = k ∨ e.2 = k) : findMaxNodeID el = k := by
  obtain ⟨e, he, hk⟩ := hmem
  refine le_antisymm (findMaxNodeID_le hle) ?_
  obtain ⟨h1, h2⟩ := le_findMaxNodeID he
  rcases hk with rfl | rfl
  · exact h1
  · exact h2

/-- There is only one unique pair exactly if the input is one self-loop. -/
lemma length_uniquePairs_eq_one (hne : input ≠ []) : (uniquePairs (bothDirections input)).length = 1 ↔
    ∃ a, ∀ e ∈ input, e = (a, a) := by
  have hmem : ∀ e, e ∈ uniquePairs (bothDirections input) ↔ e ∈ input ∨ e.swap ∈ input := fun e => by
    rw [mem_uniquePairs, mem_bothDirections]
  constructor
  · intro h
    obtain ⟨m, hm⟩ := List.length_eq_one_iff.1 h
    simp only [hm, List.mem_singleton] at hmem
    refine ⟨m.1, fun e he => ?_⟩
    have h1 : e.1 = m.1 := congrArg Prod.fst ((hmem e).2 (.inl he))
    have h2 : e.2 = m.1 := congrArg Prod.fst ((hmem e.swap).2 (.inr (by rwa [Prod.swap_swap])))
    exact Prod.ext h1 h2
  · rintro ⟨a, ha⟩
    have hsub : uniquePairs (bothDirections input) ⊆ [(a, a)] := fun e he => by
      rw [List.mem_singleton]
      rcases (hmem e).1 he with h | h
      · exact ha e h
      · exact Prod.swap_injective (ha _ h)
    have hle := ((nodup_uniquePairs (bothDirections input)).subperm hsub).length_le
    obtain ⟨e, he⟩ := List.exists_mem_of_ne_nil input hne
    have hpos := List.length_pos_of_mem ((hmem e).2 (.inl he))
    rw [List.length_singleton] at hle
    omega

section Written

variable (hshuffle : ∀ l, (shuffle l).Perm l) (hne : input ≠ [])

include hshuffle hne

/-- What the tools write for the two directions of an input: a partition, with the largest id in the base
graph; the dynamic graph is empty only if the input is one self-loop. -/
lemma writeOut_bothDirections : ∃ out,
    writeOut shuffle (input.length * 2) (bothDirections input) = some out ∧
      out.base.Disjoint out.dyn ∧ (out.base.Nodup ∧ out.dyn.Nodup) ∧
      (∀ e, e ∈ out.base ∨ e ∈ out.dyn ↔ e ∈ input ∨ e.swap ∈ input) ∧
      out.base.length = (out.base.length + out.dyn.length) / 10 + 1 ∧
      findMaxNodeID out.base = findMaxNodeID input ∧
      (∀ e ∈ out.dyn, e.1 ≤ findMaxNodeID input ∧ e.2 ≤ findMaxNodeID input) ∧
      (out.dyn = [] ↔ ∃ a, ∀ e ∈ input, e = (a, a)) := by
  have hmem : ∀ e, e ∈ uniquePairs (bothDirections input) ↔ e ∈ input ∨ e.swap ∈ input := fun e => by
    rw [mem_uniquePairs, mem_bothDirections]
  have hune : uniquePairs (bothDirections input) ≠ [] := by
    obtain ⟨e, he⟩ := List.exists_mem_of_ne_nil input hne
    exact List.ne_nil_of_mem ((hmem e).2 (.inl he))
  obtain ⟨sh, m, hperm, hfst, hout⟩ := writeOut_eq hshuffle hune
  rw [length_bothDirections] at hout
  have hnodup := nodup_uniquePairs (bothDirections input)
  have hone := length_uniquePairs_eq_one hne
  generalize uniquePairs (bothDirections input) = u at *
  refine ⟨_, hout, ?_⟩
  generalize hk : (sh.length + 1) / 10 = k
  -- together the files have every unique pair once
  have htogether : (sh.take k ++ [m] ++ sh.drop k).Perm u := by
    refine .trans ?_ hperm
    conv_rhs => rw [← List.take_append_drop k sh]
    rw [List.append_assoc, List.append_assoc]
    exact List.perm_append_comm.append_left _
  obtain ⟨hbase, hdyn, hdisjoint⟩ := List.nodup_append.1 (htogether.nodup_iff.2 hnodup)
  have hall : ∀ e, e ∈ sh.take k ++ [m] ∨ e ∈ sh.drop k ↔ e ∈ u := fun e => by
    rw [← htogether.mem_iff, List.mem_append (s := sh.take k ++ [m])]
  have hmbase : m ∈ sh.take k ++ [m] := List.mem_append_right _ (List.mem_singleton_self m)
  have hmu : m ∈ u := (hall m).1 (.inl hmbase)
  have hle : ∀ e ∈ u, e.1 ≤ m.1 ∧ e.2 ≤ m.1 := fun e he => by
    have hswap : e.swap ∈ u := (hmem _).2 (by simpa [or_comm] using (hmem e).1 he)
    exact ⟨hfst e he, hfst _ hswap⟩
  have hinput : ∀ e ∈ input, e ∈ u ∧ e.swap ∈ u := fun e he =>
    ⟨(hmem e).2 (.inl he), (hmem e.swap).2 (.inr (by rwa [Prod.swap_swap]))⟩
  have hmax : findMaxNodeID input = m.1 := by
    refine findMaxNodeID_eq (fun e he => hle e (hinput e he).1) ?_
    rcases (hmem m).1 hmu with h | h
    · exact ⟨m, h, .inl rfl⟩
    · exact ⟨m.swap, h, .inr rfl⟩
  refine ⟨fun e he he' => hdisjoint e he e he' rfl, ⟨hbase, hdyn⟩, fun e => (hall e).trans (hmem e), ?_, ?_,
    fun e he => ?_, ?_⟩
  · simp only [List.length_append, List.length_take, List.length_singleton, List.length_drop]
    omega
  · rw [hmax]
    exact findMaxNodeID_eq (fun e he => hle e ((hall e).1 (.inl he))) ⟨m, hmbase, .inl rfl⟩
  · rw [hmax]
    exact hle e ((hall e).1 (.inr he))
  · have hlen := hperm.length_eq
    rw [List.length_append, List.length_singleton] at hlen
    rw [← hone, List.drop_eq_nil_iff]
    omega

end Written

section Table

variable {base : List (ℕ × ℕ)} {symmetrize : Bool} {size : ℤ}

/-- No more pairs of ids are different than there are. -/
lemma length_le_of_nodup {l : List (ℕ × ℕ)} (h : l.Nodup) (hids : ∀ e ∈ l, e.1 < 2 ^ 31 ∧ e.2 < 2 ^ 31) :
    l.length ≤ 2 ^ 62 := by
  rw [← List.toFinset_card_of_nodup h]
  have hsub : l.toFinset ⊆ Finset.range (2 ^ 31) ×ˢ Finset.range (2 ^ 31) := fun e he => by
    rw [Finset.mem_product, Finset.mem_range, Finset.mem_range]
    exact hids e (List.mem_toFinset.1 he)
  refine (Finset.card_le_card hsub).trans ?_
  rw [Finset.card_product, Finset.card_range]
  norm_num

/-- For up to `31 * 2 ^ 26` vertices the table has a vertex for every id. -/
lemma tableSize_eq (h2 : 2 ≤ findMaxNodeID base + 1) (hmax : findMaxNodeID base + 1 ≤ 31 * 2 ^ 26)
    (hlen : base.length ≤ 2 ^ 59) (symmetrize : Bool) :
    ∃ size, tableSize symmetrize base = some size ∧ (findMaxNodeID base : ℤ) < size := by
  have hkeep : numNodes base = (findMaxNodeID base + 1 : ℕ) := by
    rw [numNodes, ← Nat.cast_succ]
    exact signed_keep (by norm_num) (hmax.trans_lt (by norm_num))
  have hs := Graph.sizes h2
  have hN := hs.lt_two_pow hmax
  have hfits : Machine.Fits 64 (((if symmetrize then base.length * 2 else base.length) +
      (Graph.computeCapacity (findMaxNodeID base + 1)).2.2 : ℕ) * maxSparseness) := by
    unfold Machine.Fits maxSparseness
    norm_num
    split <;> constructor <;> linarith
  refine ⟨_, ?_, Int.ofNat_lt.2 hs.le⟩
  rw [tableSize, hkeep, Graph.word_setUp_eq h2 hmax hfits]
  rfl

/-- For more vertices their rounded number is negative, or undefined. -/
lemma tableSize_neg (hgt : 31 * 2 ^ 26 < findMaxNodeID base + 1) (hle : findMaxNodeID base + 1 ≤ 2 ^ 31)
    (h : tableSize symmetrize base = some size) : size < 0 := by
  obtain ⟨c, hc, rfl⟩ := Option.map_eq_some_iff.1 h
  rw [numNodes, ← Nat.cast_succ] at hc
  rcases hle.lt_or_eq with hlt | heq
  · rw [signed_keep (by norm_num) hlt] at hc
    rw [Graph.word_setUp_overflow hgt hlt hc]
    norm_num
  · rw [Nat.succ_eq_add_one, heq, show signed 32 ((2 ^ 31 : ℕ) : ℤ) = -2 ^ 31 by decide +kernel,
      Graph.word_setUp_min] at hc
    cases hc

end Table

/-- The two files for an input are a partition exactly if the rounded number of vertices of the base graph fits,
or nothing is left for the dynamic graph. -/
lemma writeOut_iff (hshuffle : ∀ l, (shuffle l).Perm l) (hne : input ≠ [])
    (hids : ∀ e ∈ input, e.1 < 2 ^ 31 ∧ e.2 < 2 ^ 31) :
    (∃ out, writeOut shuffle (input.length * 2) (bothDirections input) = some out ∧ Partition input out) ↔
      findMaxNodeID input + 1 ≤ 31 * 2 ^ 26 ∨ ∃ a, ∀ e ∈ input, e = (a, a) := by
  obtain ⟨out, hout, hdisjoint, hnodup, hunion, hcount, hmax, hbound, hempty⟩ :=
    writeOut_bothDirections hshuffle hne
  constructor
  · rintro ⟨out', hout', hpart⟩
    obtain rfl : out' = out := Option.some.inj (hout'.symm.trans hout)
    rw [or_iff_not_imp_right, ← hempty]
    intro hdyn
    obtain ⟨e, he⟩ := List.exists_mem_of_ne_nil _ hdyn
    obtain ⟨size, hsize, hcover, -⟩ := hpart.table e he false
    by_contra hgt
    have hle : findMaxNodeID input ≤ 2 ^ 31 - 1 := findMaxNodeID_le fun e he => by
      have := hids e he
      omega
    have := tableSize_neg (by rw [hmax]; omega) (by rw [hmax]; omega) hsize
    omega
  · intro hcond
    -- what is left for the dynamic graph means that there are two vertices, and room for them
    have hroom : ∀ e ∈ out.dyn, 2 ≤ findMaxNodeID input + 1 ∧ findMaxNodeID input + 1 ≤ 31 * 2 ^ 26 := by
      intro e he
      rcases hcond with hle | hself
      · refine ⟨?_, hle⟩
        by_contra hone
        have hzero : ∃ a, ∀ e ∈ input, e = (a, a) := ⟨0, fun e he => by
          have := le_findMaxNodeID he
          exact Prod.ext (by omega) (by omega)⟩
        rw [hempty.2 hzero] at he
        cases he
      · rw [hempty.2 hself] at he
        cases he
    have hlen : out.base.length ≤ 2 ^ 59 := by
      have hall : (out.base ++ out.dyn).length ≤ 2 ^ 62 := by
        refine length_le_of_nodup (hnodup.1.append hnodup.2 hdisjoint) fun e he => ?_
        rcases (hunion e).1 (List.mem_append.1 he) with h | h
        · exact hids e h
        · exact (hids e.swap h).symm
      rw [List.length_append] at hall
      omega
    refine ⟨out, hout, hdisjoint, hnodup, hunion, hcount, by rw [hmax]; exact hbound, fun e he => ?_,
      fun e he symmetrize => ?_⟩
    · have hb := hbound e he
      rw [numNodes, hmax, ← Nat.cast_succ,
        signed_keep (by norm_num) ((hroom e he).2.trans_lt (by norm_num))]
      omega
    · have hb := hbound e he
      obtain ⟨size, hsize, hlt⟩ : ∃ size, tableSize symmetrize out.base = some size ∧
          (findMaxNodeID out.base : ℤ) < size :=
        tableSize_eq (by rw [hmax]; exact (hroom e he).1) (by rw [hmax]; exact (hroom e he).2) hlen symmetrize
      rw [hmax] at hlt
      exact ⟨size, hsize, by omega, by omega⟩

end Preprocess

end Dgap
