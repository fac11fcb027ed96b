import Mathlib

/-!
# Unrolled linked lists in a heap

An unrolled list keeps its elements in nodes of a fixed size that are linked by the addresses of their
successors: element `j` is at position `j % size` of node `j / size`, and only the last node may be partly
filled. `Unrolled size values next null heap nodes l` says that the nodes at the addresses `nodes`, in this
order, hold exactly `l`. Storing behind the last element of a partly filled last node (`push`), or in a
new node that is linked to the last one (`grow`), appends an element; changing anything but the nodes of a
list leaves it alone (`frame`).
-/

namespace Memory

variable {ι α β : Type*} {size : ℕ} {values : β → ℕ → α} {next : β → ι} {null : ι}
  {heap heap' : ι → Option β} {nodes : List ι} {l : List α}

/-- The nodes at the addresses `nodes` hold exactly `l`. -/
structure Unrolled (size : ℕ) (values : β → ℕ → α) (next : β → ι) (null : ι) (heap : ι → Option β)
    (nodes : List ι) (l : List α) : Prop where
  length : nodes.length = (l.length + size - 1) / size
  nodup : nodes.Nodup
  live : ∀ o ∈ nodes, ∃ b, heap o = some b
  value : ∀ j x, l[j]? = some x → ∃ o b, nodes[j / size]? = some o ∧ heap o = some b ∧
    values b (j % size) = x
  link : ∀ k o b, nodes[k]? = some o → heap o = some b → next b = nodes.getD (k + 1) null

/-- A number of elements that does not fill its nodes. -/
lemma ceil_of_mod_ne {n size : ℕ} (hs : 0 < size) (h : n % size ≠ 0) :
    (n + size - 1) / size = n / size + 1 := by
  have hn := Nat.div_add_mod n size
  have hr := Nat.mod_lt n hs
  generalize n / size = q at *
  generalize n % size = r at *
  subst hn
  rw [show size * q + r + size - 1 = (r - 1) + size * (q + 1) by rw [Nat.mul_succ]; omega,
    Nat.add_mul_div_left _ _ hs, Nat.div_eq_of_lt (by omega), Nat.zero_add]

/-- A number of elements that fills its nodes. -/
lemma ceil_of_mod_eq {n size : ℕ} (hs : 0 < size) (h : n % size = 0) :
    (n + size - 1) / size = n / size := by
  obtain ⟨q, rfl⟩ := Nat.dvd_of_mod_eq_zero h
  rw [Nat.mul_div_cancel_left _ hs, show size * q + size - 1 = (size - 1) + size * q by omega,
    Nat.add_mul_div_left _ _ hs, Nat.div_eq_of_lt (by omega), Nat.zero_add]

/-- One more element in a partly filled node needs no further node. -/
lemma ceil_succ {n size : ℕ} (hs : 0 < size) (h : n % size ≠ 0) :
    (n + 1 + size - 1) / size = (n + size - 1) / size := by
  rw [ceil_of_mod_ne hs h, Nat.add_right_comm, Nat.add_sub_cancel, Nat.add_div_right _ hs]

namespace Unrolled

/-- Without an element there is no node. -/
lemma nil (hs : 0 < size) : Unrolled size values next null heap [] [] := by
  refine ⟨?_, List.nodup_nil, by simp, by simp, by simp⟩
  rw [List.length_nil, List.length_nil, Nat.zero_add, Nat.div_eq_of_lt (by omega)]

/-- A list depends on its nodes only. -/
lemma frame (h : Unrolled size values next null heap nodes l) (e : ∀ o ∈ nodes, heap' o = heap o) :
    Unrolled size values next null heap' nodes l := by
  refine ⟨h.length, h.nodup, fun o ho => ?_, fun j x hx => ?_, fun k o b ho hb => ?_⟩
  · rw [e o ho]
    exact h.live o ho
  · obtain ⟨o, b, h1, h2, h3⟩ := h.value j x hx
    exact ⟨o, b, h1, by rw [e o (List.mem_of_getElem? h1), h2], h3⟩
  · rw [e o (List.mem_of_getElem? ho)] at hb
    exact h.link k o b ho hb

/-- Without a node there is no element. -/
lemma nodes_eq_nil (h : Unrolled size values next null heap nodes l) (hs : 0 < size) :
    nodes = [] ↔ l = [] := by
  rw [← List.length_eq_zero_iff, ← List.length_eq_zero_iff, h.length, Nat.div_eq_zero_iff]
  omega

/-- The last node is partly filled. -/
lemma length_partial (h : Unrolled size values next null heap nodes l) (hs : 0 < size)
    (hl : l.length % size ≠ 0) : nodes.length = l.length / size + 1 := by
  rw [h.length, ceil_of_mod_ne hs hl]

/-- All nodes are filled. -/
lemma length_full (h : Unrolled size values next null heap nodes l) (hs : 0 < size)
    (hl : l.length % size = 0) : nodes.length = l.length / size := by
  rw [h.length, ceil_of_mod_eq hs hl]

variable [DecidableEq ι]

/-- Storing an element in a partly filled last node. -/
lemma push (h : Unrolled size values next null heap nodes l) (hs : 0 < size)
    (hl : l.length % size ≠ 0) {o : ι} (ho : nodes.getLast? = some o) {b b' : β}
    (hb : heap o = some b) (x : α) (hx : values b' (l.length % size) = x)
    (hold : ∀ k, k < l.length % size → values b' k = values b k) (hnext : next b' = next b) :
    Unrolled size values next null (Function.update heap o (some b')) nodes (l ++ [x]) := by
  have hlast := h.length_partial hs hl
  have hidx : nodes[l.length / size]? = some o := by
    rw [List.getLast?_eq_getElem?, hlast] at ho
    exact ho
  refine ⟨?_, h.nodup, fun o' ho' => ?_, fun j y hy => ?_, fun k o' b'' ho' hb'' => ?_⟩
  · rw [List.length_append, List.length_singleton, ceil_succ hs hl]
    exact h.length
  · by_cases he : o' = o
    · subst he
      exact ⟨b', Function.update_self ..⟩
    · rw [Function.update_of_ne he]
      exact h.live o' ho'
  · rcases lt_trichotomy j l.length with hj | rfl | hj
    · rw [List.getElem?_append_left hj] at hy
      obtain ⟨o', c, h1, h2, h3⟩ := h.value j y hy
      by_cases he : o' = o
      · -- an element of the last node is below the new one
        subst he
        obtain rfl : c = b := Option.some.inj (h2.symm.trans hb)
        have hjk : j / size = l.length / size :=
          (List.getElem?_inj (List.getElem?_eq_some_iff.1 h1).1 h.nodup).1 (h1.trans hidx.symm)
        have h4 := Nat.div_add_mod j size
        have h5 := Nat.div_add_mod l.length size
        rw [hjk] at h4
        exact ⟨o', b', h1, Function.update_self .., by rw [hold _ (by omega), h3]⟩
      · exact ⟨o', c, h1, by rw [Function.update_of_ne he, h2], h3⟩
    · rw [List.getElem?_append_right (le_refl _), Nat.sub_self] at hy
      obtain rfl := Option.some.inj hy
      exact ⟨o, b', hidx, Function.update_self .., hx⟩
    · rw [List.getElem?_eq_none (by simp; omega)] at hy
      cases hy
  · by_cases he : o' = o
    · subst he
      rw [Function.update_self] at hb''
      obtain rfl := Option.some.inj hb''
      rw [hnext]
      exact h.link k o' b ho' hb
    · rw [Function.update_of_ne he] at hb''
      exact h.link k o' b'' ho' hb''

omit [DecidableEq ι] in
/-- Appending an element in a new node that is linked to the last one. -/
lemma grow (h : Unrolled size values next null heap nodes l) (hs : 0 < size)
    (hl : l.length % size = 0) {o : ι} {b : β} (ho : o ∉ nodes) (hb : heap' o = some b) {x : α}
    (hx : values b 0 = x) (hnext : next b = null)
    (hframe : ∀ p ∈ nodes, nodes.getLast? ≠ some p → heap' p = heap p)
    (hlink : ∀ p c, nodes.getLast? = some p → heap p = some c →
      ∃ c', heap' p = some c' ∧ values c' = values c ∧ next c' = o) :
    Unrolled size values next null heap' (nodes ++ [o]) (l ++ [x]) := by
  have hlen := h.length_full hs hl
  -- the nodes there are keep their elements
  have hkeep : ∀ p ∈ nodes, ∀ c, heap p = some c → ∃ c', heap' p = some c' ∧ values c' = values c := by
    intro p hp c hc
    by_cases hlast : nodes.getLast? = some p
    · obtain ⟨c', h1, h2, -⟩ := hlink p c hlast hc
      exact ⟨c', h1, h2⟩
    · exact ⟨c, by rw [hframe p hp hlast, hc], rfl⟩
  refine ⟨?_, ?_, fun p hp => ?_, fun j y hy => ?_, fun k p c hp hc => ?_⟩
  · rw [List.length_append, List.length_append, List.length_singleton, List.length_singleton, hlen,
      Nat.add_right_comm, Nat.add_sub_cancel, Nat.add_div_right _ hs]
  · exact h.nodup.append (List.nodup_singleton o) (List.disjoint_singleton.2 ho)
  · rcases List.mem_append.1 hp with hp | hp
    · obtain ⟨c, hc⟩ := h.live p hp
      obtain ⟨c', hc', -⟩ := hkeep p hp c hc
      exact ⟨c', hc'⟩
    · rw [List.mem_singleton.1 hp]
      exact ⟨b, hb⟩
  · rcases lt_trichotomy j l.length with hj | rfl | hj
    · rw [List.getElem?_append_left hj] at hy
      obtain ⟨p, c, h1, h2, h3⟩ := h.value j y hy
      obtain ⟨c', h4, h5⟩ := hkeep p (List.mem_of_getElem? h1) c h2
      refine ⟨p, c', ?_, h4, by rw [h5, h3]⟩
      rw [List.getElem?_append_left (List.getElem?_eq_some_iff.1 h1).1, h1]
    · rw [List.getElem?_append_right (le_refl _), Nat.sub_self] at hy
      obtain rfl := Option.some.inj hy
      refine ⟨o, b, ?_, hb, by rw [hl, hx]⟩
      rw [← hlen, List.getElem?_append_right (le_refl _), Nat.sub_self]
      rfl
    · rw [List.getElem?_eq_none (by simp; omega)] at hy
      cases hy
  · rcases lt_trichotomy k nodes.length with hk | rfl | hk
    · rw [List.getElem?_append_left hk] at hp
      by_cases hlast : nodes.getLast? = some p
      · -- the last node is linked to the new one
        have hk' : k = nodes.length - 1 := by
          rw [List.getLast?_eq_getElem?] at hlast
          exact (List.getElem?_inj hk h.nodup).1 (hp.trans hlast.symm)
        obtain ⟨c0, hc0⟩ := h.live p (List.mem_of_getElem? hp)
        obtain ⟨c', h1, -, h2⟩ := hlink p c0 hlast hc0
        obtain rfl : c' = c := Option.some.inj (h1.symm.trans hc)
        rw [h2, show k + 1 = nodes.length by omega, List.getD_eq_getElem?_getD,
          List.getElem?_append_right (le_refl _), Nat.sub_self]
        rfl
      · rw [hframe p (List.mem_of_getElem? hp) hlast] at hc
        have hk' : k + 1 < nodes.length := by
          by_contra hge
          apply hlast
          rw [List.getLast?_eq_getElem?, show nodes.length - 1 = k by omega, hp]
        rw [h.link k p c hp hc, List.getD_eq_getElem?_getD, List.getD_eq_getElem?_getD,
          List.getElem?_append_left hk']
    · rw [List.getElem?_append_right (le_refl _), Nat.sub_self] at hp
      obtain rfl := Option.some.inj hp
      obtain rfl : b = c := Option.some.inj (hb.symm.trans hc)
      rw [hnext, List.getD_eq_getElem?_getD, List.getElem?_eq_none (by simp)]
      rfl
    · rw [List.getElem?_eq_none (by simp; omega)] at hp
      cases hp

end Unrolled

end Memory
