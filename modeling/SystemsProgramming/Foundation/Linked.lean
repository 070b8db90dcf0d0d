import Mathlib.Data.List.Nodup
import Mathlib.Data.List.Perm.Subperm
import Mathlib.Tactic.SplitIfs

/-! Doubly linked lists. The nodes are in a memory `load`, the links are two fields of a node, and
`Linked` says that these fields follow a list of addresses. Each edit of such a list is stated by
what it does to the links: a node keeps them but for those that the edit moves. -/

namespace SystemsProgramming

/-- The entry before the one at an index. -/
def before (l : List ℕ) : ℕ → Option ℕ
  | 0 => none
  | i + 1 => l[i]?

variable {α : Type*}

def Linked (load : ℕ → Option α) (next prev : α → Option ℕ) (l : List ℕ) : Prop :=
  ∀ i p, l[i]? = some p → ∃ a, load p = some a ∧ next a = l[i + 1]? ∧ prev a = before l i

/-- The node that is some number of links behind another one. -/
def follow (load : ℕ → Option α) (next : α → Option ℕ) : ℕ → ℕ → Option α
  | 0, p => load p
  | k + 1, p => (load p).bind fun a => (next a).bind (follow load next k)

namespace Linked

variable {load load' : ℕ → Option α} {next prev : α → Option ℕ} {l : List ℕ}

theorem nil : Linked load next prev [] := fun i p hi => by cases hi

theorem before_eq (h : Linked load next prev l) {i j p : ℕ} (hi : l[i]? = some p)
    (hj : l[j]? = some p) : before l i = before l j := by
  obtain ⟨a, ha, -, hprev⟩ := h i p hi
  obtain ⟨b, hb, -, hprev'⟩ := h j p hj
  obtain rfl : a = b := Option.some.inj (ha.symm.trans hb)
  exact hprev.symm.trans hprev'

theorem getElem?_pred {i p : ℕ} (h : l[i + 1]? = some p) : ∃ q, l[i]? = some q := by
  have hlt := (List.getElem?_eq_some_iff.mp h).1
  exact ⟨_, List.getElem?_eq_getElem (Nat.lt_of_succ_lt hlt)⟩

/-- The back links determine the index of a node. -/
theorem index_eq (h : Linked load next prev l) {i j p : ℕ} (hi : l[i]? = some p)
    (hj : l[j]? = some p) : i = j := by
  have hbefore := h.before_eq hi hj
  induction i generalizing j p with
  | zero =>
    cases j with
    | zero => rfl
    | succ j =>
      obtain ⟨q, hq⟩ := getElem?_pred hj
      cases hbefore.trans hq
  | succ i ih =>
    obtain ⟨q, hq⟩ := getElem?_pred hi
    cases j with
    | zero => cases hbefore.symm.trans hq
    | succ j =>
      have hq' : l[j]? = some q := hbefore.symm.trans hq
      rw [ih hq hq' (h.before_eq hq hq')]

theorem nodup (h : Linked load next prev l) : l.Nodup := by
  rw [List.nodup_iff_getElem?_ne_getElem?]
  intro i j hij hj heq
  obtain ⟨p, hp⟩ : ∃ p, l[j]? = some p := ⟨_, List.getElem?_eq_getElem hj⟩
  exact Nat.ne_of_lt hij (h.index_eq (heq.trans hp) hp)

theorem exists_load (h : Linked load next prev l) {p : ℕ} (hp : p ∈ l) : ∃ a, load p = some a := by
  obtain ⟨i, hi⟩ := List.mem_iff_getElem?.mp hp
  obtain ⟨a, ha, -⟩ := h i p hi
  exact ⟨a, ha⟩

/-- The nodes that a node refers to are in the list, and it is none of them. -/
theorem next_mem (h : Linked load next prev l) {i p q : ℕ} {a : α} (hi : l[i]? = some p)
    (ha : load p = some a) (hq : next a = some q) : q ∈ l ∧ q ≠ p := by
  obtain ⟨b, hb, hnext, -⟩ := h i p hi
  obtain rfl := Option.some.inj (ha.symm.trans hb)
  rw [hnext] at hq
  refine ⟨List.mem_of_getElem? hq, ?_⟩
  rintro rfl
  exact Nat.succ_ne_self i (h.index_eq hq hi)

theorem prev_mem (h : Linked load next prev l) {i p q : ℕ} {a : α} (hi : l[i]? = some p)
    (ha : load p = some a) (hq : prev a = some q) : q ∈ l ∧ q ≠ p := by
  obtain ⟨b, hb, -, hprev⟩ := h i p hi
  obtain rfl := Option.some.inj (ha.symm.trans hb)
  rw [hprev] at hq
  cases i with
  | zero => cases hq
  | succ i =>
    refine ⟨List.mem_of_getElem? hq, ?_⟩
    rintro rfl
    exact Nat.succ_ne_self i (h.index_eq hi hq)

/-- The first node when one of them has been taken out. -/
theorem head?_eraseIdx (h : Linked load next prev l) {i p : ℕ} {a : α} (hi : l[i]? = some p)
    (ha : load p = some a) :
    (l.eraseIdx i).head? = if l.head? = some p then next a else l.head? := by
  obtain ⟨b, hb, hnext, -⟩ := h i p hi
  obtain rfl := Option.some.inj (ha.symm.trans hb)
  rw [List.head?_eq_getElem?, List.head?_eq_getElem?, List.getElem?_eraseIdx]
  cases i with
  | zero => rw [if_pos hi, if_neg (Nat.lt_irrefl 0), hnext]
  | succ i =>
    have hne : ¬l[0]? = some p := fun h0 => Nat.succ_ne_zero i (h.index_eq hi h0)
    rw [if_neg hne, if_pos (Nat.succ_pos i)]

/-- A list in a memory has no more nodes than there are addresses in use. -/
theorem length_le (h : Linked load next prev l) {n : ℕ} (hn : ∀ p a, load p = some a → p < n) :
    l.length ≤ n := by
  have hsub : l ⊆ List.range n := fun p hp => by
    obtain ⟨i, hi⟩ := List.mem_iff_getElem?.mp hp
    obtain ⟨a, ha, -⟩ := h i p hi
    exact List.mem_range.mpr (hn p a ha)
  have hlen := (h.nodup.subperm hsub).length_le
  rwa [List.length_range] at hlen

theorem follow_eq (h : Linked load next prev l) {i p : ℕ} (hi : l[i]? = some p) (k : ℕ) :
    follow load next k p = l[i + k]?.bind load := by
  induction k generalizing i p with
  | zero => rw [Nat.add_zero, hi]; rfl
  | succ k ih =>
    obtain ⟨a, ha, hnext, -⟩ := h i p hi
    rw [follow, ha, Option.bind_some, hnext]
    cases hq : l[i + 1]? with
    | none =>
      have hle := List.getElem?_eq_none_iff.mp hq
      rw [List.getElem?_eq_none (by omega)]
      rfl
    | some q =>
      rw [Option.bind_some, ih hq]
      exact congrArg (fun n => l[n]?.bind load) (by omega)

/-- A node's successor has it as its predecessor. -/
theorem next_iff (h : Linked load next prev l) {i j p q : ℕ} {a b : α} (hi : l[i]? = some p)
    (hj : l[j]? = some q) (ha : load p = some a) (hb : load q = some b) :
    next b = some p ↔ prev a = some q := by
  obtain ⟨a', ha', -, hprev⟩ := h i p hi
  obtain ⟨b', hb', hnext, -⟩ := h j q hj
  obtain rfl : a = a' := Option.some.inj (ha.symm.trans ha')
  obtain rfl : b = b' := Option.some.inj (hb.symm.trans hb')
  rw [hnext, hprev]
  constructor
  · intro hp
    rw [h.index_eq hi hp, before, hj]
  · intro hq
    cases i with
    | zero => cases hq
    | succ i => rw [h.index_eq hj hq, hi]

/-- What is behind a node does not have it. -/
theorem not_mem_drop (h : Linked load next prev l) {k q : ℕ} (hq : l[k]? = some q) :
    q ∉ l.drop (k + 1) := fun hmem => by
  obtain ⟨j, hj⟩ := List.mem_iff_getElem?.mp hmem
  rw [List.getElem?_drop] at hj
  have := h.index_eq hq hj
  omega

/-- The nodes behind one of them, from the end backwards. -/
theorem prev_reverse (h : Linked load next prev l) {k q : ℕ} (hq : l[k]? = some q) {i p : ℕ} {a : α}
    (hp : (l.drop (k + 1)).reverse[i]? = some p) (ha : load p = some a) :
    prev a = some ((l.drop (k + 1)).reverse[i + 1]?.getD q) := by
  have hlt := (List.getElem?_eq_some_iff.mp hp).1
  rw [List.length_reverse, List.length_drop] at hlt
  rw [List.getElem?_reverse (by rwa [List.length_drop]), List.length_drop, List.getElem?_drop] at hp
  obtain ⟨b, hb, -, hprev⟩ := h _ p hp
  obtain rfl := Option.some.inj (hb.symm.trans ha)
  have hindex : k + 1 + (l.length - (k + 1) - 1 - i) = l.length - 2 - i + 1 := by omega
  rw [hindex, before] at hprev
  by_cases hend : i + 1 < l.length - (k + 1)
  · obtain ⟨r, hr⟩ : ∃ r, l[l.length - 2 - i]? = some r :=
      ⟨_, List.getElem?_eq_getElem (by omega)⟩
    have hindex' : k + 1 + (l.length - (k + 1) - 1 - (i + 1)) = l.length - 2 - i := by omega
    rw [List.getElem?_reverse (by rwa [List.length_drop]), List.length_drop, List.getElem?_drop,
      hindex', hprev, hr]
    rfl
  · have hk : l.length - 2 - i = k := by omega
    have hnone : (l.drop (k + 1)).reverse[i + 1]? = none := by
      rw [List.getElem?_eq_none_iff, List.length_reverse, List.length_drop]
      omega
    rw [hnone, hprev, hk, hq]
    rfl

/-- The links are all that matters of a node. -/
theorem congr (h : Linked load next prev l)
    (hnode : ∀ p ∈ l, ∀ a, load p = some a → ∃ b, load' p = some b ∧ next b = next a ∧
      prev b = prev a) : Linked load' next prev l := by
  intro i p hi
  obtain ⟨a, ha, hnext, hprev⟩ := h i p hi
  obtain ⟨b, hb, hnext', hprev'⟩ := hnode p (List.mem_of_getElem? hi) a ha
  exact ⟨b, hb, hnext'.trans hnext, hprev'.trans hprev⟩

/-- A node is put in front: the old first node gets a back link. -/
theorem push {p : ℕ} {a : α} (h : Linked load next prev l) (hp : load' p = some a)
    (hnext : next a = l.head?) (hprev : prev a = none)
    (hnode : ∀ q ∈ l, ∀ b, load q = some b → ∃ b', load' q = some b' ∧ next b' = next b ∧
      prev b' = if l.head? = some q then some p else prev b) :
    Linked load' next prev (p :: l) := by
  intro i q hi
  cases i with
  | zero =>
    obtain rfl : p = q := Option.some.inj hi
    exact ⟨a, hp, by rw [hnext, List.head?_eq_getElem?]; rfl, hprev⟩
  | succ i =>
    rw [List.getElem?_cons_succ] at hi
    obtain ⟨b, hb, hbnext, hbprev⟩ := h i q hi
    obtain ⟨b', hb', hbnext', hbprev'⟩ := hnode q (List.mem_of_getElem? hi) b hb
    refine ⟨b', hb', hbnext'.trans hbnext, hbprev'.trans ?_⟩
    rw [List.head?_eq_getElem?]
    cases i with
    | zero => rw [if_pos hi]; rfl
    | succ i =>
      rw [if_neg fun h0 => Nat.succ_ne_zero i (h.index_eq hi h0), hbprev]
      rfl

/-- A node is taken out: the links to it go to its neighbours. -/
theorem eraseIdx {i p : ℕ} {a : α} (h : Linked load next prev l) (hi : l[i]? = some p)
    (hp : load p = some a)
    (hnode : ∀ q ∈ l, q ≠ p → ∀ b, load q = some b → ∃ b', load' q = some b' ∧
      next b' = (if next b = some p then next a else next b) ∧
      prev b' = if prev b = some p then prev a else prev b) :
    Linked load' next prev (l.eraseIdx i) := by
  obtain ⟨a', ha', hanext, haprev⟩ := h i p hi
  obtain rfl : a = a' := Option.some.inj (hp.symm.trans ha')
  intro j q hj
  rw [List.getElem?_eraseIdx] at hj
  split_ifs at hj with hlt
  · -- a node before it
    have hne : q ≠ p := fun hqp => Nat.ne_of_lt hlt (h.index_eq hj (hqp ▸ hi))
    obtain ⟨b, hb, hbnext, hbprev⟩ := h j q hj
    obtain ⟨b', hb', hbnext', hbprev'⟩ := hnode q (List.mem_of_getElem? hj) hne b hb
    refine ⟨b', hb', ?_, ?_⟩
    · rw [hbnext', hbnext, List.getElem?_eraseIdx]
      by_cases hsucc : j + 1 = i
      · rw [hsucc, if_pos hi, hanext, if_neg (Nat.lt_irrefl i)]
      · rw [if_neg fun hjp => hsucc (h.index_eq hjp hi), if_pos (by omega)]
    · rw [hbprev', hbprev]
      cases j with
      | zero => rfl
      | succ j =>
        have hjp : ¬before l (j + 1) = some p := fun hjp => by
          have := h.index_eq hjp hi
          omega
        rw [if_neg hjp, before, before, List.getElem?_eraseIdx, if_pos (by omega)]
  · -- a node after it
    have hne : q ≠ p := fun hqp => by
      have := h.index_eq hj (hqp ▸ hi)
      omega
    obtain ⟨b, hb, hbnext, hbprev⟩ := h (j + 1) q hj
    obtain ⟨b', hb', hbnext', hbprev'⟩ := hnode q (List.mem_of_getElem? hj) hne b hb
    refine ⟨b', hb', ?_, ?_⟩
    · have hjp : ¬l[j + 1 + 1]? = some p := fun hjp => by
        have := h.index_eq hjp hi
        omega
      rw [hbnext', hbnext, if_neg hjp, List.getElem?_eraseIdx, if_neg (by omega)]
    · rw [hbprev', hbprev, before]
      by_cases hij : j = i
      · rw [hij, if_pos hi, haprev]
        cases i with
        | zero => rfl
        | succ i => rw [before, before, List.getElem?_eraseIdx, if_pos (Nat.lt_succ_self i)]
      · rw [if_neg fun hjp => hij (h.index_eq hjp hi)]
        cases j with
        | zero => omega
        | succ j => rw [before, List.getElem?_eraseIdx, if_neg (by omega)]

/-- A node is added at the end. -/
theorem append {p : ℕ} {a : α} (h : Linked load next prev l) (hp : load' p = some a)
    (hnext : next a = none) (hprev : prev a = l.getLast?)
    (hnode : ∀ q ∈ l, ∀ b, load q = some b → ∃ b', load' q = some b' ∧ prev b' = prev b ∧
      next b' = if l.getLast? = some q then some p else next b) :
    Linked load' next prev (l ++ [p]) := by
  have hlast : ∀ i, before (l ++ [p]) i = if i ≤ l.length then before l i else before (l ++ [p]) i := by
    intro i
    split_ifs with hle
    · cases i with
      | zero => rfl
      | succ i => rw [before, before, List.getElem?_append_left hle]
    · rfl
  intro i q hi
  rcases Nat.lt_or_ge i l.length with hlt | hge
  · rw [List.getElem?_append_left hlt] at hi
    obtain ⟨b, hb, hbnext, hbprev⟩ := h i q hi
    obtain ⟨b', hb', hbprev', hbnext'⟩ := hnode q (List.mem_of_getElem? hi) b hb
    refine ⟨b', hb', ?_, ?_⟩
    · rw [hbnext', hbnext, List.getLast?_eq_getElem?]
      by_cases hend : i + 1 = l.length
      · have hi' : l[l.length - 1]? = some q := by rw [← hend, Nat.add_sub_cancel, hi]
        rw [if_pos hi', hend, List.getElem?_append_right (Nat.le_refl _)]
        simp
      · have hne : ¬l[l.length - 1]? = some q := fun hq => by
          have := h.index_eq hi hq
          omega
        rw [if_neg hne, List.getElem?_append_left (by omega)]
    · rw [hbprev', hbprev, hlast, if_pos (Nat.le_of_lt hlt)]
  · have hlen := (List.getElem?_eq_some_iff.mp hi).1
    rw [List.length_append, List.length_singleton] at hlen
    obtain rfl : i = l.length := by omega
    rw [List.getElem?_append_right (Nat.le_refl _)] at hi
    obtain rfl : p = q := by simpa using hi
    refine ⟨a, hp, ?_, ?_⟩
    · rw [hnext, List.getElem?_eq_none (by simp)]
    · rw [hprev, hlast, if_pos (Nat.le_refl _), List.getLast?_eq_getElem?]
      cases hl : l.length with
      | zero => rw [List.getElem?_eq_none (by omega)]; rfl
      | succ n => rfl

/-- The list is cut off behind a node. -/
theorem take {i p : ℕ} (h : Linked load next prev l) (hi : l[i]? = some p)
    (hnode : ∀ q ∈ l.take (i + 1), ∀ b, load q = some b → ∃ b', load' q = some b' ∧
      prev b' = prev b ∧ next b' = if q = p then none else next b) :
    Linked load' next prev (l.take (i + 1)) := by
  intro j q hj
  have hlt : j < i + 1 := by
    have := (List.getElem?_eq_some_iff.mp hj).1
    rw [List.length_take] at this
    omega
  obtain ⟨b, hb, hbnext, hbprev⟩ := h j q (by rwa [List.getElem?_take_of_lt hlt] at hj)
  obtain ⟨b', hb', hbprev', hbnext'⟩ := hnode q (List.mem_of_getElem? hj) b hb
  rw [List.getElem?_take_of_lt hlt] at hj
  refine ⟨b', hb', ?_, ?_⟩
  · rw [hbnext', hbnext, List.getElem?_take]
    by_cases hji : j = i
    · have hqp : q = p := Option.some.inj (hj.symm.trans (hji ▸ hi))
      rw [if_pos hqp, if_neg (by omega)]
    · have hne : ¬q = p := fun hqp => hji (h.index_eq hj (hqp ▸ hi))
      rw [if_neg hne, if_pos (by omega)]
  · rw [hbprev', hbprev]
    cases j with
    | zero => rfl
    | succ j => rw [before, before, List.getElem?_take_of_lt (by omega)]

end Linked

end SystemsProgramming
