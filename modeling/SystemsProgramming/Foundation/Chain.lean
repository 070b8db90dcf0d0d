import SystemsProgramming.Foundation.Loop
import Mathlib.Data.List.Nodup
import Mathlib.Logic.Function.Basic

/-! Singly linked lists. `next` is the field of a node that holds the link, and `Chain` says that the
links lead from a pointer through a list of nodes to the end. A search along the links keeps the node
before the current one, as taking a node out needs it. -/

namespace SystemsProgramming

variable {α : Type*}

def Chain (next : α → Option α) : Option α → List α → Prop
  | o, [] => o = none
  | o, p :: l => o = some p ∧ Chain next (next p) l

namespace Chain

variable {next next' : α → Option α} {o : Option α} {l l' : List α} {p q : α}

theorem unique (h : Chain next o l) (h' : Chain next o l') : l = l' := by
  induction l generalizing o l' with
  | nil =>
    cases l' with
    | nil => rfl
    | cons q l' => cases h.symm.trans h'.1
  | cons p l ih =>
    cases l' with
    | nil => cases h.1.symm.trans h'
    | cons q l' =>
      obtain rfl := Option.some.inj (h.1.symm.trans h'.1)
      rw [ih h.2 h'.2]

theorem congr (h : Chain next o l) (hnext : ∀ p ∈ l, next' p = next p) : Chain next' o l := by
  induction l generalizing o with
  | nil => exact h
  | cons p l ih =>
    refine ⟨h.1, ?_⟩
    rw [hnext p List.mem_cons_self]
    exact ih h.2 fun q hq => hnext q (List.mem_cons_of_mem p hq)

theorem suffix {l₁ : List α} (h : Chain next o (l₁ ++ p :: l)) : Chain next (some p) (p :: l) := by
  induction l₁ generalizing o with
  | nil => exact ⟨rfl, h.2⟩
  | cons q l₁ ih => exact ih h.2

/-- A list that comes to an end has no node twice. -/
theorem nodup (h : Chain next o l) : l.Nodup := by
  induction l generalizing o with
  | nil => exact List.nodup_nil
  | cons p l ih =>
    refine List.nodup_cons.mpr ⟨fun hp => ?_, ih h.2⟩
    obtain ⟨l₁, l₂, rfl⟩ := List.append_of_mem hp
    have heq := congrArg List.length (unique h.2.suffix.2 h.2)
    rw [List.length_append, List.length_cons] at heq
    omega

variable [DecidableEq α]

/-- A node is put in front. -/
theorem push (h : Chain next o l) (hp : p ∉ l) : Chain (Function.update next p o) (some p) (p :: l) := by
  refine ⟨rfl, ?_⟩
  rw [Function.update_self]
  exact h.congr fun q hq => Function.update_of_ne (by rintro rfl; exact hp hq) ..

/-- The node behind `q` is taken out. -/
theorem remove {l₁ : List α} (h : Chain next o (l₁ ++ q :: p :: l)) :
    Chain (Function.update next q (next p)) o (l₁ ++ q :: l) := by
  have hnodup := h.nodup
  induction l₁ generalizing o with
  | nil =>
    refine ⟨h.1, ?_⟩
    rw [Function.update_self]
    have hq := (List.nodup_cons.mp hnodup).1
    refine h.2.2.congr fun r hr => Function.update_of_ne ?_ ..
    rintro rfl
    exact hq (List.mem_cons_of_mem p hr)
  | cons r l₁ ih =>
    obtain ⟨hr, hnodup⟩ := List.nodup_cons.mp hnodup
    refine ⟨h.1, ?_⟩
    rw [Function.update_of_ne (by rintro rfl; simp at hr)]
    exact ih h.2 hnodup

/-- A node outside of a list may change its link. -/
theorem update (h : Chain next o l) (hp : p ∉ l) (o' : Option α) :
    Chain (Function.update next p o') o l :=
  h.congr fun q hq => Function.update_of_ne (by rintro rfl; exact hp hq) ..

end Chain

/-! ### Searching -/

section
variable (next : α → Option α) (found : α → Bool)

/-- The body of a search, with the node before the current one and the current one. -/
def searchStep : Option α × Option α → Option (Ctl (Option α × Option α))
  | (prev, none) => some (.done (prev, none))
  | (prev, some p) =>
    if found p then some (.done (prev, some p)) else some (.again (some p, next p))

variable {next found} {o : Option α} {l₁ l₂ : List α} {p : α}

theorem iterate_search_none {l : List α} (h : Chain next o l) (hl : ∀ p ∈ l, found p = false) {n : ℕ}
    (hn : l.length < n) (prev : Option α) :
    ∃ prev', iterate (searchStep next found) n (prev, o) = some (prev', none) := by
  induction l generalizing o n prev with
  | nil =>
    obtain rfl : o = none := h
    cases n with
    | zero => exact absurd hn (Nat.not_lt_zero _)
    | succ n => exact ⟨prev, rfl⟩
  | cons p l ih =>
    obtain ⟨rfl, h⟩ := h
    cases n with
    | zero => exact absurd hn (Nat.not_lt_zero _)
    | succ n =>
      have hp := hl p List.mem_cons_self
      obtain ⟨prev', hprev'⟩ := ih h (fun q hq => hl q (List.mem_cons_of_mem p hq))
        (Nat.lt_of_succ_lt_succ hn) (some p)
      refine ⟨prev', ?_⟩
      simp only [iterate, searchStep, hp, Bool.false_eq_true, if_false, Option.bind_some]
      exact hprev'

/-- The first node that is looked for is found, with the node before it. -/
theorem iterate_search_some (h : Chain next o (l₁ ++ p :: l₂)) (hl : ∀ q ∈ l₁, found q = false)
    (hp : found p = true) {n : ℕ} (hn : l₁.length < n) (prev : Option α) :
    iterate (searchStep next found) n (prev, o) =
      some (if l₁ = [] then prev else l₁.getLast?, some p) := by
  induction l₁ generalizing o n prev with
  | nil =>
    obtain ⟨rfl, -⟩ := h
    cases n with
    | zero => exact absurd hn (Nat.not_lt_zero _)
    | succ n =>
      simp only [iterate, searchStep, hp, if_true, Option.bind_some]
  | cons q l₁ ih =>
    obtain ⟨rfl, h⟩ := h
    cases n with
    | zero => exact absurd hn (Nat.not_lt_zero _)
    | succ n =>
      have hq := hl q List.mem_cons_self
      have hrest := ih h (fun r hr => hl r (List.mem_cons_of_mem q hr)) (Nat.lt_of_succ_lt_succ hn) (some q)
      simp only [iterate, searchStep, hq, Bool.false_eq_true, if_false, Option.bind_some]
      rw [hrest]
      cases l₁ with
      | nil => rfl
      | cons r l₁ => simp [List.getLast?_cons_cons]

end

end SystemsProgramming
