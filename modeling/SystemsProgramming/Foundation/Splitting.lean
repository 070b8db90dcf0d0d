import Mathlib.Data.List.Infix

/-! Lists cut at certain elements. Whether an element is a cut depends on the part of the piece before
it; the pieces are determined by this, and they exist. -/

namespace SystemsProgramming

variable {α : Type*}

/-- What holds of each element of a list and the part before it. -/
def Throughout (P : List α → α → Prop) (p : List α) : Prop := ∀ q c, q ++ [c] <+: p → P q c

section
variable {P : List α → α → Prop} {p : List α} {c : α}

theorem throughout_nil : Throughout P [] := fun q c h => by
  have hlen := h.length_le
  rw [List.length_append, List.length_singleton, List.length_nil] at hlen
  omega

theorem throughout_cons : Throughout P (c :: p) ↔ P [] c ∧ Throughout (fun q => P (c :: q)) p := by
  constructor
  · intro h
    exact ⟨h [] c (List.prefix_append [c] p),
      fun q d hq => h (c :: q) d (List.cons_prefix_cons.mpr ⟨rfl, hq⟩)⟩
  · rintro ⟨hc, hp⟩ q d hq
    cases q with
    | nil =>
      obtain ⟨rfl, -⟩ := List.cons_prefix_cons.mp hq
      exact hc
    | cons e q =>
      obtain ⟨rfl, hq'⟩ := List.cons_prefix_cons.mp hq
      exact hp q d hq'

theorem Throughout.of_prefix {q : List α} (h : Throughout P p) (hq : q <+: p) : Throughout P q :=
  fun r c hr => h r c (hr.trans hq)

theorem throughout_concat : Throughout P (p ++ [c]) ↔ Throughout P p ∧ P p c := by
  constructor
  · exact fun h => ⟨h.of_prefix (List.prefix_append p [c]), h p c (List.prefix_refl _)⟩
  · rintro ⟨hp, hc⟩ q d hq
    rcases List.prefix_concat_iff.mp hq with heq | hq
    · obtain ⟨rfl, hd⟩ := List.append_inj' heq rfl
      obtain rfl := List.head_eq_of_cons_eq hd
      exact hc
    · exact hp q d hq

end

/-- A list and its pieces, with the elements between them that are cuts left out. -/
inductive Splits (Breaks : List α → α → Prop) : List α → List (List α) → Prop
  | last {p : List α} : Throughout (fun q c => ¬Breaks q c) p → Splits Breaks p [p]
  | more {p rest : List α} {c : α} {ps : List (List α)} : Throughout (fun q c => ¬Breaks q c) p →
      Breaks p c → Splits Breaks rest ps → Splits Breaks (p ++ c :: rest) (p :: ps)

variable {B : List α → α → Prop} {xs : List α}

/-- The first cut of a list. -/
theorem exists_break (h : ¬Throughout (fun q c => ¬B q c) xs) : ∃ p c rest,
    xs = p ++ c :: rest ∧ Throughout (fun q c => ¬B q c) p ∧ B p c := by
  induction xs generalizing B with
  | nil => exact absurd throughout_nil h
  | cons d xs ih =>
    by_cases hd : B [] d
    · exact ⟨[], d, xs, rfl, throughout_nil, hd⟩
    · obtain ⟨p, c, rest, rfl, hp, hc⟩ := ih (B := fun q => B (d :: q))
        fun hxs => h (throughout_cons.mpr ⟨hd, hxs⟩)
      exact ⟨d :: p, c, rest, rfl, throughout_cons.mpr ⟨hd, hp⟩, hc⟩

theorem exists_splits (B : List α → α → Prop) (xs : List α) : ∃ ps, Splits B xs ps := by
  induction hlen : xs.length using Nat.strongRecOn generalizing xs with
  | ind n ih =>
    by_cases h : Throughout (fun q c => ¬B q c) xs
    · exact ⟨[xs], .last h⟩
    · obtain ⟨p, c, rest, rfl, hp, hc⟩ := exists_break h
      have hlt : rest.length < n := by
        rw [← hlen, List.length_append, List.length_cons]
        omega
      obtain ⟨ps, hps⟩ := ih _ hlt rest rfl
      exact ⟨p :: ps, .more hp hc hps⟩

/-- A beginning without a cut is not longer than the piece that ends at the first one. -/
theorem Throughout.le_of_break {p q rest : List α} {c : α} (hq : Throughout (fun q c => ¬B q c) q)
    (hc : B p c) (hqp : q <+: p ++ c :: rest) : q.length ≤ p.length := by
  by_contra hlt
  rw [List.append_cons] at hqp
  have hpq : p ++ [c] <+: q := by
    refine List.prefix_of_prefix_length_le (List.prefix_append _ rest) hqp ?_
    rw [List.length_append, List.length_singleton]
    omega
  exact hq p c hpq hc

theorem Throughout.length_le {P : List α → α → Prop} {p q r s : List α} (hq : Throughout P q)
    (h : p ++ r = q ++ s) (hr : ∀ c ∈ r.head?, ¬P p c) : q.length ≤ p.length := by
  have hprefix : q <+: p ++ r := h ▸ List.prefix_append q s
  cases r with
  | nil =>
    rw [List.append_nil] at hprefix
    exact hprefix.length_le
  | cons c r =>
    have hnot : Throughout (fun q c => ¬¬P q c) q := fun t d ht => not_not.mpr (hq t d ht)
    exact hnot.le_of_break (hr c rfl) hprefix

/-- The longest beginning with a property throughout. -/
theorem Throughout.unique {P : List α → α → Prop} {p q r s : List α} (hp : Throughout P p)
    (hq : Throughout P q) (h : p ++ r = q ++ s) (hr : ∀ c ∈ r.head?, ¬P p c)
    (hs : ∀ c ∈ s.head?, ¬P q c) : p = q ∧ r = s :=
  List.append_inj h (Nat.le_antisymm (hp.length_le h.symm hs) (hq.length_le h hr))

theorem Splits.length_le {ps : List (List α)} (h : Splits B xs ps) : ∀ p ∈ ps, p.length ≤ xs.length := by
  induction h with
  | last _ => exact fun q hq => Nat.le_of_eq (congrArg _ (List.mem_singleton.mp hq))
  | more _ _ _ ih =>
    intro q hq
    rw [List.length_append, List.length_cons]
    rcases List.mem_cons.mp hq with rfl | hq
    · exact Nat.le_add_right _ _
    · have hle := ih q hq
      omega

theorem Splits.cases_cons {ps : List (List α)} (h : Splits B xs ps) :
    (Throughout (fun q c => ¬B q c) xs ∧ ps = [xs]) ∨ ∃ p c rest qs, xs = p ++ c :: rest ∧
      ps = p :: qs ∧ Throughout (fun q c => ¬B q c) p ∧ B p c ∧ Splits B rest qs := by
  cases h with
  | last hp => exact .inl ⟨hp, rfl⟩
  | more hp hc hrest => exact .inr ⟨_, _, _, _, rfl, rfl, hp, hc, hrest⟩

theorem Splits.unique {ps qs : List (List α)} (hps : Splits B xs ps) (hqs : Splits B xs qs) :
    ps = qs := by
  induction hps generalizing qs with
  | last hp =>
    rcases hqs.cases_cons with ⟨-, rfl⟩ | ⟨q, c, rest, qs, rfl, -, -, hc, -⟩
    · rfl
    · have hle := hp.le_of_break hc List.prefix_rfl
      rw [List.length_append, List.length_cons] at hle
      omega
  | @more p rest c ps hp hc _ ih =>
    rcases hqs.cases_cons with ⟨hq, -⟩ | ⟨q, d, rest', qs, heq, rfl, hq, hd, hrest⟩
    · have hle := hq.le_of_break hc List.prefix_rfl
      rw [List.length_append, List.length_cons] at hle
      omega
    · have hlen : p.length = q.length := Nat.le_antisymm
        (hp.le_of_break hd (heq ▸ List.prefix_append p (c :: rest)))
        (hq.le_of_break hc (heq ▸ List.prefix_append q (d :: rest')))
      obtain ⟨rfl, htail⟩ := List.append_inj heq hlen
      obtain ⟨-, rfl⟩ := List.cons.inj htail
      rw [ih hrest]

end SystemsProgramming
