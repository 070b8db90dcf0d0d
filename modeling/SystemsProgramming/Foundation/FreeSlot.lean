import SystemsProgramming.Foundation.Tally

/-! Tables whose entries are numbered and reused: a new entry takes the first free number, as a new
descriptor of a process does. -/

namespace SystemsProgramming

variable {α : Type*}

/-- The first free number, or the one at the end. -/
def freeSlot (xs : List (Option α)) : ℕ := xs.findIdx Option.isNone

/-- The table with a new entry. -/
def place (xs : List (Option α)) (a : α) : List (Option α) :=
  if freeSlot xs < xs.length then xs.set (freeSlot xs) (some a) else xs ++ [some a]

variable {xs : List (Option α)} {a : α} {i : ℕ}

theorem freeSlot_le (xs : List (Option α)) : freeSlot xs ≤ xs.length := List.findIdx_le_length

theorem getElem?_freeSlot (xs : List (Option α)) : xs[freeSlot xs]?.join = none := by
  cases h : xs[freeSlot xs]? with
  | none => rfl
  | some x =>
    obtain ⟨hlt, hx⟩ := List.getElem?_eq_some_iff.mp h
    have hfree := List.findIdx_getElem (w := hlt)
    have hnone : x.isNone := hx ▸ hfree
    exact Option.isNone_iff_eq_none.mp hnone

theorem ne_freeSlot (h : xs[i]? = some (some a)) : i ≠ freeSlot xs := by
  rintro rfl
  have hnone := getElem?_freeSlot xs
  rw [h] at hnone
  cases hnone

theorem freeSlot_le_of_none (h : xs[i]? = some none) : freeSlot xs ≤ i := by
  by_contra hlt
  obtain ⟨hi, hnone⟩ := List.getElem?_eq_some_iff.mp h
  have hsome := List.not_of_lt_findIdx (p := Option.isNone) (Nat.lt_of_not_le hlt)
  rw [hnone] at hsome
  cases hsome

/-- Only what is free matters. -/
theorem freeSlot_congr {β : Type*} {ys : List (Option β)} (hlen : xs.length = ys.length)
    (h : ∀ (i : ℕ) x y, xs[i]? = some x → ys[i]? = some y → (x = none ↔ y = none)) :
    freeSlot xs = freeSlot ys := by
  induction xs generalizing ys with
  | nil => rw [List.eq_nil_of_length_eq_zero hlen.symm]; rfl
  | cons x xs ih =>
    obtain ⟨y, ys, rfl⟩ := List.exists_cons_of_length_eq_add_one hlen.symm
    have hxy := h 0 x y rfl rfl
    have hrest := ih (Nat.succ.inj hlen) fun i x y hx hy => h (i + 1) x y hx hy
    unfold freeSlot at hrest ⊢
    rw [List.findIdx_cons, List.findIdx_cons, hrest]
    cases x <;> cases y <;> simp at hxy ⊢

theorem getElem?_place (xs : List (Option α)) (a : α) (i : ℕ) :
    (place xs a)[i]? = if i = freeSlot xs then some (some a) else xs[i]? := by
  have hle := freeSlot_le xs
  rw [place]
  split_ifs with hlt hi hi
  · rw [hi, List.getElem?_set_self hlt]
  · rw [List.getElem?_set_ne (Ne.symm hi)]
  · rw [hi, Nat.le_antisymm hle (Nat.le_of_not_lt hlt), List.getElem?_concat_length]
  · rcases Nat.lt_or_ge i xs.length with hi' | hi'
    · rw [List.getElem?_append_left hi']
    · rw [List.getElem?_eq_none hi', List.getElem?_eq_none]
      rw [List.length_append, List.length_singleton]
      omega

theorem length_place (xs : List (Option α)) (a : α) : (place xs a).length =
    if freeSlot xs < xs.length then xs.length else xs.length + 1 := by
  rw [place]
  split_ifs
  · rw [List.length_set]
  · rw [List.length_append, List.length_singleton]

/-- A new entry is one more of its kind. -/
theorem tally_place {κ : Type*} [DecidableEq κ] {kind : Option α → κ} {k : κ} (hk : kind none ≠ k) :
    tally kind (place xs a) k = tally kind xs k + if kind (some a) = k then 1 else 0 := by
  by_cases hlt : freeSlot xs < xs.length
  · have hnone : xs[freeSlot xs]? = some none := by
      have hjoin := getElem?_freeSlot xs
      rw [List.getElem?_eq_getElem hlt] at hjoin ⊢
      exact congrArg some hjoin
    rw [place, if_pos hlt, tally_set hnone, if_neg hk]
    omega
  · rw [place, if_neg hlt, tally_append, tally_cons, tally_nil, Int.zero_add]

/-- Nor does it matter what is there. -/
theorem freeSlot_map {β : Type*} (g : α → β) (xs : List (Option α)) :
    freeSlot (xs.map (Option.map g)) = freeSlot xs := by
  rw [freeSlot, List.findIdx_map, freeSlot]
  exact congrArg (fun p => xs.findIdx p) (funext fun x => Option.isNone_map)

theorem place_map {β : Type*} (g : α → β) (xs : List (Option α)) (a : α) :
    (place xs a).map (Option.map g) = place (xs.map (Option.map g)) (g a) := by
  rw [place, place, freeSlot_map, List.length_map]
  split_ifs
  · exact List.map_set
  · exact List.map_append

/-- What is in the table stays where it is. -/
theorem getElem?_place_of_some (h : xs[i]? = some (some a)) (b : α) :
    (place xs b)[i]? = some (some a) := by
  rw [getElem?_place, if_neg (ne_freeSlot h), h]

end SystemsProgramming
