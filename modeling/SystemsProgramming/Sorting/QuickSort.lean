import SystemsProgramming.Sorting.Sharing

/-! The quick sort of a coroutine. It works on a part of its array, gives way after each number it has looked
at, and finds the array as it has left it. -/

namespace SystemsProgramming.Sorting

/-- An array that a program can write to and the others leave as it is: `I` says which numbers it has. -/
structure Keeper (R G : World → World → Prop) (a : ℕ) (I : List ℤ → World → Prop) : Prop where
  array : ∀ xs w, I xs w → w.arrays[a]? = some xs
  set : ∀ xs ys w, I xs w → G w (w.setArray a ys) ∧ I ys (w.setArray a ys)
  clock : ∀ xs w n, I xs w → G w { w with calls := n } ∧ I xs { w with calls := n }
  kept : ∀ xs w w', I xs w → R w w' → I xs w'

section
variable {R G : World → World → Prop} {a : ℕ} {I : List ℤ → World → Prop} {w : World} {xs ys : List ℤ}

theorem wp_load {numbers : Numbers} {k : ℕ} {x : ℤ} {Q : ℤ → World → Prop}
    (ha : w.arrays[numbers.array]? = some xs) (hx : xs[numbers.offset + k]? = some x) (hQ : Q x w) :
    (load numbers k).wp R G Q w := by
  rw [load, Code.wp_bind, Code.wp_read, ha, Option.bind_some, hx]
  exact hQ

theorem wp_store {numbers : Numbers} {k : ℕ} {x : ℤ} {Q : Unit → World → Prop}
    (ha : w.arrays[numbers.array]? = some xs) (hk : numbers.offset + k < xs.length)
    (hG : G w (w.setArray numbers.array (xs.set (numbers.offset + k) x)))
    (hQ : Q () (w.setArray numbers.array (xs.set (numbers.offset + k) x))) :
    (store numbers k x).wp R G Q w := by
  simp only [store, Code.wp_bind, Code.wp_read, ha, if_pos hk, Code.wp_write]
  exact ⟨hG, hQ⟩

namespace Keeper

variable (hI : Keeper R G a I)
include hI

theorem wp_quantum (h : I xs w) {quantum : ℕ → Bool} {Q : Unit → World → Prop}
    (hQ : ∀ w', I xs w' → Q () w') : (coroYieldWithRespectToQuantum quantum).wp R G Q w := by
  obtain ⟨hG, hclock⟩ := hI.clock xs w (w.calls + 1) h
  simp only [coroYieldWithRespectToQuantum, Code.wp_bind, Code.wp_read, Code.wp_write]
  refine ⟨hG, ?_⟩
  split_ifs
  · exact fun w' hR => hQ w' (hI.kept _ _ _ hclock hR)
  · exact hQ _ hclock

/-! ### A part of the array -/

variable {pre post part A B C : List ℤ} {k : ℕ} {x : ℤ}

theorem wp_load (h : I (pre ++ part ++ post) w) {Q : ℤ → World → Prop} (hx : part[k]? = some x)
    (hQ : Q x w) : (load ⟨a, pre.length⟩ k).wp R G Q w := by
  refine Sorting.wp_load (hI.array _ _ h) ?_ hQ
  show (pre ++ part ++ post)[pre.length + k]? = some x
  have hk := (List.getElem?_eq_some_iff.mp hx).1
  rw [List.append_assoc, List.getElem?_append_right (Nat.le_add_right _ _), Nat.add_sub_cancel_left,
    List.getElem?_append_left hk, hx]

theorem wp_store (h : I (pre ++ part ++ post) w) {Q : Unit → World → Prop} (hk : k < part.length)
    (hQ : ∀ w', I (pre ++ part.set k x ++ post) w' → Q () w') :
    (store ⟨a, pre.length⟩ k x).wp R G Q w := by
  have hset : (pre ++ part ++ post).set (pre.length + k) x = pre ++ part.set k x ++ post := by
    rw [List.append_assoc, List.set_append_right _ _ (Nat.le_add_right _ _), Nat.add_sub_cancel_left,
      List.set_append_left _ _ hk, List.append_assoc]
  obtain ⟨hG, hnew⟩ := hI.set _ (pre ++ part.set k x ++ post) w h
  rw [← hset] at hG hnew hQ
  refine Sorting.wp_store (hI.array _ _ h) ?_ hG (hQ _ hnew)
  simp only [List.length_append]
  omega

/-- The number that is looked at goes to its part. -/
theorem wp_partitionBody (h : I (pre ++ (A ++ B ++ x :: C) ++ post) w)
    {pivotValue : ℤ} {Q : ℕ → World → Prop}
    (hQ : ∀ w', I (pre ++ ((sift pivotValue (A, B) x).1 ++
      (sift pivotValue (A, B) x).2 ++ C) ++ post) w' → Q (sift pivotValue (A, B) x).1.length w') :
    (partitionBody pivotValue ⟨a, pre.length⟩ (A.length + B.length) A.length).wp R G Q w := by
  have hx : (A ++ B ++ x :: C)[A.length + B.length]? = some x := by
    rw [← List.length_append, List.getElem?_append_right le_rfl, Nat.sub_self, List.getElem?_cons_zero]
  rw [partitionBody, Code.wp_bind]
  refine hI.wp_load h hx ?_
  by_cases hle : x ≤ pivotValue
  · rw [if_pos hle]
    rw [sift, if_pos hle] at hQ
    cases B with
    | nil =>
      -- it stays where it is
      have hsame : (A ++ [] ++ x :: C).set A.length x = A ++ [] ++ x :: C := by simp
      rw [Code.wp_bind]
      refine hI.wp_load h (x := x) (by simp) ?_
      rw [Code.wp_bind]
      refine hI.wp_store h (by simp) fun w₁ h₁ => ?_
      rw [List.length_nil, Nat.add_zero, hsame] at h₁
      rw [Code.wp_bind]
      refine hI.wp_store h₁ (by simp) fun w₂ h₂ => ?_
      rw [hsame] at h₂
      have h₃ := hQ w₂ (by simpa using h₂)
      simpa using h₃
    | cons y B =>
      -- it changes places with the first number that is greater than the pivot
      rw [Code.wp_bind]
      refine hI.wp_load h (x := y) (by simp) ?_
      rw [Code.wp_bind]
      refine hI.wp_store h (by simp) fun w₁ h₁ => ?_
      rw [Code.wp_bind]
      refine hI.wp_store h₁ (by simp) fun w₂ h₂ => ?_
      have hset : ((A ++ (y :: B) ++ x :: C).set (A.length + (y :: B).length) y).set A.length x =
          A ++ [x] ++ (y :: B).rotate 1 ++ C := by
        rw [← List.length_append, List.set_append_right _ _ le_rfl, Nat.sub_self, List.set_cons_zero,
          List.append_assoc, List.set_append_right _ _ le_rfl, Nat.sub_self]
        simp
      rw [hset] at h₂
      have h₃ := hQ w₂ h₂
      simpa using h₃
  · rw [if_neg hle]
    rw [sift, if_neg hle] at hQ
    exact hQ w (by simpa using h)

theorem wp_partitionLoop {pivotValue : ℤ} {quantum : ℕ → Bool} {Q : ℕ → World → Prop}
    (h : I (pre ++ (A ++ B ++ C) ++ post) w)
    (hQ : ∀ w', I (pre ++ ((C.foldl (sift pivotValue) (A, B)).1 ++
      (C.foldl (sift pivotValue) (A, B)).2) ++ post) w' →
        Q (C.foldl (sift pivotValue) (A, B)).1.length w') :
    (partitionLoop quantum pivotValue ⟨a, pre.length⟩ C.length (A.length + B.length) A.length).wp R G
      Q w := by
  induction C generalizing A B w with
  | nil => exact hQ w (by simpa using h)
  | cons x C ih =>
    rw [List.length_cons, partitionLoop, Code.wp_bind]
    refine hI.wp_partitionBody h fun w₁ h₁ => ?_
    rw [Code.wp_bind]
    refine hI.wp_quantum h₁ fun w₂ h₂ => ?_
    have hstep := ih h₂ hQ
    rwa [length_sift] at hstep

/-- The numbers that are not greater than the last one come before it, and the greater ones behind it. -/
theorem wp_quickSortPartition {quantum : ℕ → Bool} {Q : ℕ → World → Prop}
    (h : I (pre ++ (xs ++ [x]) ++ post) w)
    (hQ : ∀ ys w', ys.Perm (xs.filter (x < ·)) →
      I (pre ++ (xs.filter (· ≤ x) ++ x :: ys) ++ post) w' →
        Q (xs.filter (· ≤ x)).length w') :
    (quickSortPartition quantum (xs ++ [x]).length ⟨a, pre.length⟩).wp R G Q w := by
  rw [quickSortPartition, Code.wp_bind]
  refine hI.wp_load h (x := x) (by simp) ?_
  rw [Code.wp_bind]
  obtain ⟨ys, hperm, hfold⟩ := foldl_sift_concat x xs
  refine hI.wp_partitionLoop (A := []) (B := []) h fun w' h' => ?_
  rw [hfold] at h' ⊢
  rw [List.length_append, List.length_singleton]
  exact hQ ys w' hperm (by simpa using h')

end Keeper

/-- With this fuel the numbers can be sorted. If the last one is the least, the next step has the same
numbers with another one at the end. -/
def Enough (fuel : ℕ) (xs : List ℤ) : Prop :=
  0 < fuel ∧ (2 * xs.length ≤ fuel ∨
    2 * xs.length ≤ fuel + 1 ∧ ∃ ys x, xs = ys ++ [x] ∧ ∃ y ∈ ys, y ≤ x)

/-- The fuel is enough for both parts. -/
theorem Enough.parts {fuel : ℕ} {x : ℤ} (h : Enough (fuel + 1) (xs ++ [x])) (hlength : xs ≠ [])
    (hperm : ys.Perm (xs.filter (x < ·))) :
    Enough fuel (xs.filter (· ≤ x)) ∧ Enough fuel (x :: ys) := by
  have hcount : (xs.filter (· ≤ x)).length + ys.length = xs.length := by
    rw [hperm.length_eq, ← List.length_append, (filter_perm x xs).length_eq]
  have hpos := List.length_pos_of_ne_nil hlength
  obtain ⟨-, hfuel⟩ := h
  rw [List.length_append, List.length_singleton] at hfuel
  rcases List.eq_nil_or_concat' ys with rfl | ⟨zs, z, rfl⟩
  · -- the last number is the greatest
    rw [List.length_nil, Nat.add_zero] at hcount
    refine ⟨⟨by omega, .inl (by omega)⟩, by omega, .inl ?_⟩
    rw [List.length_singleton]
    omega
  by_cases hnone : xs.filter (· ≤ x) = []
  · rw [hnone, List.length_nil, Nat.zero_add] at hcount
    have hbig : 2 * (xs.length + 1) ≤ fuel + 1 := by
      refine hfuel.resolve_right ?_
      rintro ⟨-, ys', x', heq, y, hy, hle⟩
      obtain ⟨rfl, hx⟩ := List.append_inj' heq rfl
      obtain rfl := List.singleton_inj.mp hx
      have hmem : y ∈ xs.filter (· ≤ x) := List.mem_filter.mpr ⟨hy, decide_eq_true hle⟩
      rw [hnone] at hmem
      cases hmem
    rw [hnone]
    refine ⟨⟨by omega, .inl (by simp)⟩, by omega, .inr ⟨?_, x :: zs, z, ?_, x, ?_, ?_⟩⟩
    · rw [List.length_cons, hcount]
      exact hbig
    · simp
    · exact List.mem_cons_self
    · have hz := hperm.mem_iff.mp (List.mem_concat_self ..)
      exact le_of_lt (of_decide_eq_true (List.mem_filter.mp hz).2)
  · have hsome := List.length_pos_of_ne_nil hnone
    have hzs : 0 < (zs ++ [z]).length := by simp
    refine ⟨⟨by omega, .inl (by omega)⟩, by omega, .inl ?_⟩
    rw [List.length_cons]
    omega

/-- The recursion comes to an end, and the part of the array is in ascending order. -/
theorem Keeper.wp_getSorted (hI : Keeper R G a I) {quantum : ℕ → Bool} {pre post part : List ℤ}
    {fuel : ℕ} {Q : Unit → World → Prop} (h : I (pre ++ part ++ post) w) (hfuel : Enough fuel part)
    (hQ : ∀ w', I (pre ++ ascending part ++ post) w' → Q () w') :
    (getSortedInplaceNumbers quantum fuel part.length ⟨a, pre.length⟩).wp R G Q w := by
  induction fuel generalizing part pre post w Q with
  | zero => exact absurd hfuel.1 (Nat.lt_irrefl 0)
  | succ fuel ih =>
    rw [getSortedInplaceNumbers]
    by_cases hle : part.length ≤ 1
    · rw [if_pos hle]
      exact hQ w (by rwa [ascending_of_length_le_one hle])
    rw [if_neg hle]
    rcases List.eq_nil_or_concat' part with rfl | ⟨xs, x, rfl⟩
    · exact absurd (Nat.zero_le 1) hle
    have hne : xs ≠ [] := by
      rintro rfl
      exact hle le_rfl
    rw [Code.wp_bind]
    refine hI.wp_quickSortPartition h fun ys w₁ hperm h₁ => ?_
    obtain ⟨hfuel₁, hfuel₂⟩ := hfuel.parts hne hperm
    have hcount : (xs ++ [x]).length - (xs.filter (· ≤ x)).length = (x :: ys).length := by
      rw [← (partition_perm hperm).length_eq, List.length_append, Nat.add_sub_cancel_left]
    rw [Code.wp_bind]
    have hfirst : I (pre ++ xs.filter (· ≤ x) ++ (x :: ys ++ post)) w₁ := by
      simpa using h₁
    refine ih hfirst hfuel₁ fun w₂ h₂ => ?_
    have hadd : Numbers.add ⟨a, pre.length⟩ (xs.filter (· ≤ x)).length =
        ⟨a, (pre ++ ascending (xs.filter (· ≤ x))).length⟩ := by
      rw [Numbers.add, List.length_append, length_ascending]
    rw [hadd, hcount]
    refine ih (by simpa using h₂) hfuel₂ fun w₃ h₃ => hQ w₃ ?_
    rwa [List.append_assoc pre, ascending_partition hperm] at h₃

end

/-! ### Alone and among others -/

/-- The array has these numbers; and if the others leave everything as it is, nothing but the array and the
clock has changed since `w`. -/
structure Holding (others : ℕ → World → World) (w : World) (a : ℕ) (xs : List ℤ) (w' : World) : Prop where
  array : w'.arrays[a]? = some xs
  rest : (∀ n s, others n s = s) → ∃ calls, w' = { w.setArray a xs with calls := calls }

theorem holding_keeper {others : ℕ → World → World} {a : ℕ}
    (hothers : ∀ n w, (others n w).arrays[a]? = w.arrays[a]?) (w : World) :
    Keeper (fun s s' => ∃ n, s' = others n s) (fun _ _ => True) a (Holding others w a) where
  array _ _ h := h.array
  set xs ys w' h := by
    refine ⟨trivial, List.getElem?_set_self (List.getElem?_eq_some_iff.mp h.array).1, fun hidle => ?_⟩
    obtain ⟨calls, rfl⟩ := h.rest hidle
    refine ⟨calls, ?_⟩
    simp only [World.setArray, List.set_set]
  clock xs w' n h := by
    refine ⟨trivial, h.array, fun hidle => ?_⟩
    obtain ⟨calls, rfl⟩ := h.rest hidle
    exact ⟨n, rfl⟩
  kept xs w' w'' h hR := by
    obtain ⟨n, rfl⟩ := hR
    refine ⟨(hothers n w').trans h.array, fun hidle => ?_⟩
    rw [hidle]
    exact h.rest hidle

/-- The quick sort of a part of an array ends, whatever the part has, without an access outside the array.
It leaves a permutation of the part in ascending order and the rest of the array as it is. -/
theorem getSortedInplaceNumbers_sorts (quantum : ℕ → Bool) {others : ℕ → World → World} {a : ℕ}
    (hothers : ∀ n w, (others n w).arrays[a]? = w.arrays[a]?) {w : World} {pre part post : List ℤ}
    (ha : w.arrays[a]? = some (pre ++ part ++ post)) {fuel : ℕ} (hfuel : 2 * part.length < fuel) :
    ∃ w' sorted,
      (getSortedInplaceNumbers quantum fuel part.length ⟨a, pre.length⟩).run others 0 w = some ((), w') ∧
      w'.arrays[a]? = some (pre ++ sorted ++ post) ∧ sorted.Perm part ∧ sorted.Pairwise (· ≤ ·) ∧
      ((∀ n s, others n s = s) →
        ∃ calls, w' = { w.setArray a (pre ++ sorted ++ post) with calls := calls }) := by
  have hstart : Holding others w a (pre ++ part ++ post) w := by
    refine ⟨ha, fun _ => ⟨w.calls, ?_⟩⟩
    obtain ⟨hlt, hget⟩ := List.getElem?_eq_some_iff.mp ha
    rw [World.setArray, ← hget, List.set_getElem_self]
  have henough : Enough fuel part := ⟨by omega, .inl (by omega)⟩
  have hwp : (getSortedInplaceNumbers quantum fuel part.length ⟨a, pre.length⟩).wp
      (fun s s' => ∃ n, s' = others n s) (fun _ _ => True)
      (fun _ => Holding others w a (pre ++ ascending part ++ post)) w :=
    (holding_keeper hothers w).wp_getSorted hstart henough fun _ h => h
  obtain ⟨_, w', hrun, hw'⟩ := Code.run_of_wp (fun n s => ⟨n, rfl⟩) hwp 0
  exact ⟨w', ascending part, hrun, hw'.array, ascending_perm part, ascending_pairwise part, hw'.rest⟩

/-- With the least number at the end, the second recursive call has all three numbers again. -/
theorem getSortedInplaceNumbers_sorts_three : ∃ w' sorted,
    (getSortedInplaceNumbers (fun _ => true) 7 3 ⟨0, 0⟩).run (fun _ w => w) 0
      ⟨⟨0, 0, [], []⟩, [[3, 2, 1]], 0, []⟩ = some ((), w') ∧
    w'.arrays[0]? = some sorted ∧ sorted.Perm [3, 2, 1] ∧ sorted.Pairwise (· ≤ ·) := by
  have ha : (World.mk ⟨0, 0, [], []⟩ [[3, 2, 1]] 0 []).arrays[0]? = some ([] ++ [3, 2, 1] ++ []) := rfl
  have hfuel : 2 * [3, 2, 1].length < 7 := by decide
  obtain ⟨w', sorted, hrun, harray, hperm, hsorted, -⟩ :=
    getSortedInplaceNumbers_sorts (fun _ => true) (fun _ _ => rfl) ha hfuel
  exact ⟨w', sorted, hrun, by simpa using harray, hperm, hsorted⟩

end SystemsProgramming.Sorting
