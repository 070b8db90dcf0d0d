import Mathlib.Data.List.Pairwise
import Mathlib.Data.List.Rotate
import Mathlib.Order.Lattice

/-! Lists in ascending order: the partition of a list around a pivot by swaps, and the merge of several
lists by a minimum at a time. -/

namespace SystemsProgramming

variable {α β : Type*} [LinearOrder α] {xs ys out : List α} {x pivot : α}

/-- The elements in ascending order. -/
def ascending (xs : List α) : List α := xs.mergeSort fun x y => decide (x ≤ y)

theorem ascending_perm (xs : List α) : (ascending xs).Perm xs := List.mergeSort_perm xs _

theorem ascending_pairwise (xs : List α) : (ascending xs).Pairwise (· ≤ ·) := by
  have htrans : ∀ x y z : α, decide (x ≤ y) = true → decide (y ≤ z) = true → decide (x ≤ z) = true :=
    fun x y z hxy hyz => decide_eq_true (le_trans (of_decide_eq_true hxy) (of_decide_eq_true hyz))
  have htotal : ∀ x y : α, (decide (x ≤ y) || decide (y ≤ x)) = true := fun x y => by
    simpa using le_total x y
  exact (List.pairwise_mergeSort htrans htotal xs).imp of_decide_eq_true

theorem eq_ascending (hperm : ys.Perm xs) (hys : ys.Pairwise (· ≤ ·)) : ys = ascending xs :=
  (hperm.trans (ascending_perm xs).symm).eq_of_pairwise (fun _ _ _ _ => le_antisymm) hys
    (ascending_pairwise xs)

@[simp] theorem length_ascending (xs : List α) : (ascending xs).length = xs.length :=
  (ascending_perm xs).length_eq

theorem ascending_of_length_le_one (h : xs.length ≤ 1) : ascending xs = xs := by
  symm
  refine eq_ascending (List.Perm.refl xs) ?_
  match xs, h with
  | [], _ => exact .nil
  | [x], _ => exact List.pairwise_singleton _ x

/-- Two parts are sorted apart if nothing in the one is greater than anything in the other. -/
theorem ascending_append (h : ∀ x ∈ xs, ∀ y ∈ ys, x ≤ y) :
    ascending xs ++ ascending ys = ascending (xs ++ ys) := by
  refine eq_ascending ((ascending_perm xs).append (ascending_perm ys)) ?_
  refine List.pairwise_append.mpr ⟨ascending_pairwise xs, ascending_pairwise ys, fun x hx y hy => ?_⟩
  exact h x ((ascending_perm xs).mem_iff.mp hx) y ((ascending_perm ys).mem_iff.mp hy)

theorem ascending_congr (h : xs.Perm ys) : ascending xs = ascending ys :=
  eq_ascending ((ascending_perm xs).trans h) (ascending_pairwise xs)

/-! ### Partition -/

/-- One more element for the parts: one that is not greater than the pivot changes places with the first one
of the second part. -/
def sift (pivot : α) (s : List α × List α) (x : α) : List α × List α :=
  if x ≤ pivot then (s.1 ++ [x], s.2.rotate 1) else (s.1, s.2 ++ [x])

theorem length_sift (pivot : α) (s : List α × List α) (x : α) :
    (sift pivot s x).1.length + (sift pivot s x).2.length = s.1.length + s.2.length + 1 := by
  unfold sift
  split_ifs
  · simp only [List.length_append, List.length_singleton, List.length_rotate]
    omega
  · simp only [List.length_append, List.length_singleton]
    omega

theorem foldl_sift_fst (pivot : α) (xs : List α) (s : List α × List α) :
    (xs.foldl (sift pivot) s).1 = s.1 ++ xs.filter (· ≤ pivot) := by
  induction xs generalizing s with
  | nil => simp
  | cons x xs ih =>
    rw [List.foldl_cons, ih, sift]
    split_ifs with hx <;> simp [hx]

theorem foldl_sift_snd (pivot : α) (xs : List α) (s : List α × List α) :
    (xs.foldl (sift pivot) s).2.Perm (s.2 ++ xs.filter (pivot < ·)) := by
  induction xs generalizing s with
  | nil => simp
  | cons x xs ih =>
    rw [List.foldl_cons]
    refine (ih _).trans ?_
    unfold sift
    split_ifs with hx
    · rw [List.filter_cons_of_neg (by simpa using hx)]
      exact (List.rotate_perm s.2 1).append_right _
    · rw [List.filter_cons_of_pos (by simpa using hx)]
      simp

/-- The pivot is the last element. -/
theorem foldl_sift_concat (pivot : α) (xs : List α) : ∃ ys, ys.Perm (xs.filter (pivot < ·)) ∧
    (xs ++ [pivot]).foldl (sift pivot) ([], []) = (xs.filter (· ≤ pivot) ++ [pivot], ys) := by
  refine ⟨(xs.foldl (sift pivot) ([], [])).2.rotate 1,
    (List.rotate_perm _ 1).trans (foldl_sift_snd pivot xs _), ?_⟩
  rw [List.foldl_append, List.foldl_cons, List.foldl_nil, sift, if_pos le_rfl, foldl_sift_fst,
    List.nil_append]

theorem filter_perm (pivot : α) (xs : List α) :
    (xs.filter (· ≤ pivot) ++ xs.filter (pivot < ·)).Perm xs := by
  have h := List.filter_append_perm (fun x => decide (x ≤ pivot)) xs
  simpa [← not_le] using h

section
variable (hperm : ys.Perm (xs.filter (pivot < ·)))
include hperm

theorem partition_perm : (xs.filter (· ≤ pivot) ++ pivot :: ys).Perm (xs ++ [pivot]) := by
  refine List.perm_middle.trans (List.Perm.trans (.cons pivot ?_) (List.perm_append_singleton pivot xs).symm)
  exact (hperm.append_left _).trans (filter_perm pivot xs)

/-- Both parts are sorted on their own. -/
theorem ascending_partition :
    ascending (xs.filter (· ≤ pivot)) ++ ascending (pivot :: ys) = ascending (xs ++ [pivot]) := by
  rw [ascending_append, ascending_congr (partition_perm hperm)]
  intro y hy z hz
  have hle : y ≤ pivot := of_decide_eq_true (List.mem_filter.mp hy).2
  rcases List.mem_cons.mp hz with rfl | hz
  · exact hle
  · exact hle.trans (le_of_lt (of_decide_eq_true (List.mem_filter.mp (hperm.mem_iff.mp hz)).2))

end

/-! ### Merging -/

/-- The least one of the first elements goes to the output. -/
inductive Merges : List (List α) → List α → Prop
  | nil {rs : List (List α)} : (∀ r ∈ rs, r = []) → Merges rs []
  | cons {rs : List (List α)} {i : ℕ} {x : α} {r out : List α} : rs[i]? = some (x :: r) →
    (∀ s ∈ rs, ∀ y ∈ s.head?, x ≤ y) → Merges (rs.set i r) out → Merges rs (x :: out)

/-- Some elements with the lists they come from: each list is there with its elements in their order. -/
structure Interleaves (rs : List (List β)) (tagged : List (ℕ × β)) : Prop where
  tags : ∀ t ∈ tagged, t.1 < rs.length
  parts : ∀ (i : ℕ) (r : List β), rs[i]? = some r → (tagged.filter fun t => t.1 = i).map Prod.snd = r

theorem Interleaves.cons {rs : List (List β)} {i : ℕ} {y : β} {r : List β} {tagged : List (ℕ × β)}
    (hi : rs[i]? = some (y :: r)) (h : Interleaves (rs.set i r) tagged) :
    Interleaves rs ((i, y) :: tagged) where
  tags := by
    refine List.forall_mem_cons.mpr ⟨(List.getElem?_eq_some_iff.mp hi).1, fun t ht => ?_⟩
    have hlt := h.tags t ht
    rwa [List.length_set] at hlt
  parts j s hs := by
    by_cases hij : i = j
    · subst hij
      have hr := h.parts i r (List.getElem?_set_self (List.getElem?_eq_some_iff.mp hi).1)
      rw [List.filter_cons_of_pos (by simp), List.map_cons, hr]
      exact Option.some.inj (hi.symm.trans hs)
    · rw [List.filter_cons_of_neg (by simpa using hij)]
      exact h.parts j s ((List.getElem?_set_ne hij).trans hs)

/-- A merge interleaves the lists. -/
theorem Merges.interleaves {rs : List (List α)} (h : Merges rs out) :
    ∃ tagged, Interleaves rs tagged ∧ tagged.map Prod.snd = out := by
  induction h with
  | @nil rs hnil =>
    refine ⟨[], ⟨fun t ht => (by cases ht), fun i r hr => ?_⟩, rfl⟩
    rw [hnil r (List.mem_of_getElem? hr)]
    rfl
  | cons hi _ _ ih =>
    obtain ⟨tagged, htagged, hout⟩ := ih
    exact ⟨_, htagged.cons hi, by rw [List.map_cons, hout]⟩

omit [LinearOrder α] in
theorem flatten_set_perm {rs : List (List α)} {i : ℕ} {r : List α} (h : rs[i]? = some (x :: r)) :
    (x :: (rs.set i r).flatten).Perm rs.flatten := by
  obtain ⟨hi, hget⟩ := List.getElem?_eq_some_iff.mp h
  rw [List.set_eq_take_append_cons_drop, if_pos hi]
  conv_rhs => rw [← List.take_append_drop i rs, List.drop_eq_getElem_cons hi, hget]
  simp only [List.flatten_append, List.flatten_cons, List.cons_append]
  exact List.perm_middle.symm

/-- The output of a merge of lists in ascending order. -/
theorem Merges.eq_ascending {rs : List (List α)} (h : Merges rs out)
    (hrs : ∀ r ∈ rs, r.Pairwise (· ≤ ·)) : out = ascending rs.flatten := by
  induction h with
  | @nil rs hnil =>
    rw [List.flatten_eq_nil_iff.mpr hnil]
    exact List.mergeSort_nil.symm
  | @cons rs i x r out hi hleast _ ih =>
    have htail : ∀ s ∈ rs.set i r, s.Pairwise (· ≤ ·) := fun s hs => by
      rcases List.mem_or_eq_of_mem_set hs with hs | rfl
      · exact hrs s hs
      · exact (hrs _ (List.mem_of_getElem? hi)).of_cons
    rw [ih htail]
    refine SystemsProgramming.eq_ascending ?_ (List.pairwise_cons.mpr ⟨fun y hy => ?_, ascending_pairwise _⟩)
    · exact ((ascending_perm _).cons x).trans (flatten_set_perm hi)
    · have hflat : y ∈ rs.flatten := (flatten_set_perm hi).mem_iff.mp
        (List.mem_cons_of_mem x ((ascending_perm _).mem_iff.mp hy))
      obtain ⟨s, hs, hys⟩ := List.mem_flatten.mp hflat
      -- the first element of the list is the least in it
      cases s with
      | nil => cases hys
      | cons z s =>
        have hxz := hleast _ hs z rfl
        rcases List.mem_cons.mp hys with rfl | hys
        · exact hxz
        · exact hxz.trans (List.rel_of_pairwise_cons (hrs _ hs) hys)

end SystemsProgramming
