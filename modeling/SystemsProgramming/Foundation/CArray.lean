import Mathlib.Logic.Function.Basic
import Mathlib.Data.Int.Notation
import Mathlib.Data.Nat.Notation

/-! Arrays of a language without bounds checks, as seen by a checker: an allocated size and the
cells written so far. A read outside the allocation or of a cell never written has no result, and
neither has a write outside the allocation; `peek` hands out whatever is in a cell. -/

namespace SystemsProgramming

structure CArray (α : Type*) where
  size : ℤ
  cells : ℤ → Option α

namespace CArray

variable {α : Type*}

/-- A fresh allocation, no cell of it written. -/
def malloc (n : ℤ) : CArray α := ⟨n, fun _ => none⟩

def get (a : CArray α) (i : ℤ) : Option α := if 0 ≤ i ∧ i < a.size then a.cells i else none

/-- A read of a cell that may never have been written. -/
def peek (a : CArray α) (i : ℤ) : Option (Option α) :=
  if 0 ≤ i ∧ i < a.size then some (a.cells i) else none

def put (a : CArray α) (i : ℤ) (x : α) : CArray α := ⟨a.size, Function.update a.cells i (some x)⟩

def set (a : CArray α) (i : ℤ) (x : α) : Option (CArray α) :=
  if 0 ≤ i ∧ i < a.size then some (a.put i x) else none

def realloc (a : CArray α) (n : ℤ) : CArray α := ⟨n, fun i => if i < a.size then a.cells i else none⟩

/-- Every cell holds this. -/
def fill (a : CArray α) (x : α) : CArray α :=
  ⟨a.size, fun i => if 0 ≤ i ∧ i < a.size then some x else none⟩

@[simp] theorem size_malloc (n : ℤ) : (malloc n : CArray α).size = n := rfl

@[simp] theorem size_put (a : CArray α) (i : ℤ) (x : α) : (a.put i x).size = a.size := rfl

theorem cells_put (a : CArray α) (i j : ℤ) (x : α) :
    (a.put i x).cells j = if j = i then some x else a.cells j := Function.update_apply ..

theorem get_eq {a : CArray α} {i : ℤ} (h0 : 0 ≤ i) (h1 : i < a.size) : a.get i = a.cells i :=
  if_pos ⟨h0, h1⟩

theorem peek_eq {a : CArray α} {i : ℤ} (h0 : 0 ≤ i) (h1 : i < a.size) :
    a.peek i = some (a.cells i) := if_pos ⟨h0, h1⟩

theorem set_eq {a : CArray α} {i : ℤ} (x : α) (h0 : 0 ≤ i) (h1 : i < a.size) :
    a.set i x = some (a.put i x) := if_pos ⟨h0, h1⟩

theorem get_put {a : CArray α} {i : ℤ} (h0 : 0 ≤ i) (h1 : i < a.size) (j : ℤ) (x : α) :
    (a.put i x).get j = if j = i then some x else a.get j := by
  rw [get, cells_put, size_put]
  by_cases hj : j = i
  · rw [if_pos hj, if_pos hj, if_pos (hj ▸ ⟨h0, h1⟩)]
  · rw [if_neg hj, if_neg hj]
    rfl

theorem eq_put_of_set {a b : CArray α} {i : ℤ} {x : α} (h : a.set i x = some b) : b = a.put i x := by
  unfold set at h
  split at h
  · exact (Option.some.inj h).symm
  · contradiction

/-- The cells from an index on hold these. -/
def Spans (a : CArray α) (p : ℤ) (w : List α) : Prop :=
  ∀ (i : ℕ) (x : α), w[i]? = some x → a.get (p + i) = some x

section
variable {a : CArray α} {p : ℤ} {w : List α} {x : α}

theorem spans_nil (a : CArray α) (p : ℤ) : a.Spans p [] := fun i x h => by simp at h

theorem spans_cons : a.Spans p (x :: w) ↔ a.get p = some x ∧ a.Spans (p + 1) w := by
  constructor
  · intro h
    refine ⟨by simpa using h 0 x rfl, fun i y hy => ?_⟩
    have hget := h (i + 1) y hy
    push_cast at hget
    rwa [Int.add_assoc, Int.add_comm 1]
  · rintro ⟨hx, hw⟩ i y hy
    cases i with
    | zero =>
      obtain rfl := Option.some.inj hy
      simpa using hx
    | succ i =>
      have hget := hw i y hy
      push_cast
      rwa [Int.add_assoc, Int.add_comm 1] at hget

theorem Spans.drop (h : a.Spans p w) (n : ℕ) : a.Spans (p + n) (w.drop n) := fun i y hy => by
  rw [List.getElem?_drop] at hy
  have hget := h (n + i) y hy
  push_cast at hget
  rwa [Int.add_assoc]

theorem Spans.of_prefix {w' : List α} (h : a.Spans p w) (hw : w' <+: w) : a.Spans p w' :=
  fun i y hy => by
    obtain ⟨t, rfl⟩ := hw
    exact h i y ((List.getElem?_append_left (List.getElem?_eq_some_iff.mp hy).1).trans hy)

/-- One more cell is written. -/
theorem Spans.put (h : a.Spans p w) (h0 : 0 ≤ p + w.length) (h1 : p + w.length < a.size) (x : α) :
    (a.put (p + w.length) x).Spans p (w ++ [x]) := by
  intro i y hy
  rw [get_put h0 h1]
  rcases Nat.lt_or_ge i w.length with hlt | hge
  · rw [List.getElem?_append_left hlt] at hy
    rw [if_neg (by omega), h i y hy]
  · obtain rfl : i = w.length := by
      have hi := (List.getElem?_eq_some_iff.mp hy).1
      rw [List.length_append, List.length_singleton] at hi
      omega
    rw [List.getElem?_concat_length] at hy
    rw [if_pos rfl, hy]

/-- An array with these elements. -/
def ofList (w : List α) : CArray α := ⟨w.length, fun i => if 0 ≤ i then w[i.toNat]? else none⟩

theorem spans_ofList (w : List α) : (ofList w).Spans 0 w := fun i x hx => by
  have h0 : (0 : ℤ) ≤ i := Int.natCast_nonneg i
  have h1 : (i : ℤ) < w.length := by exact_mod_cast (List.getElem?_eq_some_iff.mp hx).1
  have hcell : (ofList w).cells i = w[i]? := by
    simp only [ofList, if_pos h0, Int.toNat_natCast]
  rw [Int.zero_add, get_eq h0 h1, hcell, hx]

end

end CArray

end SystemsProgramming
