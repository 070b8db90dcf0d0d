import Mathlib.Data.Option.Basic
import Mathlib.Data.Nat.Notation
import Mathlib.Data.List.Nodup
import Mathlib.Data.List.Range
import Mathlib.Tactic.SplitIfs

/-! A heap of objects of one type. `malloc` never hands out an address again, so a dangling pointer
stays dangling; an access through one, and a second `free`, have no result. -/

namespace SystemsProgramming

structure Heap (α : Type*) where
  load : ℕ → Option α
  next : ℕ
  fresh : ∀ p, next ≤ p → load p = none

namespace Heap

variable {α : Type*}

def empty : Heap α := ⟨fun _ => none, 0, fun _ _ => rfl⟩

/-- `malloc`; the address is `next`. -/
def malloc (h : Heap α) (a : α) : Heap α where
  load q := if q = h.next then some a else h.load q
  next := h.next + 1
  fresh p hp := by
    rw [if_neg (by omega)]
    exact h.fresh p (by omega)

def update (h : Heap α) (p : ℕ) (f : α → α) : Heap α where
  load q := if q = p then (h.load q).map f else h.load q
  next := h.next
  fresh q hq := by simp [h.fresh q hq]

/-- `p->field = ...` -/
def modify (h : Heap α) (p : ℕ) (f : α → α) : Option (Heap α) :=
  if (h.load p).isSome then some (h.update p f) else none

def erase (h : Heap α) (p : ℕ) : Heap α where
  load q := if q = p then none else h.load q
  next := h.next
  fresh q hq := by simp [h.fresh q hq]

def free (h : Heap α) (p : ℕ) : Option (Heap α) :=
  if (h.load p).isSome then some (h.erase p) else none

variable {h : Heap α} {p q : ℕ} {a : α}

theorem load_malloc (h : Heap α) (a : α) (q : ℕ) :
    (h.malloc a).load q = if q = h.next then some a else h.load q := rfl

theorem load_update (h : Heap α) (p : ℕ) (f : α → α) (q : ℕ) :
    (h.update p f).load q = if q = p then (h.load q).map f else h.load q := rfl

theorem load_erase (h : Heap α) (p q : ℕ) :
    (h.erase p).load q = if q = p then none else h.load q := rfl

@[simp] theorem next_malloc (h : Heap α) (a : α) : (h.malloc a).next = h.next + 1 := rfl

@[simp] theorem next_update (h : Heap α) (p : ℕ) (f : α → α) : (h.update p f).next = h.next := rfl

@[simp] theorem next_erase (h : Heap α) (p : ℕ) : (h.erase p).next = h.next := rfl

theorem lt_next (hp : h.load p = some a) : p < h.next := by
  rcases Nat.lt_or_ge p h.next with hlt | hge
  · exact hlt
  · rw [h.fresh p hge] at hp
    cases hp

theorem ne_next (hp : h.load p = some a) : p ≠ h.next := Nat.ne_of_lt (lt_next hp)

theorem modify_eq (hp : h.load p = some a) (f : α → α) : h.modify p f = some (h.update p f) := by
  simp [modify, hp]

theorem free_eq (hp : h.load p = some a) : h.free p = some (h.erase p) := by simp [free, hp]

/-- What is allocated stays so when something else is. -/
theorem load_malloc_of_load (hp : h.load p = some a) (b : α) : (h.malloc b).load p = some a := by
  rw [load_malloc, if_neg (ne_next hp), hp]

theorem load_update_self (hp : h.load p = some a) (f : α → α) :
    (h.update p f).load p = some (f a) := by
  rw [load_update, if_pos rfl, hp]
  rfl

theorem load_update_ne (f : α → α) (hne : q ≠ p) : (h.update p f).load q = h.load q := if_neg hne

theorem of_load_update {f : α → α} (hq : (h.update p f).load q = some a) :
    ∃ b, h.load q = some b ∧ a = if q = p then f b else b := by
  rw [load_update] at hq
  split_ifs at hq with hqp
  · obtain ⟨b, hb, hba⟩ := Option.map_eq_some_iff.mp hq
    exact ⟨b, hb, by rw [if_pos hqp, hba]⟩
  · exact ⟨a, hq, (if_neg hqp).symm⟩

theorem of_load_erase (hq : (h.erase p).load q = some a) : q ≠ p ∧ h.load q = some a := by
  rw [load_erase] at hq
  split_ifs at hq with hqp
  exact ⟨hqp, hq⟩

/-- What is done to an object is lost with it. -/
theorem erase_update (h : Heap α) (p : ℕ) (f : α → α) : (h.update p f).erase p = h.erase p := by
  simp only [erase, update, mk.injEq, and_true]
  funext q
  split_ifs <;> rfl

theorem load_erase_ne (hne : q ≠ p) : (h.erase p).load q = h.load q := if_neg hne

/-! ### What is allocated -/

def live (h : Heap α) : List ℕ := (List.range h.next).filter fun p => (h.load p).isSome

theorem mem_live : p ∈ h.live ↔ ∃ a, h.load p = some a := by
  rw [live, List.mem_filter, List.mem_range, Option.isSome_iff_exists]
  exact ⟨And.right, fun ⟨a, hp⟩ => ⟨lt_next hp, a, hp⟩⟩

theorem nodup_live (h : Heap α) : h.live.Nodup := List.nodup_range.filter _

/-- What is allocated, listed in another order. -/
theorem perm_live {ps : List ℕ} (hnodup : ps.Nodup) (hmem : ∀ p, p ∈ ps ↔ ∃ a, h.load p = some a) :
    ps.Perm h.live :=
  (List.perm_ext_iff_of_nodup hnodup h.nodup_live).mpr fun p => (hmem p).trans mem_live.symm

/-- Objects that are referred to by others, each by one. -/
theorem length_live_eq {β : Type*} {k : Heap β} (g : α → ℕ)
    (hone : ∀ p q a b, h.load p = some a → h.load q = some b → g a = g b → p = q)
    (hmem : ∀ m, (∃ y, k.load m = some y) ↔ ∃ p a, h.load p = some a ∧ g a = m) :
    k.live.length = h.live.length := by
  have hsome : ∀ p ∈ h.live, ∃ a, h.load p = some a := fun p hp => mem_live.mp hp
  have hperm : (h.live.map fun p => ((h.load p).map g).getD 0).Perm k.live := by
    refine perm_live ?_ fun m => ?_
    · refine (List.nodup_map_iff_inj_on h.nodup_live).mpr fun p hp q hq heq => ?_
      obtain ⟨a, ha⟩ := hsome p hp
      obtain ⟨b, hb⟩ := hsome q hq
      rw [ha, hb] at heq
      exact hone p q a b ha hb heq
    · rw [hmem, List.mem_map]
      constructor
      · rintro ⟨p, hp, heq⟩
        obtain ⟨a, ha⟩ := hsome p hp
        rw [ha] at heq
        exact ⟨p, a, ha, heq⟩
      · rintro ⟨p, a, ha, heq⟩
        exact ⟨p, mem_live.mpr ⟨a, ha⟩, by rw [ha]; exact heq⟩
  rw [← hperm.length_eq, List.length_map]

end Heap

end SystemsProgramming
