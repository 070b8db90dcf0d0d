import SystemsProgramming.Foundation.Transition
import Mathlib.Data.List.Nodup
import Mathlib.Data.List.TakeDrop
import Mathlib.Tactic.SplitIfs

/-! Queues kept in an array in constant time: the first element is taken, and the last one moves to its
place. With one or two elements this is the order of a queue. A take from a longer one leaves the last
element in front of others, and the next take shows it. -/

namespace SystemsProgramming.SwapQueue

open Transition

variable {α : Type*}

inductive Op (α : Type*)
  | push (a : α)
  | take (a : α)

/-- What is left behind the first element, after the last one has moved to the front. -/
def refill (q : List α) : List α := q.getLast?.toList ++ q.dropLast

inductive Step : List α → Op α → List α → Prop
  | push {q : List α} {a : α} : a ∉ q → Step q (.push a) (q ++ [a])
  | take {q : List α} {a : α} : Step (a :: q) (.take a) (refill q)

def Op.pushed? : Op α → Option α
  | push a => some a
  | take _ => none

def Op.taken? : Op α → Option α
  | push _ => none
  | take a => some a

def pushes (os : List (Op α)) : List α := os.filterMap Op.pushed?

def takes (os : List (Op α)) : List α := os.filterMap Op.taken?

/-- At most two elements are there whenever one is taken. -/
def Short (os : List (Op α)) : Prop :=
  ∀ es a fs, os = es ++ .take a :: fs → (pushes es).length ≤ (takes es).length + 2

/-- At most two elements are there whenever one is taken and another one will be. -/
def ShortBefore (os : List (Op α)) : Prop :=
  ∀ es a fs, os = es ++ .take a :: fs → takes fs ≠ [] → (pushes es).length ≤ (takes es).length + 2

variable {os : List (Op α)} {q : List α} {a : α}

@[simp] theorem refill_nil : refill ([] : List α) = [] := rfl

@[simp] theorem refill_concat (q : List α) (a : α) : refill (q ++ [a]) = a :: q := by
  simp [refill]

theorem getElem?_refill (q : List α) (i : ℕ) : (refill q)[i]? =
    if i = 0 then q[q.length - 1]? else if i < q.length then q[i - 1]? else none := by
  rcases List.eq_nil_or_concat q with rfl | ⟨mid, c, rfl⟩
  · simp
  rw [List.concat_eq_append, refill_concat, List.length_append, List.length_singleton]
  cases i with
  | zero => simp
  | succ i =>
    rw [List.getElem?_cons_succ, if_neg (Nat.succ_ne_zero i), Nat.add_sub_cancel]
    split_ifs with hi
    · rw [List.getElem?_append_left (by omega)]
    · exact List.getElem?_eq_none (by omega)

@[simp] theorem pushes_push (os : List (Op α)) (a : α) :
    pushes (os ++ [.push a]) = pushes os ++ [a] := by simp [pushes, Op.pushed?]

@[simp] theorem pushes_take (os : List (Op α)) (a : α) : pushes (os ++ [.take a]) = pushes os := by
  simp [pushes, Op.pushed?]

@[simp] theorem takes_push (os : List (Op α)) (a : α) : takes (os ++ [.push a]) = takes os := by
  simp [takes, Op.taken?]

@[simp] theorem takes_take (os : List (Op α)) (a : α) :
    takes (os ++ [.take a]) = takes os ++ [a] := by simp [takes, Op.taken?]

/-! ### The length at takes -/

/-- Where the take that splits a longer list is. -/
theorem concat_eq_iff {o : Op α} {es fs : List (Op α)} : os ++ [o] = es ++ .take a :: fs ↔
    fs = [] ∧ os = es ∧ o = .take a ∨ ∃ gs, fs = gs ++ [o] ∧ os = es ++ .take a :: gs := by
  rcases List.eq_nil_or_concat fs with rfl | ⟨gs, p, rfl⟩
  · simp
  · rw [List.concat_eq_append, ← List.cons_append, ← List.append_assoc, List.append_singleton_inj]
    constructor
    · rintro ⟨rfl, rfl⟩
      exact .inr ⟨gs, rfl, rfl⟩
    · rintro (⟨hnil, -⟩ | ⟨hs, heq, hos⟩)
      · simp at hnil
      · obtain ⟨rfl, hp⟩ := List.append_singleton_inj.mp heq
        exact ⟨hos, hp.symm⟩

theorem short_push : Short (os ++ [.push a]) ↔ Short os := by
  constructor
  · exact fun h es b fs hos => h es b (fs ++ [.push a]) (concat_eq_iff.mpr (.inr ⟨fs, rfl, hos⟩))
  · intro h es b fs hos
    rcases concat_eq_iff.mp hos with ⟨-, -, hb⟩ | ⟨gs, -, hos⟩
    · cases hb
    · exact h es b gs hos

theorem short_take :
    Short (os ++ [.take a]) ↔ Short os ∧ (pushes os).length ≤ (takes os).length + 2 := by
  constructor
  · intro h
    exact ⟨fun es b fs hos => h es b (fs ++ [.take a]) (concat_eq_iff.mpr (.inr ⟨fs, rfl, hos⟩)),
      h os a [] rfl⟩
  · rintro ⟨h, hlen⟩ es b fs hos
    rcases concat_eq_iff.mp hos with ⟨-, rfl, -⟩ | ⟨gs, -, hos⟩
    · exact hlen
    · exact h es b gs hos

theorem shortBefore_push : ShortBefore (os ++ [.push a]) ↔ ShortBefore os := by
  constructor
  · intro h es b fs hos hfs
    refine h es b (fs ++ [.push a]) (concat_eq_iff.mpr (.inr ⟨fs, rfl, hos⟩)) ?_
    rwa [takes_push]
  · intro h es b fs hos hfs
    rcases concat_eq_iff.mp hos with ⟨-, -, hb⟩ | ⟨gs, rfl, hgs⟩
    · cases hb
    · rw [takes_push] at hfs
      exact h es b gs hgs hfs

theorem shortBefore_take : ShortBefore (os ++ [.take a]) ↔ Short os := by
  constructor
  · intro h es b fs hos
    refine h es b (fs ++ [.take a]) (concat_eq_iff.mpr (.inr ⟨fs, rfl, hos⟩)) ?_
    simp
  · intro h es b fs hos hfs
    rcases concat_eq_iff.mp hos with ⟨rfl, -, -⟩ | ⟨gs, -, hos⟩
    · exact absurd rfl hfs
    · exact h es b gs hos

theorem Short.shortBefore (h : Short os) : ShortBefore os := fun es b fs hos _ => h es b fs hos

/-! ### The order of takes -/

/-- The first element was pushed after some of the others. -/
def Twisted (os : List (Op α)) (q : List α) : Prop :=
  ∃ c mid rest, mid ≠ [] ∧ q = c :: (mid ++ rest) ∧ pushes os = takes os ++ (mid ++ c :: rest)

/-- An element has been taken in the place of another one. -/
def Overtaken (os : List (Op α)) : Prop :=
  ∃ k, k ≤ (pushes os).length ∧ k ≤ (takes os).length ∧ (takes os).take k ≠ (pushes os).take k

theorem Overtaken.snoc (h : Overtaken os) (o : Op α) : Overtaken (os ++ [o]) := by
  obtain ⟨k, hp, ht, hne⟩ := h
  cases o with
  | push a =>
    refine ⟨k, ?_, ?_, ?_⟩
    · rw [pushes_push, List.length_append]
      omega
    · rwa [takes_push]
    · rwa [pushes_push, takes_push, List.take_append_of_le_length hp]
  | take a =>
    refine ⟨k, ?_, ?_, ?_⟩
    · rwa [pushes_take]
    · rw [takes_take, List.length_append]
      omega
    · rwa [pushes_take, takes_take, List.take_append_of_le_length ht]

theorem Overtaken.not_prefix (h : Overtaken os) : ¬takes os <+: pushes os := by
  rintro ⟨rest, hrest⟩
  obtain ⟨k, -, ht, hne⟩ := h
  rw [← hrest, List.take_append_of_le_length ht] at hne
  exact hne rfl

theorem Twisted.push (h : Twisted os q) (a : α) : Twisted (os ++ [.push a]) (q ++ [a]) := by
  obtain ⟨c, mid, rest, hmid, rfl, hos⟩ := h
  exact ⟨c, mid, rest ++ [a], hmid, by simp, by simp [hos]⟩

theorem Twisted.overtaken (h : Twisted os (a :: q)) (hq : (a :: q).Nodup) :
    Overtaken (os ++ [.take a]) := by
  obtain ⟨c, mid, rest, hmid, heq, hos⟩ := h
  obtain ⟨rfl, rfl⟩ := List.cons_eq_cons.mp heq
  obtain ⟨b, mid, rfl⟩ := List.exists_cons_of_ne_nil hmid
  have hne : a ≠ b := by
    rintro rfl
    simp at hq
  refine ⟨(takes os).length + 1, ?_, ?_, ?_⟩
  · simp [hos]
  · simp
  · rw [takes_take, pushes_take, hos, List.take_append, List.take_append]
    simpa using hne

/-- What a queue shows of the order it has kept. -/
structure Inv (os : List (Op α)) (q : List α) : Prop where
  nodup : q.Nodup
  length : (pushes os).length = (takes os).length + q.length
  order : Short os ∧ pushes os = takes os ++ q ∨ ¬Short os ∧ ShortBefore os ∧ Twisted os q ∨
    ¬ShortBefore os ∧ Overtaken os

theorem Inv.push (h : Inv os q) (ha : a ∉ q) : Inv (os ++ [.push a]) (q ++ [a]) where
  nodup := List.nodup_append.mpr ⟨h.nodup, List.nodup_singleton a, by
    rintro b hb c hc rfl
    exact ha (List.mem_singleton.mp hc ▸ hb)⟩
  length := by
    have hlen := h.length
    simp only [pushes_push, takes_push, List.length_append, List.length_singleton]
    omega
  order := by
    rw [short_push, shortBefore_push]
    rcases h.order with ⟨hs, hos⟩ | ⟨hs, hb, ht⟩ | ⟨hb, ho⟩
    · exact .inl ⟨hs, by simp [hos]⟩
    · exact .inr (.inl ⟨hs, hb, ht.push a⟩)
    · exact .inr (.inr ⟨hb, ho.snoc _⟩)

theorem nodup_refill (h : q.Nodup) : (refill q).Nodup := by
  rcases List.eq_nil_or_concat q with rfl | ⟨mid, c, rfl⟩
  · exact List.nodup_nil
  · rw [List.concat_eq_append] at h ⊢
    rw [refill_concat]
    exact (List.perm_append_singleton c mid).nodup_iff.mp h

theorem length_refill (q : List α) : (refill q).length = q.length := by
  rcases List.eq_nil_or_concat q with rfl | ⟨mid, c, rfl⟩
  · rfl
  · simp

theorem Inv.take (h : Inv os (a :: q)) : Inv (os ++ [.take a]) (refill q) where
  nodup := nodup_refill (List.nodup_cons.mp h.nodup).2
  length := by
    have hlen := h.length
    rw [List.length_cons] at hlen
    rw [pushes_take, takes_take, List.length_append, List.length_singleton, length_refill]
    omega
  order := by
    have hlen := h.length
    rw [List.length_cons] at hlen
    rw [short_take, shortBefore_take, pushes_take, takes_take]
    rcases h.order with ⟨hs, hos⟩ | ⟨hs, -, ht⟩ | ⟨hb, ho⟩
    · rcases List.eq_nil_or_concat q with rfl | ⟨mid, c, rfl⟩
      · refine .inl ⟨⟨hs, ?_⟩, by simp [hos]⟩
        rw [List.length_nil] at hlen
        omega
      rw [List.concat_eq_append] at hlen hos ⊢
      rw [List.length_append, List.length_singleton] at hlen
      by_cases hmid : mid = []
      · refine .inl ⟨⟨hs, ?_⟩, by simp [hos, hmid, refill]⟩
        rw [hmid, List.length_nil] at hlen
        omega
      · -- the last element jumps the ones in the middle
        have hpos := List.length_pos_iff.mpr hmid
        refine .inr (.inl ⟨fun hshort => ?_, hs, c, mid, [], hmid, by simp, by simp [hos]⟩)
        have := hshort.2
        omega
    · exact .inr (.inr ⟨hs, ht.overtaken h.nodup⟩)
    · exact .inr (.inr ⟨fun hs => hb hs.shortBefore, ho.snoc _⟩)

theorem Inv.nil : Inv ([] : List (Op α)) [] where
  nodup := List.nodup_nil
  length := rfl
  order := .inl ⟨fun es a fs hos => by simp at hos, rfl⟩

theorem Inv.run (h : Run Step [] os q) : Inv os q :=
  h.trace_invariant .nil fun _ _ _ _ _ hi hs => by
    cases hs with
    | push ha => exact hi.push ha
    | take => exact hi.take

/-- The elements are taken in the order of their pushes exactly when at most two of them are there
whenever one is taken, unless it is the last one to be taken. -/
theorem takes_prefix_iff (h : Run Step [] os q) : takes os <+: pushes os ↔ ShortBefore os := by
  rcases (Inv.run h).order with ⟨hs, hos⟩ | ⟨-, hb, ht⟩ | ⟨hb, ho⟩
  · exact iff_of_true ⟨q, hos.symm⟩ hs.shortBefore
  · obtain ⟨c, mid, rest, -, -, hos⟩ := ht
    exact iff_of_true ⟨mid ++ c :: rest, hos.symm⟩ hb
  · exact iff_of_false ho.not_prefix hb

end SystemsProgramming.SwapQueue
