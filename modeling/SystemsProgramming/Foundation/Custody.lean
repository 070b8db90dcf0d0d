import SystemsProgramming.Foundation.Transition
import Mathlib.Data.Finset.Lattice.Basic
import Mathlib.Data.Finset.Insert
import Mathlib.Data.Fintype.EquivFin
import Mathlib.Logic.Function.Basic

/-! Resources that a process opens and closes under numbers which somebody else hands out. What the
process does is given by the resources that each of its actions opens, uses and closes. Whether it
keeps account of them is a question about names only (`track`); the theorems on runs say what the
answer means for the numbers. -/

namespace SystemsProgramming.Custody

open Transition

variable {ε X N : Type*}

/-- What the actions of a process need. -/
structure Usage (ε X : Type*) where
  opens : ε → List X
  uses : ε → List X
  closes : ε → List X

/-- The numbers that are open, and those under which resources were opened last. -/
structure Table (X N : Type*) where
  opened : Finset N
  number : X → Option N

namespace Table

def IsOpen (t : Table X N) (x : X) : Prop := ∃ n ∈ t.opened, t.number x = some n

variable [DecidableEq X] [DecidableEq N]

def insert (t : Table X N) (x : X) (n : N) : Table X N :=
  ⟨Insert.insert n t.opened, Function.update t.number x (some n)⟩

/-- Each of the resources gets a number that is not open. -/
inductive Opens : Table X N → List X → Table X N → Prop
  | nil {t : Table X N} : Opens t [] t
  | cons {t t' : Table X N} {x : X} {n : N} {xs : List X} : n ∉ t.opened →
      Opens (t.insert x n) xs t' → Opens t (x :: xs) t'

def close (t : Table X N) (x : X) : Table X N :=
  match t.number x with
  | none => t
  | some n => { t with opened := t.opened.erase n }

end Table

namespace Usage

variable (u : Usage ε X)

/-- Everything that the action uses or closes is open. -/
def Valid (t : Table X N) (e : ε) : Prop :=
  (∀ x ∈ u.uses e, t.IsOpen x) ∧ ∀ x ∈ u.closes e, t.IsOpen x

def Step [DecidableEq X] [DecidableEq N] (t : Table X N) (e : ε) (t' : Table X N) : Prop :=
  ∃ s, t.Opens (u.opens e) s ∧ t' = (u.closes e).foldl Table.close s

/-- The resources held after an action. Only those held or standing are used, only those held are
closed, and each is opened once. -/
def track [DecidableEq X] (standing held : List X) (e : ε) : Option (List X) :=
  if (∀ x ∈ u.uses e, x ∈ held ∨ x ∈ standing) ∧ (∀ x ∈ u.closes e, x ∈ held) ∧
      (u.closes e).Nodup ∧ (u.opens e).Nodup ∧ ∀ x ∈ u.opens e, x ∉ held ∧ x ∉ standing then
    some ((u.closes e).foldl List.erase (u.opens e ++ held))
  else none

end Usage

/-- The resources held have numbers of their own, which are open besides those open at the start. -/
structure Holds (t₀ : Table X N) (standing held : List X) (t : Table X N) : Prop where
  nodup : held.Nodup
  apart : ∀ x ∈ standing, x ∉ held
  standing : ∀ x ∈ standing, t.number x = t₀.number x
  numbered : ∀ x ∈ held, ∃ n, t.number x = some n ∧ n ∉ t₀.opened
  injective : ∀ x ∈ held, ∀ y ∈ held, t.number x = t.number y → x = y
  opened : ∀ n, n ∈ t.opened ↔ n ∈ t₀.opened ∨ ∃ x ∈ held, t.number x = some n

namespace Holds

variable {t₀ t t' : Table X N} {standing held held' : List X}

theorem start (t : Table X N) (standing : List X) : Holds t standing [] t where
  nodup := List.nodup_nil
  apart _ _ := List.not_mem_nil
  standing _ _ := rfl
  numbered x hx := nomatch hx
  injective x hx := nomatch hx
  opened n := by simp

theorem isOpen (h : Holds t₀ standing held t) {x : X} (hx : x ∈ held) : t.IsOpen x := by
  obtain ⟨n, hn, -⟩ := h.numbered x hx
  exact ⟨n, (h.opened n).mpr (.inr ⟨x, hx, hn⟩), hn⟩

theorem isOpen_standing (h : Holds t₀ standing held t) {x : X} (hx : x ∈ standing)
    (hopen : t₀.IsOpen x) : t.IsOpen x := by
  obtain ⟨n, hn, hnumber⟩ := hopen
  exact ⟨n, (h.opened n).mpr (.inl hn), (h.standing x hx).trans hnumber⟩

/-- What is opened is held, in whatever order. -/
theorem perm (h : Holds t₀ standing held t) (hp : held.Perm held') : Holds t₀ standing held' t where
  nodup := hp.nodup_iff.mp h.nodup
  apart x hx hmem := h.apart x hx (hp.mem_iff.mpr hmem)
  standing := h.standing
  numbered x hx := h.numbered x (hp.mem_iff.mpr hx)
  injective x hx y hy := h.injective x (hp.mem_iff.mpr hx) y (hp.mem_iff.mpr hy)
  opened n := (h.opened n).trans (or_congr_right (exists_congr fun _ => and_congr_left fun _ =>
    hp.mem_iff))

/-- With nothing held, the same numbers are open as at the start. -/
theorem opened_eq (h : Holds t₀ standing [] t) : t.opened = t₀.opened := by
  ext n
  simpa using h.opened n

variable [DecidableEq X] [DecidableEq N]

theorem insert (h : Holds t₀ standing held t) {x : X} {n : N} (hx : x ∉ held)
    (hstanding : x ∉ standing) (hn : n ∉ t.opened) :
    Holds t₀ standing (x :: held) (t.insert x n) := by
  have hold : ∀ y ∈ held, (t.insert x n).number y = t.number y := fun y hy =>
    Function.update_of_ne (by rintro rfl; exact hx hy) ..
  have hnew : (t.insert x n).number x = some n := Function.update_self ..
  have hfresh : ∀ y ∈ held, t.number y ≠ some n := fun y hy hyn =>
    hn ((h.opened n).mpr (.inr ⟨y, hy, hyn⟩))
  constructor
  · exact List.nodup_cons.mpr ⟨hx, h.nodup⟩
  · intro y hy hmem
    rcases List.mem_cons.mp hmem with rfl | hmem
    · exact hstanding hy
    · exact h.apart y hy hmem
  · intro y hy
    rw [← h.standing y hy]
    exact Function.update_of_ne (by rintro rfl; exact hstanding hy) ..
  · intro y hy
    rcases List.mem_cons.mp hy with rfl | hy
    · exact ⟨n, hnew, fun hmem => hn ((h.opened n).mpr (.inl hmem))⟩
    · rw [hold y hy]
      exact h.numbered y hy
  · intro y hy z hz heq
    rcases List.mem_cons.mp hy with rfl | hyheld <;> rcases List.mem_cons.mp hz with rfl | hzheld
    · rfl
    · rw [hnew, hold z hzheld] at heq
      exact absurd heq.symm (hfresh z hzheld)
    · rw [hnew, hold y hyheld] at heq
      exact absurd heq (hfresh y hyheld)
    · rw [hold y hyheld, hold z hzheld] at heq
      exact h.injective y hyheld z hzheld heq
  · intro m
    have hmem : m ∈ (t.insert x n).opened ↔ m = n ∨ m ∈ t.opened := Finset.mem_insert
    rw [hmem, h.opened]
    constructor
    · rintro (rfl | hm | ⟨y, hy, hm⟩)
      · exact .inr ⟨x, List.mem_cons_self, hnew⟩
      · exact .inl hm
      · exact .inr ⟨y, List.mem_cons_of_mem x hy, (hold y hy).trans hm⟩
    · rintro (hm | ⟨y, hy, hm⟩)
      · exact .inr (.inl hm)
      · rcases List.mem_cons.mp hy with rfl | hy
        · exact .inl (Option.some.inj (hm.symm.trans hnew))
        · exact .inr (.inr ⟨y, hy, (hold y hy).symm.trans hm⟩)

theorem opens (h : Holds t₀ standing held t) {xs : List X} (hxs : xs.Nodup)
    (hnew : ∀ x ∈ xs, x ∉ held ∧ x ∉ standing) (ho : t.Opens xs t') :
    Holds t₀ standing (xs ++ held) t' := by
  induction ho generalizing held with
  | nil => exact h
  | @cons t t' x n xs hn _ ih =>
    obtain ⟨hx, hxs⟩ := List.nodup_cons.mp hxs
    obtain ⟨hheld, hstanding⟩ := hnew x List.mem_cons_self
    refine (ih (h.insert hheld hstanding hn) hxs fun y hy => ?_).perm List.perm_middle
    obtain ⟨hyheld, hystanding⟩ := hnew y (List.mem_cons_of_mem x hy)
    refine ⟨fun hmem => ?_, hystanding⟩
    rcases List.mem_cons.mp hmem with rfl | hmem
    · exact hx hy
    · exact hyheld hmem

theorem close (h : Holds t₀ standing held t) {x : X} (hx : x ∈ held) :
    Holds t₀ standing (held.erase x) (t.close x) := by
  obtain ⟨n, hn, hnew⟩ := h.numbered x hx
  have hclose : t.close x = { t with opened := t.opened.erase n } := by rw [Table.close, hn]
  rw [hclose]
  have hmem : ∀ {y}, y ∈ held.erase x → y ∈ held := List.mem_of_mem_erase
  refine ⟨h.nodup.erase x, fun y hy hyx => h.apart y hy (hmem hyx), h.standing,
    fun y hy => h.numbered y (hmem hy), fun y hy z hz => h.injective y (hmem hy) z (hmem hz), fun m => ?_⟩
  rw [show m ∈ t.opened.erase n ↔ m ≠ n ∧ m ∈ t.opened from Finset.mem_erase, h.opened]
  constructor
  · rintro ⟨hm, hold | ⟨y, hy, hym⟩⟩
    · exact .inl hold
    · refine .inr ⟨y, (List.mem_erase_of_ne ?_).mpr hy, hym⟩
      rintro rfl
      exact hm (Option.some.inj (hym.symm.trans hn))
  · rintro (hold | ⟨y, hy, hym⟩)
    · exact ⟨by rintro rfl; exact hnew hold, .inl hold⟩
    · refine ⟨?_, .inr ⟨y, hmem hy, hym⟩⟩
      rintro rfl
      obtain rfl := h.injective y (hmem hy) x hx (hym.trans hn.symm)
      exact (h.nodup.not_mem_erase) hy

theorem closes (h : Holds t₀ standing held t) {xs : List X} (hxs : xs.Nodup)
    (hheld : ∀ x ∈ xs, x ∈ held) :
    Holds t₀ standing (xs.foldl List.erase held) (xs.foldl Table.close t) := by
  induction xs generalizing held t with
  | nil => exact h
  | cons x xs ih =>
    obtain ⟨hx, hxs⟩ := List.nodup_cons.mp hxs
    refine ih (h.close (hheld x List.mem_cons_self)) hxs fun y hy => ?_
    refine (List.mem_erase_of_ne ?_).mpr (hheld y (List.mem_cons_of_mem x hy))
    rintro rfl
    exact hx hy

end Holds

namespace Usage

variable [DecidableEq X] [DecidableEq N]
variable {u : Usage ε X} {t₀ t t' : Table X N} {standing held held' : List X} {e : ε}

theorem track_eq_some (h : u.track standing held e = some held') :
    ((∀ x ∈ u.uses e, x ∈ held ∨ x ∈ standing) ∧ (∀ x ∈ u.closes e, x ∈ held) ∧
      (u.closes e).Nodup ∧ (u.opens e).Nodup ∧ ∀ x ∈ u.opens e, x ∉ held ∧ x ∉ standing) ∧
    held' = (u.closes e).foldl List.erase (u.opens e ++ held) := by
  rw [track] at h
  split_ifs at h with hok
  exact ⟨hok, (Option.some.inj h).symm⟩

/-- An action that is accounted for keeps the account. -/
theorem holds_step (ht : Holds t₀ standing held t) (h : u.track standing held e = some held')
    (hstep : u.Step t e t') : Holds t₀ standing held' t' := by
  obtain ⟨⟨-, hcloses, hnodup, hopens, hnew⟩, rfl⟩ := track_eq_some h
  obtain ⟨s, hs, rfl⟩ := hstep
  exact (ht.opens hopens hnew hs).closes hnodup fun x hx => List.mem_append_right _ (hcloses x hx)

theorem holds_run {es : List ε} (ht : Holds t₀ standing held t)
    (h : es.foldlM (u.track standing) held = some held') (hrun : Run u.Step t es t') :
    Holds t₀ standing held' t' := by
  induction hrun generalizing held' with
  | nil =>
    obtain rfl := Option.some.inj h
    exact ht
  | snoc _ hstep ih =>
    rw [List.foldlM_append] at h
    obtain ⟨held₁, h₁, h₂⟩ := Option.bind_eq_some_iff.mp h
    rw [List.foldlM_cons] at h₂
    obtain ⟨held₂, hlast, h₃⟩ := Option.bind_eq_some_iff.mp h₂
    obtain rfl := Option.some.inj h₃
    exact holds_step (ih h₁) hlast hstep

/-- What a process that keeps account uses or closes is open then. -/
theorem valid_run {pre post : List ε} (ht : Holds t₀ standing held t)
    (hstanding : ∀ x ∈ standing, t₀.IsOpen x)
    (h : (pre ++ e :: post).foldlM (u.track standing) held = some held')
    (hrun : Run u.Step t pre t') : u.Valid t' e := by
  rw [List.foldlM_append] at h
  obtain ⟨held₁, h₁, h₂⟩ := Option.bind_eq_some_iff.mp h
  rw [List.foldlM_cons] at h₂
  obtain ⟨held₂, h₂, -⟩ := Option.bind_eq_some_iff.mp h₂
  have ht' := holds_run ht h₁ hrun
  obtain ⟨⟨huses, hcloses, -⟩, -⟩ := track_eq_some h₂
  refine ⟨fun x hx => ?_, fun x hx => ht'.isOpen (hcloses x hx)⟩
  rcases huses x hx with hheld | hx
  · exact ht'.isOpen hheld
  · exact ht'.isOpen_standing hx (hstanding x hx)

theorem perm_foldl_erase {xs l : List X} (hxs : xs.Nodup) (h : ∀ x ∈ xs, x ∈ l) :
    (xs ++ xs.foldl List.erase l).Perm l := by
  induction xs generalizing l with
  | nil => exact .refl l
  | cons x xs ih =>
    obtain ⟨hx, hxs⟩ := List.nodup_cons.mp hxs
    have hperm := ih hxs (l := l.erase x) fun y hy => by
      refine (List.mem_erase_of_ne ?_).mpr (h y (List.mem_cons_of_mem x hy))
      rintro rfl
      exact hx hy
    exact (hperm.cons x).trans (List.perm_cons_erase (h x List.mem_cons_self)).symm

/-- What is opened is closed once, or still held. -/
theorem perm_run {es : List ε} (h : es.foldlM (u.track standing) held = some held') :
    (es.flatMap u.closes ++ held').Perm (es.flatMap u.opens ++ held) := by
  induction es generalizing held with
  | nil =>
    obtain rfl := Option.some.inj h
    exact .refl held
  | cons e es ih =>
    rw [List.foldlM_cons] at h
    obtain ⟨held₁, h₁, h⟩ := Option.bind_eq_some_iff.mp h
    obtain ⟨⟨-, hcloses, hnodup, -⟩, rfl⟩ := track_eq_some h₁
    rw [List.flatMap_cons, List.flatMap_cons, List.append_assoc]
    have hclosed := perm_foldl_erase hnodup fun x hx => List.mem_append_right (u.opens e) (hcloses x hx)
    have hrest := ((ih h).append_left (u.closes e)).trans (List.perm_append_comm_assoc ..)
    rw [List.append_assoc]
    exact hrest.trans ((hclosed.append_left _).trans (List.perm_append_comm_assoc ..))

theorem exists_opens [Infinite N] (t : Table X N) (xs : List X) : ∃ t', t.Opens xs t' := by
  induction xs generalizing t with
  | nil => exact ⟨t, .nil⟩
  | cons x xs ih =>
    obtain ⟨n, hn⟩ := Infinite.exists_notMem_finset t.opened
    obtain ⟨t', ht'⟩ := ih (t.insert x n)
    exact ⟨t', .cons hn ht'⟩

/-- As long as there are numbers, every list of actions has a run. -/
theorem exists_run [Infinite N] (u : Usage ε X) (t : Table X N) (es : List ε) :
    ∃ t', Run u.Step t es t' := by
  induction es generalizing t with
  | nil => exact ⟨t, .nil⟩
  | cons e es ih =>
    obtain ⟨s, hs⟩ := exists_opens t (u.opens e)
    obtain ⟨t', ht'⟩ := ih ((u.closes e).foldl Table.close s)
    exact ⟨t', .cons ⟨s, hs, rfl⟩ ht'⟩

end Usage

end SystemsProgramming.Custody
