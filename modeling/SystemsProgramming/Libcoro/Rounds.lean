import SystemsProgramming.Libcoro.RoundRobin
import Mathlib.Data.List.Basic
import Mathlib.Data.List.Perm.Basic

/-! What the events of a run of the plan say. Nobody is lost or returned twice; who is returned was over,
and had returned its value itself; and a round enters those who are going on one after another. -/

namespace SystemsProgramming.Libcoro

open Transition

variable {σ : Type}

namespace Event

/-- The coroutine that `coro_sched_wait` returns. -/
def waited : Event → Option ℕ
  | wait c => c
  | _ => none

/-- The coroutine that is entered. -/
def entered : Event → Option ℕ
  | enter (.coro c) => some c
  | _ => none

end Event

open Event

namespace Plan

variable {p p₀ p' : Plan σ} {e : Event} {es : List Event} {stage : ℕ → Stage σ ℤ} {c : ℕ}
  {queue l : List ℕ}

/-! ### Who is returned -/

theorem Step.waited_perm (h : Step p e p') : (e.waited.toList ++ p'.queue).Perm p.queue := by
  cases h with
  | wait hc _ => exact (List.perm_cons_erase hc).symm
  | _ => exact .refl _

/-- Those who were returned and those in the queue stay the same. -/
theorem Step.waited_append_perm (h : Step p e p') (es : List Event) :
    ((es ++ [e]).filterMap waited ++ p'.queue).Perm (es.filterMap waited ++ p.queue) := by
  have hone : [e].filterMap waited = e.waited.toList := by
    cases hw : e.waited <;> simp [hw]
  rw [List.filterMap_append, List.append_assoc, hone]
  exact h.waited_perm.append_left _

theorem waited_perm (h : Run Step p₀ es p) : (es.filterMap waited ++ p.queue).Perm p₀.queue := by
  induction h with
  | nil => exact .refl _
  | snoc _ hstep ih => exact (hstep.waited_append_perm _).trans ih

theorem of_update {d : ℕ} {x y : Stage σ ℤ} (h : Function.update stage d x c = y) :
    c = d ∧ x = y ∨ stage c = y := by
  by_cases hcd : c = d
  · subst hcd
    rw [Function.update_self] at h
    exact .inl ⟨rfl, h⟩
  · rw [Function.update_of_ne hcd] at h
    exact .inr h

theorem Step.ended {v : ℤ} (h : Step p e p') (hc : p'.stage c = .ended v) :
    p.stage c = .ended v ∨ e = .ret c v := by
  cases h with
  | ret =>
    rcases of_update hc with ⟨rfl, hv⟩ | hc
    · exact .inr (by rw [Stage.ended.inj hv])
    · exact .inl hc
  | get | put | next | last =>
    rcases of_update hc with ⟨-, hv⟩ | hc
    · cases hv
    · exact .inl hc
  | _ => exact .inl hc

/-- A coroutine that is over has returned its value. -/
theorem ret_mem (h : Run Step p₀ es p) (h0 : ∀ q, Going p₀.stage q) {v : ℤ}
    (hc : p.stage c = .ended v) : .ret c v ∈ es := by
  induction h with
  | nil => exact absurd ⟨v, hc⟩ (not_over (h0 c))
  | snoc _ hstep ih =>
    rcases hstep.ended hc with hc | rfl
    · exact List.mem_append_left _ (ih hc)
    · exact List.mem_append_right _ List.mem_cons_self

/-! ### Rounds -/

/-- Those who are going on, in order. -/
def live (p : Plan σ) : List ℕ := p.queue.filter fun q => !isOver p.stage q

theorem isOver_of_going (h : Going stage c) : isOver stage c = false :=
  Bool.eq_false_iff.mpr fun hover => not_over h (isOver_iff.mp hover)

theorem live_eq (h : ∀ q ∈ p.queue, Going p.stage q) : p.live = p.queue :=
  List.filter_eq_self.mpr fun q hq => by rw [isOver_of_going (h q hq)]; rfl

/-- What has been entered since the scheduler was. -/
def Entered (l : List ℕ) (es : List Event) (p : Plan σ) : Prop :=
  match p.phase with
  | .func c => ∃ l₁ l₂, l = l₁ ++ c :: l₂ ∧ es.filterMap entered = l₁ ++ [c] ∧ p.queue = l
  | .finished c => (∃ l₁ l₂, l = l₁ ++ c :: l₂ ∧ es.filterMap entered = l₁ ++ [c]) ∧ ∃ v, .ret c v ∈ es
  | _ => es.filterMap entered = [] ∧ p.live = l

/-- The place of an entry in a list without repetitions. -/
theorem split_unique {l₁ l₂ l₃ l₄ : List ℕ} (h : l₁ ++ c :: l₂ = l₃ ++ c :: l₄)
    (hnodup : (l₁ ++ c :: l₂).Nodup) : l₁ = l₃ ∧ l₂ = l₄ := by
  have hnot := (List.nodup_cons.mp (List.perm_middle.nodup_iff.mp hnodup)).1
  rw [List.mem_append, not_or] at hnot
  obtain ⟨h₁, -, h₂⟩ := (List.append_cons_inj_of_notMem hnot.1 hnot.2).mp h
  exact ⟨h₁, h₂⟩

theorem Entered.step (h : Entered l es p) (hp : p.Valid) (hstep : Step p e p')
    (he : e ≠ .enter .sched) : Entered l (es ++ [e]) p' := by
  have hp' := hp.step hstep
  cases hstep with
  | call =>
    refine ⟨?_, h.2⟩
    rw [List.filterMap_append, h.1]
    rfl
  | none =>
    refine ⟨?_, h.2⟩
    rw [List.filterMap_append, h.1]
    rfl
  | @wait queue stage shared c hc hover =>
    refine ⟨?_, ?_⟩
    · rw [List.filterMap_append, h.1]
      rfl
    · refine Eq.trans ?_ h.2
      rw [live, live, hp.nodup.erase_eq_filter, List.filter_filter]
      refine List.filter_congr fun q _ => ?_
      by_cases hqc : q = c
      · rw [hqc, isOver_iff.mpr hover]
        rfl
      · simp [hqc]
  | @round queue stage shared c hgoing =>
    have hlive : c :: queue = l :=
      (live_eq (p := ⟨c :: queue, stage, .wait, shared⟩) hgoing).symm.trans h.2
    refine ⟨[], queue, hlive.symm, ?_, hlive⟩
    rw [List.filterMap_append, h.1]
    rfl
  | get _ =>
    obtain ⟨l₁, l₂, hl, hentered, hqueue⟩ := h
    refine ⟨l₁, l₂, hl, ?_, hqueue⟩
    rw [List.filterMap_append, hentered]
    exact List.append_nil _
  | put _ =>
    obtain ⟨l₁, l₂, hl, hentered, hqueue⟩ := h
    refine ⟨l₁, l₂, hl, ?_, hqueue⟩
    rw [List.filterMap_append, hentered]
    exact List.append_nil _
  | @next queue l₃ l₄ stage shared c d k hc hsplit =>
    obtain ⟨l₁, l₂, hl, hentered, hqueue⟩ := h
    have heq : l₁ ++ c :: l₂ = l₃ ++ c :: (d :: l₄) := hl.symm.trans (hqueue.symm.trans hsplit)
    obtain ⟨rfl, rfl⟩ := split_unique heq (by rw [← hl, ← hqueue]; exact hp.nodup)
    refine ⟨l₁ ++ [c], l₄, ?_, ?_, hqueue⟩
    · rw [hl, List.append_assoc, List.singleton_append]
    · rw [List.filterMap_append, hentered]
      rfl
  | last => exact absurd rfl he
  | @ret queue stage shared c v hc =>
    obtain ⟨l₁, l₂, hl, hentered, -⟩ := h
    refine ⟨⟨l₁, l₂, hl, ?_⟩, v, List.mem_append_right _ List.mem_cons_self⟩
    rw [List.filterMap_append, hentered]
    exact List.append_nil _
  | finished => exact absurd rfl he
  | delete =>
    refine ⟨?_, h.2⟩
    rw [List.filterMap_append, h.1]
    rfl

/-- Phases in which the scheduler or `main` runs. -/
def AtSched (p : Plan σ) : Prop := ∀ c, p.phase ≠ .func c ∧ p.phase ≠ .finished c

theorem Entered.nil (h : p.AtSched) : Entered p.live [] p := by
  obtain ⟨queue, stage, phase, shared⟩ := p
  cases phase with
  | func c => exact absurd rfl (h c).1
  | finished c => exact absurd rfl (h c).2
  | _ => exact ⟨rfl, rfl⟩

theorem Entered.initialPart (h : Entered l es p) : es.filterMap entered <+: l := by
  rw [Entered] at h
  split at h
  · obtain ⟨l₁, l₂, rfl, hentered, -⟩ := h
    exact ⟨l₂, by rw [hentered, List.append_assoc, List.singleton_append]⟩
  · obtain ⟨⟨l₁, l₂, rfl, hentered⟩, -⟩ := h
    exact ⟨l₂, by rw [hentered, List.append_assoc, List.singleton_append]⟩
  · rw [h.1]
    exact List.nil_prefix

/-- A round in which nobody has come to its end has entered all. -/
theorem Entered.all (h : Entered l es p) (hp : p.Valid) (hstep : Step p (.enter .sched) p')
    (hret : ∀ c v, .ret c v ∉ es) : es.filterMap entered = l := by
  cases hstep with
  | @last queue l₃ stage shared c k hc hsplit =>
    obtain ⟨l₁, l₂, hl, hentered, hqueue⟩ := h
    have heq : l₁ ++ c :: l₂ = l₃ ++ c :: [] := hl.symm.trans (hqueue.symm.trans hsplit)
    obtain ⟨-, rfl⟩ := split_unique heq (by rw [← hl, ← hqueue]; exact hp.nodup)
    rw [hentered, hl]
  | finished =>
    obtain ⟨-, v, hv⟩ := h
    exact absurd hv (hret _ v)

/-- What is entered while the scheduler is not. -/
theorem entered_run (h : Run Step p es p') (hp : p.Valid) (hsched : p.AtSched)
    (he : ∀ e ∈ es, e ≠ .enter .sched) : Entered p.live es p' ∧ p'.Valid := by
  induction h with
  | nil => exact ⟨.nil hsched, hp⟩
  | snoc _ hstep ih =>
    obtain ⟨hentered, hvalid⟩ := ih fun e hmem => he e (List.mem_append_left _ hmem)
    have hne := he _ (List.mem_append_right _ List.mem_cons_self)
    exact ⟨hentered.step hvalid hstep hne, hvalid.step hstep⟩

end Plan

end SystemsProgramming.Libcoro
