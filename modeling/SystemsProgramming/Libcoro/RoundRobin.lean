import SystemsProgramming.Libcoro.Model
import SystemsProgramming.Foundation.Transition
import Mathlib.Data.Prod.Lex

/-! What the scheduler is for, without objects, contexts and jumps: the coroutines stand in a queue, each
round lets them run one after another up to the end of the queue, and one that is over ends the round and
leaves the queue. -/

namespace SystemsProgramming.Libcoro

open Transition

variable {σ : Type}

inductive Phase
  | main | wait
  | func (c : ℕ)
  | finished (c : ℕ)
  | returned (c : ℕ)
  | done

structure Plan (σ : Type) where
  queue : List ℕ
  stage : ℕ → Stage σ ℤ
  phase : Phase
  shared : σ

/-- A coroutine that is not over. -/
def Going (stage : ℕ → Stage σ ℤ) (c : ℕ) : Prop := ∃ k, stage c = .going k

/-- A coroutine that is over. -/
def Over (stage : ℕ → Stage σ ℤ) (c : ℕ) : Prop := ∃ v, stage c = .ended v

def isOver (stage : ℕ → Stage σ ℤ) (c : ℕ) : Bool :=
  match stage c with
  | .going _ => false
  | .ended _ => true

theorem isOver_iff {stage : ℕ → Stage σ ℤ} {c : ℕ} : isOver stage c = true ↔ Over stage c := by
  rw [isOver, Over]
  cases stage c with
  | going k => simp
  | ended v => simp

namespace Plan

inductive Step : Plan σ → Event → Plan σ → Prop
  | call {queue : List ℕ} {stage : ℕ → Stage σ ℤ} {shared : σ} :
    Step ⟨queue, stage, .main, shared⟩ .call ⟨queue, stage, .wait, shared⟩
  | none {stage : ℕ → Stage σ ℤ} {shared : σ} :
    Step ⟨[], stage, .wait, shared⟩ (.wait none) ⟨[], stage, .done, shared⟩
  | wait {queue : List ℕ} {stage : ℕ → Stage σ ℤ} {shared : σ} {c : ℕ} :
    c ∈ queue → Over stage c →
      Step ⟨queue, stage, .wait, shared⟩ (.wait (some c)) ⟨queue.erase c, stage, .returned c, shared⟩
  /-- A round begins. -/
  | round {queue : List ℕ} {stage : ℕ → Stage σ ℤ} {shared : σ} {c : ℕ} :
    (∀ q ∈ c :: queue, Going stage q) →
      Step ⟨c :: queue, stage, .wait, shared⟩ (.enter (.coro c)) ⟨c :: queue, stage, .func c, shared⟩
  | get {queue : List ℕ} {stage : ℕ → Stage σ ℤ} {shared : σ} {c : ℕ} {k : σ → Code σ ℤ} :
    stage c = .going (.get k) →
      Step ⟨queue, stage, .func c, shared⟩ (.run c)
        ⟨queue, Function.update stage c (.going (k shared)), .func c, shared⟩
  | put {queue : List ℕ} {stage : ℕ → Stage σ ℤ} {shared shared' : σ} {c : ℕ} {k : Code σ ℤ} :
    stage c = .going (.put shared' k) →
      Step ⟨queue, stage, .func c, shared⟩ (.run c)
        ⟨queue, Function.update stage c (.going k), .func c, shared'⟩
  /-- The next one in the queue runs. -/
  | next {queue l l' : List ℕ} {stage : ℕ → Stage σ ℤ} {shared : σ} {c d : ℕ} {k : Code σ ℤ} :
    stage c = .going (.yield k) → queue = l ++ c :: d :: l' →
      Step ⟨queue, stage, .func c, shared⟩ (.enter (.coro d))
        ⟨queue, Function.update stage c (.going k), .func d, shared⟩
  /-- The last one in the queue ends the round. -/
  | last {queue l : List ℕ} {stage : ℕ → Stage σ ℤ} {shared : σ} {c : ℕ} {k : Code σ ℤ} :
    stage c = .going (.yield k) → queue = l ++ [c] →
      Step ⟨queue, stage, .func c, shared⟩ (.enter .sched)
        ⟨queue, Function.update stage c (.going k), .wait, shared⟩
  | ret {queue : List ℕ} {stage : ℕ → Stage σ ℤ} {shared : σ} {c : ℕ} {value : ℤ} :
    stage c = .going (.ret value) →
      Step ⟨queue, stage, .func c, shared⟩ (.ret c value)
        ⟨queue, Function.update stage c (.ended value), .finished c, shared⟩
  /-- One that is over ends the round. -/
  | finished {queue : List ℕ} {stage : ℕ → Stage σ ℤ} {shared : σ} {c : ℕ} :
    Step ⟨queue, stage, .finished c, shared⟩ (.enter .sched) ⟨queue, stage, .wait, shared⟩
  | delete {queue : List ℕ} {stage : ℕ → Stage σ ℤ} {shared : σ} {c : ℕ} {value : ℤ} :
    stage c = .ended value →
      Step ⟨queue, stage, .returned c, shared⟩ (.delete c value) ⟨queue, stage, .main, shared⟩

variable {queue : List ℕ} {stage : ℕ → Stage σ ℤ} {c : ℕ}

/-- Who may be over, by the phase. -/
def Sound (queue : List ℕ) (stage : ℕ → Stage σ ℤ) : Phase → Prop
  | .main => ∀ q ∈ queue, Going stage q
  | .wait => ∀ p ∈ queue, ∀ q ∈ queue, Over stage p → Over stage q → p = q
  | .func c => c ∈ queue ∧ ∀ q ∈ queue, Going stage q
  | .finished c => c ∈ queue ∧ Over stage c ∧ ∀ q ∈ queue, q ≠ c → Going stage q
  | .returned c => c ∉ queue ∧ Over stage c ∧ ∀ q ∈ queue, Going stage q
  | .done => queue = []

structure Valid (p : Plan σ) : Prop where
  nodup : p.queue.Nodup
  sound : Sound p.queue p.stage p.phase

theorem going_or_over (stage : ℕ → Stage σ ℤ) (c : ℕ) : Going stage c ∨ Over stage c := by
  cases hc : stage c with
  | going k => exact .inl ⟨k, hc⟩
  | ended v => exact .inr ⟨v, hc⟩

theorem not_over (h : Going stage c) : ¬Over stage c := by
  rintro ⟨v, hv⟩
  obtain ⟨k, hk⟩ := h
  cases hk.symm.trans hv

theorem going_update {k : Code σ ℤ} {q : ℕ} (h : Going stage q) :
    Going (Function.update stage c (.going k)) q := by
  by_cases hq : q = c
  · exact ⟨k, by rw [hq, Function.update_self]⟩
  · rwa [Going, Function.update_of_ne hq]

theorem going_update_of_ne {x : Stage σ ℤ} {q : ℕ} (h : Going stage q) (hq : q ≠ c) :
    Going (Function.update stage c x) q := by
  rwa [Going, Function.update_of_ne hq]

theorem over_update {x : Stage σ ℤ} {q : ℕ} (h : Over stage q) (hq : q ≠ c) :
    Over (Function.update stage c x) q := by
  rwa [Over, Function.update_of_ne hq]

theorem Valid.step {p p' : Plan σ} {e : Event} (h : p.Valid) (hstep : Step p e p') : p'.Valid := by
  obtain ⟨hnodup, hsound⟩ := h
  cases hstep with
  | call => exact ⟨hnodup, fun p hp q hq hover => absurd hover (not_over (hsound p hp))⟩
  | none => exact ⟨hnodup, rfl⟩
  | @wait queue stage shared c hc hover =>
    refine ⟨hnodup.erase c, hnodup.not_mem_erase, hover, fun q hq => ?_⟩
    obtain ⟨hne, hq⟩ := hnodup.mem_erase_iff.mp hq
    exact (going_or_over stage q).resolve_right fun hq' => hne (hsound q hq c hc hq' hover)
  | round hgoing => exact ⟨hnodup, List.mem_cons_self, hgoing⟩
  | get => exact ⟨hnodup, hsound.1, fun q hq => going_update (hsound.2 q hq)⟩
  | put => exact ⟨hnodup, hsound.1, fun q hq => going_update (hsound.2 q hq)⟩
  | next _ hqueue =>
    exact ⟨hnodup, by simp [hqueue], fun q hq => going_update (hsound.2 q hq)⟩
  | last _ hqueue =>
    exact ⟨hnodup, fun p hp q hq hover => absurd hover (not_over (going_update (hsound.2 p hp)))⟩
  | ret hc =>
    exact ⟨hnodup, hsound.1, ⟨_, Function.update_self ..⟩, fun q hq hne =>
      going_update_of_ne (hsound.2 q hq) hne⟩
  | @finished queue stage shared c =>
    refine ⟨hnodup, fun p hp q hq hover hover' => ?_⟩
    have hone : ∀ r ∈ queue, Over stage r → r = c := fun r hr hr' => by
      by_contra hne
      exact not_over (hsound.2.2 r hr hne) hr'
    rw [hone p hp hover, hone q hq hover']
  | delete => exact ⟨hnodup, hsound.2.2⟩

end Plan

end SystemsProgramming.Libcoro
