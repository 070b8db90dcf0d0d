import SystemsProgramming.Libcoro.Refinement
import Mathlib.Logic.Hydra
import Mathlib.Data.Prod.Lex

/-! The plan comes to its end, and the library with it. A step of a function makes what is left of its code
smaller, and the steps between them lead to the next function, or shorten the queue. -/

namespace SystemsProgramming.Libcoro

open Relation Transition

variable {σ : Type}

namespace Plan

variable {p p' : Plan σ} {e : Event} {stage : ℕ → Stage σ ℤ} {c : ℕ} {queue : List ℕ}

/-- What is left of the code of a coroutine. -/
def rest : Stage σ ℤ → Option (Code σ ℤ)
  | .going k => some k
  | .ended _ => none

/-- What is left of the code of all in the queue. -/
def codes (queue : List ℕ) (stage : ℕ → Stage σ ℤ) : Multiset (Code σ ℤ) :=
  ↑(queue.filterMap fun q => rest (stage q))

/-- How far it is to the next function or the next one that is returned. -/
def distance : Phase → ℕ
  | .done => 0
  | .func _ => 1
  | .wait => 2
  | .main => 3
  | .finished _ => 4
  | .returned _ => 4

/-- What goes down, the code before the queue before the phase. -/
def measure (p : Plan σ) : Multiset (Code σ ℤ) × ℕ × ℕ :=
  (codes p.queue p.stage, p.queue.length, distance p.phase)

def Smaller : Plan σ → Plan σ → Prop :=
  InvImage (Prod.Lex (CutExpand Code.Next) (Prod.Lex (· < ·) (· < ·))) measure

theorem wellFounded_smaller : WellFounded (Smaller : Plan σ → Plan σ → Prop) :=
  InvImage.wf _ (Code.wellFounded_next.cutExpand.prod_lex (wellFounded_lt.prod_lex wellFounded_lt))

/-- The code of one coroutine apart from that of the others. -/
theorem codes_update (hnodup : queue.Nodup) (hc : c ∈ queue) (stage : ℕ → Stage σ ℤ) :
    ∃ others, ∀ x, codes queue (Function.update stage c x) = ((rest x).toList : Multiset _) + others := by
  obtain ⟨l₁, l₂, rfl⟩ := List.append_of_mem hc
  have hnot := (List.nodup_cons.mp (List.perm_middle.nodup_iff.mp hnodup)).1
  refine ⟨codes (l₁ ++ l₂) stage, fun x => ?_⟩
  have hothers : ∀ q ∈ l₁ ++ l₂, rest (Function.update stage c x q) = rest (stage q) := fun q hq => by
    rw [Function.update_of_ne (by rintro rfl; exact hnot hq)]
  have hmiddle : (l₁ ++ c :: l₂).Perm (c :: (l₁ ++ l₂)) := List.perm_middle
  have hperm := hmiddle.filterMap fun q => rest (Function.update stage c x q)
  rw [codes, Multiset.coe_eq_coe.mpr hperm, codes, ← List.filterMap_congr hothers, Multiset.coe_add,
    List.filterMap_cons, Function.update_self]
  cases rest x <;> rfl

theorem Smaller.of_codes (h : CutExpand Code.Next (codes p'.queue p'.stage) (codes p.queue p.stage)) :
    Smaller p' p := Prod.Lex.left _ _ h

theorem Smaller.of_next {phase phase' : Phase} {shared shared' : σ} (hnodup : queue.Nodup)
    (hc : c ∈ queue) {k k' : Code σ ℤ} (hstage : stage c = .going k) (hk : Code.Next k' k) :
    Smaller ⟨queue, Function.update stage c (.going k'), phase', shared'⟩
      ⟨queue, stage, phase, shared⟩ := by
  obtain ⟨others, hothers⟩ := codes_update hnodup hc stage
  have hbefore := hothers (.going k)
  rw [← hstage, Function.update_eq_self] at hbefore
  refine .of_codes ?_
  show CutExpand Code.Next (codes queue (Function.update stage c (.going k'))) (codes queue stage)
  rw [hothers, hbefore, hstage]
  exact (cutExpand_add_right others).mpr (cutExpand_singleton_singleton hk)

theorem Smaller.of_ret {phase phase' : Phase} {shared : σ} (hnodup : queue.Nodup) (hc : c ∈ queue)
    {v : ℤ} {k : Code σ ℤ} (hstage : stage c = .going k) :
    Smaller ⟨queue, Function.update stage c (.ended v), phase', shared⟩
      ⟨queue, stage, phase, shared⟩ := by
  obtain ⟨others, hothers⟩ := codes_update hnodup hc stage
  have hbefore := hothers (.going k)
  rw [← hstage, Function.update_eq_self] at hbefore
  refine .of_codes ?_
  show CutExpand Code.Next (codes queue (Function.update stage c (.ended v))) (codes queue stage)
  rw [hothers, hbefore, hstage]
  exact (cutExpand_add_right others).mpr (cutExpand_singleton fun _ h => nomatch h)

theorem Smaller.of_phase {phase phase' : Phase} {shared : σ} (h : distance phase' < distance phase) :
    Smaller ⟨queue, stage, phase', shared⟩ ⟨queue, stage, phase, shared⟩ :=
  Prod.Lex.right _ (Prod.Lex.right _ h)

/-- One that is over has no code, but a place in the queue. -/
theorem Smaller.of_erase {phase phase' : Phase} {shared : σ} (hc : c ∈ queue) (hover : Over stage c) :
    Smaller ⟨queue.erase c, stage, phase', shared⟩ ⟨queue, stage, phase, shared⟩ := by
  have hcodes : codes (queue.erase c) stage = codes queue stage := by
    obtain ⟨v, hv⟩ := hover
    have hperm := (List.perm_cons_erase hc).filterMap fun q => rest (stage q)
    rw [List.filterMap_cons, hv] at hperm
    exact (Multiset.coe_eq_coe.mpr hperm).symm
  have hlength : (queue.erase c).length < queue.length := by
    rw [List.length_erase_of_mem hc]
    exact Nat.sub_one_lt (List.length_pos_of_mem hc).ne'
  show Prod.Lex _ _ (codes (queue.erase c) stage, _) (codes queue stage, _)
  rw [hcodes]
  exact Prod.Lex.right _ (Prod.Lex.left _ _ hlength)

theorem Step.smaller (h : Step p e p') (hp : p.Valid) : Smaller p' p := by
  cases h with
  | call => exact .of_phase (by decide)
  | none => exact .of_phase (by decide)
  | wait hc hover => exact .of_erase hc hover
  | round => exact .of_phase (show 1 < 2 by decide)
  | get hc => exact .of_next hp.nodup hp.sound.1 hc (.get _ _)
  | put hc => exact .of_next hp.nodup hp.sound.1 hc (.put _ _)
  | next hc => exact .of_next hp.nodup hp.sound.1 hc (.yield _)
  | last hc => exact .of_next hp.nodup hp.sound.1 hc (.yield _)
  | ret hc => exact .of_ret hp.nodup hp.sound.1 hc
  | finished => exact .of_phase (show 2 < 4 by decide)
  | delete => exact .of_phase (show 3 < 4 by decide)

end Plan

section
variable {p p' : Plan σ} {s s' : State σ} {e : Event} {es : List Event} {I : Plan σ → Prop}

/-- A run of the library is one of the plan. -/
theorem Represents.run (h : Represents s p) (hp : p.Valid) (hrun : Run State.Step s es s') :
    ∃ p', Run Plan.Step p es p' ∧ Represents s' p' ∧ p'.Valid := by
  refine hrun.simulate (R := fun s p => Represents s p ∧ p.Valid) ?_ ⟨h, hp⟩
  rintro s p e s' ⟨h, hp⟩ hstep
  obtain ⟨p', hplan, h'⟩ := h.simulates hp hstep
  exact ⟨p', hplan, h', hp.step hplan⟩

/-- If an invariant of the plan keeps every function from being stuck, `main` leaves its loop. -/
theorem Represents.comes_to_end (hI : ∀ p e p', I p → p.Valid → Plan.Step p e p' → I p')
    (hstuck : ∀ p c, I p → p.Valid → p.phase = .func c → p.stage c ≠ .going .stuck)
    (h : Represents s p) (hp : p.Valid) (h0 : I p) :
    ∃ es s', Run State.Step s es s' ∧ s'.control = .done := by
  let both : State σ × Plan σ → Event → State σ × Plan σ → Prop :=
    fun x e y => State.Step x.1 e y.1 ∧ Plan.Step x.2 e y.2
  have hend : ∃ es x, Run both (s, p) es x ∧ (Represents x.1 x.2 ∧ x.2.Valid ∧ I x.2) ∧
      x.2.phase = .done := by
    refine exists_run_final (InvImage.wf Prod.snd Plan.wellFounded_smaller) ?_ ⟨h, hp, h0⟩
    rintro ⟨s, p⟩ ⟨h, hp, h0⟩ hdone
    obtain ⟨e, s', p', hstep, hplan, h'⟩ := h.step hp hdone fun c => hstuck p c h0 hp
    exact ⟨e, (s', p'), ⟨hstep, hplan⟩, ⟨h', hp.step hplan, hI p e p' h0 hp hplan⟩, hplan.smaller hp⟩
  obtain ⟨es, x, hrun, ⟨hx, -, -⟩, hdone⟩ := hend
  have hproj : ∃ s', Run State.Step s es s' ∧ x.1 = s' := by
    refine hrun.simulate (R := fun x s => x.1 = s) ?_ rfl
    rintro x s e y rfl hstep
    exact ⟨y.1, hstep.1, rfl⟩
  obtain ⟨s', hrun', rfl⟩ := hproj
  have hcontrol := hx.control
  rw [hdone] at hcontrol
  exact ⟨es, x.1, hrun', hcontrol.1⟩

end

end SystemsProgramming.Libcoro
