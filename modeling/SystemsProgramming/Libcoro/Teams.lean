import SystemsProgramming.Libcoro.Creation

/-! The coroutines of the library as a team. If each function runs under the rely and the guarantee, then in
every state the shared memory changes by the guarantee of the coroutine that runs, nobody is stuck, and at
the end each coroutine has its postcondition. -/

namespace SystemsProgramming.Libcoro

variable {σ : Type} (R G : ℕ → σ → σ → Prop) (Q : ℕ → ℤ → σ → Prop)

def Phase.running : Phase → Option ℕ
  | .func c => some c
  | _ => none

/-- The coroutines are a team, and they are in the queue until they are over. -/
structure Teamed (count : ℕ) (p : Plan σ) : Prop where
  team : Team R G Q {c | c < count} p.stage p.phase.running p.shared
  queue : ∀ c ∈ p.queue, c < count
  gone : ∀ c, c < count → c ∈ p.queue ∨ Over p.stage c

variable {R G Q} {count c : ℕ} {p p' : Plan σ} {e : Event}

theorem over_update_of_going {stage : ℕ → Stage σ ℤ} {x : Stage σ ℤ} (hc : Going stage c) {q : ℕ}
    (h : Over stage q) : Over (Function.update stage c x) q := by
  refine Plan.over_update h ?_
  rintro rfl
  exact Plan.not_over hc h

namespace Teamed

theorem initial {funcs : List (Code σ ℤ)} {shared : σ}
    (h : ∀ c func, funcs[c]? = some func → ∀ s, R c shared s → func.wp (R c) (G c) (Q c) s) :
    Teamed R G Q funcs.length (.initial funcs shared) where
  team := by
    refine ⟨fun c hc _ s hs => ?_, fun c _ hrunning => ?_⟩
    · have hfunc := List.getElem?_eq_getElem hc
      show (funcs[c]?.getD .stuck).wp (R c) (G c) (Q c) s
      rw [hfunc]
      exact h c _ hfunc s hs
    · cases hrunning
  queue c hc := List.mem_range.mp (List.mem_reverse.mp hc)
  gone c hc := .inl (List.mem_reverse.mpr (List.mem_range.mpr hc))

theorem step (h : Teamed R G Q count p) (hcompatible : Compatible R G Q) (hp : p.Valid)
    (hstep : Plan.Step p e p') : Teamed R G Q count p' := by
  obtain ⟨hteam, hqueue, hgone⟩ := h
  have hkept : ∀ {queue : List ℕ} {stage : ℕ → Stage σ ℤ} {c : ℕ} {k : Code σ ℤ} {x : Stage σ ℤ},
      stage c = .going k → (∀ q, q < count → q ∈ queue ∨ Over stage q) →
        ∀ q, q < count → q ∈ queue ∨ Over (Function.update stage c x) q := fun hc hgone q hq =>
    (hgone q hq).imp_right (over_update_of_going ⟨_, hc⟩)
  cases hstep with
  | call => exact ⟨hteam, hqueue, hgone⟩
  | none => exact ⟨hteam, hqueue, hgone⟩
  | @wait queue stage shared c hc hended =>
    refine ⟨hteam, fun q hq => hqueue q (List.mem_of_mem_erase hq), fun q hq => ?_⟩
    by_cases hqc : q = c
    · exact .inr (hqc ▸ hended)
    · exact (hgone q hq).imp_left (List.mem_erase_of_ne hqc).mpr
  | round => exact ⟨hteam.start hcompatible _, hqueue, hgone⟩
  | get hc => exact ⟨hteam.get hcompatible (hqueue _ hp.sound.1) hc, hqueue, hkept hc hgone⟩
  | put hc => exact ⟨hteam.put hcompatible (hqueue _ hp.sound.1) hc, hqueue, hkept hc hgone⟩
  | next hc =>
    exact ⟨(hteam.yield (hqueue _ hp.sound.1) hc).start hcompatible _, hqueue, hkept hc hgone⟩
  | last hc => exact ⟨hteam.yield (hqueue _ hp.sound.1) hc, hqueue, hkept hc hgone⟩
  | ret hc => exact ⟨hteam.ret hcompatible (hqueue _ hp.sound.1) hc, hqueue, hkept hc hgone⟩
  | finished => exact ⟨hteam, hqueue, hgone⟩
  | delete => exact ⟨hteam, hqueue, hgone⟩

/-- Only the coroutine that runs changes the memory. -/
theorem guarantee (h : Teamed R G Q count p) (hp : p.Valid) (hstep : Plan.Step p e p') :
    p'.shared = p.shared ∨ ∃ c, c < count ∧ e = .run c ∧ G c p.shared p'.shared := by
  cases hstep with
  | @put queue stage shared shared' c k hc =>
    have hlt := h.queue c hp.sound.1
    have hruns : (stage c).wp R G Q c shared := h.team.runs c hlt rfl
    rw [show stage c = .going (.put shared' k) from hc] at hruns
    exact .inr ⟨c, hlt, rfl, hruns.1⟩
  | _ => exact .inl rfl

theorem not_stuck (h : Teamed R G Q count p) (hp : p.Valid) (hphase : p.phase = .func c) :
    p.stage c ≠ .going .stuck := by
  have hsound := hp.sound
  have hteam := h.team
  rw [hphase] at hsound hteam
  exact hteam.not_stuck (h.queue c hsound.1)

theorem ended (h : Teamed R G Q count p) (hcompatible : Compatible R G Q) (hp : p.Valid)
    (hphase : p.phase = .done) (hc : c < count) : ∃ v, p.stage c = .ended v ∧ Q c v p.shared := by
  have hsound := hp.sound
  have hteam := h.team
  rw [hphase] at hsound hteam
  obtain ⟨v, hv⟩ := (h.gone c hc).resolve_left (by
    rw [show p.queue = [] from hsound]
    exact List.not_mem_nil)
  have hwaits := hteam.waits c hc (by rintro ⟨⟩) p.shared (hcompatible.refl c p.shared)
  rw [hv] at hwaits
  exact ⟨v, hv, hwaits⟩

end Teamed

end SystemsProgramming.Libcoro
