import Mathlib.Logic.Basic
import Mathlib.Data.List.Basic

/-! Labelled transition systems given by a step relation. A run carries the labels of its steps in
order. The section on invariants has the induction rule, with and without the trace, and the rule
for runs that end in a labelled step; the section on termination has the rule for steps that go down in
a well-founded relation; the section on simulation transports runs, label by label,
to another system. Nothing here depends on what the states or labels are. -/

namespace SystemsProgramming.Transition

variable {σ τ ε : Type*}

/-- A finite run with the labels of its steps. -/
inductive Run (step : σ → ε → σ → Prop) (s : σ) : List ε → σ → Prop
  | nil : Run step s [] s
  | snoc {t u : σ} {es : List ε} {e : ε} : Run step s es t → step t e u → Run step s (es ++ [e]) u

/-- The steps of a system that meet a condition on the state before and the label. -/
def restrict (step : σ → ε → σ → Prop) (ok : σ → ε → Prop) : σ → ε → σ → Prop :=
  fun s e t => ok s e ∧ step s e t

variable {step : σ → ε → σ → Prop}

theorem Run.append {s t u : σ} {es fs : List ε} (h : Run step s es t) (k : Run step t fs u) :
    Run step s (es ++ fs) u := by
  induction k with
  | nil => simpa using h
  | snoc _ hstep ih =>
    rw [← List.append_assoc]
    exact ih.snoc hstep

theorem Run.single {s t : σ} {e : ε} (h : step s e t) : Run step s [e] t := by
  simpa using (Run.nil : Run step s [] s).snoc h

theorem Run.cons {s t u : σ} {e : ε} {es : List ε} (h : step s e t) (k : Run step t es u) :
    Run step s (e :: es) u := (Run.single h).append k

theorem Run.mono {step' : σ → ε → σ → Prop} (hle : ∀ s e t, step s e t → step' s e t)
    {s t : σ} {es : List ε} (h : Run step s es t) : Run step' s es t := by
  induction h with
  | nil => exact .nil
  | snoc _ hstep ih => exact ih.snoc (hle _ _ _ hstep)

theorem Run.of_restrict {ok : σ → ε → Prop} {s t : σ} {es : List ε}
    (h : Run (restrict step ok) s es t) : Run step s es t :=
  h.mono fun _ _ _ hstep => hstep.2

section Invariant

/-- An invariant of the state and of the trace so far. -/
theorem Run.trace_invariant {I : List ε → σ → Prop} {s : σ} (h0 : I [] s)
    (hstep : ∀ es t e u, Run step s es t → I es t → step t e u → I (es ++ [e]) u)
    {es : List ε} {t : σ} (h : Run step s es t) : I es t := by
  induction h with
  | nil => exact h0
  | snoc hr hs ih => exact hstep _ _ _ _ hr ih hs

/-- An invariant that holds initially and is kept by every step holds after every run. -/
theorem Run.invariant {I : σ → Prop} {s : σ} (h0 : I s)
    (hstep : ∀ t e u, I t → step t e u → I u) {es : List ε} {t : σ} (h : Run step s es t) : I t :=
  Run.trace_invariant (I := fun _ => I) h0 (fun _ _ _ _ _ hi hs => hstep _ _ _ hi hs) h

/-- If an invariant allows only steps that meet a condition, the steps of a run meet it. -/
theorem Run.restrict {I : σ → Prop} {ok : σ → ε → Prop} {s : σ} (h0 : I s)
    (hstep : ∀ t e u, I t → step t e u → I u) (hok : ∀ t e u, I t → step t e u → ok t e) {es : List ε}
    {t : σ} (h : Run step s es t) : Run (Transition.restrict step ok) s es t := by
  induction h with
  | nil => exact .nil
  | snoc hrun hs ih => exact ih.snoc ⟨hok _ _ _ (hrun.invariant h0 hstep) hs, hs⟩

end Invariant

section Termination
variable {r : σ → σ → Prop} {I final : σ → Prop}

/-- A run comes to a final state if there is a step from every other state and steps go down. -/
theorem exists_run_final (hr : WellFounded r)
    (hstep : ∀ s, I s → ¬final s → ∃ e t, step s e t ∧ I t ∧ r t s) {s : σ} (hs : I s) :
    ∃ es t, Run step s es t ∧ I t ∧ final t := by
  induction s using hr.induction with
  | _ s ih =>
    by_cases hfinal : final s
    · exact ⟨[], s, .nil, hs, hfinal⟩
    · obtain ⟨e, t, hst, ht, hlt⟩ := hstep s hs hfinal
      obtain ⟨es, u, hrun, hu, hfinal'⟩ := ih t hlt ht
      exact ⟨e :: es, u, hrun.cons hst, hu, hfinal'⟩

/-- Runs that are no longer than a bound come to a final state if none gets stuck before. -/
theorem exists_run_final_of_bounded (final : σ → Prop) {n : ℕ} {s : σ}
    (hbound : ∀ es t, Run step s es t → es.length ≤ n)
    (hstep : ∀ es t, Run step s es t → ¬final t → ∃ e u, step t e u) :
    ∃ es t, Run step s es t ∧ final t := by
  by_contra hnone
  have hlong : ∀ k, ∃ es t, Run step s es t ∧ es.length = k := by
    intro k
    induction k with
    | zero => exact ⟨[], s, .nil, rfl⟩
    | succ k ih =>
      obtain ⟨es, t, hrun, hlen⟩ := ih
      obtain ⟨e, u, hs⟩ := hstep es t hrun fun hfinal => hnone ⟨es, t, hrun, hfinal⟩
      exact ⟨es ++ [e], u, hrun.snoc hs, by rw [List.length_append, hlen, List.length_singleton]⟩
  obtain ⟨es, t, hrun, hlen⟩ := hlong (n + 1)
  have hle := hbound es t hrun
  omega

end Termination

section Simulation
variable {step' : τ → ε → τ → Prop} {R : σ → τ → Prop}

/-- Forward simulation with the same labels. -/
theorem Run.simulate (hstep : ∀ s a e t, R s a → step s e t → ∃ b, step' a e b ∧ R t b)
    {s t : σ} {a : τ} {es : List ε} (h0 : R s a) (h : Run step s es t) :
    ∃ b, Run step' a es b ∧ R t b := by
  induction h with
  | nil => exact ⟨a, .nil, h0⟩
  | snoc _ hs ih =>
    obtain ⟨b, hb, hR⟩ := ih
    obtain ⟨c, hc, hR'⟩ := hstep _ _ _ _ hR hs
    exact ⟨c, hb.snoc hc, hR'⟩

end Simulation

section Hidden
variable {seen : σ → ε → Prop}

/-- A run with those of its steps that are seen, each by the state before it and its label. -/
inductive Watched (step : σ → ε → σ → Prop) (seen : σ → ε → Prop) : σ → List (σ × ε) → σ → Prop
  | nil {s : σ} : Watched step seen s [] s
  | seen {s t u : σ} {e : ε} {es : List (σ × ε)} : seen s e → step s e t → Watched step seen t es u →
      Watched step seen s ((s, e) :: es) u
  | hidden {s t u : σ} {e : ε} {es : List (σ × ε)} : ¬seen s e → step s e t → Watched step seen t es u →
      Watched step seen s es u

/-- If hidden steps do not matter and the others have a counterpart, what is seen is a run of its own. -/
theorem Watched.unwind {step' : τ → ε → τ → Prop} {R : σ → τ → Prop} {same : σ × ε → ε → Prop}
    (hhidden : ∀ s a e t, R s a → ¬seen s e → step s e t → R t a)
    (hseen : ∀ s a e t, R s a → seen s e → step s e t → ∃ e' b, step' a e' b ∧ same (s, e) e' ∧ R t b)
    {s t : σ} {a : τ} {es : List (σ × ε)} (h0 : R s a) (h : Watched step seen s es t) :
    ∃ es' b, Run step' a es' b ∧ List.Forall₂ same es es' ∧ R t b := by
  induction h generalizing a with
  | nil => exact ⟨[], a, .nil, .nil, h0⟩
  | seen he hs _ ih =>
    obtain ⟨e', b, hs', he', hR⟩ := hseen _ _ _ _ h0 he hs
    obtain ⟨es', c, hrun, hsame, hR'⟩ := ih hR
    exact ⟨e' :: es', c, .cons hs' hrun, .cons he' hsame, hR'⟩
  | hidden he hs _ ih => exact ih (hhidden _ _ _ _ h0 he hs)

end Hidden

end SystemsProgramming.Transition
