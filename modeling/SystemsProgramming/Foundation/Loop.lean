import Mathlib.Logic.Basic
import Mathlib.Data.Option.Basic
import Mathlib.Data.Nat.Notation

/-! Loops of an imperative language: the body either goes on with a new state, leaves the loop, or has
no defined result. A loop is run with fuel; `Exits` is its big-step meaning without fuel, and a
measure that the body decreases gives the fuel. -/

namespace SystemsProgramming

inductive Ctl (σ : Type*)
  | again (s : σ)
  | done (s : σ)

variable {σ : Type*}

/-- The new state, whether the loop goes on or not. -/
def Ctl.state : Ctl σ → σ
  | again s => s
  | done s => s

def iterate (body : σ → Option (Ctl σ)) : ℕ → σ → Option σ
  | 0, _ => none
  | n + 1, s => (body s).bind fun
    | .again t => iterate body n t
    | .done t => some t

inductive Exits (body : σ → Option (Ctl σ)) : σ → σ → Prop
  | done {s t : σ} : body s = some (.done t) → Exits body s t
  | again {s t u : σ} : body s = some (.again t) → Exits body t u → Exits body s u

variable {body : σ → Option (Ctl σ)}

theorem iterate_of_done {s t : σ} (h : body s = some (.done t)) {n : ℕ} (hn : 0 < n) :
    iterate body n s = some t := by
  obtain ⟨n, rfl⟩ := Nat.exists_eq_succ_of_ne_zero (Nat.ne_of_gt hn)
  rw [iterate, h, Option.bind_some]

/-- One more turn needs one more unit of fuel. -/
theorem iterate_of_again {s t u : σ} (h : body s = some (.again t)) {m : ℕ}
    (ht : ∀ n, m < n → iterate body n t = some u) (n : ℕ) (hn : m + 1 < n) :
    iterate body n s = some u := by
  obtain ⟨n, rfl⟩ := Nat.exists_eq_succ_of_ne_zero (Nat.ne_zero_of_lt hn)
  rw [iterate, h, Option.bind_some]
  exact ht n (Nat.lt_of_succ_lt_succ hn)

theorem exits_again_iff {s t u : σ} (h : body s = some (.again t)) : Exits body s u ↔ Exits body t u := by
  constructor
  · intro hs
    cases hs with
    | done hd => rw [h] at hd; cases hd
    | again hs ht =>
      rw [h] at hs
      cases hs
      exact ht
  · exact fun ht => .again h ht

theorem not_exits {s u : σ} (h : body s = none) : ¬Exits body s u := by
  rintro (hs | ⟨hs, -⟩)
  · rw [h] at hs
    cases hs
  · rw [h] at hs
    cases hs

/-- A body that goes on and changes nothing goes on forever. -/
theorem not_exits_of_again_self {s u : σ} (h : body s = some (.again s)) : ¬Exits body s u := by
  intro hs
  induction hs with
  | done hd => rw [h] at hd; cases hd
  | again hs _ ih =>
    rw [h] at hs
    cases hs
    exact ih h

theorem exits_of_iterate {n : ℕ} {s t : σ} (h : iterate body n s = some t) : Exits body s t := by
  induction n generalizing s with
  | zero => cases h
  | succ n ih =>
    obtain ⟨r, hr, h⟩ := Option.bind_eq_some_iff.mp h
    cases r with
    | again u => exact .again hr (ih h)
    | done u =>
      obtain rfl := Option.some.inj h
      exact .done hr

/-- With a measure that decreases whenever the loop goes on, its value is fuel enough. -/
theorem Exits.iterate {s t : σ} (h : Exits body s t) {μ : σ → ℕ}
    (hμ : ∀ s u, body s = some (.again u) → μ u < μ s) {n : ℕ} (hn : μ s < n) :
    iterate body n s = some t := by
  induction h generalizing n with
  | done hs =>
    cases n with
    | zero => exact absurd hn (Nat.not_lt_zero _)
    | succ n => simp [SystemsProgramming.iterate, hs]
  | @again s u _ hs _ ih =>
    cases n with
    | zero => exact absurd hn (Nat.not_lt_zero _)
    | succ n =>
      have hlt := hμ s u hs
      simp only [SystemsProgramming.iterate, hs, Option.bind_some]
      exact ih (by omega)

end SystemsProgramming
