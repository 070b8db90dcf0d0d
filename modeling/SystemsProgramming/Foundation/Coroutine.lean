import Mathlib.Logic.Function.Basic
import Mathlib.Data.Nat.Notation
import Mathlib.Data.Set.Defs

/-! Coroutines over a state that they share. A program reads and writes the state and gives way to the
others now and then; between two such points nobody else runs. A program is a tree, so it comes to an
end, and one step makes it smaller.

The rules are those of rely and guarantee: `wp` is the weakest precondition of a program whose writes
keep a guarantee and for which the others keep a rely whenever it has given way. -/

namespace SystemsProgramming

universe u

variable {σ ι : Type*} {α β : Type u}

inductive Code (σ : Type*) (α : Type*)
  | ret (a : α)
  /-- Undefined behaviour, or no fuel. -/
  | stuck
  | get (k : σ → Code σ α)
  | put (s : σ) (k : Code σ α)
  | yield (k : Code σ α)

namespace Code

def bind : Code σ α → (α → Code σ β) → Code σ β
  | ret a, f => f a
  | stuck, _ => stuck
  | get k, f => get fun s => (k s).bind f
  | put s k, f => put s (k.bind f)
  | yield k, f => yield (k.bind f)

instance : Monad (Code σ) where
  pure := ret
  bind := bind

def read : Code σ σ := get ret

def write (s : σ) : Code σ Unit := put s (ret ())

def giveWay : Code σ Unit := yield (ret ())

/-- A step that is not the last one. -/
inductive Next : Code σ α → Code σ α → Prop
  | get (k : σ → Code σ α) (s : σ) : Next (k s) (get k)
  | put (s : σ) (k : Code σ α) : Next k (put s k)
  | yield (k : Code σ α) : Next k (yield k)

theorem wellFounded_next : WellFounded (Next : Code σ α → Code σ α → Prop) := by
  refine ⟨fun c => ?_⟩
  induction c with
  | ret a => exact ⟨_, fun _ h => nomatch h⟩
  | stuck => exact ⟨_, fun _ h => nomatch h⟩
  | get k ih =>
    refine ⟨_, fun _ h => ?_⟩
    cases h
    exact ih _
  | put s k ih =>
    refine ⟨_, fun _ h => ?_⟩
    cases h
    exact ih
  | yield k ih =>
    refine ⟨_, fun _ h => ?_⟩
    cases h
    exact ih

/-! ### Rely and guarantee -/

section
variable (R G : σ → σ → Prop)

def wp : Code σ α → (α → σ → Prop) → σ → Prop
  | ret a, Q, s => Q a s
  | stuck, _, _ => False
  | get k, Q, s => (k s).wp Q s
  | put s' k, Q, s => G s s' ∧ k.wp Q s'
  | yield k, Q, s => ∀ s', R s s' → k.wp Q s'

variable {R G} {Q : α → σ → Prop} {s : σ}

/-- One program after another. -/
theorem wp_bind {c : Code σ α} {f : α → Code σ β} {Q : β → σ → Prop} :
    (c >>= f).wp R G Q s ↔ c.wp R G (fun a => (f a).wp R G Q) s := by
  show (c.bind f).wp R G Q s ↔ _
  induction c generalizing s with
  | ret a => rfl
  | stuck => rfl
  | get k ih => exact ih s
  | put s' k ih => exact and_congr_right fun _ => ih
  | yield k ih => exact forall_congr' fun s' => imp_congr_right fun _ => ih

@[simp] theorem wp_pure {a : α} : (pure a : Code σ α).wp R G Q s ↔ Q a s := Iff.rfl

@[simp] theorem wp_stuck : (stuck : Code σ α).wp R G Q s ↔ False := Iff.rfl

@[simp] theorem wp_read {Q : σ → σ → Prop} : read.wp R G Q s ↔ Q s s := Iff.rfl

@[simp] theorem wp_write {s' : σ} {Q : Unit → σ → Prop} :
    (write s').wp R G Q s ↔ G s s' ∧ Q () s' := Iff.rfl

@[simp] theorem wp_giveWay {Q : Unit → σ → Prop} :
    giveWay.wp R G Q s ↔ ∀ s', R s s' → Q () s' := Iff.rfl

/-- A run by itself. When the program has given way for the `n`-th time, the others have made `others n` of
the state. -/
def run (others : ℕ → σ → σ) : ℕ → Code σ α → σ → Option (α × σ)
  | _, ret a, s => some (a, s)
  | _, stuck, _ => none
  | n, get k, s => (k s).run others n s
  | n, put s' k, _ => k.run others n s'
  | n, yield k, s => k.run others (n + 1) (others n s)

theorem run_of_wp {others : ℕ → σ → σ} (hothers : ∀ n s, R s (others n s)) {c : Code σ α}
    (h : c.wp R G Q s) (n : ℕ) : ∃ a s', c.run others n s = some (a, s') ∧ Q a s' := by
  induction c generalizing s n with
  | ret a => exact ⟨a, s, rfl, h⟩
  | stuck => exact h.elim
  | get k ih => exact ih s h n
  | put s' k ih => exact ih h.2 n
  | yield k ih => exact ih (h _ (hothers n s)) (n + 1)

end

end Code

/-! ### Several coroutines -/

/-- How far a coroutine has come: what is left of its program, or what it has returned. -/
inductive Stage (σ : Type*) (α : Type*)
  | going (c : Code σ α)
  | ended (a : α)

section
variable (R G : ι → σ → σ → Prop) (Q : ι → α → σ → Prop)

def Stage.wp (i : ι) (s : σ) : Stage σ α → Prop
  | going c => c.wp (R i) (G i) (Q i) s
  | ended a => Q i a s

/-- A coroutine that does not run has its precondition whatever the others do. -/
def Stage.Waits (i : ι) (s : σ) (x : Stage σ α) : Prop := ∀ s', R i s s' → x.wp R G Q i s'

/-- The coroutines of a team wait but for the one that runs. -/
structure Team (team : Set ι) (stage : ι → Stage σ α) (running : Option ι) (s : σ) : Prop where
  waits : ∀ i ∈ team, running ≠ some i → (stage i).Waits R G Q i s
  runs : ∀ i ∈ team, running = some i → (stage i).wp R G Q i s

/-- What one of them does the others can rely on; to rely on nothing being done, or on one thing after
another, is possible. -/
structure Compatible : Prop where
  guarantee : ∀ i j, i ≠ j → ∀ s s', G i s s' → R j s s'
  refl : ∀ i s, R i s s
  trans : ∀ i s s' s'', R i s s' → R i s' s'' → R i s s''
  /-- What a coroutine has achieved at its end is left as it is. -/
  post : ∀ i a s s', Q i a s → R i s s' → Q i a s'

variable {R G Q} {team : Set ι} {i : ι} {s s' : σ} {stage : ι → Stage σ α}

theorem Stage.Waits.mono (hc : Compatible R G Q) {x : Stage σ α} (h : x.Waits R G Q i s)
    (hs : R i s s') : x.Waits R G Q i s' := fun s'' hs' => h s'' (hc.trans i s s' s'' hs hs')

namespace Team

/-- One that waits begins to run. -/
theorem start (h : Team R G Q team stage none s) (hc : Compatible R G Q) (i : ι) :
    Team R G Q team stage (some i) s where
  waits j hj _ := h.waits j hj fun heq => nomatch heq
  runs j hj _ := h.waits j hj (fun heq => nomatch heq) s (hc.refl j s)

theorem not_stuck (h : Team R G Q team stage (some i) s) (hteam : i ∈ team)
    (hi : stage i = .going .stuck) : False := by
  have hruns := h.runs i hteam rfl
  rwa [hi] at hruns

variable [DecidableEq ι] {x : Stage σ α}

/-- The one that runs has got on. -/
theorem advance (h : Team R G Q team stage (some i) s) (hc : Compatible R G Q)
    (hs : s' = s ∨ G i s s') (hx : x.wp R G Q i s') :
    Team R G Q team (Function.update stage i x) (some i) s' where
  waits j hj hne := by
    have hji : j ≠ i := fun heq => hne (congrArg some heq.symm)
    rw [Function.update_of_ne hji]
    have hwaits := h.waits j hj hne
    rcases hs with rfl | hs
    · exact hwaits
    · exact hwaits.mono hc (hc.guarantee i j hji.symm s s' hs)
  runs j _ hj := by
    obtain rfl := Option.some.inj hj
    rwa [Function.update_self]

/-- The one that runs gives way, or is over. -/
theorem stop (h : Team R G Q team stage (some i) s) (hx : x.Waits R G Q i s) :
    Team R G Q team (Function.update stage i x) none s where
  waits j hj _ := by
    by_cases hji : j = i
    · subst hji
      rwa [Function.update_self]
    · rw [Function.update_of_ne hji]
      exact h.waits j hj fun heq => hji (Option.some.inj heq).symm
  runs _ _ hj := nomatch hj

theorem get (h : Team R G Q team stage (some i) s) (hc : Compatible R G Q) (hteam : i ∈ team)
    {k : σ → Code σ α} (hi : stage i = .going (.get k)) :
    Team R G Q team (Function.update stage i (.going (k s))) (some i) s := by
  have hruns := h.runs i hteam rfl
  rw [hi] at hruns
  exact h.advance hc (.inl rfl) hruns

theorem put (h : Team R G Q team stage (some i) s) (hc : Compatible R G Q) (hteam : i ∈ team)
    {k : Code σ α} (hi : stage i = .going (.put s' k)) :
    Team R G Q team (Function.update stage i (.going k)) (some i) s' := by
  have hruns := h.runs i hteam rfl
  rw [hi] at hruns
  exact h.advance hc (.inr hruns.1) hruns.2

theorem yield (h : Team R G Q team stage (some i) s) (hteam : i ∈ team) {k : Code σ α}
    (hi : stage i = .going (.yield k)) : Team R G Q team (Function.update stage i (.going k)) none s := by
  have hruns := h.runs i hteam rfl
  rw [hi] at hruns
  exact h.stop hruns

theorem ret (h : Team R G Q team stage (some i) s) (hc : Compatible R G Q) (hteam : i ∈ team) {a : α}
    (hi : stage i = .going (.ret a)) : Team R G Q team (Function.update stage i (.ended a)) none s := by
  have hruns := h.runs i hteam rfl
  rw [hi] at hruns
  exact h.stop fun s' hs => hc.post i a s s' hruns hs

end Team

end

end SystemsProgramming
