import Mathlib.Data.List.Basic
import Mathlib.Data.Nat.Notation

/-! Processes that read a stream and write a stream. What a process does next is a function of its state; a
read that finds nothing at the end of the input is answered with `none`. `Behaves` is what such a process
makes of a whole input when it is alone, whatever it is connected to later. -/

namespace SystemsProgramming

inductive Action (β ω σ : Type*)
  | read (k : Option β → σ)
  | write (b : β) (s : σ)
  | exit (status : ω)

variable {β ω σ : Type*}

/-- In so many steps the process turns the input into the output and ends with the status. What it does
not read of the input is lost. -/
inductive Behaves (act : σ → Action β ω σ) : σ → List β → List β → ω → ℕ → Prop
  | exit {s : σ} {status : ω} {input : List β} : act s = .exit status → Behaves act s input [] status 1
  | write {s t : σ} {b : β} {input output : List β} {status : ω} {n : ℕ} : act s = .write b t →
      Behaves act t input output status n → Behaves act s input (b :: output) status (n + 1)
  | read {s : σ} {k : Option β → σ} {b : β} {input output : List β} {status : ω} {n : ℕ} :
      act s = .read k → Behaves act (k (some b)) input output status n →
      Behaves act s (b :: input) output status (n + 1)
  | eof {s : σ} {k : Option β → σ} {output : List β} {status : ω} {n : ℕ} : act s = .read k →
      Behaves act (k none) [] output status n → Behaves act s [] output status (n + 1)

namespace Behaves

variable {act : σ → Action β ω σ} {s t : σ} {k : Option β → σ} {b : β} {input output : List β}
  {status status' : ω} {n : ℕ}

theorem of_exit (h : Behaves act s input output status n) (hs : act s = .exit status') :
    output = [] ∧ status = status' ∧ n = 1 := by
  cases h with
  | exit hact => exact ⟨rfl, Action.exit.inj (hact.symm.trans hs), rfl⟩
  | write hact => cases hact.symm.trans hs
  | read hact => cases hact.symm.trans hs
  | eof hact => cases hact.symm.trans hs

theorem of_write (h : Behaves act s input output status n) (hs : act s = .write b t) :
    ∃ output' m, output = b :: output' ∧ n = m + 1 ∧ Behaves act t input output' status m := by
  cases h with
  | exit hact => cases hact.symm.trans hs
  | write hact h =>
    obtain ⟨rfl, rfl⟩ := Action.write.inj (hact.symm.trans hs)
    exact ⟨_, _, rfl, rfl, h⟩
  | read hact => cases hact.symm.trans hs
  | eof hact => cases hact.symm.trans hs

theorem of_read (h : Behaves act s (b :: input) output status n) (hs : act s = .read k) :
    ∃ m, n = m + 1 ∧ Behaves act (k (some b)) input output status m := by
  cases h with
  | exit hact => cases hact.symm.trans hs
  | write hact => cases hact.symm.trans hs
  | read hact h =>
    obtain rfl := Action.read.inj (hact.symm.trans hs)
    exact ⟨_, rfl, h⟩

theorem of_eof (h : Behaves act s [] output status n) (hs : act s = .read k) :
    ∃ m, n = m + 1 ∧ Behaves act (k none) [] output status m := by
  cases h with
  | exit hact => cases hact.symm.trans hs
  | write hact => cases hact.symm.trans hs
  | eof hact h =>
    obtain rfl := Action.read.inj (hact.symm.trans hs)
    exact ⟨_, rfl, h⟩

theorem pos (h : Behaves act s input output status n) : 0 < n := by
  cases h with
  | exit => exact Nat.one_pos
  | write => exact Nat.succ_pos _
  | read => exact Nat.succ_pos _
  | eof => exact Nat.succ_pos _

end Behaves

/-- The process comes to its end without a read. -/
inductive ReadsNothing (act : σ → Action β ω σ) : σ → Prop
  | exit {s : σ} {status : ω} : act s = .exit status → ReadsNothing act s
  | write {s t : σ} {b : β} : act s = .write b t → ReadsNothing act t → ReadsNothing act s

namespace ReadsNothing

variable {act : σ → Action β ω σ} {s t : σ} {k : Option β → σ} {b : β} {input input' output output' : List β}
  {status status' : ω} {n n' : ℕ}

theorem not_read (h : ReadsNothing act s) : act s ≠ .read k := by
  cases h with
  | exit hact => simp [hact]
  | write hact => simp [hact]

theorem of_write (h : ReadsNothing act s) (hs : act s = .write b t) : ReadsNothing act t := by
  cases h with
  | exit hact => cases hact.symm.trans hs
  | write hact h =>
    obtain ⟨rfl, rfl⟩ := Action.write.inj (hact.symm.trans hs)
    exact h

/-- What it makes of an input does not depend on the input. -/
theorem behaves_eq (h : ReadsNothing act s) (hb : Behaves act s input output status n)
    (hb' : Behaves act s input' output' status' n') : output = output' ∧ status = status' ∧ n = n' := by
  induction h generalizing output output' n n' with
  | exit hact =>
    obtain ⟨rfl, rfl, rfl⟩ := hb.of_exit hact
    obtain ⟨rfl, rfl, rfl⟩ := hb'.of_exit hact
    exact ⟨rfl, rfl, rfl⟩
  | write hact _ ih =>
    obtain ⟨out, m, rfl, rfl, hrest⟩ := hb.of_write hact
    obtain ⟨out', m', rfl, rfl, hrest'⟩ := hb'.of_write hact
    obtain ⟨rfl, rfl, rfl⟩ := ih hrest hrest'
    exact ⟨rfl, rfl, rfl⟩

end ReadsNothing

end SystemsProgramming
