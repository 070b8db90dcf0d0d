import Mathlib.Logic.Function.Basic
import Mathlib.Data.Int.Notation

/-! Arrays whose elements know their own position, as used for removal in constant time: the first
`n` cells hold distinct elements, and `index` tells where each of them stands. Two elements may
trade places, an element may be added at the end, and the last one may be removed. -/

namespace SystemsProgramming

variable {α : Type*}

structure Slots (cells : ℤ → Option α) (index : α → Option ℤ) (n : ℤ) : Prop where
  nonneg : 0 ≤ n
  range : ∀ {x i}, index x = some i → 0 ≤ i ∧ i < n
  cell : ∀ {x i}, index x = some i → cells i = some x
  filled : ∀ {i}, 0 ≤ i → i < n → ∃ x, cells i = some x ∧ index x = some i

namespace Slots

variable {cells : ℤ → Option α} {index : α → Option ℤ} {n i j : ℤ} {x y : α}

theorem empty : Slots (fun _ => none : ℤ → Option α) (fun _ => none) 0 where
  nonneg := Int.le_refl 0
  range h := by simp at h
  cell h := by simp at h
  filled h0 h1 := by omega

theorem injective (h : Slots cells index n) (hx : index x = some i) (hy : index y = some i) :
    x = y := by
  have hxy := (h.cell hx).symm.trans (h.cell hy)
  exact Option.some.inj hxy

variable [DecidableEq α]

theorem swap (h : Slots cells index n) (hx : index x = some i) (hy : index y = some j) :
    Slots (Function.update (Function.update cells i (some y)) j (some x))
      (Function.update (Function.update index y (some i)) x (some j)) n where
  nonneg := h.nonneg
  range {z k} hz := by
    simp only [Function.update_apply] at hz
    split at hz
    · cases hz
      exact h.range hy
    · split at hz
      · cases hz
        exact h.range hx
      · exact h.range hz
  cell {z k} hz := by
    simp only [Function.update_apply] at hz ⊢
    split at hz
    · next hzx =>
      cases hz
      rw [if_pos rfl, hzx]
    · next hzx =>
      split at hz
      · next hzy =>
        cases hz
        rw [if_pos rfl, hzy]
        split
        · next hij => exact absurd (h.injective (hij ▸ hx) hy) (hzy ▸ Ne.symm hzx)
        · rfl
      · next hzy =>
        have hkj : k ≠ j := fun e => hzy (h.injective hz (e ▸ hy))
        have hki : k ≠ i := fun e => hzx (h.injective hz (e ▸ hx))
        rw [if_neg hkj, if_neg hki]
        exact h.cell hz
  filled {k} h0 h1 := by
    simp only [Function.update_apply]
    by_cases hkj : k = j
    · exact ⟨x, by simp [hkj]⟩
    by_cases hki : k = i
    · by_cases hxy : y = x
      · have hij : i = j := Option.some.inj (hx.symm.trans (hxy ▸ hy))
        exact absurd (hki.trans hij) hkj
      · exact ⟨y, by simp [hki, hxy, hki ▸ hkj]⟩
    · obtain ⟨z, hz, hk⟩ := h.filled h0 h1
      have hzx : z ≠ x := fun e => hki (Option.some.inj (hk.symm.trans (e ▸ hx)))
      have hzy : z ≠ y := fun e => hkj (Option.some.inj (hk.symm.trans (e ▸ hy)))
      exact ⟨z, by simp [hkj, hki, hz], by simp [hzx, hzy, hk]⟩

theorem push (h : Slots cells index n) (hx : index x = none) :
    Slots (Function.update cells n (some x)) (Function.update index x (some n)) (n + 1) where
  nonneg := by have := h.nonneg; omega
  range {z k} hz := by
    simp only [Function.update_apply] at hz
    split at hz
    · cases hz
      exact ⟨h.nonneg, by omega⟩
    · have := h.range hz
      omega
  cell {z k} hz := by
    simp only [Function.update_apply] at hz ⊢
    split at hz
    · next hzx =>
      cases hz
      rw [if_pos rfl, hzx]
    · have := h.range hz
      rw [if_neg (by omega)]
      exact h.cell hz
  filled {k} h0 h1 := by
    simp only [Function.update_apply]
    by_cases hkn : k = n
    · exact ⟨x, by simp [hkn]⟩
    · obtain ⟨z, hz, hk⟩ := h.filled h0 (by omega)
      have hzx : z ≠ x := fun e => by simp [← e, hk] at hx
      exact ⟨z, by simp [hkn, hz], by simp [hzx, hk]⟩

theorem pop (h : Slots cells index n) (hx : index x = some (n - 1)) :
    Slots cells (Function.update index x none) (n - 1) where
  nonneg := by have := h.range hx; omega
  range {z k} hz := by
    simp only [Function.update_apply] at hz
    split at hz
    · cases hz
    · next hzx =>
      have hkn : k ≠ n - 1 := fun e => hzx (h.injective hz (e ▸ hx))
      have := h.range hz
      omega
  cell {z k} hz := by
    simp only [Function.update_apply] at hz
    split at hz
    · cases hz
    · exact h.cell hz
  filled {k} h0 h1 := by
    obtain ⟨z, hz, hk⟩ := h.filled h0 (by omega)
    have hzx : z ≠ x := by
      rintro rfl
      have : k = n - 1 := Option.some.inj (hk.symm.trans hx)
      omega
    exact ⟨z, hz, by simp [hzx, hk]⟩

end Slots

end SystemsProgramming
