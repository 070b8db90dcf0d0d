import Mathlib.Logic.Basic
import Mathlib.Data.Option.Basic
import Mathlib.Tactic.SplitIfs

/-! Lists that own cells, and cells that own resources. No cell is in two lists, no resource in two cells,
and whatever is there has an owner. Nothing is said of the order in a list. -/

namespace SystemsProgramming

variable {ι κ ρ : Type*}

structure Owns (lists : ι → List κ) (resource : κ → Option ρ) (live : ρ → Prop) : Prop where
  owner : ∀ i j k, k ∈ lists i → k ∈ lists j → i = j
  unique : ∀ k l r, resource k = some r → resource l = some r → k = l
  cell : ∀ k r, resource k = some r → ∃ i, k ∈ lists i
  held : ∀ i k, k ∈ lists i → ∃ r, resource k = some r ∧ live r
  owned : ∀ r, live r → ∃ k, resource k = some r

namespace Owns

variable {lists lists' : ι → List κ} {resource resource' : κ → Option ρ} {live live' : ρ → Prop}

theorem congr (h : Owns lists resource live) (hresource : ∀ k, resource' k = resource k)
    (hlive : ∀ r, live' r ↔ live r) : Owns lists resource' live' where
  owner := h.owner
  unique k l r hk hl := h.unique k l r ((hresource k).symm.trans hk) ((hresource l).symm.trans hl)
  cell k r hk := h.cell k r ((hresource k).symm.trans hk)
  held i k hk := by
    obtain ⟨r, hr, hlive'⟩ := h.held i k hk
    exact ⟨r, (hresource k).trans hr, (hlive r).mpr hlive'⟩
  owned r hr := by
    obtain ⟨k, hk⟩ := h.owned r ((hlive r).mp hr)
    exact ⟨k, (hresource k).trans hk⟩

section
variable [DecidableEq κ]

/-- A list gets a new cell with a new resource. -/
theorem add (h : Owns lists resource live) {i : ι} {k : κ} {r : ρ} (hk : resource k = none)
    (hr : ¬live r) (hlists : ∀ j l, l ∈ lists' j ↔ l ∈ lists j ∨ j = i ∧ l = k)
    (hresource : ∀ l, resource' l = if l = k then some r else resource l)
    (hlive : ∀ s, live' s ↔ live s ∨ s = r) : Owns lists' resource' live' := by
  have hfresh : ∀ j, k ∉ lists j := fun j hj => by
    obtain ⟨s, hs, -⟩ := h.held j k hj
    cases hk.symm.trans hs
  have hold : ∀ {j l}, l ∈ lists j → resource' l = resource l := fun {j l} hl => by
    rw [hresource, if_neg]
    rintro rfl
    exact hfresh j hl
  have hnot : ∀ {l}, resource l ≠ some r := fun {l} hl => by
    obtain ⟨j, hj⟩ := h.cell l r hl
    obtain ⟨s, hs, hlive⟩ := h.held j l hj
    obtain rfl := Option.some.inj (hl.symm.trans hs)
    exact hr hlive
  constructor
  · intro j j' l hl hl'
    rcases (hlists j l).mp hl with hl | ⟨rfl, rfl⟩
    · rcases (hlists j' l).mp hl' with hl' | ⟨-, rfl⟩
      · exact h.owner j j' l hl hl'
      · exact absurd hl (hfresh j)
    · rcases (hlists j' l).mp hl' with hl' | ⟨rfl, -⟩
      · exact absurd hl' (hfresh j')
      · rfl
  · intro l l' s hl hl'
    rw [hresource] at hl hl'
    split_ifs at hl hl' with hlk hlk' hlk'
    · rw [hlk, hlk']
    · exact absurd (hl'.trans hl.symm) hnot
    · exact absurd (hl.trans hl'.symm) hnot
    · exact h.unique l l' s hl hl'
  · intro l s hl
    rw [hresource] at hl
    split_ifs at hl with hlk
    · exact ⟨i, (hlists i l).mpr (.inr ⟨rfl, hlk⟩)⟩
    · obtain ⟨j, hj⟩ := h.cell l s hl
      exact ⟨j, (hlists j l).mpr (.inl hj)⟩
  · intro j l hl
    rcases (hlists j l).mp hl with hl | ⟨-, rfl⟩
    · obtain ⟨s, hs, hlive'⟩ := h.held j l hl
      exact ⟨s, (hold hl).trans hs, (hlive s).mpr (.inl hlive')⟩
    · exact ⟨r, (hresource l).trans (if_pos rfl), (hlive r).mpr (.inr rfl)⟩
  · intro s hs
    rcases (hlive s).mp hs with hs | rfl
    · obtain ⟨l, hl⟩ := h.owned s hs
      obtain ⟨j, hj⟩ := h.cell l s hl
      exact ⟨l, (hold hj).trans hl⟩
    · exact ⟨k, (hresource k).trans (if_pos rfl)⟩

/-- Some cells are given up with their resources. -/
theorem remove (h : Owns lists resource live) {s : List κ}
    (hlists : ∀ j k, k ∈ lists' j ↔ k ∈ lists j ∧ k ∉ s)
    (hresource : ∀ k, resource' k = if k ∈ s then none else resource k)
    (hlive : ∀ r, live' r ↔ live r ∧ ∀ k ∈ s, resource k ≠ some r) : Owns lists' resource' live' := by
  have hkept : ∀ {k r}, resource' k = some r → k ∉ s ∧ resource k = some r := fun {k r} hk => by
    rw [hresource] at hk
    split_ifs at hk with hmem
    exact ⟨hmem, hk⟩
  constructor
  · exact fun i j k hi hj => h.owner i j k ((hlists i k).mp hi).1 ((hlists j k).mp hj).1
  · exact fun k l r hk hl => h.unique k l r (hkept hk).2 (hkept hl).2
  · intro k r hk
    obtain ⟨hnot, hk⟩ := hkept hk
    obtain ⟨i, hi⟩ := h.cell k r hk
    exact ⟨i, (hlists i k).mpr ⟨hi, hnot⟩⟩
  · intro i k hk
    obtain ⟨hk, hnot⟩ := (hlists i k).mp hk
    obtain ⟨r, hr, hlive'⟩ := h.held i k hk
    refine ⟨r, (hresource k).trans ((if_neg hnot).trans hr), (hlive r).mpr ⟨hlive', fun l hl hlr => ?_⟩⟩
    exact hnot (h.unique k l r hr hlr ▸ hl)
  · intro r hr
    obtain ⟨hr, hgone⟩ := (hlive r).mp hr
    obtain ⟨k, hk⟩ := h.owned r hr
    exact ⟨k, (hresource k).trans ((if_neg fun hmem => hgone k hmem hk).trans hk)⟩

end

end Owns

end SystemsProgramming
