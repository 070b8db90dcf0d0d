import Mathlib.Data.List.Basic
import Mathlib.Tactic.SplitIfs

/-! Logs of keyed entries, newest first, in which only the latest entry of a key is ever amended.
The rules are for an invariant of the form: every entry is closed or live, and only the latest entry
of its key can be live. -/

namespace SystemsProgramming

variable {β κ : Type*} {key : β → κ} {closed live live' : β → Prop}

/-- Every entry is closed or live, and an entry that is not the latest of its key is closed. -/
inductive Kept (key : β → κ) (closed live : β → Prop) : List β → Prop
  | nil : Kept key closed live []
  | cons {b : β} {l : List β} : closed b ∨ live b → (∀ c ∈ l, key c = key b → closed c) →
      Kept key closed live l → Kept key closed live (b :: l)

theorem Kept.mem {l : List β} (h : Kept key closed live l) {b : β} (hb : b ∈ l) :
    closed b ∨ live b := by
  induction h with
  | nil => cases hb
  | cons hc _ _ ih =>
    rcases List.mem_cons.mp hb with rfl | hb
    · exact hc
    · exact ih hb

theorem Kept.mono {l : List β} (h : Kept key closed live l)
    (hl : ∀ b ∈ l, live b → closed b ∨ live' b) : Kept key closed live' l := by
  induction h with
  | nil => exact .nil
  | cons hb hl' _ ih =>
    refine .cons ?_ hl' (ih fun c hc => hl c (List.mem_cons_of_mem _ hc))
    rcases hb with hb | hb
    · exact .inl hb
    · exact hl _ List.mem_cons_self hb

variable [DecidableEq κ]

def latest (key : β → κ) (a : κ) (l : List β) : Option β := l.find? fun b => key b = a

/-- The latest entry with key `a` is replaced by its image. -/
def amend (key : β → κ) (a : κ) (f : β → β) : List β → List β
  | [] => []
  | b :: l => if key b = a then f b :: l else b :: amend key a f l

theorem latest_cons_self (b : β) (l : List β) : latest key (key b) (b :: l) = some b := by
  simp [latest]

theorem latest_cons_ne {a : κ} {b : β} (h : key b ≠ a) (l : List β) :
    latest key a (b :: l) = latest key a l := by
  simp [latest, h]

theorem key_of_latest {a : κ} {b : β} {l : List β} (h : latest key a l = some b) : key b = a := by
  simpa using List.find?_some h

theorem mem_of_latest {a : κ} {b : β} {l : List β} (h : latest key a l = some b) : b ∈ l :=
  List.mem_of_find?_eq_some h

theorem latest_amend {f : β → β} (hf : ∀ b, key (f b) = key b) (a x : κ) (l : List β) :
    latest key x (amend key a f l) = if x = a then (latest key x l).map f else latest key x l := by
  induction l with
  | nil => split_ifs <;> rfl
  | cons c l ih =>
    unfold amend
    by_cases hca : key c = a
    · rw [if_pos hca]
      by_cases hcx : key c = x
      · subst hcx
        have hself : latest key (key c) (f c :: l) = some (f c) := by
          rw [← hf c]
          exact latest_cons_self ..
        rw [hself, latest_cons_self, if_pos hca]
        rfl
      · have hfx : key (f c) ≠ x := by rwa [hf]
        rw [latest_cons_ne hfx, latest_cons_ne hcx, if_neg fun hxa => hcx (hca.trans hxa.symm)]
    · rw [if_neg hca]
      by_cases hcx : key c = x
      · subst hcx
        rw [latest_cons_self, latest_cons_self, if_neg hca]
      · rw [latest_cons_ne hcx, latest_cons_ne hcx, ih]

theorem mem_amend {a : κ} {c : β} {f : β → β} {l : List β} (h : c ∈ amend key a f l) :
    c ∈ l ∨ ∃ b, latest key a l = some b ∧ c = f b := by
  induction l with
  | nil => cases h
  | cons d l ih =>
    unfold amend at h
    split_ifs at h with hd
    · subst hd
      rcases List.mem_cons.mp h with rfl | h
      · exact .inr ⟨d, latest_cons_self d l, rfl⟩
      · exact .inl (List.mem_cons_of_mem d h)
    · rw [latest_cons_ne hd]
      rcases List.mem_cons.mp h with rfl | h
      · exact .inl List.mem_cons_self
      · exact (ih h).imp_left (List.mem_cons_of_mem d)

/-- The latest entry of one key is amended, and the live entries of the other keys stay live. -/
theorem Kept.amend {l : List β} (h : Kept key closed live l) {a : κ} {b : β} {f : β → β}
    (hb : latest key a l = some b) (hf : key (f b) = a) (hfb : closed (f b) ∨ live' (f b))
    (hl : ∀ c, key c ≠ a → live c → live' c) : Kept key closed live' (amend key a f l) := by
  induction h with
  | nil => cases hb
  | @cons c l hc hcl hk ih =>
    unfold SystemsProgramming.amend
    split_ifs with hca
    · subst hca
      rw [latest_cons_self] at hb
      have hcb : c = b := Option.some.inj hb
      subst hcb
      refine .cons hfb (fun d hd he => hcl d hd (he.trans hf)) (hk.mono fun d hd hld => ?_)
      by_cases hda : key d = key c
      · exact .inl (hcl d hd hda)
      · exact .inr (hl d hda hld)
    · rw [latest_cons_ne hca] at hb
      refine .cons (hc.imp_right (hl c hca)) (fun d hd he => ?_) (ih hb)
      rcases mem_amend hd with hd | ⟨e, he', rfl⟩
      · exact hcl d hd he
      · rw [hb] at he'
        cases he'
        exact absurd (he.symm.trans hf) hca

end SystemsProgramming
