import Mathlib.Data.List.Basic
import Mathlib.Data.Int.Notation
import Mathlib.Data.Int.Cast.Basic
import Mathlib.Tactic.SplitIfs

/-! How many entries of a list are of each kind, and how these numbers change when one entry is
replaced, one is added at the end, or all entries with a property move to another kind. For systems
with a list of agents, each in one of a few phases. The last section is about what the agents hold:
the list of these things changes by one when one agent's phase does. -/

namespace SystemsProgramming

variable {α κ : Type*} [DecidableEq κ] (kind : α → κ)

/-- The number of entries of kind `k`. -/
def tally (l : List α) (k : κ) : ℤ := (l.countP fun a => kind a = k : ℕ)

variable {kind}

theorem tally_nonneg (l : List α) (k : κ) : 0 ≤ tally kind l k := Int.natCast_nonneg _

@[simp] theorem tally_nil (k : κ) : tally kind [] k = 0 := rfl

theorem tally_cons (a : α) (l : List α) (k : κ) :
    tally kind (a :: l) k = tally kind l k + if kind a = k then 1 else 0 := by
  simp only [tally, List.countP_cons, decide_eq_true_eq]
  split_ifs <;> simp

theorem tally_append (l m : List α) (k : κ) :
    tally kind (l ++ m) k = tally kind l k + tally kind m k := by
  simp [tally, List.countP_append]

theorem tally_pos {l : List α} {k : κ} : 0 < tally kind l k ↔ ∃ a ∈ l, kind a = k := by
  simp [tally, List.countP_pos_iff]

theorem tally_eq_zero {l : List α} {k : κ} : tally kind l k = 0 ↔ ∀ a ∈ l, kind a ≠ k := by
  simp [tally]

theorem tally_set {l : List α} {i : ℕ} {a : α} (h : l[i]? = some a) (b : α) (k : κ) :
    tally kind (l.set i b) k =
      tally kind l k - (if kind a = k then 1 else 0) + if kind b = k then 1 else 0 := by
  induction l generalizing i with
  | nil => simp at h
  | cons x l ih =>
    cases i with
    | zero =>
      obtain rfl : x = a := by simpa using h
      rw [List.set_cons_zero, tally_cons, tally_cons]
      omega
    | succ i =>
      rw [List.set_cons_succ, tally_cons, tally_cons, ih (by simpa using h)]
      omega

theorem tally_map_of_kind {l : List α} {f : α → α} {k : κ}
    (h : ∀ a ∈ l, kind (f a) = k ↔ kind a = k) : tally kind (l.map f) k = tally kind l k := by
  induction l with
  | nil => rfl
  | cons a l ih =>
    rw [List.map_cons, tally_cons, tally_cons, ih fun b hb => h b (List.mem_cons_of_mem a hb)]
    simp only [h a List.mem_cons_self]

/-- The entries with property `p`, all of kind `j`, are replaced by `b` of kind `j'`. -/
theorem tally_mapIdx_move {j j' : κ} (hne : j ≠ j') {b : α} (hb : kind b = j')
    (p : ℕ → α → Prop) [∀ i a, Decidable (p i a)] (hp : ∀ i a, p i a → kind a = j) (l : List α) :
    ∃ n : ℕ, tally kind (l.mapIdx fun i a => if p i a then b else a) j = tally kind l j - n ∧
      tally kind (l.mapIdx fun i a => if p i a then b else a) j' = tally kind l j' + n ∧
      (∀ k, k ≠ j → k ≠ j' →
        tally kind (l.mapIdx fun i a => if p i a then b else a) k = tally kind l k) ∧
      ((∃ i a, l[i]? = some a ∧ p i a) → 0 < n) := by
  induction l generalizing p with
  | nil => exact ⟨0, by simp, by simp, fun _ _ _ => rfl, fun ⟨i, a, h, _⟩ => by simp at h⟩
  | cons x l ih =>
    obtain ⟨n, hj, hj', hk, hpos⟩ := ih (fun i a => p (i + 1) a) fun i a => hp (i + 1) a
    simp only [List.mapIdx_cons, tally_cons]
    by_cases hx : p 0 x
    · have hxj := hp 0 x hx
      refine ⟨n + 1, ?_, ?_, fun k h1 h2 => ?_, fun _ => n.succ_pos⟩
      · simp only [hx, hxj, hb, if_true, hj, if_neg hne.symm]
        omega
      · simp only [hx, hxj, hb, if_true, hj', if_neg hne]
        omega
      · simp only [hx, hxj, hb, if_true, hk k h1 h2, if_neg h1.symm, if_neg h2.symm]
    · refine ⟨n, ?_, ?_, fun k h1 h2 => ?_, ?_⟩
      · simp only [hx, if_false, hj]
        omega
      · simp only [hx, if_false, hj']
        omega
      · simp only [hx, if_false, hk k h1 h2]
      · rintro ⟨i, a, hi, ha⟩
        cases i with
        | zero =>
          obtain rfl : x = a := by simpa using hi
          exact absurd ha hx
        | succ i => exact hpos ⟨i, a, by simpa using hi, ha⟩

section Holdings
variable {β : Type*} {f : α → Option β}

theorem filterMap_set_perm {l : List α} {i : ℕ} {a b : α} (h : l[i]? = some a) :
    ((f a).toList ++ (l.set i b).filterMap f).Perm ((f b).toList ++ l.filterMap f) := by
  induction l generalizing i with
  | nil => simp at h
  | cons x l ih =>
    have hsplit : ∀ (y : α) (m : List α), (y :: m).filterMap f = (f y).toList ++ m.filterMap f := by
      intro y m
      cases hy : f y <;> simp [hy]
    cases i with
    | zero =>
      obtain rfl : x = a := by simpa using h
      rw [List.set_cons_zero, hsplit, hsplit, ← List.append_assoc, ← List.append_assoc]
      exact List.perm_append_comm.append_right _
    | succ i =>
      rw [List.set_cons_succ, hsplit, hsplit, ← List.append_assoc, ← List.append_assoc]
      refine (List.perm_append_comm.append_right _).trans ?_
      rw [List.append_assoc]
      refine ((ih (by simpa using h)).append_left _).trans ?_
      rw [← List.append_assoc]
      exact List.perm_append_comm.append_right _

theorem filterMap_set_eq {l : List α} {i : ℕ} {a b : α} (h : l[i]? = some a) (ha : f a = none)
    (hb : f b = none) : (l.set i b).filterMap f = l.filterMap f := by
  induction l generalizing i with
  | nil => simp at h
  | cons x l ih =>
    cases i with
    | zero =>
      obtain rfl : x = a := by simpa using h
      rw [List.set_cons_zero, List.filterMap_cons_none hb, List.filterMap_cons_none ha]
    | succ i =>
      have hl := ih (by simpa using h)
      rw [List.set_cons_succ, List.filterMap_cons, List.filterMap_cons, hl]

theorem filterMap_mapIdx_eq {l : List α} {g : ℕ → α → α} (hg : ∀ i a, f (g i a) = f a) :
    (l.mapIdx g).filterMap f = l.filterMap f := by
  induction l generalizing g with
  | nil => rfl
  | cons x l ih =>
    rw [List.mapIdx_cons, List.filterMap_cons, List.filterMap_cons, hg, ih fun i => hg (i + 1)]

/-- A thing that is held once has one holder. -/
theorem holder_unique {l : List α} (h : (l.filterMap f).Nodup) {i j : ℕ} {a b : α} {x : β}
    (hi : l[i]? = some a) (ha : f a = some x) (hj : l[j]? = some b) (hb : f b = some x) : i = j := by
  induction l generalizing i j with
  | nil => simp at hi
  | cons c l ih =>
    have hmem : ∀ {k : ℕ} {d : α}, l[k]? = some d → f d = some x → x ∈ l.filterMap f :=
      fun hk hd => List.mem_filterMap.mpr ⟨_, List.mem_of_getElem? hk, hd⟩
    cases i with
    | zero =>
      cases j with
      | zero => rfl
      | succ j =>
        obtain rfl : c = a := by simpa using hi
        rw [List.filterMap_cons_some ha, List.nodup_cons] at h
        exact absurd (hmem (by simpa using hj) hb) h.1
    | succ i =>
      cases j with
      | zero =>
        obtain rfl : c = b := by simpa using hj
        rw [List.filterMap_cons_some hb, List.nodup_cons] at h
        exact absurd (hmem (by simpa using hi) ha) h.1
      | succ j =>
        have hl : (l.filterMap f).Nodup := by
          rw [List.filterMap_cons] at h
          split at h
          · exact h
          · exact h.of_cons
        have hij : i = j := ih hl (by simpa using hi) (by simpa using hj)
        rw [hij]

end Holdings

end SystemsProgramming
