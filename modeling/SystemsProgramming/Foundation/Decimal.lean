import Mathlib.Data.Nat.Digits.Defs

/-! Integers in decimal notation, as `printf` writes them and `scanf` reads them. What has been written is
read back, whatever follows that is not a digit. -/

namespace SystemsProgramming.Decimal

variable {n : ℕ} {x : ℤ} {c : UInt8} {ds : List ℕ} {text rest : List UInt8}

/-- `isspace` -/
def isSpace (c : UInt8) : Bool := c == 32 || decide (9 ≤ c ∧ c ≤ 13)

/-- `isdigit` -/
def isDigit (c : UInt8) : Bool := decide (48 ≤ c ∧ c ≤ 57)

def digit (d : ℕ) : UInt8 := (48 + d).toUInt8

theorem toNat_digit {d : ℕ} (h : d < 10) : (digit d).toNat = 48 + d := by
  rw [digit, UInt8.toNat_ofNat']
  omega

theorem isDigit_digit {d : ℕ} (h : d < 10) : isDigit (digit d) = true := by
  simp only [isDigit, decide_eq_true_eq, UInt8.le_iff_toNat_le, toNat_digit h]
  exact ⟨Nat.le_add_right 48 d, Nat.add_le_add_left (Nat.le_of_lt_succ h) 48⟩

/-- A digit neither is skipped nor is a sign. -/
theorem of_isDigit (h : isDigit c = true) : isSpace c = false ∧ c ≠ 45 ∧ c ≠ 43 := by
  simp only [isDigit, decide_eq_true_eq, UInt8.le_iff_toNat_le] at h
  have hle : 48 ≤ c.toNat := h.1
  refine ⟨?_, ?_, ?_⟩
  · simp only [isSpace, Bool.or_eq_false_iff, beq_eq_false_iff_ne, decide_eq_false_iff_not,
      UInt8.le_iff_toNat_le]
    refine ⟨fun hc => ?_, fun hc => ?_⟩
    · rw [hc] at hle
      exact absurd hle (by decide)
    · exact absurd (hle.trans hc.2) (by decide)
  · rintro rfl
    exact absurd hle (by decide)
  · rintro rfl
    exact absurd hle (by decide)

/-! ### Natural numbers -/

/-- The number that some digits stand for. -/
def value (text : List UInt8) : ℕ := text.foldl (fun n c => 10 * n + (c.toNat - 48)) 0

/-- The digits of a number, the first one not `0` unless the number is. -/
def digits (n : ℕ) : List UInt8 := if n = 0 then [digit 0] else ((Nat.digits 10 n).map digit).reverse

theorem digits_ne_nil (n : ℕ) : digits n ≠ [] := by
  unfold digits
  split_ifs with hn
  · exact List.cons_ne_nil _ _
  · simpa [Nat.digits_ne_nil_iff_ne_zero] using hn

theorem isDigit_of_mem_digits (h : c ∈ digits n) : isDigit c = true := by
  unfold digits at h
  split_ifs at h with hn
  · rw [List.mem_singleton.mp h]
    exact isDigit_digit (by decide)
  · obtain ⟨d, hd, rfl⟩ := List.mem_map.mp (List.mem_reverse.mp h)
    exact isDigit_digit (Nat.digits_lt_base (by decide) hd)

theorem value_reverse (h : ∀ d ∈ ds, d < 10) : value (ds.map digit).reverse = Nat.ofDigits 10 ds := by
  rw [value, List.foldl_reverse]
  induction ds with
  | nil => rfl
  | cons d ds ih =>
    have hd := toNat_digit (h d (List.mem_cons_self ..))
    rw [List.map_cons, List.foldr_cons, ih fun d' hd' => h d' (List.mem_cons_of_mem d hd'), hd,
      Nat.ofDigits_cons]
    omega

theorem value_digits (n : ℕ) : value (digits n) = n := by
  unfold digits
  split_ifs with hn
  · subst hn
    rfl
  · rw [value_reverse fun d hd => Nat.digits_lt_base (by decide) hd, Nat.ofDigits_digits]

/-! ### Integers -/

/-- `printf` with `%d` -/
def print (x : ℤ) : List UInt8 := if x < 0 then 45 :: digits x.natAbs else digits x.natAbs

/-- Whether there is a minus, and the text after the sign. -/
def sign : List UInt8 → Bool × List UInt8
  | [] => (false, [])
  | c :: text => if c = 45 then (true, text) else if c = 43 then (false, text) else (false, c :: text)

/-- `scanf` with `%d`: the number and the text after it, if there is a number. -/
def scan (text : List UInt8) : Option (ℤ × List UInt8) :=
  let (negative, text) := sign (text.dropWhile isSpace)
  let ds := text.takeWhile isDigit
  if ds = [] then none
  else some (if negative then -(value ds : ℤ) else value ds, text.dropWhile isDigit)

theorem length_sign_le (text : List UInt8) : (sign text).2.length ≤ text.length := by
  unfold sign
  split
  · exact le_rfl
  · split_ifs <;> simp

/-- Every number takes some of the text. -/
theorem length_lt_of_scan (h : scan text = some (x, rest)) : rest.length < text.length := by
  by_cases hds : (sign (text.dropWhile isSpace)).2.takeWhile isDigit = []
  · simp [scan, hds] at h
  simp only [scan, if_neg hds] at h
  obtain ⟨-, rfl⟩ := Prod.mk.inj (Option.some.inj h)
  have hlength := congrArg List.length (List.takeWhile_append_dropWhile (p := isDigit)
    (l := (sign (text.dropWhile isSpace)).2))
  rw [List.length_append] at hlength
  have hpos := List.length_pos_iff.mpr hds
  have hsign := length_sign_le (text.dropWhile isSpace)
  have hspace := (List.dropWhile_sublist (l := text) isSpace).length_le
  omega

/-- The text goes on with something else than a digit. -/
def Ends (rest : List UInt8) : Prop := ∀ c ∈ rest.head?, isDigit c = false

theorem dropWhile_isDigit (h : Ends rest) (hds : ∀ c ∈ text, isDigit c = true) :
    (text ++ rest).takeWhile isDigit = text ∧ (text ++ rest).dropWhile isDigit = rest := by
  rw [List.takeWhile_append_of_pos hds, List.dropWhile_append_of_pos hds]
  cases rest with
  | nil => exact ⟨List.append_nil _, rfl⟩
  | cons c rest =>
    have hc := h c rfl
    rw [List.takeWhile_cons_of_neg (by simp [hc]), List.dropWhile_cons_of_neg (by simp [hc])]
    exact ⟨List.append_nil _, rfl⟩

/-- The sign of a number that has been written, and its digits. -/
theorem sign_print (x : ℤ) (rest : List UInt8) :
    sign ((print x ++ rest).dropWhile isSpace) = (decide (x < 0), digits x.natAbs ++ rest) := by
  unfold print
  split_ifs with hx
  · simp [hx, sign, isSpace]
  · cases hds : digits x.natAbs with
    | nil => exact absurd hds (digits_ne_nil _)
    | cons c cs =>
      obtain ⟨hspace, hminus, hplus⟩ :=
        of_isDigit (isDigit_of_mem_digits (hds ▸ List.mem_cons_self .. : c ∈ digits x.natAbs))
      rw [List.cons_append, List.dropWhile_cons_of_neg (by simp [hspace]), sign, if_neg hminus,
        if_neg hplus, decide_eq_false hx]

theorem scan_print (x : ℤ) (h : Ends rest) : scan (print x ++ rest) = some (x, rest) := by
  obtain ⟨htake, hdrop⟩ := dropWhile_isDigit h fun c hc => isDigit_of_mem_digits (n := x.natAbs) hc
  simp only [scan, sign_print, htake, hdrop, if_neg (digits_ne_nil _), value_digits, decide_eq_true_eq]
  split_ifs with hx
  · rw [Int.ofNat_natAbs_of_nonpos hx.le, neg_neg]
  · rw [Int.natAbs_of_nonneg (not_lt.mp hx)]

/-- White space before a number is skipped. -/
theorem scan_cons_space (h : isSpace c = true) (text : List UInt8) : scan (c :: text) = scan text := by
  rw [scan, List.dropWhile_cons_of_pos h]
  rfl

example : scan [32, 45, 48, 52, 50, 120] = some (-42, [120]) := by decide

end SystemsProgramming.Decimal
