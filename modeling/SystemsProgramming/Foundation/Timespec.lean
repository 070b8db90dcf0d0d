import Mathlib.Data.Int.Notation
import Mathlib.Order.Basic

/-! Times in seconds and nanoseconds. A carry or a borrow between the two parts leaves the time as it is,
and it repairs nanoseconds that are off by at most a second; the quotient and the remainder of division
toward zero denote the dividend, and are a proper time when it is not negative. Signed 64-bit arithmetic
is exact where the result fits. -/

namespace SystemsProgramming

/-- A 64-bit number in two's complement. -/
def wrap64 (x : ℤ) : ℤ := (x + 9223372036854775808) % 18446744073709551616 - 9223372036854775808

def Fits64 (x : ℤ) : Prop := -9223372036854775808 ≤ x ∧ x < 9223372036854775808

instance (x : ℤ) : Decidable (Fits64 x) := inferInstanceAs (Decidable (_ ∧ _))

theorem wrap64_eq_iff {x : ℤ} : wrap64 x = x ↔ Fits64 x := by
  unfold wrap64 Fits64
  omega

theorem Fits64.wrap64 {x : ℤ} (h : Fits64 x) : wrap64 x = x := wrap64_eq_iff.mpr h

/-- An intermediate result outside the range does no harm. -/
theorem wrap64_wrap64_add (x y : ℤ) : wrap64 (wrap64 x + y) = wrap64 (x + y) := by
  unfold wrap64
  omega

/-- The numbers that are not negative after wrapping, and their order. -/
theorem wrap64_nonneg_le_iff {x y : ℤ} : 0 ≤ wrap64 x ∧ wrap64 x ≤ wrap64 y ↔
    x % 18446744073709551616 ≤ y % 18446744073709551616 ∧
      y % 18446744073709551616 < 9223372036854775808 := by
  unfold wrap64
  omega

structure Timespec where
  tvSec : ℤ
  tvNsec : ℤ
  deriving DecidableEq

namespace Timespec

/-- The time in nanoseconds. -/
def ns (t : Timespec) : ℤ := t.tvSec * 1000000000 + t.tvNsec

def Normalised (t : Timespec) : Prop := 0 ≤ t.tvNsec ∧ t.tvNsec < 1000000000

instance (t : Timespec) : Decidable t.Normalised := inferInstanceAs (Decidable (_ ∧ _))

def carry (t : Timespec) : Timespec :=
  if t.tvNsec ≥ 1000000000 then ⟨t.tvSec + 1, t.tvNsec - 1000000000⟩ else t

def borrow (t : Timespec) : Timespec :=
  if t.tvNsec < 0 then ⟨t.tvSec - 1, t.tvNsec + 1000000000⟩ else t

/-- Nanoseconds divided into seconds and a rest, toward zero. -/
def ofNsec (nsec : ℤ) : Timespec := ⟨nsec.tdiv 1000000000, nsec.tmod 1000000000⟩

variable {s t : Timespec}

@[simp] theorem carry_ns : t.carry.ns = t.ns := by
  unfold carry ns
  split
  · show (t.tvSec + 1) * 1000000000 + (t.tvNsec - 1000000000) = _
    omega
  · rfl

@[simp] theorem borrow_ns : t.borrow.ns = t.ns := by
  unfold borrow ns
  split
  · show (t.tvSec - 1) * 1000000000 + (t.tvNsec + 1000000000) = _
    omega
  · rfl

theorem carry_normalised_iff : t.carry.Normalised ↔ 0 ≤ t.tvNsec ∧ t.tvNsec < 2000000000 := by
  unfold carry Normalised
  split
  · show 0 ≤ t.tvNsec - 1000000000 ∧ t.tvNsec - 1000000000 < 1000000000 ↔ _
    omega
  · omega

theorem borrow_normalised_iff :
    t.borrow.Normalised ↔ -1000000000 ≤ t.tvNsec ∧ t.tvNsec < 1000000000 := by
  unfold borrow Normalised
  split
  · show 0 ≤ t.tvNsec + 1000000000 ∧ t.tvNsec + 1000000000 < 1000000000 ↔ _
    omega
  · omega

@[simp] theorem ofNsec_ns (nsec : ℤ) : (ofNsec nsec).ns = nsec :=
  Int.tdiv_mul_add_tmod nsec 1000000000

theorem ofNsec_tvNsec (nsec : ℤ) :
    -1000000000 < (ofNsec nsec).tvNsec ∧ (ofNsec nsec).tvNsec < 1000000000 :=
  ⟨Int.lt_tmod_of_pos nsec (by decide), Int.tmod_lt_of_pos nsec (by decide)⟩

theorem ofNsec_normalised {nsec : ℤ} (h : 0 ≤ nsec) : (ofNsec nsec).Normalised :=
  ⟨Int.tmod_nonneg _ h, (ofNsec_tvNsec nsec).2⟩

/-- The seconds of a proper time are determined by its nanoseconds. -/
theorem Normalised.tvSec (h : t.Normalised) : t.tvSec = t.ns / 1000000000 := by
  unfold Normalised at h
  unfold ns
  omega

/-- Proper times are in the order of their nanoseconds when seconds are compared first. -/
theorem Normalised.ns_le_iff (hs : s.Normalised) (ht : t.Normalised) :
    s.ns ≤ t.ns ↔ s.tvSec < t.tvSec ∨ s.tvSec = t.tvSec ∧ s.tvNsec ≤ t.tvNsec := by
  unfold Normalised at hs ht
  unfold ns
  omega

end Timespec

end SystemsProgramming
