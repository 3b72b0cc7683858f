import Mathlib.Algebra.Order.Ring.Nat
import TinyKV.Bytes

/-!
# Numerals of one length

A number is written with a fixed count of digits, the most significant first.
-/

namespace TinyKV.Radix

variable {α : Type} {b : ℕ} {digit : ℕ → α}

def numeral (b : ℕ) (digit : ℕ → α) : ℕ → ℕ → List α
  | 0, _ => []
  | n + 1, v => digit (v / b^n % b) :: numeral b digit n v

theorem add_mul_lt_iff {m r r' q q' : ℕ} (hr : r < m) (hr' : r' < m) :
    r + m * q < r' + m * q' ↔ q < q' ∨ q = q' ∧ r < r' := by
  rcases Nat.lt_trichotomy q q' with hlt | rfl | hgt
  · have hle : m * (q + 1) ≤ m * q' := Nat.mul_le_mul_left m hlt
    rw [Nat.mul_add, Nat.mul_one] at hle
    simp only [hlt, true_or, iff_true]
    omega
  · simp
  · have hle : m * (q' + 1) ≤ m * q := Nat.mul_le_mul_left m hgt
    rw [Nat.mul_add, Nat.mul_one] at hle
    have hq : ¬ (q < q' ∨ q = q' ∧ r < r') := by omega
    simp only [hq, iff_false]
    omega

theorem numeral_lt_numeral [LinearOrder α] (hb : 0 < b)
    (hdigit : ∀ x < b, ∀ y < b, digit x < digit y ↔ x < y) (n v w : ℕ) :
    numeral b digit n v < numeral b digit n w ↔ v % b^n < w % b^n := by
  have heq : ∀ x < b, ∀ y < b, digit x = digit y ↔ x = y := by
    intro x hx y hy
    have hlt := hdigit x hx y hy
    have hgt := hdigit y hy x hx
    rw [eq_iff_le_not_lt, ← not_lt, hlt, hgt]
    omega
  induction n with
  | zero => simp [numeral, Nat.mod_one]
  | succ n ih =>
    have hpos : 0 < b^n := Nat.pow_pos hb
    have hv : v / b^n % b < b := Nat.mod_lt _ hb
    have hw : w / b^n % b < b := Nat.mod_lt _ hb
    rw [Nat.mod_pow_succ, Nat.mod_pow_succ,
      add_mul_lt_iff (Nat.mod_lt v hpos) (Nat.mod_lt w hpos)]
    exact List.cons_lt_cons_iff.trans
      (or_congr (hdigit _ hv _ hw) (and_congr (heq _ hv _ hw) ih))

/-- A decimal digit as a byte of a text. -/
def decimalDigit (d : ℕ) : UInt8 := UInt8.ofNat (48 + d)

def decimal (v : UInt64) : Bytes := numeral 10 decimalDigit 20 v.toNat

theorem decimal_lt_decimal {v w : UInt64} : decimal v < decimal w ↔ v < w := by
  have hdigit : ∀ x < 10, ∀ y < 10, decimalDigit x < decimalDigit y ↔ x < y := by decide
  have hword : ∀ u : UInt64, u.toNat % 10^20 = u.toNat := by
    intro u
    have := u.toNat_lt
    exact Nat.mod_eq_of_lt (by omega)
  rw [decimal, decimal, numeral_lt_numeral (by decide) hdigit, hword, hword,
    UInt64.lt_iff_toNat_lt]

end TinyKV.Radix
