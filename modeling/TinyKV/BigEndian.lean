import Mathlib.Data.List.Induction
import Mathlib.Tactic.Ring
import TinyKV.Radix

/-!
# Words as bytes, the most significant first

A number below `256^n` is written as `n` bytes.
-/

namespace TinyKV.BigEndian

open List

def bytes : ℕ → ℕ → Bytes
  | 0, _ => []
  | n + 1, v => UInt8.ofNat (v / 256^n) :: bytes n v

/-- The number that a string of bytes stands for. -/
def value (b : Bytes) : ℕ := b.foldl (fun v x => v * 256 + x.toNat) 0

theorem length_bytes (n v : ℕ) : (bytes n v).length = n := by
  induction n with
  | zero => rfl
  | succ n ih => rw [bytes, length_cons, ih]

theorem toNat_ofNat (v : ℕ) : (UInt8.ofNat v).toNat = v % 256 := UInt8.toNat_ofNat'

theorem foldl_bytes (n v acc : ℕ) :
    (bytes n v).foldl (fun v x => v * 256 + x.toNat) acc = acc * 256^n + v % 256^n := by
  induction n generalizing acc with
  | zero => simp [bytes, Nat.mod_one]
  | succ n ih =>
    rw [bytes, foldl_cons, ih, toNat_ofNat, Nat.mod_pow_succ]
    ring

theorem value_bytes {n v : ℕ} (hv : v < 256^n) : value (bytes n v) = v := by
  rw [value, foldl_bytes, Nat.mod_eq_of_lt hv]
  simp

theorem value_concat (b : Bytes) (x : UInt8) : value (b ++ [x]) = value b * 256 + x.toNat := by
  simp [value]

theorem value_lt (b : Bytes) : value b < 256^b.length := by
  induction b using List.reverseRecOn with
  | nil => simp [value]
  | append_singleton b x ih =>
    have hx : x.toNat < 256 := x.toNat_lt
    rw [value_concat, length_append, length_singleton, Nat.pow_succ]
    omega

theorem bytes_succ (n v : ℕ) : bytes (n + 1) v = bytes n (v / 256) ++ [UInt8.ofNat v] := by
  induction n with
  | zero => simp [bytes]
  | succ n ih =>
    rw [bytes, ih, bytes, cons_append, Nat.div_div_eq_div_mul, Nat.pow_succ, Nat.mul_comm]

theorem bytes_value (b : Bytes) : bytes b.length (value b) = b := by
  induction b using List.reverseRecOn with
  | nil => rfl
  | append_singleton b x ih =>
    have hx : x.toNat < 256 := x.toNat_lt
    have hdiv : (value b * 256 + x.toNat) / 256 = value b := by omega
    have hlast : UInt8.ofNat (value b * 256 + x.toNat) = x := by
      rw [← UInt8.toNat_inj, toNat_ofNat]
      omega
    rw [length_append, length_singleton, bytes_succ, value_concat, hdiv, ih, hlast]

theorem bytes_eq_numeral (n v : ℕ) : bytes n v = Radix.numeral 256 UInt8.ofNat n v := by
  induction n with
  | zero => rfl
  | succ n ih => rw [bytes, Radix.numeral, ih, UInt8.ofNat_mod_size]

theorem bytes_lt_bytes (n v w : ℕ) : bytes n v < bytes n w ↔ v % 256^n < w % 256^n := by
  rw [bytes_eq_numeral, bytes_eq_numeral]
  refine Radix.numeral_lt_numeral (by decide) ?_ n v w
  intro x hx y hy
  rw [UInt8.lt_iff_toNat_lt, toNat_ofNat, toNat_ofNat, Nat.mod_eq_of_lt hx, Nat.mod_eq_of_lt hy]

theorem bytes_toNat_lt {v w : UInt64} : bytes 8 v.toNat < bytes 8 w.toNat ↔ v < w := by
  have hv : v.toNat < 256^8 := v.toNat_lt
  have hw : w.toNat < 256^8 := w.toNat_lt
  rw [bytes_lt_bytes, Nat.mod_eq_of_lt hv, Nat.mod_eq_of_lt hw, UInt64.lt_iff_toNat_lt]

theorem bytes_toNat_inj {v w : UInt64} : bytes 8 v.toNat = bytes 8 w.toNat ↔ v = w := by
  constructor
  · intro h
    have hvalue := congrArg value h
    rwa [value_bytes v.toNat_lt, value_bytes w.toNat_lt, UInt64.toNat_inj] at hvalue
  · rintro rfl
    rfl

end TinyKV.BigEndian
