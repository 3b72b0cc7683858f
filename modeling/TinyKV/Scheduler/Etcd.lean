import Mathlib.Algebra.Ring.Nat

/-!
# What the scheduler keeps in etcd

The scheduler keeps its numbers in etcd as texts or bytes, and etcd is linearizable: a read or a
transaction is one step.
-/

namespace TinyKV

/-- How `Commit` of a transaction ends. -/
inductive CommitOutcome
  | answered
  | failedApplied
  | failedLost
deriving DecidableEq, Repr

def CommitOutcome.Applies (outcome : CommitOutcome) : Prop := outcome ≠ .failedLost

instance (outcome : CommitOutcome) : Decidable outcome.Applies :=
  inferInstanceAs (Decidable (_ ≠ _))

theorem CommitOutcome.applies_answered : CommitOutcome.answered.Applies := by decide

namespace Typeutil

def uint64ToBytes (v : ℕ) : List UInt8 :=
  [UInt8.ofNat (v / 2^56), UInt8.ofNat (v / 2^48), UInt8.ofNat (v / 2^40), UInt8.ofNat (v / 2^32),
    UInt8.ofNat (v / 2^24), UInt8.ofNat (v / 2^16), UInt8.ofNat (v / 2^8), UInt8.ofNat v]

def bytesToUint64 (b : List UInt8) : Option ℕ :=
  if b.length ≠ 8 then none else some (b.foldl (fun v x => v * 2^8 + x.toNat) 0)

theorem mul_add_toNat_ofNat (v k : ℕ) :
    v / 2^(k + 8) * 2^8 + (UInt8.ofNat (v / 2^k)).toNat = v / 2^k := by
  rw [UInt8.toNat_ofNat', pow_add, ← Nat.div_div_eq_div_mul]
  exact Nat.div_add_mod' (v / 2^k) (2^8)

theorem bytesToUint64_uint64ToBytes {v : ℕ} (hv : v < 2^64) :
    bytesToUint64 (uint64ToBytes v) = some v := by
  have hfirst : v / 2^64 = 0 := Nat.div_eq_of_lt hv
  have hlast := mul_add_toNat_ofNat v 0
  rw [pow_zero, Nat.div_one, zero_add] at hlast
  have hlength : (uint64ToBytes v).length = 8 := rfl
  rw [bytesToUint64, if_neg (not_not.mpr hlength), uint64ToBytes]
  simp only [List.foldl_cons, List.foldl_nil]
  -- The bytes before the first one are zero.
  rw [← hfirst, mul_add_toNat_ofNat v 56, mul_add_toNat_ofNat v 48, mul_add_toNat_ofNat v 40,
    mul_add_toNat_ofNat v 32, mul_add_toNat_ofNat v 24, mul_add_toNat_ofNat v 16,
    mul_add_toNat_ofNat v 8, hlast]

end Typeutil

end TinyKV
