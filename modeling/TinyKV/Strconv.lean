import Mathlib.Tactic.IntervalCases

/-!
# Numbers as text

`FormatUint` and `ParseUint` of Go's package `strconv`, for words of 64 bits and a base up to `16`.
-/

namespace TinyKV

open List

namespace Strconv

def formatUint (base x : ℕ) : List Char := Nat.toDigits base x

def digitVal (c : Char) : Option ℕ :=
  if '0' ≤ c ∧ c ≤ '9' then some (c.toNat - '0'.toNat)
  else if 'a' ≤ c.toLower ∧ c.toLower ≤ 'z' then some (c.toLower.toNat - 'a'.toNat + 10)
  else none

/-- One pass of the loop of `ParseUint`: a digit of the base, if the number stays a word. -/
def parseDigit (base n : ℕ) (c : Char) : Option ℕ := do
  let d ← digitVal c
  if base ≤ d then none
  else if 2^64 ≤ n * base + d then none
  else some (n * base + d)

def parseUint (base : ℕ) (s : List Char) : Option ℕ :=
  if s = [] then none else s.foldlM (parseDigit base) 0

theorem digitVal_digitChar {d : ℕ} (hd : d < 16) : digitVal d.digitChar = some d := by
  interval_cases d <;> rfl

theorem parseDigit_digitChar {base n d : ℕ} (hbase : base ≤ 16) (hd : d < base)
    (hword : n * base + d < 2^64) : parseDigit base n d.digitChar = some (n * base + d) := by
  rw [parseDigit, digitVal_digitChar (by omega)]
  simp only [Option.bind_eq_bind, Option.bind_some]
  rw [if_neg (by omega), if_neg (by omega)]

theorem foldlM_parseDigit {base : ℕ} (h1 : 1 < base) (hbase : base ≤ 16) :
    ∀ x < 2^64, (Nat.toDigits base x).foldlM (parseDigit base) 0 = some x := by
  intro x
  induction x using Nat.strongRecOn with
  | ind x ih =>
    intro hx
    rw [Nat.toDigits_eq_if h1]
    split_ifs with hlt
    · have := parseDigit_digitChar (n := 0) hbase hlt (by omega)
      simp only [foldlM_cons, foldlM_nil, this]
      simp
    · -- The last digit comes after those of the quotient.
      have hdiv := Nat.div_lt_self (by omega : 0 < x) h1
      have hmod : x / base * base + x % base = x := Nat.div_add_mod' x base
      rw [foldlM_append, ih (x / base) hdiv (hdiv.trans hx)]
      have := parseDigit_digitChar (n := x / base) hbase (Nat.mod_lt x (by omega)) (by omega)
      simp only [Option.bind_eq_bind, Option.bind_some, foldlM_cons, foldlM_nil, this,
        hmod]
      rfl

theorem formatUint_ne_nil {base : ℕ} (h1 : 1 < base) (x : ℕ) : formatUint base x ≠ [] := by
  rw [formatUint, Nat.toDigits_eq_if h1]
  split_ifs <;> simp

theorem parseUint_formatUint {base x : ℕ} (h1 : 1 < base) (hbase : base ≤ 16) (hx : x < 2^64) :
    parseUint base (formatUint base x) = some x := by
  rw [parseUint, if_neg (formatUint_ne_nil h1 x)]
  exact foldlM_parseDigit h1 hbase x hx

end Strconv

end TinyKV
