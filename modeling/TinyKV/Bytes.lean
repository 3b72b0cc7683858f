import Mathlib.Data.List.Lex
import Mathlib.Data.Nat.Notation
import Mathlib.Order.Lattice

/-!
# Byte strings

Byte strings are ordered as `bytes.Compare` orders them.
-/

namespace TinyKV

open List

instance linearOrderUInt8 : LinearOrder UInt8 where
  le_refl := UInt8.le_refl
  le_trans _ _ _ := UInt8.le_trans
  le_antisymm _ _ := UInt8.le_antisymm
  le_total := UInt8.le_total
  lt_iff_le_not_ge a b := by
    simp only [UInt8.lt_iff_toNat_lt, UInt8.le_iff_toNat_le]
    omega
  toDecidableLE := inferInstance
  toDecidableLT := inferInstance
  min_def := by intros; rfl
  max_def := by intros; rfl

abbrev Bytes := List UInt8

section

variable {α : Type} {a : List α}

/-- The string filled up to the length `n`. -/
def padTo (z : α) (n : ℕ) (a : List α) : List α := a ++ List.replicate (n - a.length) z

theorem length_padTo {z : α} {n : ℕ} (h : a.length ≤ n) : (padTo z n a).length = n := by
  simp [padTo, h]

theorem padTo_cons (z : α) (n : ℕ) (c : α) (a : List α) :
    padTo z (n + 1) (c :: a) = c :: padTo z n a := by
  simp [padTo]

theorem padTo_nil (z : α) (n : ℕ) : padTo z (n + 1) [] = z :: padTo z n [] := by
  simp [padTo, replicate_succ]

theorem padTo_of_length_eq (z : α) : padTo z a.length a = a := by
  simp [padTo]

end

section

variable {α : Type} [LinearOrder α]

theorem append_lt_append_left_iff (p a b : List α) : p ++ a < p ++ b ↔ a < b := by
  induction p with
  | nil => rfl
  | cons x p ih => simp [ih]

theorem append_le_append_left_iff (p a b : List α) : p ++ a ≤ p ++ b ↔ a ≤ b := by
  rw [← not_lt, ← not_lt, append_lt_append_left_iff]

theorem le_append (a c : List α) : a ≤ a ++ c := by
  have hnil : [] ≤ c := not_lt.mp (not_lt_nil c)
  simpa using (append_le_append_left_iff a [] c).mpr hnil

theorem isPrefix_of_le_of_le {p a b k : List α} (ha : p ++ a ≤ k) (hb : k ≤ p ++ b) : p <+: k := by
  induction p generalizing k with
  | nil => exact List.nil_prefix
  | cons x p ih =>
    cases k with
    | nil => exact absurd (nil_lt_cons x (p ++ a)) (not_lt.mpr ha)
    | cons y k =>
      rw [cons_append, ← not_lt, cons_lt_cons_iff] at ha hb
      obtain rfl : x = y := le_antisymm (not_lt.mp fun h => ha (Or.inl h))
        (not_lt.mp fun h => hb (Or.inl h))
      have ha' : p ++ a ≤ k := not_lt.mp fun h => ha (Or.inr ⟨rfl, h⟩)
      have hb' : k ≤ p ++ b := not_lt.mp fun h => hb (Or.inr ⟨rfl, h⟩)
      exact (prefix_cons_inj x).mpr (ih ha' hb')

variable {a b : List α}

theorem append_lt_append_iff (h : a.length = b.length) (x y : List α) :
    a ++ x < b ++ y ↔ a < b ∨ a = b ∧ x < y := by
  induction a generalizing b with
  | nil =>
    obtain rfl : b = [] := length_eq_zero_iff.mp h.symm
    simp
  | cons c a ih =>
    cases b with
    | nil => simp at h
    | cons d b =>
      simp only [cons_append, cons_lt_cons_iff, ih (by simpa using h), List.cons.injEq]
      rw [and_or_left, or_assoc, and_assoc]

theorem lt_append_iff (h : a.length < b.length) (y : List α) : a < b ++ y ↔ a < b := by
  induction a generalizing b with
  | nil =>
    cases b with
    | nil => simp at h
    | cons d b => simp
  | cons c a ih =>
    cases b with
    | nil => simp at h
    | cons d b =>
      simp only [cons_append, cons_lt_cons_iff, ih (by simpa using h)]

theorem append_lt_iff (h : b.length < a.length) (x : List α) : a ++ x < b ↔ a < b := by
  induction b generalizing a with
  | nil => simp
  | cons d b ih =>
    cases a with
    | nil => simp at h
    | cons c a =>
      simp only [cons_append, cons_lt_cons_iff, ih (by simpa using h)]

theorem padTo_nil_le {z : α} (hz : ∀ c, z ≤ c) {n : ℕ} (h : a.length ≤ n) :
    padTo z n [] ≤ padTo z n a := by
  induction n generalizing a with
  | zero =>
    obtain rfl : a = [] := length_eq_zero_iff.mp (Nat.le_zero.mp h)
    exact le_rfl
  | succ n ih =>
    cases a with
    | nil => exact le_rfl
    | cons c a =>
      rw [padTo_nil, padTo_cons, ← not_lt, cons_lt_cons_iff]
      rintro (hlt | ⟨-, hlt⟩)
      · exact absurd hlt (not_lt.mpr (hz c))
      · exact absurd hlt (not_lt.mpr (ih (by simpa using h)))

theorem lt_iff_padTo {z : α} (hz : ∀ c, z ≤ c) {n : ℕ} (ha : a.length ≤ n) (hb : b.length ≤ n) :
    a < b ↔ padTo z n a < padTo z n b ∨ padTo z n a = padTo z n b ∧ a.length < b.length := by
  induction n generalizing a b with
  | zero =>
    obtain rfl : a = [] := length_eq_zero_iff.mp (Nat.le_zero.mp ha)
    obtain rfl : b = [] := length_eq_zero_iff.mp (Nat.le_zero.mp hb)
    simp
  | succ n ih =>
    cases a with
    | nil =>
      cases b with
      | nil => simp
      | cons d b =>
        -- The empty string is the least one, filled up or not.
        have hle := padTo_nil_le hz hb
        have hlength : ([] : List α).length < (d :: b).length := by simp
        rw [and_iff_left hlength, ← le_iff_lt_or_eq]
        exact iff_of_true (nil_lt_cons d b) hle
    | cons c a =>
      cases b with
      | nil =>
        have hle := padTo_nil_le hz ha
        simp [not_lt.mpr hle]
      | cons d b =>
        have ih := ih (a := a) (b := b) (by simpa using ha) (by simpa using hb)
        simp only [padTo_cons, cons_lt_cons_iff, List.cons.injEq, length_cons,
          Nat.add_lt_add_iff_right, ih]
        rw [and_or_left, or_assoc, and_assoc]

end

end TinyKV
