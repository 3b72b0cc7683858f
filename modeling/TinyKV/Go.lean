import Mathlib.Algebra.Ring.Int.Defs
import Mathlib.Algebra.Ring.Nat
import Mathlib.Order.Basic

/-!
# The Go runtime

A function that can panic is modelled in the monad `Go`.
-/

namespace TinyKV

open List

inductive Panic
  | indexOutOfRange
  | sliceOutOfRange
  | nilDereference
  | growslice
  | text (msg : String)
  | quoting (msg : String) (bytes : List UInt8)
deriving DecidableEq, Repr

abbrev Go (α : Type) := Except Panic α

def maxInt : ℕ := 2^63 - 1

/-- The sum of two 64-bit words, which wraps around. -/
def add64 (x y : ℕ) : ℕ := (x + y) % 2^64

def sub64 (x y : ℕ) : ℕ := if y ≤ x then x - y else x + 2^64 - y

def toInt (x : ℕ) : ℤ := if x < 2^63 then x else x - 2^64

def int64 (x : ℤ) : ℤ := x.bmod (2^64)

theorem add64_of_lt {x y : ℕ} (h : x + y < 2^64) : add64 x y = x + y := Nat.mod_eq_of_lt h

theorem add64_lt (x y : ℕ) : add64 x y < 2^64 := Nat.mod_lt _ (by decide)

theorem sub64_of_le {x y : ℕ} (h : y ≤ x) : sub64 x y = x - y := if_pos h

theorem sub64_of_lt {x y : ℕ} (h : x < y) : sub64 x y = x + 2^64 - y := if_neg (not_le.mpr h)

theorem int64_of_lt {x : ℤ} (h : -2^63 ≤ x) (h' : x < 2^63) : int64 x = x := by
  unfold int64
  rw [Int.bmod_def]
  split_ifs <;> omega

theorem int64_add_int64 (x y : ℤ) : int64 (int64 x + y) = int64 (x + y) := Int.bmod_add_bmod

theorem int64_sub_int64 (x y : ℤ) : int64 (int64 x - y) = int64 (x - y) := Int.bmod_sub_bmod

theorem toInt_ofNat (n : ℕ) : toInt (UInt64.ofNat n).toNat = int64 n := by
  rw [UInt64.toNat_ofNat', toInt, int64, Int.bmod_def]
  split_ifs <;> omega

theorem int64_add_toInt (x : ℤ) (n : ℕ) :
    int64 (int64 x + toInt (UInt64.ofNat n).toNat) = int64 (x + n) := by
  rw [toInt_ofNat, int64_add_int64]
  exact Int.add_bmod_bmod

theorem int64_sub_toInt (x : ℤ) (n : ℕ) :
    int64 (int64 x - toInt (UInt64.ofNat n).toNat) = int64 (x - n) := by
  rw [toInt_ofNat, int64_sub_int64]
  exact Int.sub_bmod_bmod

namespace Go

variable {α β : Type}

def index (xs : List α) (i : ℕ) : Go α :=
  match xs[i]? with
  | some x => .ok x
  | none => .error .indexOutOfRange

def slice (xs : List α) (lo hi : ℕ) : Go (List α) :=
  if lo ≤ hi ∧ hi ≤ xs.length then .ok ((xs.take hi).drop lo) else .error .sliceOutOfRange

def deref (p : Option α) : Go α :=
  match p with
  | some x => .ok x
  | none => .error .nilDereference

def append (xs ys : List α) : Go (List α) :=
  if xs.length + ys.length ≤ maxInt then .ok (xs ++ ys) else .error .growslice

def make (cap : ℕ) : Go (List α) := if cap ≤ maxInt then .ok [] else .error .growslice

variable {xs : List α}

theorem index_eq_ok {i : ℕ} {x : α} (h : xs[i]? = some x) : index xs i = .ok x := by
  rw [index, h]

theorem slice_eq_ok {lo hi : ℕ} (h : lo ≤ hi) (h' : hi ≤ xs.length) :
    slice xs lo hi = .ok ((xs.take hi).drop lo) := if_pos ⟨h, h'⟩

theorem subset_of_slice {xs ys : List α} {lo hi : ℕ} (h : slice xs lo hi = .ok ys) : ys ⊆ xs := by
  unfold slice at h
  split_ifs at h
  cases h
  exact fun x hx => mem_of_mem_take (mem_of_mem_drop hx)

@[simp]
theorem ok_bind (a : α) (f : α → Go β) : ((.ok a : Go α) >>= f) = f a := rfl

variable {x : Go α} {f : α → Go β}

theorem bind_eq_ok {b : β} : (x >>= f) = .ok b ↔ ∃ a, x = .ok a ∧ f a = .ok b := by
  cases x with
  | ok a => simp
  | error e =>
    constructor
    · intro h
      cases h
    · rintro ⟨a, ha, -⟩
      cases ha

theorem map_eq_ok {f : α → β} {b : β} : f <$> x = .ok b ↔ ∃ a, x = .ok a ∧ f a = b := by
  cases x with
  | ok a =>
    constructor
    · intro h
      exact ⟨a, rfl, Except.ok.inj h⟩
    · rintro ⟨a', ha, rfl⟩
      cases ha
      rfl
  | error e =>
    constructor
    · intro h
      cases h
    · rintro ⟨a, ha, -⟩
      cases ha

@[simp]
theorem pure_eq_ok (a : α) : (pure a : Go α) = .ok a := rfl

@[simp]
theorem deref_some (x : α) : deref (some x) = .ok x := rfl

theorem deref_eq_ok {p : Option α} {x : α} : deref p = .ok x ↔ p = some x := by
  cases p <;> simp [deref]

def Ensures (x : Go α) (P : α → Prop) : Prop :=
  match x with
  | .ok a => P a
  | .error e => e = .growslice

@[simp]
theorem ensures_ok (a : α) (P : α → Prop) : Ensures (.ok a) P ↔ P a := Iff.rfl

variable {P P' : α → Prop}

theorem Ensures.imp (h : Ensures x P) (hP : ∀ a, P a → P' a) : Ensures x P' := by
  cases x with
  | ok a => exact hP a h
  | error e => exact h

theorem Ensures.bind {P' : β → Prop} (h : Ensures x P)
    (hf : ∀ a, P a → Ensures (f a) P') : Ensures (x >>= f) P' := by
  cases x with
  | ok a => exact hf a h
  | error e => exact h

theorem Ensures.of_eq_ok (h : Ensures x P) {a : α} (ha : x = .ok a) : P a := by
  rw [ha] at h
  exact h

def EnsuresWithin (n : ℕ) (x : Go α) (P : α → Prop) : Prop :=
  match x with
  | .ok a => P a
  | .error e => e = .growslice ∧ maxInt < n

theorem EnsuresWithin.ensures {n : ℕ} (h : EnsuresWithin n x P) : Ensures x P := by
  cases x with
  | ok a => exact h
  | error e => exact h.1

theorem EnsuresWithin.imp {n n' : ℕ} (h : EnsuresWithin n x P)
    (hn : n ≤ n') (hP : ∀ a, P a → P' a) : EnsuresWithin n' x P' := by
  cases x with
  | ok a => exact hP a h
  | error e => exact ⟨h.1, h.2.trans_le hn⟩

theorem EnsuresWithin.bind {n n' : ℕ} {P' : β → Prop} (h : EnsuresWithin n x P) (hn : n ≤ n')
    (hf : ∀ a, P a → EnsuresWithin n' (f a) P') : EnsuresWithin n' (x >>= f) P' := by
  cases x with
  | ok a => exact hf a h
  | error e => exact ⟨h.1, h.2.trans_le hn⟩

theorem EnsuresWithin.returns {n : ℕ} (h : EnsuresWithin n x P)
    (hn : n ≤ maxInt) : ∃ a, x = .ok a ∧ P a := by
  cases x with
  | ok a => exact ⟨a, rfl, h⟩
  | error e => exact absurd h.2 (not_lt.mpr hn)

theorem eq_ok_of_toOption {a : α} (h : x.toOption = some a) : x = .ok a := by
  cases x with
  | ok b => exact congrArg Except.ok (Option.some.inj h)
  | error e => cases h

/-- If the computation returns, then a value with `P`. -/
def IfReturns (x : Go α) (P : α → Prop) : Prop := ∀ a, x = .ok a → P a

@[simp]
theorem ifReturns_ok (a : α) (P : α → Prop) : IfReturns (.ok a) P ↔ P a := by
  constructor
  · intro h
    exact h a rfl
  · intro h b hb
    cases hb
    exact h

theorem ifReturns_error (e : Panic) (P : α → Prop) : IfReturns (.error e) P := by
  intro a ha
  cases ha

theorem IfReturns.imp (h : IfReturns x P) (hP : ∀ a, P a → P' a) : IfReturns x P' :=
  fun a ha => hP a (h a ha)

theorem IfReturns.bind {P' : β → Prop}
    (h : IfReturns x P) (hf : ∀ a, P a → IfReturns (f a) P') : IfReturns (x >>= f) P' := by
  cases x with
  | ok a => exact hf a (h a rfl)
  | error e => exact ifReturns_error e P'

theorem ifReturns_bind {P : β → Prop} (hf : ∀ a, IfReturns (f a) P) : IfReturns (x >>= f) P := by
  cases x with
  | ok a => exact hf a
  | error e => exact ifReturns_error e P

theorem ifReturns_foldlM {f : β → α → Go β} {I : β → Prop} {b : β}
    (hf : ∀ b a, I b → IfReturns (f b a) I) (hb : I b) : IfReturns (xs.foldlM f b) I := by
  induction xs generalizing b with
  | nil => exact (ifReturns_ok b I).mpr hb
  | cons x xs ih =>
    rw [foldlM_cons]
    exact (hf b x hb).bind fun b' hb' => ih hb'

theorem append_ifReturns (xs ys : List α) :
    IfReturns (append xs ys) fun zs => zs = xs ++ ys ∧ (xs ++ ys).length ≤ maxInt := by
  unfold append
  split_ifs with h
  · exact (ifReturns_ok _ _).mpr ⟨rfl, by simpa using h⟩
  · exact ifReturns_error _ _

theorem mapM_eq_ok {g : α → β} (xs : List α) (h : ∀ x ∈ xs, f x = .ok (g x)) :
    xs.mapM f = .ok (xs.map g) := by
  induction xs with
  | nil => rfl
  | cons x xs ih =>
    rw [mapM_cons, h x mem_cons_self, ih fun y hy => h y (mem_cons_of_mem x hy)]
    rfl

theorem getElem?_concat_eq_some {x y : α} {i : ℕ} :
    (xs ++ [x])[i]? = some y ↔ xs[i]? = some y ∨ i = xs.length ∧ y = x := by
  rcases Nat.lt_trichotomy i xs.length with hlt | rfl | hgt
  · rw [getElem?_append_left hlt]
    simp [hlt.ne]
  · simp [eq_comm]
  · rw [getElem?_eq_none (by simpa using Nat.succ_le_of_lt hgt),
      getElem?_eq_none hgt.le]
    simp [hgt.ne']

theorem append_within (xs ys : List α) :
    EnsuresWithin (xs.length + ys.length) (append xs ys)
      fun zs => zs = xs ++ ys ∧ zs.length ≤ maxInt := by
  unfold append
  split_ifs with h
  · exact ⟨rfl, by simpa using h⟩
  · exact ⟨rfl, not_le.mp h⟩

theorem append_ensures (xs ys : List α) :
    Ensures (append xs ys) fun zs => zs = xs ++ ys ∧ zs.length ≤ maxInt :=
  (append_within xs ys).ensures

end Go

end TinyKV
