import TinyKV.Go

/-!
# Slices with a capacity

Besides its elements (`view`), a slice has those behind them up to its capacity (`spare`), which
come into view when it is resliced.
-/

namespace TinyKV

open List

structure Slice (α : Type) where
  view : List α
  spare : List α
deriving DecidableEq, Repr

def Go.setIndex {α : Type} (xs : List α) (i : ℕ) (x : α) : Go (List α) :=
  if i < xs.length then .ok (xs.set i x) else .error .indexOutOfRange

variable {α : Type}

theorem Go.setIndex_eq_ok {xs : List α} {i : ℕ} (h : i < xs.length) (x : α) :
    Go.setIndex xs i x = .ok (xs.set i x) := if_pos h

theorem Go.of_index {xs : List α} {i : ℕ} {x : α} (h : Go.index xs i = .ok x) :
    xs[i]? = some x := by
  rw [Go.index] at h
  cases hget : xs[i]? with
  | none => simp [hget] at h
  | some y =>
    rw [hget] at h
    cases h
    rfl

theorem Go.of_slice {xs ys : List α} {lo hi : ℕ} (h : Go.slice xs lo hi = .ok ys) :
    lo ≤ hi ∧ hi ≤ xs.length ∧ ys = (xs.take hi).drop lo := by
  unfold Go.slice at h
  split_ifs at h with hrange
  cases h
  exact ⟨hrange.1, hrange.2, rfl⟩

theorem getElem?_eq_some_getD {xs : List α} {i : ℕ} (h : i < xs.length) (d : α) :
    xs[i]? = some (xs.getD i d) := by
  rw [getD_eq_getElem?_getD, getElem?_eq_getElem h]
  rfl

theorem Go.of_mapM {α β : Type} {f : α → Go β} {xs : List α} {ys : List β}
    (h : xs.mapM f = .ok ys) {x : α} (hx : x ∈ xs) : ∃ y, f x = .ok y := by
  induction xs generalizing ys with
  | nil => cases hx
  | cons first xs ih =>
    rw [mapM_cons] at h
    obtain ⟨y, hy, h⟩ := Go.bind_eq_ok.mp h
    obtain ⟨ys', hys, -⟩ := Go.bind_eq_ok.mp h
    rcases mem_cons.mp hx with rfl | hx
    · exact ⟨y, hy⟩
    · exact ih hys hx

theorem Go.mapM_ok {α β : Type} {f : α → Go β} {xs : List α} (h : ∀ x ∈ xs, ∃ y, f x = .ok y) :
    ∃ ys, xs.mapM f = .ok ys := by
  induction xs with
  | nil => exact ⟨[], mapM_nil⟩
  | cons x xs ih =>
    obtain ⟨y, hy⟩ := h x mem_cons_self
    obtain ⟨ys, hys⟩ := ih fun x' hx' => h x' (mem_cons_of_mem x hx')
    rw [mapM_cons, hy, hys]
    exact ⟨y :: ys, rfl⟩

namespace Slice

variable {β : Type}

def empty : Slice α := ⟨[], []⟩

def cap (s : Slice α) : ℕ := s.view.length + s.spare.length

def resize (zero : α) (n : ℕ) (s : Slice α) : Slice α :=
  if n ≤ s.cap then ⟨(s.view ++ s.spare).take n, (s.view ++ s.spare).drop n⟩
  else ⟨List.replicate n zero, []⟩

def set (s : Slice α) (i : ℕ) (x : α) : Go (Slice α) :=
  if i < s.view.length then .ok { s with view := s.view.set i x } else .error .indexOutOfRange

def copyLoop (f : β → α) : List β → ℕ → Slice α → Go (Slice α)
  | [], _, s => return s
  | x :: xs, j, s => do
    let s ← s.set j (f x)
    copyLoop f xs (j + 1) s

/-- `for j, x := range xs { s[j] = f(x) }`. -/
def copyFrom (f : β → α) (xs : List β) (s : Slice α) : Go (Slice α) := copyLoop f xs 0 s

variable {s : Slice α}

@[simp]
theorem length_view_resize (zero : α) (n : ℕ) (s : Slice α) :
    (s.resize zero n).view.length = n := by
  unfold resize
  split_ifs with h
  · rw [length_take, length_append]
    exact min_eq_left h
  · exact length_replicate

theorem view_resize_of_length_eq (zero : α) {n : ℕ} (h : s.view.length = n) :
    (s.resize zero n).view = s.view := by
  rw [resize, if_pos (by rw [cap]; omega), take_left' h]

theorem set_eq_ok {i : ℕ} (h : i < s.view.length) (x : α) :
    s.set i x = .ok { s with view := s.view.set i x } := if_pos h

theorem copyLoop_eq (f : β → α) (xs : List β) {j : ℕ} (h : j + xs.length ≤ s.view.length) :
    copyLoop f xs j s =
      .ok { s with view := s.view.take j ++ xs.map f ++ s.view.drop (j + xs.length) } := by
  induction xs generalizing j s with
  | nil => simp [copyLoop]
  | cons x xs ih =>
    rw [length_cons] at h
    have hset : s.set j (f x) = _ := set_eq_ok (by omega) (f x)
    have hlength : (s.view.set j (f x)).length = s.view.length := length_set
    rw [copyLoop, hset, Go.ok_bind, ih (by simp only [hlength]; omega)]
    simp only [Except.ok.injEq, Slice.mk.injEq, and_true, length_cons]
    have htake : (s.view.set j (f x)).take (j + 1) = s.view.take j ++ [f x] := by
      rw [take_add_one, take_set_of_le le_rfl, getElem?_set_self (by omega)]
      rfl
    have hdrop : (s.view.set j (f x)).drop (j + 1 + xs.length) =
        s.view.drop (j + (xs.length + 1)) := by
      rw [drop_set_of_lt (by omega)]
      congr 1
      omega
    rw [htake, hdrop, map_cons]
    simp

theorem copyLoop_error (f : β → α) (xs : List β) {j : ℕ} (hj : j ≤ s.view.length)
    (h : s.view.length < j + xs.length) : copyLoop f xs j s = .error .indexOutOfRange := by
  induction xs generalizing j s with
  | nil =>
    rw [length_nil] at h
    omega
  | cons x xs ih =>
    rw [copyLoop]
    rcases hj.eq_or_lt with rfl | hlt
    · rw [set, if_neg (lt_irrefl _)]
      rfl
    · rw [set_eq_ok hlt, Go.ok_bind]
      refine ih ?_ ?_
      · rw [length_set]
        exact hlt
      · simp only [length_set, length_cons] at h ⊢
        omega

theorem copyFrom_eq (f : β → α) (xs : List β) (h : xs.length ≤ s.view.length) :
    copyFrom f xs s = .ok { s with view := xs.map f ++ s.view.drop xs.length } := by
  rw [copyFrom, copyLoop_eq f xs (by omega), take_zero, nil_append, Nat.zero_add]

theorem copyFrom_error (f : β → α) (xs : List β) (h : s.view.length < xs.length) :
    copyFrom f xs s = .error .indexOutOfRange :=
  copyLoop_error f xs (Nat.zero_le _) (by omega)

end Slice

end TinyKV
