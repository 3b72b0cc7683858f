import Mathlib.Data.List.Basic
import Mathlib.Data.Prod.Lex
import Mathlib.Order.Lattice

/-!
# Logs of terms and values

A replicated log is a list of slots, each with the term in which it was created.
-/

namespace Consensus

open List

/-- A slot of a log: a value, with the term of the leader that created it. -/
@[ext]
structure Slot (V : Type*) where
  term : ℕ
  val : V
deriving DecidableEq

variable {V : Type*}

def termAt (l : List (Slot V)) : ℕ → ℕ
  | 0 => 0
  | i + 1 => (l[i]?.map Slot.term).getD 0

def key (l : List (Slot V)) : ℕ ×ₗ ℕ := toLex (termAt l l.length, l.length)

@[simp]
theorem termAt_zero (l : List (Slot V)) : termAt l 0 = 0 := rfl

variable {l m : List (Slot V)}

theorem termAt_congr {k i : ℕ} (h : l.take k = m.take k) (hi : i ≤ k) :
    termAt l i = termAt m i := by
  cases i with
  | zero => rfl
  | succ i =>
    have hl : (l.take k)[i]? = l[i]? := getElem?_take_of_lt hi
    have hm : (m.take k)[i]? = m[i]? := getElem?_take_of_lt hi
    simp only [termAt, ← hl, ← hm, h]

theorem termAt_take {k i : ℕ} (hi : i ≤ k) : termAt (l.take k) i = termAt l i :=
  termAt_congr (k := k) (by rw [take_take, Nat.min_self]) hi

theorem termAt_append_left {i : ℕ} (hi : i ≤ l.length) : termAt (l ++ m) i = termAt l i :=
  termAt_congr (k := l.length) (by simp) hi

theorem exists_mem_termAt {i : ℕ} (h0 : 0 < i) (hi : i ≤ l.length) :
    ∃ e ∈ l, e.term = termAt l i := by
  obtain ⟨j, rfl⟩ : ∃ j, i = j + 1 := ⟨i - 1, by omega⟩
  refine ⟨l[j], getElem_mem _, ?_⟩
  simp [termAt, getElem?_eq_getElem (show j < l.length by omega)]

variable {T i : ℕ}

theorem termAt_le (h : ∀ e ∈ l, e.term ≤ T) (hi : i ≤ l.length) : termAt l i ≤ T := by
  rcases Nat.eq_zero_or_pos i with rfl | h0
  · exact Nat.zero_le T
  · obtain ⟨e, he, heq⟩ := exists_mem_termAt h0 hi
    rw [← heq]
    exact h e he

theorem termAt_append_map {vs : List V} (h0 : l.length < i)
    (hi : i ≤ l.length + vs.length) : termAt (l ++ vs.map (Slot.mk T)) i = T := by
  obtain ⟨j, rfl⟩ : ∃ j, i = l.length + j + 1 := ⟨i - l.length - 1, by omega⟩
  have hj : j < vs.length := by omega
  simp [termAt, getElem?_append_right, getElem?_eq_getElem hj]

theorem take_eq_of_take_eq {α : Type*} {l m : List α} {k i : ℕ} (h : l.take k = m.take k)
    (hi : i ≤ k) : l.take i = m.take i := by
  have := congrArg (List.take i) h
  simpa [take_take, Nat.min_eq_left hi] using this

theorem le_length_of_take_eq {α : Type*} {l m : List α} {k : ℕ} (h : l.take k = m.take k)
    (hk : k ≤ m.length) : k ≤ l.length := by
  have := congrArg List.length h
  simp only [length_take] at this
  omega

theorem take_of_isPrefix {α : Type*} {l m : List α} {k : ℕ} (h : l <+: m) (hk : k ≤ l.length) :
    m.take k = l.take k := by
  obtain ⟨t, rfl⟩ := h
  exact take_append_of_le_length hk

theorem toLex_le_key :
    toLex (T, i) ≤ key l ↔ T < termAt l l.length ∨ T = termAt l l.length ∧ i ≤ l.length := by
  simp [key, Prod.Lex.toLex_le_toLex]

theorem length_pos_of_le_key (h0 : 0 < i) (h : toLex (T, i) ≤ key l) : 0 < l.length := by
  rw [toLex_le_key] at h
  rcases Nat.eq_zero_or_pos l.length with hz | hz
  · -- An empty log has the last term zero and the length zero.
    rw [hz, termAt_zero] at h
    omega
  · exact hz

theorem key_le_key :
    key l ≤ key m ↔ termAt l l.length < termAt m m.length ∨
      termAt l l.length = termAt m m.length ∧ l.length ≤ m.length := toLex_le_key

theorem key_le_key_append {vs : List V} {T : ℕ} (hvs : vs ≠ []) (h : ∀ e ∈ l, e.term ≤ T) :
    key l ≤ key (l ++ vs.map (Slot.mk T)) := by
  have hpos : 0 < vs.length := length_pos_iff.mpr hvs
  have hlast : termAt (l ++ vs.map (Slot.mk T)) (l ++ vs.map (Slot.mk T)).length = T :=
    termAt_append_map (by simp; omega) (by simp)
  rw [key_le_key, hlast]
  rcases (termAt_le h le_rfl).lt_or_eq with hlt | heq
  · exact Or.inl hlt
  · -- The last term stays, and the log gets longer.
    exact Or.inr ⟨heq, by simp⟩

end Consensus
