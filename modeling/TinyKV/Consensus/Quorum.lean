import Mathlib.Data.Finset.Card
import Mathlib.Data.List.Sort
import Mathlib.Data.Multiset.Sort
import Mathlib.Order.Bounds.Basic

/-!
# Quorums

A quorum system is a family of sets any two of which meet.
-/

namespace Consensus

open List

/-- A family of sets of nodes, any two of which have a node in common. -/
structure QuorumSystem (N : Type*) where
  IsQuorum : Finset N → Prop
  inter : ∀ S S', IsQuorum S → IsQuorum S' → ∃ p, p ∈ S ∧ p ∈ S'

def majority {N : Type*} [DecidableEq N] (P : Finset N) : QuorumSystem N where
  IsQuorum S := S ⊆ P ∧ P.card < 2 * S.card
  inter S S' hS hS' := by
    -- Disjoint majorities would have more members together than there are nodes.
    by_contra hno
    have hdisj : Disjoint S S' :=
      Finset.disjoint_left.mpr fun p hp hp' => hno ⟨p, hp, hp'⟩
    have hle : (S ∪ S').card ≤ P.card := Finset.card_le_card (Finset.union_subset hS.1 hS'.1)
    rw [Finset.card_union_of_disjoint hdisj] at hle
    have := hS.2
    have := hS'.2
    omega

section OrderStatistics

variable {α : Type*} [LinearOrder α] {l : List α} {i : ℕ}

theorem countP_le_of_sorted (hl : l.Pairwise (· ≤ ·)) (hi : i < l.length) :
    l.length - i ≤ l.countP (fun x => decide (l[i] ≤ x)) := by
  have hsplit : l.countP (fun x => decide (l[i] ≤ x)) =
      (l.take i).countP (fun x => decide (l[i] ≤ x)) +
        (l.drop i).countP (fun x => decide (l[i] ≤ x)) := by
    rw [← countP_append, take_append_drop]
  have hdrop : (l.drop i).countP (fun x => decide (l[i] ≤ x)) = (l.drop i).length := by
    rw [countP_eq_length]
    intro x hx
    obtain ⟨j, hj, rfl⟩ := mem_iff_getElem.mp hx
    rw [getElem_drop, decide_eq_true_eq]
    rcases Nat.eq_zero_or_pos j with rfl | hpos
    · simp
    · exact pairwise_iff_getElem.mp hl _ _ hi (by simp at hj; omega) (by omega)
  -- Whatever the first part counts, the second counts all of its own.
  rw [hsplit, hdrop, length_drop]
  omega

theorem countP_lt_of_sorted (hl : l.Pairwise (· ≤ ·)) (hi : i < l.length) {x : α} (hx : l[i] < x) :
    l.countP (fun y => decide (x ≤ y)) < l.length - i := by
  have hsplit : l.countP (fun y => decide (x ≤ y)) =
      (l.take (i + 1)).countP (fun y => decide (x ≤ y)) +
        (l.drop (i + 1)).countP (fun y => decide (x ≤ y)) := by
    rw [← countP_append, take_append_drop]
  have htake : (l.take (i + 1)).countP (fun y => decide (x ≤ y)) = 0 := by
    rw [countP_eq_zero]
    intro y hy
    obtain ⟨j, hj, rfl⟩ := mem_iff_getElem.mp hy
    rw [length_take] at hj
    rw [getElem_take, decide_eq_true_eq, not_le]
    rcases (show j ≤ i by omega).lt_or_eq with hlt | rfl
    · exact (pairwise_iff_getElem.mp hl _ _ (by omega) hi hlt).trans_lt hx
    · exact hx
  have hdrop := countP_le_length (p := fun y => decide (x ≤ y)) (l := l.drop (i + 1))
  rw [length_drop] at hdrop
  omega

theorem isGreatest_median (hl : l.Pairwise (· ≤ ·)) (hi : (l.length - 1) / 2 < l.length) :
    IsGreatest {x | l.length < 2 * l.countP (fun y => decide (x ≤ y))} l[(l.length - 1) / 2] := by
  constructor
  · have := countP_le_of_sorted hl hi
    simp only [Set.mem_ofPred_eq]
    omega
  · intro x hx
    by_contra hlt
    have := countP_lt_of_sorted hl hi (not_le.mp hlt)
    simp only [Set.mem_ofPred_eq] at hx
    omega

end OrderStatistics

end Consensus
