import Mathlib.Algebra.BigOperators.Ring.Finset
import Mathlib.Data.Set.Finite.Basic
import Mathlib.Order.Interval.Finset.Nat
import Mathlib.Order.Monotone.Basic
import Mathlib.Tactic.Ring

/-!
# Balancing

Units of load are on places, and one unit is moved from a place to one that has less
(`Moves`).
-/

namespace TinyKV.Balancing

variable {ι : Type*} {load load' : ι → ℕ} {a b : ι} {d : ℕ}

/-- One unit is moved. -/
structure Moves (load load' : ι → ℕ) (a b : ι) : Prop where
  source : load' a + 1 = load a
  target : load' b = load b + 1
  other : ∀ i, i ≠ a → i ≠ b → load' i = load i

def potential (places : Finset ι) (load : ι → ℕ) : ℕ := ∑ i ∈ places, load i ^ 2

theorem Moves.lt_add (h : Moves load load' a b) (hd : load b + d ≤ load a) (hone : 1 < d) :
    load' b < load' a + d := by
  have hsource := h.source
  have htarget := h.target
  omega

variable [DecidableEq ι] {places : Finset ι}

theorem potential_eq (ha : a ∈ places) (hb : b ∈ places) (hne : a ≠ b) (load : ι → ℕ) :
    potential places load =
      load a ^ 2 + (load b ^ 2 + ∑ i ∈ (places.erase a).erase b, load i ^ 2) := by
  have hb' : b ∈ places.erase a := Finset.mem_erase.mpr ⟨hne.symm, hb⟩
  unfold potential
  rw [← Finset.add_sum_erase places (fun i => load i ^ 2) ha,
    ← Finset.add_sum_erase (places.erase a) (fun i => load i ^ 2) hb']

theorem Moves.potential_add_le (h : Moves load load' a b) (ha : a ∈ places) (hb : b ∈ places)
    (hd : load b + d + 1 ≤ load a) : potential places load' + 2 * d ≤ potential places load := by
  have hne : a ≠ b := by
    rintro rfl
    omega
  have hothers : ∑ i ∈ (places.erase a).erase b, load' i ^ 2 =
      ∑ i ∈ (places.erase a).erase b, load i ^ 2 := by
    refine Finset.sum_congr rfl fun i hi => ?_
    obtain ⟨hib, hi⟩ := Finset.mem_erase.mp hi
    rw [h.other i (Finset.mem_erase.mp hi).1 hib]
  obtain ⟨rest, hrest⟩ := Nat.exists_eq_add_of_le hd
  have hsource : load' a = load b + d + rest := by
    have := h.source
    omega
  -- With x for the load of the target, (x + d + rest)² + (x + 1)² + 2 d is at most
  -- (x + d + 1 + rest)² + x².
  have hsquares : load' a ^ 2 + load' b ^ 2 + 2 * d ≤ load a ^ 2 + load b ^ 2 := by
    rw [hsource, h.target, hrest]
    calc (load b + d + rest) ^ 2 + (load b + 1) ^ 2 + 2 * d
        ≤ (load b + d + rest) ^ 2 + (load b + 1) ^ 2 + 2 * d + 2 * rest := Nat.le_add_right _ _
      _ = (load b + d + 1 + rest) ^ 2 + load b ^ 2 := by ring
  rw [potential_eq ha hb hne, potential_eq ha hb hne, hothers]
  omega

theorem finite_of_descends {Φ : ℕ → ℕ} {P : ℕ → Prop} (hle : ∀ n, Φ (n + 1) ≤ Φ n)
    (hlt : ∀ n, P n → Φ (n + 1) < Φ n) : {n | P n}.Finite := by
  have hanti : Antitone Φ := antitone_nat_of_succ_le hle
  have hbound : Set.MapsTo Φ {n | P n} (Set.Iic (Φ 0)) := fun n _ => hanti (Nat.zero_le n)
  -- Where it happens, the values differ: at a later place the sequence has fallen.
  have hfalls : ∀ {m n}, P m → m < n → Φ n < Φ m := fun hm hmn =>
    (hanti (Nat.succ_le_of_lt hmn)).trans_lt (hlt _ hm)
  have hinj : Set.InjOn Φ {n | P n} := by
    intro m hm n hn heq
    rcases lt_trichotomy m n with hmn | rfl | hnm
    · exact absurd heq (hfalls hm hmn).ne'
    · rfl
    · exact absurd heq (hfalls hn hnm).ne
  exact Set.Finite.of_injOn hbound hinj (Set.finite_Iic (Φ 0))

end TinyKV.Balancing
