import Mathlib.Data.List.Basic
import TinyKV.Go

/-!
# Binary heaps

The package `container/heap` of Go.
-/

namespace TinyKV.Heap

open List

structure Interface (σ : Type) where
  len : σ → ℕ
  less : σ → ℕ → ℕ → Go (σ × Bool)
  swap : σ → ℕ → ℕ → Go σ

section

variable {σ : Type} (I : Interface σ)

def upLoop : ℕ → ℕ → σ → Go σ
  | 0, _, s => return s
  | fuel + 1, j, s => do
    let i := (j - 1) / 2
    if i = j then return s
    let (s, less) ← I.less s j i
    if less then
      let s ← I.swap s i j
      upLoop fuel i s
    else return s

def up (s : σ) (j : ℕ) : Go σ := upLoop I (j + 1) j s

theorem up_zero (s : σ) : up I s 0 = .ok s := rfl

def child (s : σ) (i n : ℕ) : Go (σ × ℕ) := do
  let j₁ := 2 * i + 1
  let j₂ := j₁ + 1
  if j₂ < n then
    let (s, less) ← I.less s j₂ j₁
    return (s, if less then j₂ else j₁)
  else return (s, j₁)

def downLoop (n : ℕ) : ℕ → ℕ → σ → Go (σ × ℕ)
  | 0, i, s => return (s, i)
  | fuel + 1, i, s => do
    if 2 * i + 1 ≥ n then return (s, i)
    let (s, j) ← child I s i n
    let (s, less) ← I.less s j i
    if less then
      let s ← I.swap s i j
      downLoop n fuel j s
    else return (s, i)

def down (s : σ) (i₀ n : ℕ) : Go (σ × Bool) := do
  let (s, i) ← downLoop I n n i₀ s
  return (s, i > i₀)

def push (s : σ) : Go σ := up I s (I.len s - 1)

def fix (s : σ) (i : ℕ) : Go σ := do
  let (s, moved) ← down I s i (I.len s)
  if moved then return s else up I s i

end

section

variable {α : Type} {xs ys zs : List α} {n i j : ℕ} {x y : α}

def Rearranged (n : ℕ) (xs ys : List α) : Prop :=
  (ys.take n).Perm (xs.take n) ∧ ys.drop n = xs.drop n

theorem Rearranged.refl (n : ℕ) (xs : List α) : Rearranged n xs xs := ⟨.refl _, rfl⟩

theorem Rearranged.trans (h : Rearranged n xs ys) (h' : Rearranged n ys zs) : Rearranged n xs zs :=
  ⟨h'.1.trans h.1, h'.2.trans h.2⟩

theorem Rearranged.length_eq (h : Rearranged n xs ys) : ys.length = xs.length := by
  rw [← take_append_drop n ys, ← take_append_drop n xs, length_append,
    length_append, h.1.length_eq, h.2]

theorem Rearranged.perm (h : Rearranged n xs ys) : ys.Perm xs := by
  rw [← take_append_drop n ys, ← take_append_drop n xs, h.2]
  exact h.1.append_right _

def exchange (xs : List α) (i j : ℕ) (x y : α) : List α := (xs.set i y).set j x

theorem getElem?_exchange (hi : xs[i]? = some x) (hj : xs[j]? = some y) (k : ℕ) :
    (exchange xs i j x y)[k]? = if k = j then some x else if k = i then some y else xs[k]? := by
  obtain ⟨hi', -⟩ := List.getElem?_eq_some_iff.mp hi
  obtain ⟨hj', -⟩ := List.getElem?_eq_some_iff.mp hj
  rw [exchange, getElem?_set, getElem?_set, length_set]
  grind

theorem rearranged_exchange (hi : xs[i]? = some x) (hj : xs[j]? = some y) (hin : i < n)
    (hjn : j < n) : Rearranged n xs (exchange xs i j x y) := by
  constructor
  · have hi' : (xs.take n)[i]? = some x := by rw [getElem?_take_of_lt hin, hi]
    have hj' : (xs.take n)[j]? = some y := by rw [getElem?_take_of_lt hjn, hj]
    obtain ⟨hlti, rfl⟩ := List.getElem?_eq_some_iff.mp hi'
    obtain ⟨hltj, rfl⟩ := List.getElem?_eq_some_iff.mp hj'
    rw [exchange, take_set, take_set]
    exact set_set_perm hlti hltj
  · rw [exchange, drop_set_of_lt hjn, drop_set_of_lt hin]

variable {le : α → α → Prop}

def LeAt (le : α → α → Prop) (xs : List α) (i j : ℕ) : Prop :=
  ∀ x y, xs[i]? = some x → xs[j]? = some y → le x y

def Ordered (le : α → α → Prop) (xs : List α) (n : ℕ) : Prop :=
  ∀ k, 0 < k → k < n → LeAt le xs ((k - 1) / 2) k

/-- What `up` needs: all children except that at `j` are ordered, and the children of `j` are after
its parent. -/
structure UpOrdered (le : α → α → Prop) (xs : List α) (n j : ℕ) : Prop where
  others : ∀ k, 0 < k → k < n → k ≠ j → LeAt le xs ((k - 1) / 2) k
  grand : 0 < j → ∀ k, 0 < k → k < n → (k - 1) / 2 = j → LeAt le xs ((j - 1) / 2) k

structure DownOrdered (le : α → α → Prop) (xs : List α) (n i : ℕ) : Prop where
  others : ∀ k, 0 < k → k < n → (k - 1) / 2 ≠ i → LeAt le xs ((k - 1) / 2) k
  grand : 0 < i → ∀ k, 0 < k → k < n → (k - 1) / 2 = i → LeAt le xs ((i - 1) / 2) k

theorem LeAt.trans (htrans : ∀ x y z, le x y → le y z → le x z) {k : ℕ} (h : LeAt le xs i j)
    (h' : LeAt le xs j k) (hj : xs[j]? = some x) : LeAt le xs i k :=
  fun y z hy hz => htrans y x z (h y x hy hj) (h' x z hj hz)

theorem Ordered.root (h : Ordered le xs n) (hrefl : ∀ x, le x x)
    (htrans : ∀ x y z, le x y → le y z → le x z) (hn : n ≤ xs.length) {k : ℕ} (hk : k < n) :
    LeAt le xs 0 k := by
  induction k using Nat.strongRecOn with
  | ind k ih =>
    rcases Nat.eq_zero_or_pos k with rfl | hpos
    · intro x y hx hy
      rw [hx] at hy
      cases hy
      exact hrefl x
    · have hparent := ih ((k - 1) / 2) (by omega) (by omega)
      exact hparent.trans htrans (h k hpos hk) (getElem?_eq_getElem (by omega))

theorem UpOrdered.move (htotal : ∀ x y, le x y ∨ le y x)
    (htrans : ∀ x y z, le x y → le y z → le x z) (h : UpOrdered le xs n j) (hj : 0 < j)
    (hi : i = (j - 1) / 2) (hx : xs[i]? = some x) (hy : xs[j]? = some y) (hlt : ¬ le x y) :
    UpOrdered le (exchange xs i j x y) n i := by
  have hyx : le y x := (htotal x y).resolve_left hlt
  have hget := getElem?_exchange hx hy
  constructor
  · intro k hk hkn hki u v hu hv
    rw [hget] at hu hv
    by_cases hkj : k = j
    · -- The place itself, below the element that has moved up.
      rw [if_neg (by omega), if_pos (by omega)] at hu
      rw [if_pos hkj] at hv
      cases hu
      cases hv
      exact hyx
    · rw [if_neg hkj, if_neg hki] at hv
      by_cases hpj : (k - 1) / 2 = j
      · -- A child of the place gets the old parent.
        rw [if_pos hpj] at hu
        cases hu
        exact h.grand hj k hk hkn hpj x v (hi ▸ hx) hv
      · rw [if_neg hpj] at hu
        have hother := h.others k hk hkn hkj
        by_cases hpi : (k - 1) / 2 = i
        · -- Its sibling gets an element that is before the old parent.
          rw [if_pos hpi] at hu
          cases hu
          exact htrans y x v hyx (hother x v (hpi ▸ hx) hv)
        · rw [if_neg hpi] at hu
          exact hother u v hu hv
  · intro hpos k hk hkn hparent u v hu hv
    rw [hget, if_neg (by omega), if_neg (by omega)] at hu
    have hfirst := h.others i hpos (by omega) (by omega) u x hu hx
    by_cases hkj : k = j
    · rw [hget, if_pos hkj] at hv
      cases hv
      exact hfirst
    · rw [hget, if_neg hkj, if_neg (by omega)] at hv
      exact htrans u x v hfirst (h.others k hk hkn hkj x v (hparent ▸ hx) hv)

theorem DownOrdered.move (htotal : ∀ x y, le x y ∨ le y x) (h : DownOrdered le xs n i) (hj : 0 < j)
    (hjn : j < n) (hi : (j - 1) / 2 = i) (hx : xs[i]? = some x) (hy : xs[j]? = some y)
    (hlt : ¬ le x y) (hfirst : ∀ k, 0 < k → k < n → (k - 1) / 2 = i → LeAt le xs j k) :
    DownOrdered le (exchange xs i j x y) n j := by
  have hyx : le y x := (htotal x y).resolve_left hlt
  have hget := getElem?_exchange hx hy
  constructor
  · intro k hk hkn hparent u v hu hv
    rw [hget, if_neg hparent] at hu
    rw [hget] at hv
    by_cases hpi : (k - 1) / 2 = i
    · -- The place now has its first child.
      rw [if_pos hpi] at hu
      cases hu
      by_cases hkj : k = j
      · rw [if_pos hkj] at hv
        cases hv
        exact hyx
      · rw [if_neg hkj, if_neg (by omega)] at hv
        exact hfirst k hk hkn hpi y v hy hv
    · rw [if_neg hpi] at hu
      by_cases hki : k = i
      · -- Its parent was before the child.
        subst hki
        rw [if_neg (by omega), if_pos rfl] at hv
        cases hv
        exact h.grand hk j hj hjn hi u y hu hy
      · rw [if_neg (by omega), if_neg hki] at hv
        exact h.others k hk hkn hpi u v hu hv
  · intro _ k hk hkn hparent u v hu hv
    rw [hi, hget, if_neg (by omega), if_pos rfl] at hu
    cases hu
    rw [hget, if_neg (by omega), if_neg (by omega)] at hv
    exact h.others k hk hkn (by omega) y v (hparent ▸ hy) hv

/-- The operations compare and exchange the elements of a list. -/
structure Lawful {σ : Type} (I : Interface σ) (view : σ → List α) (le : α → α → Prop)
    (Good : σ → Prop) : Prop where
  total : ∀ x y, le x y ∨ le y x
  trans : ∀ x y z, le x y → le y z → le x z
  less_eq : ∀ s i j x y, Good s → (view s)[i]? = some x → (view s)[j]? = some y →
    ∃ less, I.less s i j = .ok (s, less) ∧ (less = true ↔ ¬ le y x)
  swap_eq : ∀ s i j x y, Good s → (view s)[i]? = some x → (view s)[j]? = some y →
    ∃ s', I.swap s i j = .ok s' ∧ Good s' ∧ view s' = exchange (view s) i j x y ∧
      I.len s' = I.len s

namespace Lawful

variable {σ : Type} {I : Interface σ} {view : σ → List α} {Good : σ → Prop} {s : σ}
  (L : Lawful I view le Good)

include L

theorem refl (x : α) : le x x := (L.total x x).elim id id

theorem upLoop_spec {fuel : ℕ} (hfuel : j < fuel) (hj : j < n) (hn : n ≤ (view s).length)
    (hgood : Good s) (h : UpOrdered le (view s) n j) :
    ∃ s', upLoop I fuel j s = .ok s' ∧ Good s' ∧ Ordered le (view s') n ∧
      Rearranged n (view s) (view s') ∧ I.len s' = I.len s := by
  induction fuel generalizing j s with
  | zero => omega
  | succ fuel ih =>
    rw [upLoop]
    dsimp only
    by_cases hroot : (j - 1) / 2 = j
    · -- The root has no parent.
      rw [if_pos hroot]
      refine ⟨s, rfl, hgood, fun k hk hkn => h.others k hk hkn (by omega), .refl _ _, rfl⟩
    · rw [if_neg hroot]
      have hx : (view s)[(j - 1) / 2]? = some _ := getElem?_eq_getElem (by omega)
      have hy : (view s)[j]? = some _ := getElem?_eq_getElem (by omega)
      obtain ⟨less, hless, hiff⟩ := L.less_eq s j _ _ _ hgood hy hx
      rw [hless, Go.ok_bind]
      dsimp only
      cases less with
      | true =>
        obtain ⟨s₁, hswap, hgood₁, hview, hlen⟩ := L.swap_eq s _ j _ _ hgood hx hy
        have hrearranged := rearranged_exchange (n := n) hx hy (by omega) hj
        have hmove := h.move L.total L.trans (by omega) rfl hx hy (hiff.mp rfl)
        rw [← hview] at hrearranged hmove
        obtain ⟨s', heq, hgood', hordered, hrearranged', hlen'⟩ :=
          ih (by omega) (by omega) (hrearranged.length_eq.symm ▸ hn) hgood₁ hmove
        rw [if_pos rfl, hswap, Go.ok_bind, heq]
        exact ⟨s', rfl, hgood', hordered, hrearranged.trans hrearranged', hlen'.trans hlen⟩
      | false =>
        rw [if_neg Bool.false_ne_true]
        refine ⟨s, rfl, hgood, fun k hk hkn => ?_, .refl _ _, rfl⟩
        by_cases hkj : k = j
        · subst hkj
          intro u v hu hv
          rw [hx] at hu
          rw [hy] at hv
          cases hu
          cases hv
          exact not_not.mp fun hnot => Bool.false_ne_true (hiff.mpr hnot)
        · exact h.others k hk hkn hkj

theorem child_spec (hi : 2 * i + 1 < n) (hn : n ≤ (view s).length) (hgood : Good s) :
    ∃ j, child I s i n = .ok (s, j) ∧ 0 < j ∧ j < n ∧ (j - 1) / 2 = i ∧
      ∀ k, 0 < k → k < n → (k - 1) / 2 = i → LeAt le (view s) j k := by
  have hrefl : ∀ j, LeAt le (view s) j j := by
    intro j x y hx hy
    rw [hx] at hy
    cases hy
    exact L.refl x
  have hy : (view s)[2 * i + 1]? = some _ := getElem?_eq_getElem (by omega)
  rw [child]
  dsimp only
  by_cases htwo : 2 * i + 1 + 1 < n
  · have hx : (view s)[2 * i + 1 + 1]? = some _ := getElem?_eq_getElem (by omega)
    obtain ⟨less, hless, hiff⟩ := L.less_eq s _ _ _ _ hgood hx hy
    rw [if_pos htwo, hless, Go.ok_bind]
    cases less with
    | true =>
      refine ⟨2 * i + 1 + 1, rfl, by omega, htwo, by omega, fun k hk hkn hparent => ?_⟩
      obtain rfl | rfl : k = 2 * i + 1 ∨ k = 2 * i + 1 + 1 := by omega
      · intro u v hu hv
        rw [hx] at hu
        rw [hy] at hv
        cases hu
        cases hv
        exact (L.total _ _).resolve_left (hiff.mp rfl)
      · exact hrefl _
    | false =>
      refine ⟨2 * i + 1, rfl, by omega, hi, by omega, fun k hk hkn hparent => ?_⟩
      obtain rfl | rfl : k = 2 * i + 1 ∨ k = 2 * i + 1 + 1 := by omega
      · exact hrefl _
      · intro u v hu hv
        rw [hy] at hu
        rw [hx] at hv
        cases hu
        cases hv
        exact not_not.mp fun hnot => Bool.false_ne_true (hiff.mpr hnot)
  · rw [if_neg htwo]
    refine ⟨2 * i + 1, rfl, by omega, hi, by omega, fun k hk hkn hparent => ?_⟩
    obtain rfl : k = 2 * i + 1 := by omega
    exact hrefl _

theorem downLoop_spec {fuel : ℕ} (hfuel : n - i ≤ fuel) (hn : n ≤ (view s).length)
    (hgood : Good s) (h : DownOrdered le (view s) n i) :
    ∃ s' i', downLoop I n fuel i s = .ok (s', i') ∧ Good s' ∧ Ordered le (view s') n ∧
      Rearranged n (view s) (view s') ∧ I.len s' = I.len s := by
  induction fuel generalizing i s with
  | zero =>
    exact ⟨s, i, rfl, hgood, fun k hk hkn => h.others k hk hkn (by omega), .refl _ _, rfl⟩
  | succ fuel ih =>
    rw [downLoop]
    by_cases hleaf : 2 * i + 1 ≥ n
    · rw [if_pos hleaf]
      exact ⟨s, i, rfl, hgood, fun k hk hkn => h.others k hk hkn (by omega), .refl _ _, rfl⟩
    · obtain ⟨j, hchild, hj, hjn, hparent, hfirst⟩ := L.child_spec (i := i) (by omega) hn hgood
      have hx : (view s)[i]? = some _ := getElem?_eq_getElem (by omega)
      have hy : (view s)[j]? = some _ := getElem?_eq_getElem (by omega)
      obtain ⟨less, hless, hiff⟩ := L.less_eq s j i _ _ hgood hy hx
      rw [if_neg hleaf, hchild, Go.ok_bind]
      dsimp only
      rw [hless, Go.ok_bind]
      dsimp only
      cases less with
      | true =>
        obtain ⟨s₁, hswap, hgood₁, hview, hlen⟩ := L.swap_eq s i j _ _ hgood hx hy
        have hrearranged := rearranged_exchange (n := n) hx hy (by omega) hjn
        have hmove := h.move L.total hj hjn hparent hx hy (hiff.mp rfl) hfirst
        rw [← hview] at hrearranged hmove
        obtain ⟨s', i', heq, hgood', hordered, hrearranged', hlen'⟩ :=
          ih (by omega) (hrearranged.length_eq.symm ▸ hn) hgood₁ hmove
        rw [if_pos rfl, hswap, Go.ok_bind, heq]
        exact ⟨s', i', rfl, hgood', hordered, hrearranged.trans hrearranged', hlen'.trans hlen⟩
      | false =>
        rw [if_neg Bool.false_ne_true]
        refine ⟨s, i, rfl, hgood, fun k hk hkn => ?_, .refl _ _, rfl⟩
        by_cases hki : (k - 1) / 2 = i
        · -- The first child is not before the place, and so the other one is not.
          rw [hki]
          have hle : LeAt le (view s) i j := by
            intro u v hu hv
            rw [hx] at hu
            rw [hy] at hv
            cases hu
            cases hv
            exact not_not.mp fun hnot => Bool.false_ne_true (hiff.mpr hnot)
          exact hle.trans L.trans (hfirst k hk hkn hki) hy
        · exact h.others k hk hkn hki

theorem fix_root (hn : I.len s ≤ (view s).length) (hgood : Good s)
    (h : ∀ k, 0 < k → k < I.len s → (k - 1) / 2 ≠ 0 → LeAt le (view s) ((k - 1) / 2) k) :
    ∃ s', fix I s 0 = .ok s' ∧ Good s' ∧ Ordered le (view s') (I.len s) ∧
      Rearranged (I.len s) (view s) (view s') ∧ I.len s' = I.len s := by
  have hdown : DownOrdered le (view s) (I.len s) 0 := ⟨h, fun hpos => absurd hpos (lt_irrefl 0)⟩
  obtain ⟨s', i', heq, hspec⟩ := L.downLoop_spec (Nat.sub_le _ _) hn hgood hdown
  refine ⟨s', ?_, hspec⟩
  rw [fix, down, heq, Go.ok_bind]
  change (if decide (i' > 0) = true then pure s' else up I s' 0) = .ok s'
  rw [up_zero]
  split_ifs <;> rfl

theorem push_last (hpos : 0 < I.len s) (hn : I.len s ≤ (view s).length) (hgood : Good s)
    (h : Ordered le (view s) (I.len s - 1)) :
    ∃ s', push I s = .ok s' ∧ Good s' ∧ Ordered le (view s') (I.len s) ∧
      Rearranged (I.len s) (view s) (view s') ∧ I.len s' = I.len s := by
  have hup : UpOrdered le (view s) (I.len s) (I.len s - 1) :=
    ⟨fun k hk hkn hne => h k hk (by omega), fun hlast k hk hkn hparent => by omega⟩
  exact L.upLoop_spec (Nat.lt_succ_self _) (by omega) hn hgood hup

end Lawful

end

structure Safe {σ : Type} (I : Interface σ) (P : σ → Prop) (m : ℕ) : Prop where
  less : ∀ s i j, P s → i < m → j < m → ∃ s' less, I.less s i j = .ok (s', less) ∧ P s'
  swap : ∀ s i j, P s → i < m → j < m → ∃ s', I.swap s i j = .ok s' ∧ P s'

namespace Safe

variable {σ : Type} {I : Interface σ} {P : σ → Prop} {m n i j : ℕ} {s : σ} (S : Safe I P m)

include S

theorem upLoop (fuel : ℕ) (hj : j < m) (hs : P s) : ∃ s', upLoop I fuel j s = .ok s' ∧ P s' := by
  induction fuel generalizing j s with
  | zero => exact ⟨s, rfl, hs⟩
  | succ fuel ih =>
    have hi : (j - 1) / 2 < m := by omega
    rw [Heap.upLoop]
    dsimp only
    by_cases hroot : (j - 1) / 2 = j
    · rw [if_pos hroot]
      exact ⟨s, rfl, hs⟩
    · obtain ⟨s₁, less, hless, hs₁⟩ := S.less s j _ hs hj hi
      rw [if_neg hroot, hless, Go.ok_bind]
      cases less with
      | false => exact ⟨s₁, rfl, hs₁⟩
      | true =>
        obtain ⟨s₂, hswap, hs₂⟩ := S.swap s₁ _ j hs₁ hi hj
        dsimp only
        rw [if_pos rfl, hswap, Go.ok_bind]
        exact ih hi hs₂

theorem child (hi : 2 * i + 1 < n) (hn : n ≤ m) (hs : P s) :
    ∃ s' j, child I s i n = .ok (s', j) ∧ j < n ∧ P s' := by
  rw [Heap.child]
  dsimp only
  by_cases htwo : 2 * i + 1 + 1 < n
  · obtain ⟨s₁, less, hless, hs₁⟩ := S.less s (2 * i + 1 + 1) (2 * i + 1) hs (by omega) (by omega)
    rw [if_pos htwo, hless, Go.ok_bind]
    refine ⟨s₁, _, rfl, ?_, hs₁⟩
    dsimp only
    split_ifs
    · exact htwo
    · exact hi
  · rw [if_neg htwo]
    exact ⟨s, _, rfl, hi, hs⟩

theorem downLoop (fuel : ℕ) (hn : n ≤ m) (hs : P s) :
    ∃ s' i', downLoop I n fuel i s = .ok (s', i') ∧ P s' := by
  induction fuel generalizing i s with
  | zero => exact ⟨s, i, rfl, hs⟩
  | succ fuel ih =>
    rw [Heap.downLoop]
    by_cases hlast : 2 * i + 1 ≥ n
    · rw [if_pos hlast]
      exact ⟨s, i, rfl, hs⟩
    · obtain ⟨s₁, j, hchild, hj, hs₁⟩ := S.child (not_le.mp hlast) hn hs
      have hi : i < m := by omega
      have hjm : j < m := by omega
      obtain ⟨s₂, less, hless, hs₂⟩ := S.less s₁ j i hs₁ hjm hi
      rw [if_neg hlast, hchild, Go.ok_bind]
      dsimp only
      rw [hless, Go.ok_bind]
      cases less with
      | false => exact ⟨s₂, i, rfl, hs₂⟩
      | true =>
        obtain ⟨s₃, hswap, hs₃⟩ := S.swap s₂ i j hs₂ hi hjm
        dsimp only
        rw [if_pos rfl, hswap, Go.ok_bind]
        exact ih hs₃

theorem fix_root (hn : I.len s ≤ m) (hs : P s) : ∃ s', fix I s 0 = .ok s' ∧ P s' := by
  obtain ⟨s', i', heq, hs'⟩ := S.downLoop (I.len s) hn hs (i := 0)
  refine ⟨s', ?_, hs'⟩
  rw [fix, down, heq, Go.ok_bind]
  change (if decide (i' > 0) = true then pure s' else up I s' 0) = .ok s'
  rw [up_zero]
  split_ifs <;> rfl

theorem push (hn : I.len s - 1 < m) (hs : P s) : ∃ s', push I s = .ok s' ∧ P s' :=
  S.upLoop _ hn hs

end Safe

end TinyKV.Heap
