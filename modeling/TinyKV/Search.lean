import Mathlib.Order.Lattice
import TinyKV.Go

/-!
# Binary search

`search` is `sort.Search`: it finds the first index at which a predicate holds, if it stays true
once it is true (`search_spec`).
-/

namespace TinyKV.Search

open List

def searchLoop (f : ℕ → Bool) : ℕ → ℕ → ℕ → ℕ
  | 0, i, _ => i
  | fuel + 1, i, j =>
    if i < j then
      let h := (i + j) / 2
      if !f h then searchLoop f fuel (h + 1) j else searchLoop f fuel i h
    else i

def search (n : ℕ) (f : ℕ → Bool) : ℕ := searchLoop f n 0 n

theorem searchLoop_spec {f : ℕ → Bool} {n : ℕ}
    (hmono : ∀ a b, a ≤ b → b < n → f a = true → f b = true) {fuel i j : ℕ} (hij : i ≤ j)
    (hjn : j ≤ n) (hfuel : j - i ≤ fuel) (hlo : ∀ k < i, f k = false)
    (hhi : ∀ k, j ≤ k → k < n → f k = true) :
    searchLoop f fuel i j ≤ n ∧ (∀ k < searchLoop f fuel i j, f k = false) ∧
      ∀ k, searchLoop f fuel i j ≤ k → k < n → f k = true := by
  induction fuel generalizing i j with
  | zero =>
    have heq : i = j := by omega
    subst heq
    exact ⟨hjn, hlo, hhi⟩
  | succ fuel ih =>
    rw [searchLoop]
    by_cases hlt : i < j
    · rw [if_pos hlt]
      dsimp only
      cases hf : f ((i + j) / 2) with
      | false =>
        refine ih (by omega) hjn (by omega) (fun k hk => ?_) hhi
        -- A true value before the middle would stay true up to it.
        by_contra htrue
        have hmid := hmono k ((i + j) / 2) (by omega) (by omega) (by simpa using htrue)
        rw [hf] at hmid
        cases hmid
      | true =>
        exact ih (by omega) (by omega) (by omega) hlo
          fun k hk hkn => hmono ((i + j) / 2) k hk hkn hf
    · have heq : i = j := by omega
      subst heq
      rw [if_neg hlt]
      exact ⟨hjn, hlo, hhi⟩

theorem search_spec {f : ℕ → Bool} {n : ℕ}
    (hmono : ∀ a b, a ≤ b → b < n → f a = true → f b = true) :
    search n f ≤ n ∧ (∀ k < search n f, f k = false) ∧
      ∀ k, search n f ≤ k → k < n → f k = true := by
  apply searchLoop_spec hmono (Nat.zero_le n) le_rfl
  · omega
  · intro k hk
    omega
  · intro k hk hkn
    omega

theorem search_any {β : Type*} {xs : List β} {p : β → Bool}
    (h : xs.Pairwise fun x y => p x = true → p y = true) :
    let i := search xs.length fun i => xs[i]?.any p
    (∀ k y, k < i → xs[k]? = some y → p y = false) ∧
      (∀ k y, i ≤ k → xs[k]? = some y → p y = true) ∧ i ≤ xs.length := by
  have hmono : ∀ a b, a ≤ b → b < xs.length → xs[a]?.any p = true → xs[b]?.any p = true := by
    intro a b hab hb htrue
    rw [getElem?_eq_getElem (hab.trans_lt hb), Option.any_some] at htrue
    rw [getElem?_eq_getElem hb, Option.any_some]
    rcases hab.eq_or_lt with rfl | hab
    · exact htrue
    · exact pairwise_iff_getElem.mp h a b _ hb hab htrue
  obtain ⟨hle, hlo, hhi⟩ := search_spec hmono
  refine ⟨fun k y hk hy => ?_, fun k y hk hy => ?_, hle⟩
  · have hfalse := hlo k hk
    rwa [hy, Option.any_some] at hfalse
  · have htrue := hhi k hk (List.getElem?_eq_some_iff.mp hy).1
    rwa [hy, Option.any_some] at htrue

section

variable {α : Type} [LinearOrder α] {xs : List α} {x : α}

def findLoop (xs : List α) (x : α) : ℕ → ℕ → ℕ → Go (Option ℕ)
  | 0, _, _ => return none
  | fuel + 1, i, j =>
    if i < j then do
      let h := (i + j) / 2
      let v ← Go.index xs h
      if v < x then findLoop xs x fuel (h + 1) j
      else if v > x then findLoop xs x fuel i h
      else return some h
    else return none

/-- The index of the element `x` between `i` and `j`. -/
def find (xs : List α) (x : α) (i j : ℕ) : Go (Option ℕ) := findLoop xs x (j - i) i j

/-- The elements from index `i` up to `j` ascend. -/
def Ascends (xs : List α) (i j : ℕ) : Prop :=
  ∀ a b y z, i ≤ a → a < b → b < j → xs[a]? = some y → xs[b]? = some z → y < z

theorem Ascends.mono {i j i' j' : ℕ} (h : Ascends xs i j) (hi : i ≤ i') (hj : j' ≤ j) :
    Ascends xs i' j' :=
  fun a b y z ha hab hb => h a b y z (hi.trans ha) hab (hb.trans_le hj)

theorem Ascends.lt_of_lt {i j a b : ℕ} {y z : α} (h : Ascends xs i j) (ha : a < j) (hb : i ≤ b)
    (hy : xs[a]? = some y) (hz : xs[b]? = some z) (hlt : y < z) : a < b := by
  by_contra hle
  rcases (not_lt.mp hle).eq_or_lt with rfl | hba
  · rw [hy] at hz
    exact hlt.ne (Option.some.inj hz)
  · exact absurd (h b a z y hb hba ha hz hy) (not_lt.mpr hlt.le)

theorem Ascends.index_unique {i j a b : ℕ} {y : α} (h : Ascends xs i j) (ha : i ≤ a) (ha' : a < j)
    (hb : i ≤ b) (hb' : b < j) (hy : xs[a]? = some y) (hz : xs[b]? = some y) : a = b := by
  rcases Nat.lt_trichotomy a b with hab | hab | hab
  · exact absurd rfl (h a b y y ha hab hb' hy hz).ne
  · exact hab
  · exact absurd rfl (h b a y y hb hab ha' hz hy).ne

theorem ascends_of_pairwise (xs : List α) {ys : List α} (zs : List α) (h : ys.Pairwise (· < ·)) :
    Ascends (xs ++ ys ++ zs) xs.length (xs.length + ys.length) := by
  intro a b y z ha hab hb hy hz
  rw [append_assoc, getElem?_append_right (by omega),
    getElem?_append_left (by omega)] at hy hz
  obtain ⟨hya, rfl⟩ := List.getElem?_eq_some_iff.mp hy
  obtain ⟨hzb, rfl⟩ := List.getElem?_eq_some_iff.mp hz
  exact pairwise_iff_getElem.mp h _ _ hya hzb (by omega)

theorem findLoop_spec {fuel i j : ℕ} (hfuel : j - i ≤ fuel) (hj : j ≤ xs.length)
    (hasc : Ascends xs i j) :
    ∃ r, findLoop xs x fuel i j = .ok r ∧ ∀ h, r = some h ↔ i ≤ h ∧ h < j ∧ xs[h]? = some x := by
  induction fuel generalizing i j with
  | zero => exact ⟨none, rfl, fun h => by simp; omega⟩
  | succ fuel ih =>
    rw [findLoop]
    by_cases hlt : i < j
    · rw [if_pos hlt]
      generalize hmid : (i + j) / 2 = m
      have hget : xs[m]? = some xs[m] := getElem?_eq_getElem (by omega)
      dsimp only
      rw [Go.index_eq_ok hget, Go.ok_bind]
      rcases lt_trichotomy xs[m] x with hless | heq | hmore
      · rw [if_pos hless]
        obtain ⟨r, hr, hspec⟩ := ih (i := m + 1) (j := j) (by omega) hj
          (hasc.mono (by omega) le_rfl)
        refine ⟨r, hr, fun h => (hspec h).trans ⟨fun ⟨hle, hh⟩ => ⟨by omega, hh⟩, ?_⟩⟩
        rintro ⟨hle, hh, hx⟩
        exact ⟨hasc.lt_of_lt (by omega) hle hget hx hless, hh, hx⟩
      · rw [if_neg heq.not_lt, if_neg heq.not_gt]
        have hget' : xs[m]? = some x := hget.trans (congrArg some heq)
        refine ⟨some m, rfl, fun h => Option.some_inj.trans ⟨?_, ?_⟩⟩
        · rintro rfl
          exact ⟨by omega, by omega, hget'⟩
        · rintro ⟨hle, hh, hx⟩
          exact hasc.index_unique (by omega) (by omega) hle hh hget' hx
      · rw [if_neg hmore.not_gt, if_pos hmore]
        obtain ⟨r, hr, hspec⟩ := ih (i := i) (j := m) (by omega) (by omega)
          (hasc.mono le_rfl (by omega))
        refine ⟨r, hr, fun h => (hspec h).trans ⟨fun ⟨hle, hh, hx⟩ => ⟨hle, by omega, hx⟩, ?_⟩⟩
        rintro ⟨hle, hh, hx⟩
        exact ⟨hle, hasc.lt_of_lt hh (by omega) hx hget hmore, hx⟩
    · rw [if_neg hlt]
      exact ⟨none, rfl, fun h => by simp; omega⟩

theorem find_spec {i j : ℕ} (hj : j ≤ xs.length) (hasc : Ascends xs i j) :
    ∃ r, find xs x i j = .ok r ∧ ∀ h, r = some h ↔ i ≤ h ∧ h < j ∧ xs[h]? = some x :=
  findLoop_spec le_rfl hj hasc

end

end TinyKV.Search
