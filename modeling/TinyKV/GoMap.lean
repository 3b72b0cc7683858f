import Mathlib.Algebra.BigOperators.Group.List.Basic
import Mathlib.Algebra.Ring.Int.Defs
import Mathlib.Data.List.AList

/-!
# Go maps

A Go map is an association list without double keys.
-/

namespace TinyKV

open List

namespace GoMap

variable {κ β : Type} [DecidableEq κ]

theorem lookup_foldl_insert (v : β) (keys : List κ) (m : AList fun _ : κ => β) (k : κ) :
    (keys.foldl (fun m key => m.insert key v) m).lookup k =
      if k ∈ keys then some v else m.lookup k := by
  induction keys generalizing m with
  | nil => simp
  | cons key keys ih =>
    rw [foldl_cons, ih]
    by_cases hk : k = key
    · subst hk
      simp
    · simp [hk, AList.lookup_insert_ne]

theorem lookup_foldl_erase (keys : List κ) (m : AList fun _ : κ => β) (k : κ) :
    (keys.foldl (fun m key => m.erase key) m).lookup k = if k ∈ keys then none else m.lookup k := by
  induction keys generalizing m with
  | nil => simp
  | cons key keys ih =>
    rw [foldl_cons, ih]
    by_cases hk : k = key
    · subst hk
      simp
    · simp [hk, AList.lookup_erase_ne]

def weight (f : κ → β → ℤ) (m : AList fun _ : κ => β) : ℤ :=
  (m.entries.map fun e => f e.1 e.2).sum

/-- The sum of a number over the values of a map. -/
def sum (f : β → ℤ) (m : AList fun _ : κ => β) : ℤ := (m.entries.map fun e => f e.2).sum

theorem entries_erase (m : AList fun _ : κ => β) (k : κ) :
    (m.erase k).entries = m.entries.kerase k := rfl

theorem weight_erase (f : κ → β → ℤ) (m : AList fun _ : κ => β) (k : κ) :
    weight f (m.erase k) = weight f m - ((m.lookup k).map (f k)).getD 0 := by
  obtain ⟨entries, hnodup⟩ := m
  simp only [weight, entries_erase, AList.lookup]
  induction entries with
  | nil => simp
  | cons e entries ih =>
    obtain ⟨k', v⟩ := e
    have hnodup' := (nodupKeys_cons.mp hnodup).2
    by_cases hk : k = k'
    · subst hk
      simp only [kerase_cons_eq, dlookup_cons_eq, map_cons, sum_cons,
        Option.map_some, Option.getD_some]
      omega
    · rw [kerase_cons_ne hk, dlookup_cons_ne _ _ hk, map_cons, sum_cons,
        ih hnodup', map_cons, sum_cons]
      omega

theorem weight_insert (f : κ → β → ℤ) (m : AList fun _ : κ => β) (k : κ) (v : β) :
    weight f (m.insert k v) = weight f (m.erase k) + f k v := by
  simp only [weight, AList.entries_insert, entries_erase, map_cons, sum_cons]
  omega

theorem weight_congr {f : κ → β → ℤ} (P : κ → Bool) {m m' : AList fun _ : κ => β}
    (h : ∀ k, P k = true → m.lookup k = m'.lookup k) :
    weight (fun k v => if P k then f k v else 0) m =
      weight (fun k v => if P k then f k v else 0) m' := by
  have hfilter : ∀ l : List (Sigma fun _ : κ => β),
      (l.map fun e => if P e.1 then f e.1 e.2 else 0).sum =
        ((l.filter fun e => P e.1).map fun e => f e.1 e.2).sum := by
    intro l
    induction l with
    | nil => rfl
    | cons e l ih =>
      rw [map_cons, sum_cons, ih, filter_cons]
      split_ifs <;> simp
  rw [weight, weight, hfilter, hfilter]
  refine List.Perm.sum_eq (List.Perm.map _ ?_)
  rw [perm_ext_iff_of_nodup (m.nodupKeys.nodup.filter _) (m'.nodupKeys.nodup.filter _)]
  rintro ⟨k, v⟩
  simp only [mem_filter, ← mem_dlookup_iff m.nodupKeys,
    ← mem_dlookup_iff m'.nodupKeys]
  refine and_congr_left fun hP => ?_
  exact iff_of_eq (congrArg (v ∈ ·) (h k hP))

theorem sum_erase (f : β → ℤ) (m : AList fun _ : κ => β) (k : κ) :
    sum f (m.erase k) = sum f m - ((m.lookup k).map f).getD 0 :=
  weight_erase (fun _ => f) m k

theorem sum_insert (f : β → ℤ) (m : AList fun _ : κ => β) (k : κ) (v : β) :
    sum f (m.insert k v) = sum f (m.erase k) + f v :=
  weight_insert (fun _ => f) m k v

end GoMap

end TinyKV
