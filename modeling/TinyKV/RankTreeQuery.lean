import TinyKV.RankTreeInsert

/-!
# Queries

With the list of the items in the node, `getAt` returns the one at the place (`getAt_spec`),
`getWithIndex` the one that is neither less nor greater, with the number of those that are less
(`getWithIndex_spec`), and an ascending walk hands them on (`ascend_spec`).
-/

namespace TinyKV.RankTree

open List
open Btree (visit visit_append)

variable {β σ : Type} {less : β → β → Bool} {x : β}

variable {S : List ℤ}

theorem le_of_mem_cumul {acc x : ℤ} (hS : ∀ s ∈ S, 0 ≤ s) (hx : x ∈ cumul acc S) : acc ≤ x := by
  induction S generalizing acc with
  | nil => simp [cumul] at hx
  | cons s S ih =>
    obtain ⟨hs, hS⟩ := forall_mem_cons.mp hS
    rcases mem_cons.mp hx with rfl | hx
    · omega
    · have := ih hS hx
      omega

theorem pairwise_cumul (acc : ℤ) (hS : ∀ s ∈ S, 0 ≤ s) : (cumul acc S).Pairwise (· ≤ ·) := by
  induction S generalizing acc with
  | nil => exact List.Pairwise.nil
  | cons s S ih =>
    have hS' := (forall_mem_cons.mp hS).2
    refine pairwise_cons.mpr ⟨fun x hx => ?_, ih _ hS'⟩
    have := le_of_mem_cumul hS' hx
    omega

theorem getElem?_cumul (S T : List ℤ) (s : ℤ) :
    (cumul 0 (S ++ s :: T))[S.length]? = some (span S + s) := by
  rw [cumul_append, cumul, getElem?_append_right (by simp)]
  simp

theorem getElem?_cumul_pred (T : List ℤ) (h : S ≠ []) :
    (cumul 0 (S ++ T))[S.length - 1]? = some (span S - 1) := by
  obtain ⟨S, s, rfl⟩ : ∃ S' s, S = S' ++ [s] := ⟨_, _, (dropLast_append_getLast h).symm⟩
  rw [append_assoc, singleton_append, length_append, length_singleton,
    Nat.add_sub_cancel, getElem?_cumul]
  simp
  ring

theorem find_cumul {k : ℤ} (hS : ∀ s ∈ S, 0 ≤ s) (h0 : 0 ≤ k) (hk : k < span S - 1) :
    ∃ S₁ s S₂, S = S₁ ++ s :: S₂ ∧ span S₁ ≤ k ∧ k ≤ span S₁ + s ∧
      Indices.find (cumul 0 S) k = .ok (S₁.length, decide (span S₁ + s = k)) := by
  have hmono : (cumul 0 S).Pairwise fun x y => decide (k ≤ x) = true → decide (k ≤ y) = true :=
    (pairwise_cumul 0 hS).imp fun hxy hx => by simpa using (of_decide_eq_true hx).trans hxy
  obtain ⟨hlo, hhi, hle⟩ := Search.search_any hmono
  unfold Indices.find
  generalize Search.search (cumul 0 S).length (fun i => (cumul 0 S)[i]?.any fun x => k ≤ x) = i
    at hlo hhi hle ⊢
  obtain ⟨S₁, T, rfl, rfl⟩ : ∃ S₁ T, S = S₁ ++ T ∧ S₁.length = i :=
    ⟨S.take i, S.drop i, (take_append_drop i S).symm, by simpa using hle⟩
  have hbefore : span S₁ ≤ k := by
    by_cases hne : S₁ = []
    · simpa [hne] using h0
    · have hpos := length_pos_of_ne_nil hne
      have hlast := hlo (S₁.length - 1) _ (by omega) (getElem?_cumul_pred T hne)
      simp at hlast
      omega
  cases T with
  | nil =>
    rw [append_nil] at hk
    omega
  | cons s S₂ =>
    have hafter := hhi S₁.length _ le_rfl (getElem?_cumul S₁ S₂ s)
    refine ⟨S₁, s, S₂, rfl, hbefore, by simpa using hafter, ?_⟩
    dsimp only
    rw [Go.index_eq_ok (getElem?_cumul S₁ S₂ s), Go.ok_bind]

namespace Node

variable {d h calls : ℕ} {n c : Node β} {I I' : List β} {C C' : List (Node β)}

theorem Focus.span_before (f : Focus d h I C c I' C') :
    span (C.map (size h)) = (weave (C.map (toList h)) I).length := by
  have hsum : (C.map (toList h)).map (fun c => (c.length : ℤ)) = C.map (size h) := by
    rw [map_map]
    rfl
  rw [length_weave (by simp [f.length_before]), hsum, span, length_map, f.length_before]

theorem Focus.index_pred (f : Focus d h I C c I' C') (hI : I ≠ []) :
    Go.index (assemble h I C c I' C').indices (I.length - 1) =
      .ok ((weave (C.map (toList h)) I).length - 1) := by
  have hne : C.map (size h) ≠ [] := by
    rw [← length_pos_iff, length_map, f.length_before]
    exact length_pos_of_ne_nil hI
  have hindex := Go.index_eq_ok (getElem?_cumul_pred (c.size h :: C'.map (size h)) hne)
  rwa [length_map, f.length_before, f.span_before] at hindex

theorem Good.find {k : ℤ} (hn : n.Good d (h + 1)) (h0 : 0 ≤ k) (hk : k < n.size (h + 1)) :
    ∃ I C c I' C', Focus d h I C c I' C' ∧ n = assemble h I C c I' C' ∧
      ((weave (C.map (toList h)) I).length : ℤ) ≤ k ∧
      k ≤ (weave (C.map (toList h)) I).length + c.size h ∧
      Indices.find n.indices k =
        .ok (I.length, decide (((weave (C.map (toList h)) I).length : ℤ) + c.size h = k)) := by
  obtain ⟨S₁, s, S₂, hS, hle, hge, hfind⟩ := find_cumul (S := n.children.map (size h))
    (by simp [size]) h0 (hn.size_eq ▸ hk)
  have hlength : S₁.length ≤ n.items.length := by
    have := congrArg List.length hS
    simp [hn.1] at this
    omega
  obtain ⟨I, I', hitems, hI⟩ : ∃ I I', n.items = I ++ I' ∧ I.length = S₁.length :=
    ⟨_, _, (take_append_drop S₁.length n.items).symm, by simp [hlength]⟩
  obtain ⟨C, c, C', f, rfl⟩ := hn.focus hitems
  rw [children_assemble, map_append, map_cons] at hS
  obtain ⟨rfl, hS'⟩ := append_inj hS (by rw [length_map, f.length_before, hI])
  obtain ⟨rfl, rfl⟩ := List.cons.inj hS'
  rw [children_assemble, map_append, map_cons, ← hI, f.span_before] at hfind
  rw [f.span_before] at hle hge
  exact ⟨I, C, c, I', C', f, rfl, hle, hge, hfind⟩

theorem getAt_of_out {k : ℤ} (hn : n.Good d h) (hk : n.size h ≤ k ∨ k < 0) :
    n.getAt (calls + 1) k = .ok (if 0 ≤ k then (n.toList h)[k.toNat]? else none) := by
  unfold getAt
  rw [hn.length_eq, if_pos hk]
  rcases hk with hk | hk
  · rw [getElem?_eq_none (by rw [size] at hk; omega), ite_self]
  · rw [if_neg (by omega)]

theorem getElem?_weave {A B D : List β} {k : ℕ} (hA : A.length ≤ k) (hk : k < A.length + B.length) :
    (A ++ B ++ D)[k]? = B[k - A.length]? := by
  rw [append_assoc, getElem?_append_right hA, getElem?_append_left (by omega)]

theorem getAt_succ {k : ℕ}
    (ih : ∀ (c : Node β) (k : ℕ), c.Good d h → c.getAt calls k = .ok (c.toList h)[k]?)
    (hn : n.Good d (h + 1)) (hk : (k : ℤ) < n.size (h + 1)) :
    n.getAt (calls + 1) k = .ok (n.toList (h + 1))[k]? := by
  obtain ⟨I, C, c, I', C', f, rfl, hle, hge, hfind⟩ := hn.find (Int.natCast_nonneg k) hk
  have hC : C.length = I.length := f.length_before
  have hpred := f.index_pred
  unfold getAt
  rw [hn.length_eq, if_neg (by omega), if_neg (by simp), hfind, Go.ok_bind, f.toList_eq]
  rw [size, f.toList_eq] at hk
  dsimp only
  generalize hW : weave (C.map (toList h)) I = W at *
  by_cases hfound : (W.length : ℤ) + c.size h = k
  · -- The item after the child is there, for the place is not after the last child.
    cases I' with
    | nil =>
      obtain rfl : C' = [] := length_eq_zero_iff.mp f.length_after
      rw [size] at hfound
      simp [weave] at hk
      omega
    | cons s I' =>
      rw [decide_eq_true hfound, if_pos rfl, items_assemble, index_append rfl, Go.ok_bind]
      have hk' : (W ++ c.toList h).length = k := by
        rw [size] at hfound
        rw [length_append]
        omega
      rw [← hk', getElem?_append_right le_rfl, Nat.sub_self]
      rfl
  · have hlt : k < W.length + (c.toList h).length := by
      have hlt := hge.lt_of_ne (Ne.symm hfound)
      rw [size] at hlt
      omega
    have hchild := ih c (k - W.length) f.child.good
    rw [Nat.cast_sub (by omega)] at hchild
    rw [decide_eq_false hfound, if_neg Bool.false_ne_true, children_assemble,
      getElem?_weave (by omega) hlt, ← hchild]
    by_cases hI : I = []
    · subst hI
      obtain rfl : C = [] := length_eq_zero_iff.mp hC
      obtain rfl : W = [] := hW.symm
      rw [if_pos length_nil, index_append length_nil, Go.ok_bind]
      simp
    · rw [if_neg (by simpa using hI), index_append hC, Go.ok_bind, hpred hI, Go.ok_bind]
      ring_nf

/-- `getAt`: the item at the place. -/
theorem getAt_spec (hn : n.Good d h) (hcalls : h < calls) (k : ℤ) :
    n.getAt calls k = .ok (if 0 ≤ k then (n.toList h)[k.toNat]? else none) := by
  obtain ⟨calls, rfl⟩ : ∃ m, calls = m + 1 := ⟨calls - 1, by omega⟩
  induction h generalizing n k calls with
  | zero =>
    by_cases hk : n.size 0 ≤ k ∨ k < 0
    · exact getAt_of_out hn hk
    obtain ⟨hk, h0⟩ := not_or.mp hk
    obtain ⟨k, rfl⟩ := Int.eq_ofNat_of_zero_le (not_lt.mp h0)
    unfold getAt
    rw [hn.length_eq, if_neg (by omega), if_pos (by rw [hn.1, length_nil]),
      if_pos (Int.natCast_nonneg k), Int.toNat_natCast, toList]
    rw [size, toList] at hk
    rw [getElem?_eq_getElem (by omega), Go.index_eq_ok (getElem?_eq_getElem (by omega)),
      Go.ok_bind]
  | succ h ih =>
    obtain ⟨calls, rfl⟩ : ∃ m, calls = m + 1 := ⟨calls - 1, by omega⟩
    by_cases hk : n.size (h + 1) ≤ k ∨ k < 0
    · exact getAt_of_out hn hk
    obtain ⟨hk, h0⟩ := not_or.mp hk
    obtain ⟨k, rfl⟩ := Int.eq_ofNat_of_zero_le (not_lt.mp h0)
    rw [if_pos (Int.natCast_nonneg k), Int.toNat_natCast]
    refine getAt_succ (fun c k hc => ?_) hn (not_le.mp hk)
    rw [ih hc k calls (by omega), if_pos (Int.natCast_nonneg k), Int.toNat_natCast]

section

variable [IsStrictWeakOrder β fun x y => less x y = true]

theorem getWithIndex_spec (hn : n.Good d h) (hsorted : Sorted less (n.toList h))
    (hcalls : h < calls) (x : β) :
    ∃ A out B, n.getWithIndex less calls x = .ok (out, (A.length : ℤ)) ∧
      CutAt less x (n.toList h) A out B := by
  obtain ⟨calls, rfl⟩ : ∃ m, calls = m + 1 := ⟨calls - 1, by omega⟩
  induction h generalizing n calls with
  | zero =>
    obtain ⟨I, I', found, hitems, hfind, hI, hgreater, hequiv⟩ :=
      find_spec (hn.sorted_items hsorted) x
    unfold getWithIndex
    rw [hfind]
    dsimp only
    cases found with
    | true =>
      obtain ⟨s, J, rfl, hs⟩ := hequiv rfl
      rw [if_pos rfl, rank, hn.2, if_neg (by simp), Go.ok_bind, hitems, index_append rfl,
        Go.ok_bind]
      rw [toList, hitems] at hsorted ⊢
      exact ⟨I, some s, J, rfl, cutAt_incomp hsorted hs⟩
    | false =>
      rw [if_neg Bool.false_ne_true, hn.1, if_neg (by simp)]
      exact ⟨I, none, I', rfl, by simpa [toList] using hitems, hI, hgreater rfl, by simp⟩
  | succ h ih =>
    obtain ⟨calls, rfl⟩ : ∃ m, calls = m + 1 := ⟨calls - 1, by omega⟩
    obtain ⟨I, I', found, hitems, hfind, hI, hgreater, hequiv⟩ :=
      find_spec (hn.sorted_items hsorted) x
    obtain ⟨C, c, C', f, rfl⟩ := hn.focus hitems
    have hC : C.length = I.length := f.length_before
    unfold getWithIndex
    rw [hfind]
    dsimp only
    cases found with
    | true =>
      obtain ⟨s, J, rfl, hs⟩ := hequiv rfl
      have hrank := Go.index_eq_ok (getElem?_cumul (C.map (size h)) (C'.map (size h)) (c.size h))
      rw [length_map, hC, f.span_before] at hrank
      rw [if_pos rfl, rank, indices_assemble, if_pos (by simp), hrank, Go.ok_bind, items_assemble,
        index_append rfl, Go.ok_bind]
      rw [f.toList_eq] at hsorted ⊢
      refine ⟨_, _, _, ?_, cutAt_incomp hsorted hs⟩
      simp [size]
    | false =>
      obtain ⟨A, out, B, heq, hcut⟩ :=
        ih f.child.good (f.sorted_child hsorted) calls (by omega)
      refine ⟨_, _, _, ?_, f.cut hsorted (fun y z => less_trans)
        (fun y z hyz hy => less_trans hy hyz) hI (hgreater rfl) hcut⟩
      rw [if_neg Bool.false_ne_true, if_pos (by simp), children_assemble, index_append hC,
        Go.ok_bind, heq, Go.ok_bind]
      dsimp only
      by_cases hpos : I = []
      · subst hpos
        obtain rfl : C = [] := length_eq_zero_iff.mp hC
        rw [if_neg (by simp)]
        simp [weave]
      · rw [if_pos (length_pos_of_ne_nil hpos), f.index_pred hpos, Go.ok_bind]
        simp
        ring

end

section

variable {iter : β → σ → σ × Bool} {walk : Node β → σ → Go (σ × Bool)}

theorem visit_next (A : List β) (x : β) (B : List β) (s : σ) :
    visit iter (A ++ x :: B) s =
      if (visit iter A s).2 then
        if (iter x (visit iter A s).1).2 then visit iter B (iter x (visit iter A s).1).1
        else ((iter x (visit iter A s).1).1, false)
      else ((visit iter A s).1, false) := by
  rw [visit_append]
  rfl

theorem ascendLoop_leaf (hn : n.children = []) (hitems : n.items = I ++ I') (s : σ) :
    n.ascendLoop iter walk I'.length I.length s = .ok (visit iter I' s) := by
  have hchild : ∀ i s, n.ascendChild walk i s = .ok (s, true) := by
    intro i s
    unfold ascendChild
    rw [hn, if_neg (by simp)]
  induction I' generalizing I s with
  | nil => rw [length_nil, ascendLoop, hchild, visit]
  | cons x I' ih =>
    rw [length_cons, ascendLoop, hchild, Go.ok_bind]
    dsimp only
    rw [if_pos rfl, hitems, index_append rfl, Go.ok_bind, visit]
    have hnext := ih (I := I ++ [x]) (by simp [hitems]) (iter x s).1
    rw [length_append, length_singleton] at hnext
    rw [hnext]
    cases (iter x s).2 <;> rfl

section

variable (f : Focus d h I C c I' C')
  (hwalk : ∀ (c : Node β) s, c.Good d h → walk c s = .ok (visit iter (c.toList h) s)) (s : σ)
include f hwalk

theorem Focus.ascendChild_eq :
    (assemble h I C c I' C').ascendChild walk I.length s = .ok (visit iter (c.toList h) s) := by
  unfold ascendChild
  rw [if_pos (by simp), children_assemble, index_append f.length_before, Go.ok_bind,
    hwalk c s f.child.good]

theorem ascendLoop_children :
    (assemble h I C c I' C').ascendLoop iter walk I'.length I.length s =
      .ok (visit iter (c.toList h ++ weave ([] :: C'.map (toList h)) I') s) := by
  induction I' generalizing I C c C' s with
  | nil =>
    obtain rfl : C' = [] := length_eq_zero_iff.mp f.length_after
    have hlast : (assemble h I C c [] []).children.length - 1 = I.length := by
      simp [f.length_before]
    rw [length_nil, ascendLoop, hlast, f.ascendChild_eq hwalk]
    simp [weave]
  | cons x I' ih =>
    obtain ⟨c', D, rfl⟩ := exists_cons_of_length_eq_add_one f.length_after
    have hrest : weave ([] :: (c' :: D).map (toList h)) (x :: I') =
        x :: (c'.toList h ++ weave ([] :: D.map (toList h)) I') := by
      rw [← weave_cons]
      rfl
    have hnext := ih f.next (iter x (visit iter (c.toList h) s).1).1
    rw [length_append, length_singleton, ← assemble_next] at hnext
    rw [length_cons, ascendLoop, f.ascendChild_eq hwalk, Go.ok_bind]
    dsimp only
    rw [items_assemble, index_append rfl, Go.ok_bind, hnext, hrest, visit_next]
    cases (visit iter (c.toList h) s).2 with
    | false => rfl
    | true => cases (iter x (visit iter (c.toList h) s).1).2 <;> rfl

end

/-- `iterate`: the items are handed on in the order of the list. -/
theorem ascend_spec (hn : n.Good d h) (hcalls : h < calls) (s : σ) :
    n.ascend iter calls s = .ok (visit iter (n.toList h) s) := by
  obtain ⟨calls, rfl⟩ : ∃ m, calls = m + 1 := ⟨calls - 1, by omega⟩
  induction h generalizing n calls s with
  | zero => exact ascendLoop_leaf (I := []) hn.1 rfl s
  | succ h ih =>
    obtain ⟨calls, rfl⟩ : ∃ m, calls = m + 1 := ⟨calls - 1, by omega⟩
    obtain ⟨I', hitems⟩ : ∃ I', n.items = [] ++ I' := ⟨n.items, rfl⟩
    obtain ⟨C, c, C', f, rfl⟩ := hn.focus hitems
    obtain rfl : C = [] := length_eq_zero_iff.mp f.length_before
    rw [f.toList_eq]
    exact ascendLoop_children f (fun c s hc => ih hc s calls (by omega)) s

end

end Node

end TinyKV.RankTree
