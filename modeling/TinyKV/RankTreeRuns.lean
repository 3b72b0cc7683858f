import TinyKV.RankTreeQuery
import TinyKV.RankTreeRemove

/-!
# Trees over whole runs

A call of `ReplaceOrInsert`, `Delete`, `DeleteMin` or `DeleteMax` changes a sorted list
(`Op.apply`).
-/

namespace TinyKV.RankTree

open List
open Btree (visit)

variable {β : Type} {less : β → β → Bool} {x : β} {l l' A B : List β} {out : Option β}
  {typ : ToRemove β}

section

variable [IsStrictWeakOrder β fun x y => less x y = true]

theorem CutAt.filter_less (h : CutAt less x l A out B) : l.filter (fun y => less y x) = A := by
  have hA : A.filter (fun y => less y x) = A := filter_eq_self.mpr h.before
  have hB : B.filter (fun y => less y x) = [] :=
    filter_eq_nil_iff.mpr fun y hy => by simp [less_asymm (h.after y hy)]
  have hout : out.toList.filter (fun y => less y x) = [] :=
    filter_eq_nil_iff.mpr fun y hy => by simp [(h.between y (by simpa using hy)).1]
  rw [h.eq_append, filter_append, filter_append, hA, hB, hout]
  simp

theorem CutAt.filter_greater (h : CutAt less x l A out B) : l.filter (fun y => less x y) = B := by
  have hA : A.filter (fun y => less x y) = [] :=
    filter_eq_nil_iff.mpr fun y hy => by simp [less_asymm (h.before y hy)]
  have hB : B.filter (fun y => less x y) = B := filter_eq_self.mpr h.after
  have hout : out.toList.filter (fun y => less x y) = [] :=
    filter_eq_nil_iff.mpr fun y hy => by simp [(h.between y (by simpa using hy)).2]
  rw [h.eq_append, filter_append, filter_append, hA, hB, hout]
  simp

end

theorem CutAt.filter_incomp (h : CutAt less x l A out B) :
    l.filter (fun y => ¬ Incomp less x y) = A ++ B := by
  have hA : A.filter (fun y => ¬ Incomp less x y) = A :=
    filter_eq_self.mpr fun y hy => by simp [Incomp, h.before y hy]
  have hB : B.filter (fun y => ¬ Incomp less x y) = B :=
    filter_eq_self.mpr fun y hy => by simp [Incomp, h.after y hy]
  have hout : out.toList.filter (fun y => ¬ Incomp less x y) = [] :=
    filter_eq_nil_iff.mpr fun y hy => by simp [h.between y (by simpa using hy)]
  rw [h.eq_append, filter_append, filter_append, hA, hB, hout]
  simp

theorem CutAt.find?_incomp (h : CutAt less x l A out B) :
    l.find? (fun y => Incomp less x y) = out := by
  have hA : A.find? (fun y => Incomp less x y) = none :=
    find?_eq_none.mpr fun y hy => by simp [Incomp, h.before y hy]
  have hB : B.find? (fun y => Incomp less x y) = none :=
    find?_eq_none.mpr fun y hy => by simp [Incomp, h.after y hy]
  rw [h.eq_append, find?_append, find?_append, hA, hB]
  cases out with
  | none => rfl
  | some y => simp [h.between y rfl]

theorem Inserted.sorted (h : Inserted less x l out l') (hl : Sorted less l) : Sorted less l' := by
  obtain ⟨A, B, hcut, rfl⟩ := h
  rw [Sorted, hcut.eq_append] at hl
  obtain ⟨hleft, hB, hcross⟩ := pairwise_append.mp hl
  refine pairwise_append.mpr ⟨(pairwise_append.mp hleft).1,
    pairwise_cons.mpr ⟨hcut.after, hB⟩, fun y hy z hz => ?_⟩
  rcases mem_cons.mp hz with rfl | hz
  · exact hcut.before y hy
  · exact hcross y (mem_append_left _ hy) z hz

theorem Removed.sorted (h : Removed less typ l out l') (hl : Sorted less l) : Sorted less l' := by
  obtain ⟨A, B, hcut, rfl⟩ := h
  rw [Sorted, hcut.eq_append] at hl
  exact hl.sublist ((sublist_append_left A _).append_right B)

theorem Removed.eq_of_none (h : Removed less typ l none l') : l' = l := by
  obtain ⟨A, B, hcut, rfl⟩ := h
  simpa using hcut.eq_append.symm

inductive Op (β : Type)
  | replaceOrInsert (item : β)
  | delete (item : β)
  | deleteMin
  | deleteMax

def Op.apply (less : β → β → Bool) (l : List β) : Op β → List β
  | .replaceOrInsert x => l.filter (fun y => less y x) ++ x :: l.filter (fun y => less x y)
  | .delete x => l.filter fun y => ¬ Incomp less x y
  | .deleteMin => l.tail
  | .deleteMax => l.dropLast

def contents (less : β → β → Bool) (ops : List (Op β)) : List β := ops.foldl (Op.apply less) []

namespace BTree

def call (less : β → β → Bool) (t : BTree β) : Op β → Go (BTree β × Option β)
  | .replaceOrInsert x => t.replaceOrInsert less x
  | .delete x => t.delete less x
  | .deleteMin => t.deleteMin less
  | .deleteMax => t.deleteMax less

def run (less : β → β → Bool) : BTree β → List (Op β) → Go (BTree β)
  | t, [] => .ok t
  | t, op :: ops => do
    let (t, _) ← t.call less op
    t.run less ops

end BTree

/-- The root of a tree of a degree, with the list in it. -/
inductive Root (d : ℕ) : Option (Node β) → List β → Prop
  | none : Root d none []
  | some (h : ℕ) (root : Node β) (good : root.Good d h) (length_le : root.items.length ≤ d * 2 - 1)
      (ne_nil : 0 < h → root.items ≠ []) : Root d (some root) (root.toList h)

structure BTree.Holds (less : β → β → Bool) (t : BTree β) (l : List β) : Prop where
  degree : 2 ≤ t.degree
  root : Root t.degree t.root l
  length : t.length = l.length
  sorted : Sorted less l

namespace Node

variable {d h : ℕ} {n : Node β}

theorem growRoot_spec {t : BTree β} (hd : 2 ≤ t.degree) (hn : n.Good t.degree h)
    (hle : n.items.length ≤ t.degree * 2 - 1) (hne : 0 < h → n.items ≠ []) :
    ∃ n' h', t.growRoot n = .ok n' ∧ n'.Good t.degree h' ∧ n'.toList h' = n.toList h ∧
      n'.items.length < t.degree * 2 - 1 ∧ (0 < h' → n'.items ≠ []) := by
  unfold BTree.growRoot BTree.maxItems
  by_cases hfull : t.degree * 2 - 1 ≤ n.items.length
  · obtain ⟨s, n₁, n₂, hsplit, hc₁, hc₂, -, -, htoList⟩ := split_full hn hd (le_antisymm hle hfull)
    have hgood : ∀ c ∈ [n₁, n₂], c.Good t.degree h := by simp [hc₁.good, hc₂.good]
    rw [if_pos hfull, hsplit, Go.ok_bind]
    dsimp only
    rw [initSize_eq hgood]
    refine ⟨_, h + 1, rfl, good_succ_iff.mpr ⟨rfl, by simp [hc₁, hc₂]⟩, ?_, ?_, by simp⟩
    · simp [toList, weave, Node.children, htoList]
    · rw [items_mk, length_singleton]
      omega
  · rw [if_neg hfull]
    exact ⟨n, h, rfl, hn, rfl, not_le.mp hfull, hne⟩

theorem shrinkRoot_spec (hd : 2 ≤ d) (hn : n.Good d h) (hle : n.items.length ≤ d * 2 - 1) :
    ∃ n' h', BTree.shrinkRoot n = .ok n' ∧ n'.Good d h' ∧ n'.toList h' = n.toList h ∧
      n'.items.length ≤ d * 2 - 1 ∧ (0 < h' → n'.items ≠ []) := by
  unfold BTree.shrinkRoot
  cases h with
  | zero =>
    rw [if_neg (by simp [hn.1])]
    exact ⟨n, 0, rfl, hn, rfl, hle, by simp⟩
  | succ h =>
    by_cases hempty : n.items = []
    · obtain ⟨C, c, C', f, rfl⟩ := hn.focus (I := []) (J := []) hempty
      obtain rfl : C = [] := length_eq_zero_iff.mp f.length_before
      obtain rfl : C' = [] := length_eq_zero_iff.mp f.length_after
      have hge := f.child.le_length
      rw [if_pos (by simp), children_assemble, index_append length_nil]
      refine ⟨c, h, rfl, f.child.good, ?_, f.child.length_le, fun _ => ?_⟩
      · rw [f.toList_eq]
        simp [weave]
      · exact ne_nil_of_length_pos (by omega)
    · rw [if_neg (by simp [hempty])]
      exact ⟨n, h + 1, rfl, hn, rfl, hle, fun _ => hempty⟩

end Node

namespace BTree

variable {t : BTree β}

section

variable [IsStrictWeakOrder β fun x y => less x y = true]

theorem Holds.replaceOrInsert (ht : t.Holds less l) (x : β) :
    ∃ t' out l', t.replaceOrInsert less x = .ok (t', out) ∧ t'.Holds less l' ∧
      Inserted less x l out l' := by
  obtain ⟨degree, length, root⟩ := t
  obtain ⟨hd, hroot, hlength, hsorted⟩ := ht
  dsimp only at hd hroot hlength
  unfold BTree.replaceOrInsert
  cases hroot with
  | none =>
    refine ⟨_, none, [x], rfl, ⟨hd, ?_, ?_, by simp [Sorted]⟩, [], [], ?_, rfl⟩
    · exact .some 0 (.mk [x] [] []) ⟨rfl, rfl⟩ (by simp; omega) (by simp)
    · simp [hlength]
    · exact ⟨rfl, by simp, by simp, by simp⟩
  | some h root good length_le ne_nil =>
    obtain ⟨n, h', hgrow, hn, htoList, hlt, hne⟩ := Node.growRoot_spec
      (t := { degree, length, root := some root }) hd good length_le ne_nil
    rw [← htoList] at hlength hsorted ⊢
    obtain ⟨n', out, hinsert, hn', hinserted, hge, hle⟩ :=
      Node.inserts_insert (x := x) hd (Nat.lt_succ_self h') n hn hsorted hlt
    dsimp only
    rw [hgrow, Go.ok_bind, hn.depth_eq, maxItems]
    dsimp only at hn hlt ⊢
    rw [hinsert, Go.ok_bind]
    refine ⟨_, out, n'.toList h', rfl, ⟨hd, ?_, ?_, hinserted.sorted hsorted⟩, hinserted⟩
    · refine .some h' n' hn' (by dsimp only; omega) fun hpos => ?_
      have hlength' := length_pos_of_ne_nil (hne hpos)
      exact ne_nil_of_length_pos (by omega)
    · rw [hinserted.length_eq, hlength]

theorem Holds.deleteItem (ht : t.Holds less l) (typ : ToRemove β) :
    ∃ t' out l', t.deleteItem less typ = .ok (t', out) ∧ t'.Holds less l' ∧
      Removed less typ l out l' ∧ (out = none → l = [] ∨ ∃ x, typ = .removeItem x) := by
  obtain ⟨degree, length, root⟩ := t
  have hnil : Removed less typ [] none [] := ⟨[], [], ⟨rfl, by simp, by simp, by simp⟩, rfl⟩
  have hroot := ht.root
  unfold BTree.deleteItem
  cases hroot with
  | none => exact ⟨_, none, [], rfl, ht, hnil, fun _ => .inl rfl⟩
  | some h root good length_le ne_nil =>
    dsimp only at good length_le ⊢
    by_cases hempty : root.items = []
    · obtain rfl : h = 0 := by
        by_contra hpos
        exact ne_nil (Nat.pos_of_ne_zero hpos) hempty
      have htoList : root.toList 0 = [] := hempty
      rw [htoList] at ht ⊢
      rw [if_pos (by rw [hempty, length_nil])]
      exact ⟨_, none, [], rfl, ht, hnil, fun _ => .inl rfl⟩
    · have hremoves : Node.Removes less degree h _ := Node.removes_remove ht.degree le_rfl
      obtain ⟨n, out, hremove, hn, hremoved, hsome, -, hle⟩ :=
        hremoves root typ good ht.sorted hempty
      obtain ⟨n', h', hshrink, hn', htoList, hle', hne⟩ :=
        Node.shrinkRoot_spec ht.degree hn (hle.trans length_le)
      rw [if_neg (by simp [hempty]), good.depth_eq, minItems]
      dsimp only at hremove ⊢
      rw [hremove, Go.ok_bind]
      dsimp only
      rw [hshrink, Go.ok_bind]
      rw [← htoList] at hremoved
      refine ⟨_, out, n'.toList h', rfl, ⟨ht.degree, .some h' n' hn' hle' hne, ?_,
        hremoved.sorted ht.sorted⟩, hremoved, fun hout => .inr (hsome hout)⟩
      rw [hremoved.length_eq, ← ht.length]

theorem Holds.call (ht : t.Holds less l) (op : Op β) :
    ∃ t' out, t.call less op = .ok (t', out) ∧ t'.Holds less (op.apply less l) := by
  cases op with
  | replaceOrInsert x =>
    obtain ⟨t', out, l', heq, ht', A, B, hcut, rfl⟩ := ht.replaceOrInsert x
    refine ⟨t', out, heq, ?_⟩
    rwa [Op.apply, hcut.filter_less, hcut.filter_greater]
  | delete x =>
    obtain ⟨t', out, l', heq, ht', ⟨A, B, hcut, rfl⟩, -⟩ := ht.deleteItem (.removeItem x)
    refine ⟨t', out, heq, ?_⟩
    rwa [Op.apply, CutAt.filter_incomp hcut]
  | deleteMin =>
    obtain ⟨t', out, l', heq, ht', hremoved, hnone⟩ := ht.deleteItem .removeMin
    refine ⟨t', out, heq, ?_⟩
    cases out with
    | none =>
      obtain rfl : l = [] := by simpa using hnone rfl
      rwa [hremoved.eq_of_none] at ht'
    | some y =>
      rw [removed_min_iff.mp hremoved]
      exact ht'
  | deleteMax =>
    obtain ⟨t', out, l', heq, ht', hremoved, hnone⟩ := ht.deleteItem .removeMax
    refine ⟨t', out, heq, ?_⟩
    cases out with
    | none =>
      obtain rfl : l = [] := by simpa using hnone rfl
      rwa [hremoved.eq_of_none] at ht'
    | some y =>
      rw [removed_max_iff.mp hremoved, Op.apply, dropLast_concat]
      exact ht'

theorem Holds.run (ht : t.Holds less l) (ops : List (Op β)) :
    ∃ t', t.run less ops = .ok t' ∧ t'.Holds less (ops.foldl (Op.apply less) l) := by
  induction ops generalizing t l with
  | nil => exact ⟨t, rfl, ht⟩
  | cons op ops ih =>
    obtain ⟨t₁, out, hcall, ht₁⟩ := ht.call op
    obtain ⟨t', hrun, ht'⟩ := ih ht₁
    refine ⟨t', ?_, ht'⟩
    rw [BTree.run, hcall, Go.ok_bind]
    exact hrun

theorem Holds.getWithIndex_eq (ht : t.Holds less l) (x : β) : t.getWithIndex less x =
    .ok (l.find? fun y => Incomp less x y, ((l.countP fun y => less y x : ℕ) : ℤ)) := by
  obtain ⟨degree, length, root⟩ := t
  have hroot := ht.root
  unfold getWithIndex
  cases hroot with
  | none => rfl
  | some h root good length_le ne_nil =>
    obtain ⟨A, out, B, heq, hcut⟩ :=
      Node.getWithIndex_spec good ht.sorted (Nat.lt_succ_self h) x
    dsimp only
    rw [good.depth_eq, heq, hcut.find?_incomp, countP_eq_length_filter, hcut.filter_less]

end

theorem Holds.getAt_eq (ht : t.Holds less l) (k : ℤ) :
    t.getAt k = .ok (if 0 ≤ k then l[k.toNat]? else none) := by
  obtain ⟨degree, length, root⟩ := t
  have hroot := ht.root
  unfold getAt
  cases hroot with
  | none => simp
  | some h root good length_le ne_nil =>
    dsimp only
    rw [good.depth_eq, Node.getAt_spec good (Nat.lt_succ_self h)]

theorem Holds.ascend_eq {σ : Type} (ht : t.Holds less l) (iter : β → σ → σ × Bool) (s : σ) :
    t.ascend iter s = .ok (visit iter l s).1 := by
  obtain ⟨degree, length, root⟩ := t
  have hroot := ht.root
  unfold ascend
  cases hroot with
  | none => rfl
  | some h root good length_le ne_nil =>
    dsimp only
    rw [good.depth_eq, Node.ascend_spec good (Nat.lt_succ_self h), Go.ok_bind]

/-- After every sequence of calls on a new tree: walks ascend strictly, `GetAt` and `GetWithIndex`
go by the number of the items that are less, and `Len` is the number of all. -/
theorem ranks_exact (less : β → β → Bool) [IsStrictWeakOrder β fun x y => less x y = true]
    {degree : ℕ} (hd : 2 ≤ degree) (ops : List (Op β)) :
    ∃ t : BTree β, (do let t ← BTree.new degree; t.run less ops) = .ok t ∧
      (contents less ops).Pairwise (fun x y => less x y = true) ∧
      (∀ (σ : Type) (iter : β → σ → σ × Bool) (s : σ),
        t.ascend iter s = .ok (visit iter (contents less ops) s).1) ∧
      (∀ k : ℤ, t.getAt k = .ok (if 0 ≤ k then (contents less ops)[k.toNat]? else none)) ∧
      (∀ x, t.getWithIndex less x = .ok ((contents less ops).find? fun y => Incomp less x y,
        (((contents less ops).countP fun y => less y x : ℕ) : ℤ))) ∧
      t.len = (contents less ops).length := by
  have hnew : BTree.new (β := β) degree = .ok { degree } := if_neg (by omega)
  have hholds : Holds less ({ degree } : BTree β) [] := ⟨hd, .none, rfl, List.Pairwise.nil⟩
  obtain ⟨t, hrun, ht⟩ := hholds.run ops
  rw [hnew, Go.ok_bind]
  exact ⟨t, hrun, ht.sorted, fun σ iter s => ht.ascend_eq iter s, ht.getAt_eq, ht.getWithIndex_eq,
    ht.length⟩

def lessFst (x y : ℕ × ℕ) : Bool := x.1 < y.1

instance : IsStrictWeakOrder (ℕ × ℕ) fun x y => lessFst x y = true where
  irrefl x h := by simp [lessFst] at h
  trans x y z hxy hyz := by
    simp only [lessFst, decide_eq_true_eq] at *
    omega
  incomp_trans x y z hxy hyz := by
    simp only [lessFst, decide_eq_true_eq] at *
    omega

def fiveOps : List (Op (ℕ × ℕ)) :=
  [.replaceOrInsert (5, 0), .replaceOrInsert (3, 0), .replaceOrInsert (8, 0),
    .replaceOrInsert (1, 0), .replaceOrInsert (9, 0), .replaceOrInsert (5, 1), .delete (3, 7)]

theorem ranks_exact_fiveOps : ∃ t : BTree (ℕ × ℕ),
    (do let t ← BTree.new 2; t.run lessFst fiveOps) = .ok t ∧
    t.getAt 1 = .ok (some (5, 1)) ∧ t.getWithIndex lessFst (8, 8) = .ok (some (8, 0), 2) ∧
    t.len = 4 := by
  obtain ⟨t, hrun, -, -, hgetAt, hindex, hlen⟩ := ranks_exact lessFst (le_refl 2) fiveOps
  have hcontents : contents lessFst fiveOps = [(1, 0), (5, 1), (8, 0), (9, 0)] := by decide
  rw [hcontents] at hgetAt hindex hlen
  exact ⟨t, hrun, hgetAt 1, hindex (8, 8), hlen⟩

end BTree

end TinyKV.RankTree
