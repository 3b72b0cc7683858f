import TinyKV.RankTreeLevel

/-!
# Insertion

`insert` puts the item where the order wants it, in place of the equivalent one if there is one
(`inserts_insert`): the node stays good, and what is in it changes as `Inserted` says.
-/

namespace TinyKV.RankTree

open List

variable {β : Type} {less : β → β → Bool} {x y z s : β} {l : List β}

def Sorted (less : β → β → Bool) (l : List β) : Prop := l.Pairwise fun x y => less x y = true

def Incomp (less : β → β → Bool) (x y : β) : Prop := less y x = false ∧ less x y = false

instance : DecidablePred (Incomp less x) := fun _ => inferInstanceAs (Decidable (_ ∧ _))

section

variable [IsStrictWeakOrder β fun x y => less x y = true]

theorem less_trans (hxy : less x y = true) (hyz : less y z = true) : less x z = true :=
  IsTrans.trans (r := fun x y => less x y = true) x y z hxy hyz

theorem less_asymm (hxy : less x y = true) : less y x = false := by
  have := asymm (r := fun x y => less x y = true) hxy
  simpa using this

theorem less_of_less_of_not (hxy : less x y = true) (hzy : less z y = false) : less x z = true := by
  by_contra hxz
  have hzx : less z x ≠ true := fun hzx => by simp [less_trans hzx hxy] at hzy
  have hyz : less y z ≠ true := fun hyz => hxz (less_trans hxy hyz)
  have hincomp := @IsStrictWeakOrder.incomp_trans β (fun x y => less x y = true) _ x z y
    ⟨hxz, hzx⟩ ⟨by simp [hzy], hyz⟩
  exact hincomp.1 hxy

theorem less_of_not_of_less (hyx : less y x = false) (hyz : less y z = true) : less x z = true := by
  by_contra hxz
  have hzx : less z x ≠ true := fun hzx => by simp [less_trans hyz hzx] at hyx
  have hxy : less x y ≠ true := fun hxy => hxz (less_trans hxy hyz)
  have hincomp := @IsStrictWeakOrder.incomp_trans β (fun x y => less x y = true) _ y x z
    ⟨by simp [hyx], hxy⟩ ⟨hxz, hzx⟩
  exact hincomp.1 hyz

theorem find_spec {items : List β} (hsorted : Sorted less items) (x : β) :
    ∃ I I' found, items = I ++ I' ∧ find less items x = (I.length, found) ∧
      (∀ y ∈ I, less y x = true) ∧ (found = false → ∀ y ∈ I', less x y = true) ∧
      (found = true → ∃ s J, I' = s :: J ∧ Incomp less x s) := by
  have hmono : items.Pairwise fun y z => less x y = true → less x z = true :=
    hsorted.imp fun hyz hxy => less_trans hxy hyz
  obtain ⟨hlo, hhi, hle⟩ := Search.search_any hmono
  unfold find
  generalize Search.search items.length (fun i => items[i]?.any fun y => less x y) = i
    at hlo hhi hle ⊢
  obtain ⟨P, Q, rfl, rfl⟩ : ∃ P Q, items = P ++ Q ∧ P.length = i :=
    ⟨items.take i, items.drop i, (take_append_drop i items).symm, by simp [hle]⟩
  have hP : ∀ y ∈ P, less x y = false := by
    intro y hy
    obtain ⟨k, hk, rfl⟩ := mem_iff_getElem.mp hy
    exact hlo k _ hk (by rw [getElem?_append_left hk, getElem?_eq_getElem hk])
  have hQ : ∀ y ∈ Q, less x y = true := by
    intro y hy
    obtain ⟨k, hk, rfl⟩ := mem_iff_getElem.mp hy
    exact hhi (P.length + k) _ (by omega) (by simp [getElem?_append_right])
  obtain ⟨hsortedP, -, -⟩ := pairwise_append.mp hsorted
  rcases eq_nil_or_concat P with rfl | ⟨P, s, rfl⟩
  · exact ⟨[], Q, false, rfl, by simp, by simp, fun _ => hQ, by simp⟩
  · -- The last of the items that are not greater is either less or equivalent.
    rw [concat_eq_append] at *
    have hget : (P ++ [s] ++ Q)[(P ++ [s]).length - 1]? = some s := by simp
    have hless : ∀ y ∈ P, less y s = true := fun y hy =>
      (pairwise_append.mp hsortedP).2.2 y hy s (by simp)
    have hxs : less x s = false := hP s (by simp)
    simp only [hget, Option.any_some, Bool.not_eq_true']
    cases hsx : less s x with
    | true =>
      have hP' : ∀ y ∈ P ++ [s], less y x = true :=
        forall_mem_append.mpr ⟨fun y hy => less_trans (hless y hy) hsx, by simpa using hsx⟩
      exact ⟨P ++ [s], Q, false, rfl, by simp, hP', fun _ => hQ, by simp⟩
    | false =>
      refine ⟨P, s :: Q, true, by simp, by simp, fun y hy => ?_, by simp, fun _ => ?_⟩
      · exact less_of_less_of_not (hless y hy) hxs
      · exact ⟨s, Q, rfl, hsx, hxs⟩

end

variable {C : List (List β)}

theorem sublist_weave {I : List β} (h : I.length ≤ C.length) : I.Sublist (weave C I) := by
  induction C generalizing I with
  | nil =>
    obtain rfl : I = [] := length_eq_zero_iff.mp (by simpa using h)
    exact List.Sublist.slnil
  | cons c C ih =>
    cases I with
    | nil => exact nil_sublist _
    | cons x I =>
      exact (List.Sublist.cons_cons x (ih (by simpa using h))).trans
        (sublist_append_right _ _)

theorem forall_weave_before {I : List β} {P : β → Prop}
    (hC : C.length = I.length) (hsorted : Sorted less (weave C I))
    (hP : ∀ y z, less y z = true → P z → P y) (h : ∀ y ∈ I, P y) : ∀ y ∈ weave C I, P y := by
  rcases eq_nil_or_concat I with rfl | ⟨I, s, rfl⟩
  · obtain rfl : C = [] := length_eq_zero_iff.mp hC
    simp [weave]
  rcases eq_nil_or_concat C with rfl | ⟨C, c, rfl⟩
  · simp at hC
  simp only [concat_eq_append] at *
  have hlast : weave (C ++ [c]) (I ++ [s]) = weave C I ++ c ++ [s] := by
    rw [weave_append (by simpa using hC)]
    simp [weave]
  rw [hlast] at hsorted ⊢
  have hs : P s := h s (by simp)
  refine forall_mem_append.mpr ⟨fun y hy => ?_, forall_mem_singleton.mpr hs⟩
  exact hP y s ((pairwise_append.mp hsorted).2.2 y hy s (by simp)) hs

theorem forall_weave_after {I : List β} {P : β → Prop} (hC : C.length = I.length)
    (hsorted : Sorted less (weave ([] :: C) I)) (hP : ∀ y z, less y z = true → P y → P z)
    (h : ∀ y ∈ I, P y) : ∀ y ∈ weave ([] :: C) I, P y := by
  cases I with
  | nil =>
    obtain rfl : C = [] := length_eq_zero_iff.mp hC
    simp [weave]
  | cons s I =>
    have hs : P s := h s mem_cons_self
    refine forall_mem_cons.mpr ⟨hs, fun y hy => ?_⟩
    exact hP s y (rel_of_pairwise_cons hsorted hy) hs

/-- The list is cut into what is before, what is between and what is after. -/
structure Cut (P Q E : β → Prop) (l A : List β) (out : Option β) (B : List β) : Prop where
  eq_append : l = A ++ out.toList ++ B
  before : ∀ y ∈ A, P y
  after : ∀ y ∈ B, Q y
  between : ∀ y ∈ out, E y

theorem Cut.append {P Q E : β → Prop} {A B A' B' : List β} {out : Option β}
    (h : Cut P Q E l A out B) (hA' : ∀ y ∈ A', P y) (hB' : ∀ y ∈ B', Q y) :
    Cut P Q E (A' ++ l ++ B') (A' ++ A) out (B ++ B') :=
  ⟨by simp [h.eq_append], forall_mem_append.mpr ⟨hA', h.before⟩,
    forall_mem_append.mpr ⟨h.after, hB'⟩, h.between⟩

/-- The list is cut into the items that are less, the one that is neither, and those that are
greater. -/
def CutAt (less : β → β → Bool) (x : β) (l A : List β) (out : Option β) (B : List β) : Prop :=
  Cut (fun y => less y x = true) (fun y => less x y = true) (Incomp less x) l A out B

def Inserted (less : β → β → Bool) (x : β) (l : List β) (out : Option β) (l' : List β) : Prop :=
  ∃ A B, CutAt less x l A out B ∧ l' = A ++ x :: B

theorem cutAt_incomp [IsStrictWeakOrder β fun x y => less x y = true] {A B : List β}
    (hsorted : Sorted less (A ++ s :: B)) (hs : Incomp less x s) :
    CutAt less x (A ++ s :: B) A (some s) B := by
  obtain ⟨-, hB, hA⟩ := pairwise_append.mp hsorted
  refine ⟨by simp, fun y hy => ?_, fun y hy => ?_, by simp [hs]⟩
  · exact less_of_less_of_not (hA y hy s mem_cons_self) hs.2
  · exact less_of_not_of_less hs.1 (rel_of_pairwise_cons hB hy)

theorem Inserted.length_eq {l' : List β} {out : Option β} (h : Inserted less x l out l') :
    (l'.length : ℤ) = if out.isNone then (l.length : ℤ) + 1 else l.length := by
  obtain ⟨A, B, hcut, rfl⟩ := h
  rw [hcut.eq_append]
  cases out with
  | none =>
    simp
    omega
  | some y => simp

namespace Node

variable {d h i : ℕ} {n c : Node β} {I I' J K : List β} {C C' : List (Node β)}

theorem split_spec (hn : n.Good d h) (hitems : n.items = J ++ s :: K) (hi : J.length = i) :
    ∃ n₁ n₂, n.split i = .ok (s, n₁, n₂) ∧ n₁.Good d h ∧ n₂.Good d h ∧ n₁.items = J ∧
      n₂.items = K ∧ n.toList h = n₁.toList h ++ s :: n₂.toList h := by
  have hlength : (J ++ [s]).length = i + 1 := by simp [hi]
  have hnext : Go.slice (J ++ s :: K) (i + 1) (J ++ s :: K).length = .ok K := by
    rw [append_cons]
    exact slice_append_right hlength rfl
  unfold split
  rw [hitems, index_append hi, Go.ok_bind, hnext, Go.ok_bind, slice_append_left hi, Go.ok_bind]
  cases h with
  | zero =>
    obtain ⟨hchildren, hindices⟩ := hn
    rw [hchildren, hindices]
    exact ⟨_, _, rfl, ⟨rfl, rfl⟩, ⟨rfl, rfl⟩, rfl, rfl, hitems⟩
  | succ h =>
    obtain ⟨C, c, C', f, rfl⟩ := hn.focus hitems
    have hC : (C ++ [c]).length = i + 1 := by simp [f.length_before, hi]
    have hgood : ∀ c' ∈ C', c'.Good d h := fun c' hc' => (f.after c' hc').good
    have hchildren : (assemble h J C c (s :: K) C').children = (C ++ [c]) ++ C' :=
      append_cons C c C'
    have hindices : (assemble h J C c (s :: K) C').indices =
        cumul 0 ((C ++ [c]).map (size h) ++ C'.map (size h)) := by
      simp
    rw [hchildren, hindices, if_pos (by simp), slice_append_right hC rfl, Go.ok_bind,
      slice_append_left hC, Go.ok_bind, cumul_append,
      slice_append_left (by rw [length_cumul, length_map, hC]), Go.ok_bind,
      initSize_eq hgood]
    refine ⟨_, _, rfl, good_succ_iff.mpr ⟨?_, ?_⟩, good_succ_iff.mpr ⟨?_, f.after⟩, rfl, rfl, ?_⟩
    · simp [f.length_before]
    · exact forall_mem_append.mpr ⟨f.before, forall_mem_singleton.mpr f.child⟩
    · simpa using f.length_after
    · have hleft :
          weave ((C ++ [c]).map (toList h)) J = weave (C.map (toList h)) J ++ c.toList h := by
        have happend := weave_append (D := [c.toList h]) (J := [])
          (by rw [length_map, f.length_before] : (C.map (toList h)).length = J.length)
        simpa [weave] using happend
      rw [f.toList_eq, toList, toList, Node.children, Node.items, Node.children, Node.items, hleft]
      rfl

theorem split_full (hn : n.Good d h) (hd : 2 ≤ d) (hfull : n.items.length = d * 2 - 1) :
    ∃ s n₁ n₂, n.split ((d * 2 - 1) / 2) = .ok (s, n₁, n₂) ∧ n₁.Child d h ∧ n₂.Child d h ∧
      n₁.items.length = d - 1 ∧ n₂.items.length = d - 1 ∧
      n.toList h = n₁.toList h ++ s :: n₂.toList h := by
  obtain ⟨J, s, K, hitems, hJ⟩ : ∃ J s K, n.items = J ++ s :: K ∧ J.length = (d * 2 - 1) / 2 :=
    ⟨n.items.take ((d * 2 - 1) / 2), n.items[(d * 2 - 1) / 2], n.items.drop ((d * 2 - 1) / 2 + 1),
      by rw [cons_getElem_drop_succ, take_append_drop], by simp; omega⟩
  obtain ⟨n₁, n₂, hsplit, hgood₁, hgood₂, rfl, rfl, htoList⟩ := split_spec hn hitems hJ
  rw [hitems, length_append, length_cons] at hfull
  exact ⟨s, n₁, n₂, hsplit, ⟨hgood₁, by omega, by omega⟩, ⟨hgood₂, by omega, by omega⟩, by omega,
    by omega, htoList⟩

theorem maybeSplitChild_eq (f : Focus d h I C c I' C') (hd : 2 ≤ d) (hi : I.length = i)
    (hfull : d * 2 - 1 ≤ c.items.length) :
    ∃ s c₁ c₂, (assemble h I C c I' C').maybeSplitChild i (d * 2 - 1) =
        .ok (assemble h I C c₁ (s :: I') (c₂ :: C'), true) ∧
      Focus d h I C c₁ (s :: I') (c₂ :: C') ∧ c₁.items.length = d - 1 ∧ c₂.items.length = d - 1 ∧
      c.toList h = c₁.toList h ++ s :: c₂.toList h := by
  obtain ⟨s, c₁, c₂, hsplit, hc₁, hc₂, hlength₁, hlength₂, htoList⟩ :=
    split_full f.child.good hd (le_antisymm f.child.length_le hfull)
  have hC : C.length = i := f.length_before.trans hi
  have hsize : c.size h = c₁.size h + 1 + c₂.size h := size_of_toList htoList
  have f' : Focus d h I C c₁ (s :: I') (c₂ :: C') :=
    ⟨f.length_before, by simp [f.length_after], f.before, hc₁,
      forall_mem_cons.mpr ⟨hc₂, f.after⟩⟩
  refine ⟨s, c₁, c₂, ?_, f', hlength₁, hlength₂, htoList⟩
  unfold maybeSplitChild
  rw [children_assemble, items_assemble, indices_assemble, index_append hC, Go.ok_bind,
    if_neg (by omega), hsplit, Go.ok_bind]
  dsimp only
  rw [setIndex_append hC, Go.ok_bind, insertAt_append hi, Go.ok_bind, append_cons,
    insertAt_append (by simp [hC]), Go.ok_bind, hsize, hc₂.good.length_eq,
    split_cumul (by rw [length_map, hC]), Go.ok_bind, append_assoc]
  rfl

theorem Good.sorted_items (hn : n.Good d h) (hsorted : Sorted less (n.toList h)) :
    Sorted less n.items := by
  cases h with
  | zero => exact hsorted
  | succ h => exact List.Pairwise.sublist (sublist_weave (by simp [hn.1])) hsorted

theorem Focus.sorted_child (f : Focus d h I C c I' C')
    (hsorted : Sorted less ((assemble h I C c I' C').toList (h + 1))) :
    Sorted less (c.toList h) := by
  rw [f.toList_eq] at hsorted
  exact (pairwise_append.mp (pairwise_append.mp hsorted).1).2.1

theorem Focus.cut {P Q E : β → Prop} {A B : List β} {out : Option β} (f : Focus d h I C c I' C')
    (hsorted : Sorted less ((assemble h I C c I' C').toList (h + 1)))
    (hP : ∀ y z, less y z = true → P z → P y) (hQ : ∀ y z, less y z = true → Q y → Q z)
    (hI : ∀ y ∈ I, P y) (hI' : ∀ y ∈ I', Q y) (hcut : Cut P Q E (c.toList h) A out B) :
    Cut P Q E ((assemble h I C c I' C').toList (h + 1)) (weave (C.map (toList h)) I ++ A) out
      (B ++ weave ([] :: C'.map (toList h)) I') := by
  rw [f.toList_eq] at hsorted ⊢
  obtain ⟨hleft, hright, -⟩ := pairwise_append.mp hsorted
  apply hcut.append
  · exact forall_weave_before (by rw [length_map, f.length_before])
      (pairwise_append.mp hleft).1 hP hI
  · exact forall_weave_after (by rw [length_map, f.length_after]) hright hQ hI'

section

variable [IsStrictWeakOrder β fun x y => less x y = true]

theorem insertChild_spec (f : Focus d h I C c I' C') (hi : I.length = i)
    (hsorted : Sorted less ((assemble h I C c I' C').toList (h + 1)))
    (hI : ∀ y ∈ I, less y x = true) (hI' : ∀ y ∈ I', less x y = true)
    {insert : Node β → β → Go (Node β × Option β)} {c' : Node β} {out : Option β}
    (hinsert : insert c x = .ok (c', out)) (hc' : c'.Child d h)
    (hinserted : Inserted less x (c.toList h) out (c'.toList h)) :
    (assemble h I C c I' C').insertChild insert i x = .ok (assemble h I C c' I' C', out) ∧
      Focus d h I C c' I' C' ∧ Inserted less x ((assemble h I C c I' C').toList (h + 1)) out
        ((assemble h I C c' I' C').toList (h + 1)) := by
  have hC : C.length = i := f.length_before.trans hi
  refine ⟨?_, f.replace hc', ?_⟩
  · have hsize : c'.size h = if out.isNone then c.size h + 1 else c.size h := hinserted.length_eq
    unfold insertChild
    rw [children_assemble, items_assemble, indices_assemble, index_append hC, Go.ok_bind, hinsert,
      Go.ok_bind]
    dsimp only
    rw [setIndex_append hC, Go.ok_bind, addAt_cumul (by rw [length_map, hC]), assemble, hsize]
    cases out <;> rfl
  · obtain ⟨A, B, hcut, htoList⟩ := hinserted
    refine ⟨_, _, f.cut hsorted (fun y z => less_trans) (fun y z hyz hy => less_trans hy hyz) hI hI'
      hcut, ?_⟩
    rw [(f.replace hc').toList_eq, htoList]
    simp

theorem replaceItem_spec (f : Focus d h I C c (s :: I') C') (hi : I.length = i)
    (hsorted : Sorted less ((assemble h I C c (s :: I') C').toList (h + 1)))
    (hs : Incomp less x s) :
    (assemble h I C c (s :: I') C').replaceItem i x =
        .ok (assemble h I C c (x :: I') C', some s) ∧
      Focus d h I C c (x :: I') C' ∧
      Inserted less x ((assemble h I C c (s :: I') C').toList (h + 1)) (some s)
        ((assemble h I C c (x :: I') C').toList (h + 1)) := by
  have f' : Focus d h I C c (x :: I') C' := { f with length_after := f.length_after }
  refine ⟨?_, f', ?_⟩
  · unfold replaceItem
    rw [items_assemble, index_append hi, Go.ok_bind, setIndex_append hi, Go.ok_bind]
    rfl
  · rw [f.toList_eq] at hsorted ⊢
    exact ⟨_, _, cutAt_incomp hsorted hs, f'.toList_eq⟩

def Inserts (less : β → β → Bool) (d h : ℕ) (x : β) (insert : Node β → β → Go (Node β × Option β)) :
    Prop :=
  ∀ n : Node β, n.Good d h → Sorted less (n.toList h) → n.items.length < d * 2 - 1 →
    ∃ n' out, insert n x = .ok (n', out) ∧ n'.Good d h ∧
      Inserted less x (n.toList h) out (n'.toList h) ∧
      n.items.length ≤ n'.items.length ∧ n'.items.length ≤ n.items.length + 1

theorem Inserts.insertChild {insert : Node β → β → Go (Node β × Option β)}
    (hinsert : Inserts less d h x insert) (f : Focus d h I C c I' C') (hi : I.length = i)
    (hsorted : Sorted less ((assemble h I C c I' C').toList (h + 1)))
    (hI : ∀ y ∈ I, less y x = true) (hI' : ∀ y ∈ I', less x y = true)
    (hc : c.items.length < d * 2 - 1) :
    ∃ n' out, (assemble h I C c I' C').insertChild insert i x = .ok (n', out) ∧
      n'.Good d (h + 1) ∧
      Inserted less x ((assemble h I C c I' C').toList (h + 1)) out (n'.toList (h + 1)) ∧
      n'.items.length = (I ++ I').length := by
  obtain ⟨c', out, hc', hgood, hinserted, hle, hge⟩ :=
    hinsert c f.child.good (f.sorted_child hsorted) hc
  obtain ⟨heq, f', hinserted'⟩ := insertChild_spec f hi hsorted hI hI' hc'
    ⟨hgood, f.child.le_length.trans hle, by omega⟩ hinserted
  exact ⟨_, _, heq, f'.good, hinserted', rfl⟩

theorem inserts_zero (calls : ℕ) : Inserts less d 0 x (insert less (d * 2 - 1) (calls + 1)) := by
  intro n hn hsorted hlength
  obtain ⟨I, I', found, hitems, hfind, hI, hgreater, hequiv⟩ :=
    find_spec (hn.sorted_items hsorted) x
  unfold insert
  rw [hfind]
  dsimp only
  cases found with
  | false =>
    rw [if_neg Bool.false_ne_true, if_pos (by rw [hn.1, length_nil]), hitems,
      insertAt_append rfl, Go.ok_bind]
    refine ⟨_, _, rfl, hn, ?_, ?_, ?_⟩
    · exact ⟨I, I', ⟨by simpa [toList] using hitems, hI, hgreater rfl, by simp⟩, rfl⟩
    · simp [Node.items]
    · simp only [Node.items, length_append, length_cons]
      omega
  | true =>
    obtain ⟨s, J, rfl, hs⟩ := hequiv rfl
    unfold replaceItem
    rw [if_pos rfl, hitems, index_append rfl, Go.ok_bind, setIndex_append rfl, Go.ok_bind]
    refine ⟨_, _, rfl, hn, ?_, ?_, ?_⟩
    · rw [toList, hitems] at hsorted ⊢
      exact ⟨_, _, cutAt_incomp hsorted hs, rfl⟩
    all_goals
      simp [Node.items]

theorem inserts_succ (hd : 2 ≤ d) {calls : ℕ}
    (ih : Inserts less d h x (insert less (d * 2 - 1) calls)) :
    Inserts less d (h + 1) x (insert less (d * 2 - 1) (calls + 1)) := by
  intro n hn hsorted hlength
  obtain ⟨I, I', found, hitems, hfind, hI, hgreater, hequiv⟩ :=
    find_spec (hn.sorted_items hsorted) x
  obtain ⟨C, c, C', f, rfl⟩ := hn.focus hitems
  rw [items_assemble] at hlength hfind
  unfold insert
  rw [items_assemble, hfind]
  dsimp only
  cases found with
  | true =>
    obtain ⟨s, J, rfl, hs⟩ := hequiv rfl
    obtain ⟨heq, f', hinserted⟩ := replaceItem_spec f rfl hsorted hs
    rw [if_pos rfl, heq]
    exact ⟨_, _, rfl, f'.good, hinserted, by simp, by simp⟩
  | false =>
    have hI' := hgreater rfl
    rw [if_neg Bool.false_ne_true, if_neg (by simp)]
    by_cases hfull : c.items.length < d * 2 - 1
    · have hsplit : (assemble h I C c I' C').maybeSplitChild I.length (d * 2 - 1) =
          .ok (assemble h I C c I' C', false) := by
        unfold maybeSplitChild
        rw [children_assemble, index_append f.length_before, Go.ok_bind, if_pos hfull]
      rw [hsplit, Go.ok_bind]
      dsimp only
      obtain ⟨n', out, heq, hgood, hinserted, hn'⟩ :=
        ih.insertChild f rfl hsorted hI hI' hfull
      rw [if_neg Bool.false_ne_true, heq]
      exact ⟨_, _, rfl, hgood, hinserted, hn'.ge, by omega⟩
    · obtain ⟨s, c₁, c₂, hsplit, f₁, hc₁, hc₂, htoList⟩ :=
        maybeSplitChild_eq f hd rfl (not_lt.mp hfull)
      have hsame : (assemble h I C c₁ (s :: I') (c₂ :: C')).toList (h + 1) =
          (assemble h I C c I' C').toList (h + 1) := by
        rw [f₁.toList_pair, ← htoList, f.toList_eq]
      rw [hsplit, Go.ok_bind]
      dsimp only
      rw [← hsame] at hsorted ⊢
      rw [if_pos rfl, items_assemble, index_append rfl, Go.ok_bind]
      -- The item belongs to the first part, to the second one, or between them.
      cases hxs : less x s with
      | true =>
        obtain ⟨n', out, heq, hgood, hinserted, hn'⟩ := ih.insertChild f₁ rfl hsorted hI
          (forall_mem_cons.mpr ⟨hxs, hI'⟩) (by omega)
        rw [if_pos rfl, heq]
        rw [length_append, length_cons] at hn'
        rw [length_append]
        exact ⟨_, _, rfl, hgood, hinserted, by omega, by omega⟩
      | false =>
        rw [if_neg Bool.false_ne_true]
        cases hsx : less s x with
        | true =>
          have f₂ := f₁.next
          rw [assemble_next] at hsorted ⊢
          obtain ⟨n', out, heq, hgood, hinserted, hn'⟩ := ih.insertChild (i := I.length + 1) f₂
            (by simp) hsorted (forall_mem_append.mpr ⟨hI, forall_mem_singleton.mpr hsx⟩)
            hI' (by omega)
          rw [if_pos rfl, heq]
          rw [length_append, length_append, length_singleton] at hn'
          rw [length_append]
          exact ⟨_, _, rfl, hgood, hinserted, by omega, by omega⟩
        | false =>
          obtain ⟨heq, f', hinserted⟩ := replaceItem_spec f₁ rfl hsorted ⟨hsx, hxs⟩
          rw [if_neg Bool.false_ne_true, heq]
          exact ⟨_, _, rfl, f'.good, hinserted, by simp, by simp; omega⟩

theorem inserts_insert (hd : 2 ≤ d) {calls : ℕ} (hcalls : h < calls) :
    Inserts less d h x (insert less (d * 2 - 1) calls) := by
  obtain ⟨calls, rfl⟩ : ∃ m, calls = m + 1 := ⟨calls - 1, by omega⟩
  induction h generalizing calls with
  | zero => exact inserts_zero calls
  | succ h ih =>
    obtain ⟨calls, rfl⟩ : ∃ m, calls = m + 1 := ⟨calls - 1, by omega⟩
    exact inserts_succ hd (ih calls (by omega))

end

end Node

end TinyKV.RankTree
