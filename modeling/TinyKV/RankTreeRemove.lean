import TinyKV.RankTreeInsert

/-!
# Removal

`remove` takes away the item that is asked for, or the least or the greatest one (`removes_remove`):
three cuts of a sorted list (`ToRemove.Before`).
-/

namespace TinyKV.RankTree

open List

variable {β : Type} {less : β → β → Bool} {x y z s : β} {l l' : List β} {out : Option β}
  {typ : ToRemove β}

namespace ToRemove

def Before (less : β → β → Bool) : ToRemove β → β → Prop
  | .removeItem x, y => less y x = true
  | .removeMin, _ => False
  | .removeMax, _ => True

/-- The item is after what is to be removed. -/
def After (less : β → β → Bool) : ToRemove β → β → Prop
  | .removeItem x, y => less x y = true
  | .removeMin, _ => True
  | .removeMax, _ => False

/-- The item is what is to be removed. -/
def At (less : β → β → Bool) : ToRemove β → β → Prop
  | .removeItem x, y => Incomp less x y
  | _, _ => True

end ToRemove

def Removed (less : β → β → Bool) (typ : ToRemove β) (l : List β) (out : Option β) (l' : List β) :
    Prop :=
  ∃ A B, Cut (typ.Before less) (typ.After less) (typ.At less) l A out B ∧ l' = A ++ B

theorem Removed.length_eq (h : Removed less typ l out l') :
    (l'.length : ℤ) = if out.isSome then (l.length : ℤ) - 1 else l.length := by
  obtain ⟨A, B, hcut, rfl⟩ := h
  rw [hcut.eq_append]
  cases out with
  | none => simp
  | some y =>
    simp
    omega

theorem removed_max_iff : Removed less .removeMax l (some y) l' ↔ l = l' ++ [y] := by
  constructor
  · rintro ⟨A, B, hcut, rfl⟩
    obtain rfl : B = [] := eq_nil_iff_forall_not_mem.mpr hcut.after
    simp [hcut.eq_append]
  · rintro rfl
    exact ⟨l', [], ⟨by simp, fun _ _ => trivial, by simp, fun _ _ => trivial⟩, by simp⟩

theorem removed_min_iff : Removed less .removeMin l (some y) l' ↔ l = y :: l' := by
  constructor
  · rintro ⟨A, B, hcut, rfl⟩
    obtain rfl : A = [] := eq_nil_iff_forall_not_mem.mpr hcut.before
    simp [hcut.eq_append]
  · rintro rfl
    exact ⟨[], l', ⟨by simp, by simp, fun _ _ => trivial, fun _ _ => trivial⟩, by simp⟩

theorem length_eq_of_append_eq {A B A' B' : List β} {P : β → Prop} (h : A ++ B = A' ++ B')
    (hA : ∀ y ∈ A, P y) (hB : ∀ y ∈ B, ¬ P y) (hA' : ∀ y ∈ A', P y) (hB' : ∀ y ∈ B', ¬ P y) :
    A.length = A'.length := by
  rcases append_eq_append_iff.mp h with ⟨D, rfl, rfl⟩ | ⟨D, rfl, rfl⟩
  · cases D with
    | nil => simp
    | cons y D => exact absurd (hA' y (by simp)) (hB y (by simp))
  · cases D with
    | nil => simp
    | cons y D => exact absurd (hA y (by simp)) (hB' y (by simp))

section

variable [IsStrictWeakOrder β fun x y => less x y = true]

theorem ToRemove.Before.of_less (hyz : less y z = true) (hz : typ.Before less z) :
    typ.Before less y := by
  cases typ with
  | removeItem x => exact less_trans hyz hz
  | removeMin => exact hz
  | removeMax => exact hz

theorem ToRemove.After.of_less (hyz : less y z = true) (hy : typ.After less y) :
    typ.After less z := by
  cases typ with
  | removeItem x => exact less_trans hy hyz
  | removeMin => exact hy
  | removeMax => exact hy

theorem locate_spec {items : List β} (hsorted : Sorted less items) (typ : ToRemove β) :
    ∃ I I' found, items = I ++ I' ∧ locate less items typ = (I.length, found) ∧
      (∀ y ∈ I, typ.Before less y) ∧ (∀ y ∈ I', ¬ typ.Before less y) ∧
      (found = false → ∀ y ∈ I', typ.After less y) ∧
      (found = true → ∃ s J x, I' = s :: J ∧ typ = .removeItem x ∧ Incomp less x s) := by
  cases typ with
  | removeMin => exact ⟨[], items, false, rfl, rfl, by simp, by simp [ToRemove.Before],
      by simp [ToRemove.After], by simp⟩
  | removeMax => exact ⟨items, [], false, by simp, rfl, by simp [ToRemove.Before], by simp,
      by simp, by simp⟩
  | removeItem x =>
    obtain ⟨I, I', found, rfl, hfind, hI, hgreater, hequiv⟩ := find_spec hsorted x
    refine ⟨I, I', found, rfl, hfind, hI, ?_, hgreater, fun hfound => ?_⟩
    · intro y hy hyx
      change less y x = true at hyx
      cases found with
      | false => simp [less_asymm (hgreater rfl y hy)] at hyx
      | true =>
        obtain ⟨s, J, rfl, hs⟩ := hequiv rfl
        rcases mem_cons.mp hy with rfl | hy
        · simp [hs.1] at hyx
        · have hsy := rel_of_pairwise_cons (pairwise_append.mp hsorted).2.1 hy
          simp [less_asymm (less_of_not_of_less hs.1 hsy)] at hyx
    · obtain ⟨s, J, hI', hs⟩ := hequiv hfound
      exact ⟨s, J, x, hI', rfl, hs⟩

theorem locate_append {I I' : List β} (hsorted : Sorted less (I ++ I'))
    (hI : ∀ y ∈ I, typ.Before less y) (hI' : ∀ y ∈ I', ¬ typ.Before less y) :
    ∃ found, locate less (I ++ I') typ = (I.length, found) ∧
      (found = false → ∀ y ∈ I', typ.After less y) ∧
      (found = true → ∃ s J x, I' = s :: J ∧ typ = .removeItem x ∧ Incomp less x s) := by
  obtain ⟨J, J', found, hitems, hlocate, hJ, hJ', hafter, hequiv⟩ := locate_spec hsorted typ
  have hlength := length_eq_of_append_eq hitems hI hI' hJ hJ'
  obtain ⟨rfl, rfl⟩ := append_inj hitems hlength
  exact ⟨found, hlocate, hafter, hequiv⟩

end

namespace Node

variable {d h i : ℕ} {n c c' : Node β} {I I' J K : List β} {C C' : List (Node β)}

theorem stealLeft_spec (hc : c.Good d h) (hc' : c'.Good d h) (hitems : c.items = J ++ [y]) (s : β) :
    ∃ e e' M, stealLeft c s c' = .ok (e, y, e', (M.length : ℤ)) ∧ e.Good d h ∧ e'.Good d h ∧
      e.items = J ∧ e'.items = s :: c'.items ∧ c.toList h = e.toList h ++ y :: M ∧
      e'.toList h = M ++ s :: c'.toList h := by
  unfold stealLeft
  rw [hitems, pop_concat, Go.ok_bind]
  dsimp only
  cases h with
  | zero =>
    rw [if_neg (by simp [hc.1])]
    exact ⟨_, _, [], rfl, hc, hc', rfl, rfl, hitems, rfl⟩
  | succ h =>
    obtain ⟨C, g, C', f, rfl⟩ := hc.focus (I := J ++ [y]) (J := []) (by simp [hitems])
    obtain rfl : C' = [] := length_eq_zero_iff.mp f.length_after
    have hC : C.length = J.length + 1 := by simpa using f.length_before
    obtain ⟨hlength, hchild⟩ := good_succ_iff.mp (hc'.eq_mk ▸ hc')
    rw [children_assemble, indices_assemble, if_pos (by simp), pop_concat, Go.ok_bind]
    dsimp only
    rw [map_nil, pop_cumul, Go.ok_bind, hc'.2.1, insertAt_cumul]
    refine ⟨_, _, g.toList h, rfl, good_succ_iff.mpr ⟨hC, f.before⟩, good_succ_iff.mpr
      ⟨by simp [hlength], forall_mem_cons.mpr ⟨f.child, hchild⟩⟩, rfl, rfl, ?_, ?_⟩
    · rw [f.toList_eq, weave_concat (by rw [length_map, hC])]
      simp [weave, toList, Node.children, Node.items]
    · simp [toList, weave, Node.children, Node.items]

theorem stealRight_spec (hc : c.Good d h) (hc' : c'.Good d h) (hitems : c'.items = y :: K) (s : β) :
    ∃ e e' M, stealRight c s c' = .ok (e, y, e', (M.length : ℤ)) ∧ e.Good d h ∧ e'.Good d h ∧
      e.items = c.items ++ [s] ∧ e'.items = K ∧ c'.toList h = M ++ y :: e'.toList h ∧
      e.toList h = c.toList h ++ s :: M := by
  unfold stealRight
  rw [hitems, removeAt_cons, Go.ok_bind]
  dsimp only
  cases h with
  | zero =>
    rw [if_neg (by simp [hc'.1])]
    exact ⟨_, _, [], rfl, hc, hc', rfl, rfl, hitems, rfl⟩
  | succ h =>
    obtain ⟨C, g, C', f, rfl⟩ := hc'.focus (I := []) (J := y :: K) hitems
    obtain rfl : C = [] := length_eq_zero_iff.mp f.length_before
    obtain ⟨hlength, hchild⟩ := good_succ_iff.mp (hc.eq_mk ▸ hc)
    rw [children_assemble, indices_assemble, nil_append, if_pos (by simp), removeAt_cons,
      Go.ok_bind]
    dsimp only
    rw [map_nil, nil_append, removeAt_cumul, Go.ok_bind, hc.2.1, push_cumul]
    have hmap : c.children.map (size h) ++ [g.size h] = (c.children ++ [g]).map (size h) := by
      simp
    dsimp only
    rw [hmap]
    refine ⟨_, _, g.toList h, rfl, good_succ_iff.mpr ⟨by simp [hlength], ?_⟩,
      good_succ_iff.mpr ⟨f.length_after, f.after⟩, rfl, rfl, ?_, ?_⟩
    · exact forall_mem_append.mpr ⟨hchild, forall_mem_singleton.mpr f.child⟩
    · rw [f.toList_eq]
      simp [weave, toList, Node.children, Node.items]
    · have happend := weave_append (D := [g.toList h]) (J := [])
        (by simp [hlength] : (c.children.map (toList h)).length = (c.items ++ [s]).length)
      rw [weave_concat (by rw [length_map, hlength])] at happend
      simpa [toList, weave, Node.children, Node.items] using happend

theorem mergeChild_spec (hc : c.Good d h) (hc' : c'.Good d h) (s : β) :
    (mergeChild c s c').Good d h ∧
      (mergeChild c s c').toList h = c.toList h ++ s :: c'.toList h := by
  unfold mergeChild
  cases h with
  | zero =>
    rw [hc.1, hc.2, hc'.1]
    exact ⟨⟨rfl, rfl⟩, by simp [toList, Node.items]⟩
  | succ h =>
    obtain ⟨hlength, hchild⟩ := good_succ_iff.mp (hc.eq_mk ▸ hc)
    obtain ⟨hlength', hchild'⟩ := good_succ_iff.mp (hc'.eq_mk ▸ hc')
    rw [hc.2.1, foldl_push_length _ fun e he => (hchild' e he).good, ← map_append]
    refine ⟨good_succ_iff.mpr ⟨?_, forall_mem_append.mpr ⟨hchild, hchild'⟩⟩, ?_⟩
    · simp only [length_append, length_singleton]
      omega
    · rw [toList, toList, toList, Node.children, Node.items, map_append,
        weave_append (by simp [hlength]), weave_concat (by rw [length_map, hlength])]
      simp

def Grows (d h : ℕ) (P : β → Prop) (n n' : Node β) : Prop :=
  ∃ I C c I' C', n' = assemble h I C c I' C' ∧ Focus d h I C c I' C' ∧
    n'.toList (h + 1) = n.toList (h + 1) ∧ (∀ y ∈ I, P y) ∧ (∀ y ∈ I', ¬ P y) ∧
    d - 1 < c.items.length ∧ n.items.length ≤ n'.items.length + 1 ∧
    n'.items.length ≤ n.items.length

section

variable (f : Focus d h I C c (s :: I') (c' :: C'))
include f

theorem Focus.replace_pair {a b : Node β} (ha : a.Child d h) (hb : b.Child d h) (y : β) :
    Focus d h I C a (y :: I') (b :: C') :=
  ⟨f.length_before, f.length_after, f.before, ha,
    forall_mem_cons.mpr ⟨hb, (forall_mem_cons.mp f.after).2⟩⟩

theorem Focus.merge_pair {e : Node β} (he : e.Child d h) : Focus d h I C e I' C' :=
  ⟨f.length_before, by simpa using f.length_after, f.before, he,
    (forall_mem_cons.mp f.after).2⟩

theorem growLeft_eq {e e' : Node β} {k : ℤ} (hsteal : stealLeft c s c' = .ok (e, y, e', k))
    (hsize : c.size h = e.size h + 1 + k) (hsize' : e'.size h = k + 1 + c'.size h) :
    (assemble h I C c (s :: I') (c' :: C')).growLeft (I.length + 1) =
      .ok (assemble h I C e (y :: I') (e' :: C')) := by
  have hC : C.length = I.length := f.length_before
  obtain ⟨x, hindex, hset⟩ := setIndex_cumul (a := c.size h) (b := c'.size h)
    (T := C'.map (size h))
    (by rw [length_map, hC] : (C.map (size h)).length = I.length) (-1 - k)
  have hx : x - 1 - k = x + (-1 - k) := by ring
  unfold growLeft
  rw [children_assemble, items_assemble, indices_assemble, Nat.add_sub_cancel, index_append_succ hC,
    Go.ok_bind, index_append hC, Go.ok_bind, index_append rfl, Go.ok_bind, hsteal, Go.ok_bind]
  dsimp only
  rw [setIndex_append rfl, Go.ok_bind, map_cons, hindex, Go.ok_bind, hx, hset, Go.ok_bind,
    setIndex_append_succ hC, Go.ok_bind, setIndex_append hC, Go.ok_bind]
  simp only [assemble, map_cons, hsize, hsize']
  ring_nf

theorem growRight_eq {e e' : Node β} {k : ℤ} (hsteal : stealRight c s c' = .ok (e, y, e', k))
    (hsize : e.size h = c.size h + 1 + k) (hsize' : c'.size h = k + 1 + e'.size h) :
    (assemble h I C c (s :: I') (c' :: C')).growRight I.length =
      .ok (assemble h I C e (y :: I') (e' :: C')) := by
  have hC : C.length = I.length := f.length_before
  obtain ⟨x, hindex, hset⟩ := setIndex_cumul (a := c.size h) (b := c'.size h)
    (T := C'.map (size h))
    (by rw [length_map, hC] : (C.map (size h)).length = I.length) (1 + k)
  unfold growRight
  rw [children_assemble, items_assemble, indices_assemble, index_append hC, Go.ok_bind,
    index_append_succ hC, Go.ok_bind, index_append rfl, Go.ok_bind, hsteal, Go.ok_bind]
  dsimp only
  rw [setIndex_append rfl, Go.ok_bind, map_cons, hindex, Go.ok_bind, add_assoc, hset,
    Go.ok_bind, setIndex_append hC, Go.ok_bind, setIndex_append_succ hC, Go.ok_bind]
  simp only [assemble, map_cons, hsize, hsize']
  ring_nf

theorem growMerge_eq (hsize : (mergeChild c s c').size h = c.size h + 1 + c'.size h) :
    (assemble h I C c (s :: I') (c' :: C')).growMerge I.length =
      .ok (assemble h I C (mergeChild c s c') I' C') := by
  have hC : C.length = I.length := f.length_before
  unfold growMerge
  rw [children_assemble, items_assemble, indices_assemble, index_append hC, Go.ok_bind,
    removeAt_append rfl, Go.ok_bind]
  dsimp only
  rw [removeAt_append_succ hC, Go.ok_bind]
  dsimp only
  rw [setIndex_append hC, Go.ok_bind, map_cons, merge_cumul (by rw [length_map, hC]),
    Go.ok_bind, assemble, hsize]

end

section

variable {P : β → Prop}

section

variable (f : Focus d h I C c (s :: I') (c' :: C'))
  (hsorted : Sorted less ((assemble h I C c (s :: I') (c' :: C')).toList (h + 1)))
  (hP : ∀ y z, less y z = true → P z → P y)
include f hsorted hP

theorem grows_left (hI : ∀ y ∈ I ++ [s], P y) (hI' : ∀ y ∈ I', ¬ P y)
    (hc : d - 1 < c.items.length) (hc' : c'.items.length ≤ d - 1) :
    ∃ n', (assemble h I C c (s :: I') (c' :: C')).growLeft (I.length + 1) = .ok n' ∧
      Grows d h P (assemble h I C c (s :: I') (c' :: C')) n' := by
  have hchild := f.child
  have hchild' := (forall_mem_cons.mp f.after).1
  have hle := hchild.length_le
  have hle' := hchild'.le_length
  obtain ⟨J, y, hitems⟩ : ∃ J y, c.items = J ++ [y] :=
    ⟨_, _, (dropLast_append_getLast (ne_nil_of_length_pos (by omega))).symm⟩
  have hJ : c.items.length = J.length + 1 := by simp [hitems]
  obtain ⟨e, e', M, hsteal, he, he', heitems, heitems', htoList, htoList'⟩ :=
    stealLeft_spec hchild.good hchild'.good hitems s
  have hlength' : e'.items.length = c'.items.length + 1 := by rw [heitems', length_cons]
  have f' := f.replace_pair (a := e) (b := e') ⟨he, by rw [heitems]; omega, by rw [heitems]; omega⟩
    ⟨he', by omega, by omega⟩ y
  have hys : less y s = true := by
    rw [f.toList_pair] at hsorted
    have hmid := (pairwise_append.mp (pairwise_append.mp hsorted).1).2.1
    exact (pairwise_append.mp hmid).2.2 y (by simp [htoList]) s mem_cons_self
  refine ⟨_, growLeft_eq f hsteal (size_of_toList htoList) (size_of_toList htoList'), I ++ [y],
    C ++ [e], e', I', C', assemble_next .., f'.next, ?_, ?_, hI', by omega, by simp, by simp⟩
  · rw [f'.toList_pair, f.toList_pair, htoList, htoList']
    simp
  · obtain ⟨hI, hs⟩ := forall_mem_append.mp hI
    exact forall_mem_append.mpr
      ⟨hI, forall_mem_singleton.mpr (hP y s hys (forall_mem_singleton.mp hs))⟩

theorem grows_right (hI : ∀ y ∈ I, P y) (hI' : ∀ y ∈ s :: I', ¬ P y)
    (hc : c.items.length ≤ d - 1) (hc' : d - 1 < c'.items.length) :
    ∃ n', (assemble h I C c (s :: I') (c' :: C')).growRight I.length = .ok n' ∧
      Grows d h P (assemble h I C c (s :: I') (c' :: C')) n' := by
  have hchild := f.child
  have hchild' := (forall_mem_cons.mp f.after).1
  have hle := hchild.le_length
  have hle' := hchild'.length_le
  obtain ⟨y, K, hitems⟩ := exists_cons_of_length_pos (by omega : 0 < c'.items.length)
  have hK : c'.items.length = K.length + 1 := by rw [hitems, length_cons]
  obtain ⟨e, e', M, hsteal, he, he', heitems, heitems', htoList', htoList⟩ :=
    stealRight_spec hchild.good hchild'.good hitems s
  have hlength : e.items.length = c.items.length + 1 := by simp [heitems]
  have f' := f.replace_pair (a := e) (b := e') ⟨he, by omega, by omega⟩
    ⟨he', by rw [heitems']; omega, by rw [heitems']; omega⟩ y
  have hsy : less s y = true := by
    rw [f.toList_pair] at hsorted
    have hmid := (pairwise_append.mp (pairwise_append.mp hsorted).1).2.1
    exact rel_of_pairwise_cons (pairwise_append.mp hmid).2.1 (by simp [htoList'])
  obtain ⟨hs, hI'⟩ := forall_mem_cons.mp hI'
  refine ⟨_, growRight_eq f hsteal (size_of_toList htoList) (size_of_toList htoList'), I, C, e,
    y :: I', e' :: C', rfl, f', ?_, hI, forall_mem_cons.mpr ⟨?_, hI'⟩, by omega, by simp,
    by simp⟩
  · rw [f'.toList_pair, f.toList_pair, htoList, htoList']
    simp
  · exact fun hy => hs (hP s y hsy hy)

end

theorem grows_merge (f : Focus d h I C c (s :: I') (c' :: C')) (hd : 2 ≤ d) (hI : ∀ y ∈ I, P y)
    (hI' : ∀ y ∈ I', ¬ P y) (hc : c.items.length ≤ d - 1) (hc' : c'.items.length ≤ d - 1) :
    ∃ n', (assemble h I C c (s :: I') (c' :: C')).growMerge I.length = .ok n' ∧
      Grows d h P (assemble h I C c (s :: I') (c' :: C')) n' := by
  have hchild := f.child
  have hchild' := (forall_mem_cons.mp f.after).1
  have hle := hchild.le_length
  have hle' := hchild'.le_length
  obtain ⟨hgood, htoList⟩ := mergeChild_spec hchild.good hchild'.good s
  have hlength : (mergeChild c s c').items.length = c.items.length + c'.items.length + 1 := by
    simp only [mergeChild, Node.items, length_append, length_singleton]
    omega
  have f' := f.merge_pair (e := mergeChild c s c') ⟨hgood, by omega, by omega⟩
  refine ⟨_, growMerge_eq f (size_of_toList htoList), I, C, _, I', C', rfl, f', ?_, hI, hI',
    by omega, by simp; omega, by simp⟩
  rw [f'.toList_eq, f.toList_pair, htoList]

theorem leftSpares_spec (f : Focus d h I C c I' C') (m : ℕ) :
    ∃ left, (assemble h I C c I' C').leftSpares I.length m = .ok left ∧
      (I = [] ∧ left = false ∨
        ∃ J s D b, I = J ++ [s] ∧ C = D ++ [b] ∧ left = decide (m < b.items.length)) := by
  have hlength := f.length_before
  unfold leftSpares spares
  rcases eq_nil_or_concat I with rfl | ⟨J, s, rfl⟩
  · exact ⟨false, by simp, .inl ⟨rfl, rfl⟩⟩
  rcases eq_nil_or_concat C with rfl | ⟨D, b, rfl⟩
  · simp at hlength
  simp only [concat_eq_append, length_append, length_singleton] at hlength ⊢
  refine ⟨_, ?_, .inr ⟨J, s, D, b, rfl, rfl, rfl⟩⟩
  rw [if_pos (by omega), children_assemble, Nat.add_sub_cancel, append_assoc,
    singleton_append, index_append (by omega), Go.ok_bind]

theorem rightSpares_spec (f : Focus d h I C c I' C') (m : ℕ) :
    ∃ right, (assemble h I C c I' C').rightSpares I.length m = .ok right ∧
      (I' = [] ∧ right = false ∨
        ∃ s J b D, I' = s :: J ∧ C' = b :: D ∧ right = decide (m < b.items.length)) := by
  have hlength := f.length_after
  unfold rightSpares spares
  rw [items_assemble, children_assemble]
  cases I' with
  | nil => exact ⟨false, by simp, .inl ⟨rfl, rfl⟩⟩
  | cons s J =>
    cases C' with
    | nil => simp at hlength
    | cons b D =>
      refine ⟨_, ?_, .inr ⟨s, J, b, D, rfl, rfl, rfl⟩⟩
      rw [if_pos (by simp), index_append_succ f.length_before, Go.ok_bind]

theorem growChild_spec (f : Focus d h I C c I' C') (hd : 2 ≤ d) (hne : I ++ I' ≠ [])
    (hsorted : Sorted less ((assemble h I C c I' C').toList (h + 1)))
    (hP : ∀ y z, less y z = true → P z → P y) (hI : ∀ y ∈ I, P y) (hI' : ∀ y ∈ I', ¬ P y)
    (hc : c.items.length ≤ d - 1) :
    ∃ n', (assemble h I C c I' C').growChild I.length (d - 1) = .ok n' ∧
      Grows d h P (assemble h I C c I' C') n' := by
  obtain ⟨left, hleft, hbefore⟩ := leftSpares_spec f (d - 1)
  obtain ⟨right, hright, hafter⟩ := rightSpares_spec f (d - 1)
  unfold growChild
  rw [hleft, Go.ok_bind, hright, items_assemble]
  cases left with
  | true =>
    obtain ⟨-, hfalse⟩ | ⟨J, s, D, b, rfl, rfl, hb⟩ := hbefore
    · exact absurd hfalse (by simp)
    rw [if_pos rfl, ← assemble_next, length_append, length_singleton]
    rw [← assemble_next] at hsorted
    exact grows_left f.prev hsorted hP hI hI' (by simpa using hb) hc
  | false =>
    rw [if_neg Bool.false_ne_true, Go.ok_bind]
    cases right with
    | true =>
      obtain ⟨-, hfalse⟩ | ⟨s, J, b, D, rfl, rfl, hb⟩ := hafter
      · exact absurd hfalse (by simp)
      rw [if_pos rfl]
      exact grows_right f hsorted hP hI hI' hc (by simpa using hb)
    | false =>
      rw [if_neg Bool.false_ne_true]
      obtain ⟨rfl, -⟩ | ⟨s, J, b, D, rfl, rfl, hb⟩ := hafter
      · -- There is no right sibling: the left one is merged with the child.
        obtain ⟨rfl, -⟩ | ⟨J, s, D, b, rfl, rfl, hb⟩ := hbefore
        · exact absurd rfl hne
        rw [if_pos (by simp), ← assemble_next, length_append, length_singleton,
          Nat.add_sub_cancel]
        exact grows_merge f.prev hd (fun y hy => hI y (mem_append_left _ hy)) hI'
          (by simpa using hb) hc
      · rw [if_neg (by simp)]
        exact grows_merge f hd hI (forall_mem_cons.mp hI').2 hc (by simpa using hb)

end

section

variable [IsStrictWeakOrder β fun x y => less x y = true]

def Removes (less : β → β → Bool) (d h : ℕ)
    (remove : Node β → ToRemove β → Go (Node β × Option β)) : Prop :=
  ∀ (n : Node β) (typ : ToRemove β), n.Good d h → Sorted less (n.toList h) → n.items ≠ [] →
    ∃ n' out, remove n typ = .ok (n', out) ∧ n'.Good d h ∧
      Removed less typ (n.toList h) out (n'.toList h) ∧ (out = none → ∃ x, typ = .removeItem x) ∧
      n.items.length ≤ n'.items.length + 1 ∧ n'.items.length ≤ n.items.length

theorem removes_zero {m calls : ℕ} : Removes less d 0 (remove less m (calls + 1)) := by
  intro n typ hn hsorted hne
  unfold remove removeLeaf
  rw [if_pos (by rw [hn.1, length_nil])]
  cases typ with
  | removeMax =>
    obtain ⟨J, y, hitems⟩ : ∃ J y, n.items = J ++ [y] :=
      ⟨_, _, (dropLast_append_getLast hne).symm⟩
    dsimp only
    rw [hitems, pop_concat, Go.ok_bind]
    refine ⟨_, _, rfl, hn, removed_max_iff.mpr hitems, by simp, by simp, by simp⟩
  | removeMin =>
    obtain ⟨y, K, hitems⟩ := exists_cons_of_ne_nil hne
    dsimp only
    rw [hitems, removeAt_cons, Go.ok_bind]
    refine ⟨_, _, rfl, hn, removed_min_iff.mpr hitems, by simp, by simp, by simp⟩
  | removeItem x =>
    obtain ⟨I, I', found, hitems, hfind, hI, hgreater, hequiv⟩ :=
      find_spec (hn.sorted_items hsorted) x
    dsimp only
    rw [hfind]
    dsimp only
    cases found with
    | false =>
      refine ⟨n, none, rfl, hn, ⟨I, I', ⟨?_, hI, hgreater rfl, by simp⟩, hitems⟩, by simp,
        by simp, by simp⟩
      simpa [toList] using hitems
    | true =>
      obtain ⟨s, J, rfl, hs⟩ := hequiv rfl
      rw [if_pos rfl, hitems, removeAt_append rfl, Go.ok_bind]
      rw [toList, hitems] at hsorted
      refine ⟨_, _, rfl, hn, ?_, by simp, ?_, ?_⟩
      · rw [toList, hitems]
        exact ⟨_, _, cutAt_incomp hsorted hs, rfl⟩
      all_goals
        simp
      omega

theorem removes_child {calls : ℕ} (hremove : Removes less d h (remove less (d - 1) calls))
    (f : Focus d h I C c I' C') (hsorted : Sorted less ((assemble h I C c I' C').toList (h + 1)))
    (hI : ∀ y ∈ I, typ.Before less y) (hI' : ∀ y ∈ I', ¬ typ.Before less y)
    (hc : d - 1 < c.items.length) :
    ∃ n' out, (assemble h I C c I' C').remove less (d - 1) (calls + 1) typ = .ok (n', out) ∧
      n'.Good d (h + 1) ∧
      Removed less typ ((assemble h I C c I' C').toList (h + 1)) out (n'.toList (h + 1)) ∧
      (out = none → ∃ x, typ = .removeItem x) ∧ n'.items.length = (I ++ I').length := by
  have hC : C.length = I.length := f.length_before
  have hle := f.child.length_le
  have hne : c.items ≠ [] := ne_nil_of_length_pos (by omega)
  obtain ⟨found, hlocate, hafter, hequiv⟩ :=
    locate_append (f.good.sorted_items hsorted) hI hI'
  unfold remove
  rw [if_neg (by simp), items_assemble, children_assemble, hlocate]
  dsimp only
  rw [index_append hC, Go.ok_bind, if_neg (by omega)]
  cases found with
  | true =>
    obtain ⟨s, J, x, rfl, rfl, hs⟩ := hequiv rfl
    obtain ⟨c', out, hc', hgood, hremoved, hsome, hge, hle'⟩ :=
      hremove c .removeMax f.child.good (f.sorted_child hsorted) hne
    obtain ⟨last, rfl⟩ : ∃ last, out = some last := by
      cases out with
      | none => simp at hsome
      | some last => exact ⟨last, rfl⟩
    have htoList := removed_max_iff.mp hremoved
    have hsize : c'.size h = c.size h + -1 := by
      rw [size_of_toList htoList]
      simp [size]
    have f' : Focus d h I C c' (last :: J) C' := by
      have f₀ := f.replace (e := c') ⟨hgood, by omega, by omega⟩
      exact { f₀ with length_after := f₀.length_after }
    refine ⟨assemble h I C c' (last :: J) C', some s, ?_, f'.good, ?_, by simp, by simp⟩
    · rw [if_pos rfl, index_append rfl, Go.ok_bind, hc', Go.ok_bind]
      dsimp only
      rw [Go.deref, Go.ok_bind, setIndex_append rfl, Go.ok_bind, setIndex_append hC, Go.ok_bind,
        indices_assemble, addAt_cumul (by rw [length_map, hC]), assemble, hsize]
    · have hbefore : ∀ y, weave ([] :: C'.map (toList h)) (y :: J) =
          y :: weave (C'.map (toList h)) J := fun y => rfl
      rw [f.toList_eq, hbefore] at hsorted ⊢
      refine ⟨_, _, cutAt_incomp hsorted hs, ?_⟩
      rw [f'.toList_eq, hbefore, htoList]
      simp
  | false =>
    obtain ⟨c', out, hc', hgood, hremoved, hsome, hge, hle'⟩ :=
      hremove c typ f.child.good (f.sorted_child hsorted) hne
    have f' := f.replace (e := c') ⟨hgood, by omega, by omega⟩
    have hsize : c'.size h = if out.isSome then c.size h - 1 else c.size h := hremoved.length_eq
    refine ⟨assemble h I C c' I' C', out, ?_, f'.good, ?_, hsome, by simp⟩
    · rw [if_neg Bool.false_ne_true, hc', Go.ok_bind]
      dsimp only
      rw [setIndex_append hC, Go.ok_bind, indices_assemble,
        addAt_cumul (by rw [length_map, hC]), assemble, hsize]
      cases out <;> rfl
    · obtain ⟨A, B, hcut, htoList⟩ := hremoved
      refine ⟨_, _, f.cut hsorted (fun y z hyz hz => hz.of_less hyz)
        (fun y z hyz hy => hy.of_less hyz) hI (hafter rfl) hcut, ?_⟩
      rw [f'.toList_eq, htoList]
      simp

theorem removes_succ (hd : 2 ≤ d) {calls : ℕ}
    (hremove : Removes less d h (remove less (d - 1) calls))
    (hremove' : Removes less d h (remove less (d - 1) (calls + 1))) :
    Removes less d (h + 1) (remove less (d - 1) (calls + 2)) := by
  intro n typ hn hsorted hne
  obtain ⟨I, I', found, hitems, hlocate, hI, hI', -, -⟩ :=
    locate_spec (hn.sorted_items hsorted) typ
  obtain ⟨C, c, C', f, rfl⟩ := hn.focus hitems
  by_cases hc : d - 1 < c.items.length
  · obtain ⟨n', out, heq, hgood, hremoved, hsome, hlength⟩ :=
      removes_child hremove' f hsorted hI hI' hc
    exact ⟨n', out, heq, hgood, hremoved, hsome, by rw [hlength]; simp, hlength.le⟩
  · rw [not_lt] at hc
    obtain ⟨n₁, hgrow, K, D, e, K', D', rfl, f₁, htoList, hK, hK', he, hge, hle⟩ :=
      growChild_spec f hd hne hsorted (fun y z hyz hz => ToRemove.Before.of_less hyz hz) hI hI' hc
    rw [← htoList] at hsorted ⊢
    obtain ⟨n', out, heq, hgood, hremoved, hsome, hlength⟩ :=
      removes_child hremove f₁ hsorted hK hK' he
    have hlength' : n'.items.length = (assemble h K D e K' D').items.length := hlength
    refine ⟨n', out, ?_, hgood, hremoved, hsome, by omega, by omega⟩
    unfold remove
    rw [if_neg (by simp), hlocate]
    dsimp only
    rw [children_assemble, index_append f.length_before, Go.ok_bind, if_pos hc, hgrow, Go.ok_bind,
      heq]

theorem removes_remove (hd : 2 ≤ d) {calls : ℕ} (hcalls : 2 * h + 1 ≤ calls) :
    Removes less d h (remove less (d - 1) calls) := by
  induction h generalizing calls with
  | zero =>
    obtain ⟨calls, rfl⟩ : ∃ m, calls = m + 1 := ⟨calls - 1, by omega⟩
    exact removes_zero
  | succ h ih =>
    obtain ⟨calls, rfl⟩ : ∃ m, calls = m + 2 := ⟨calls - 2, by omega⟩
    exact removes_succ hd (ih (by omega)) (ih (by omega))

end

end Node

end TinyKV.RankTree
