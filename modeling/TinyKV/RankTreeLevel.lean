import Mathlib.Algebra.BigOperators.Group.List.Basic
import Mathlib.Tactic.Ring
import TinyKV.RankTree

/-!
# One level of the tree

The indices of an inner node are the running totals of the sizes of its children (`cumul`), and each
update of indices does to these totals what it is for (`addAt_cumul`, `split_cumul`, `merge_cumul`).
-/

namespace TinyKV.RankTree

open List

variable {α β : Type}

section

variable {A B : List α} {i : ℕ}

theorem index_append {x : α} (h : A.length = i) : Go.index (A ++ x :: B) i = .ok x := by
  subst h
  exact Go.index_eq_ok (by simp)

theorem setIndex_append {x : α} (h : A.length = i) (y : α) :
    Go.setIndex (A ++ x :: B) i y = .ok (A ++ y :: B) := by
  subst h
  rw [Go.setIndex_eq_ok (by simp)]
  simp

theorem index_append_succ {x y : α} (h : A.length = i) :
    Go.index (A ++ x :: y :: B) (i + 1) = .ok y := by
  rw [append_cons]
  exact index_append (by simp [h])

theorem setIndex_append_succ {x y : α} (h : A.length = i) (z : α) :
    Go.setIndex (A ++ x :: y :: B) (i + 1) z = .ok (A ++ x :: z :: B) := by
  rw [append_cons, setIndex_append (by simp [h]), append_assoc, singleton_append]

theorem slice_append_left (h : A.length = i) : Go.slice (A ++ B) 0 i = .ok A := by
  subst h
  rw [Go.slice_eq_ok (Nat.zero_le _) (by simp)]
  simp

theorem slice_append_right {i j : ℕ} (h : A.length = i)
    (hj : (A ++ B).length = j) : Go.slice (A ++ B) i j = .ok B := by
  subst h
  subst hj
  rw [Go.slice_eq_ok (by simp) le_rfl, take_length, drop_left]

theorem insertAt_append (h : A.length = i) (x : α) : insertAt (A ++ B) i x = .ok (A ++ x :: B) := by
  subst h
  rw [insertAt, if_pos (by simp)]
  simp

theorem removeAt_append {x : α} (h : A.length = i) :
    removeAt (A ++ x :: B) i = .ok (x, A ++ B) := by
  unfold removeAt
  rw [index_append h, Go.ok_bind, ← h, eraseIdx_append_of_length_le le_rfl]
  simp

theorem removeAt_append_succ {x y : α} (h : A.length = i) :
    removeAt (A ++ x :: y :: B) (i + 1) = .ok (y, A ++ x :: B) := by
  rw [append_cons, removeAt_append (by simp [h]), append_assoc, singleton_append]

end

theorem removeAt_cons (x : α) (B : List α) : removeAt (x :: B) 0 = .ok (x, B) :=
  removeAt_append (A := []) rfl

theorem pop_concat (A : List α) (x : α) : pop (A ++ [x]) = .ok (x, A) := by
  simp [pop]

def cumul (acc : ℤ) : List ℤ → List ℤ
  | [] => []
  | s :: S => (acc + s) :: cumul (acc + s + 1) S

def span (S : List ℤ) : ℤ := S.sum + S.length

@[simp]
theorem span_nil : span [] = 0 := rfl

@[simp]
theorem span_cons (s : ℤ) (S : List ℤ) : span (s :: S) = s + 1 + span S := by
  simp only [span, sum_cons, length_cons]
  push_cast
  ring

@[simp]
theorem span_append (S T : List ℤ) : span (S ++ T) = span S + span T := by
  simp only [span, sum_append, length_append]
  push_cast
  ring

@[simp]
theorem length_cumul (acc : ℤ) (S : List ℤ) : (cumul acc S).length = S.length := by
  induction S generalizing acc with
  | nil => rfl
  | cons s S ih => rw [cumul, length_cons, ih, length_cons]

theorem cumul_append (acc : ℤ) (S T : List ℤ) :
    cumul acc (S ++ T) = cumul acc S ++ cumul (acc + span S) T := by
  induction S generalizing acc with
  | nil => simp [cumul]
  | cons s S ih =>
    rw [cons_append, cumul, ih, cumul, cons_append, span_cons]
    ring_nf

theorem map_add_cumul (acc d : ℤ) (S : List ℤ) : (cumul acc S).map (· + d) = cumul (acc + d) S := by
  induction S generalizing acc with
  | nil => rfl
  | cons s S ih =>
    rw [cumul, map_cons, ih, cumul]
    ring_nf

theorem getLast?_cumul (acc : ℤ) {S : List ℤ} (h : S ≠ []) :
    (cumul acc S).getLast? = some (acc + span S - 1) := by
  obtain ⟨T, s, rfl⟩ : ∃ T s, S = T ++ [s] := ⟨_, _, (dropLast_append_getLast h).symm⟩
  rw [cumul_append, cumul, cumul, getLast?_concat, span_append, span_cons, span_nil]
  ring_nf

section

variable {S T : List ℤ} {s a b : ℤ} {i : ℕ}

theorem addAt_cumul (h : S.length = i) (d : ℤ) :
    Indices.addAt (cumul 0 (S ++ s :: T)) i d = cumul 0 (S ++ (s + d) :: T) := by
  have hlength : (cumul 0 S).length = i := by rw [length_cumul, h]
  unfold Indices.addAt
  rw [cumul_append, cumul_append, take_left' hlength, drop_left' hlength, map_add_cumul]
  simp only [cumul]
  ring_nf

theorem insertAt_cumul (s : ℤ) (S : List ℤ) :
    Indices.insertAt (cumul 0 S) 0 s = cumul 0 (s :: S) := by
  have hmap : (cumul 0 S).map (fun x => x + s + 1) = cumul (0 + s + 1) S := by
    rw [← map_add_cumul (0 + s), ← map_add_cumul 0, map_map]
    rfl
  simp only [Indices.insertAt, take_zero, nil_append, if_pos, cumul, hmap]
  simp

theorem push_cumul (S : List ℤ) (s : ℤ) : Indices.push (cumul 0 S) s = cumul 0 (S ++ [s]) := by
  unfold Indices.push
  rcases eq_or_ne S [] with rfl | hne
  · simp [cumul]
  · rw [getLast?_cumul 0 hne, cumul_append]
    simp only [cumul]
    ring_nf

theorem foldl_push_cumul (S T : List ℤ) : T.foldl Indices.push (cumul 0 S) = cumul 0 (S ++ T) := by
  induction T generalizing S with
  | nil => simp
  | cons t T ih => rw [foldl_cons, push_cumul, ih, append_assoc, singleton_append]

theorem split_cumul (h : S.length = i) :
    Indices.split (cumul 0 (S ++ (a + 1 + b) :: T)) i b = .ok (cumul 0 (S ++ a :: b :: T)) := by
  have hlength : (cumul 0 S).length = i := by rw [length_cumul, h]
  have hlength' : (cumul 0 S ++ [0 + span S + (a + 1 + b)]).length = i + 1 := by
    rw [length_append, hlength, length_singleton]
  have hinsert : Indices.insertAt (cumul 0 (S ++ (a + 1 + b) :: T)) (i + 1) (-1) =
      cumul 0 S ++ (0 + span S + (a + 1 + b)) :: cumul (0 + span S) ((a + 1 + b) :: T) := by
    have hmap : ∀ X : List ℤ, X.map (fun x => x + -1 + 1) = X := by simp
    unfold Indices.insertAt
    rw [if_neg (by omega), Nat.add_sub_cancel, hmap, cumul_append, drop_left' hlength]
    rw [cumul, append_assoc, cons_append, append_cons (cumul 0 S),
      take_left' hlength', append_assoc, singleton_append]
  unfold Indices.split
  rw [hinsert]
  dsimp only
  rw [index_append hlength, Go.ok_bind, setIndex_append hlength, cumul_append]
  simp only [cumul]
  ring_nf

theorem merge_cumul (h : S.length = i) :
    Indices.merge (cumul 0 (S ++ a :: b :: T)) i = .ok (cumul 0 (S ++ (a + 1 + b) :: T)) := by
  have hlength : (cumul 0 S).length = i := by rw [length_cumul, h]
  have hlength' : (cumul 0 S ++ [0 + span S + a]).length = i + 1 := by
    rw [length_append, hlength, length_singleton]
  unfold Indices.merge
  rw [if_neg (by simp [cumul_append, cumul]), cumul_append, cumul, take_left' hlength,
    append_cons, drop_left' hlength', take_of_length_le (by simp), cumul_append]
  simp only [cumul]
  ring_nf

theorem removeAt_cumul (s : ℤ) (S : List ℤ) :
    Indices.removeAt (cumul 0 (s :: S)) 0 = .ok (s, cumul 0 S) := by
  have hmap : (cumul (s + 1) S).map (fun x => x - s - 1) = cumul 0 S := by
    have hadd := map_add_cumul (s + 1) (-s - 1) S
    rw [show s + 1 + (-s - 1) = 0 by ring] at hadd
    rw [← hadd]
    refine map_congr_left fun x _ => ?_
    ring
  simp [Indices.removeAt, cumul, Go.index, hmap, Go.ok_bind, Go.pure_eq_ok]

theorem pop_cumul (S : List ℤ) (s : ℤ) : Indices.pop (cumul 0 (S ++ [s])) = .ok (s, cumul 0 S) := by
  unfold Indices.pop
  rw [cumul_append, cumul, cumul, pop_concat, Go.ok_bind]
  rcases eq_or_ne S [] with rfl | hne
  · simp [cumul]
  · simp only [getLast?_cumul 0 hne]
    ring_nf

theorem setIndex_cumul (h : S.length = i) (d : ℤ) :
    ∃ x, Go.index (cumul 0 (S ++ a :: b :: T)) i = .ok x ∧
      Go.setIndex (cumul 0 (S ++ a :: b :: T)) i (x + d) =
        .ok (cumul 0 (S ++ (a + d) :: (b - d) :: T)) := by
  have hlength : (cumul 0 S).length = i := by rw [length_cumul, h]
  rw [cumul_append, cumul_append]
  simp only [cumul]
  refine ⟨_, index_append hlength, ?_⟩
  rw [setIndex_append hlength]
  ring_nf

end

def weave : List (List β) → List β → List β
  | [], _ => []
  | c :: C, [] => c ++ weave C []
  | c :: C, x :: I => c ++ x :: weave C I

theorem weave_append {C D : List (List β)} {I J : List β} (h : C.length = I.length) :
    weave (C ++ D) (I ++ J) = weave C I ++ weave D J := by
  induction C generalizing I with
  | nil =>
    obtain rfl : I = [] := length_eq_zero_iff.mp h.symm
    rfl
  | cons c C ih =>
    cases I with
    | nil => simp at h
    | cons x I =>
      rw [cons_append, cons_append, weave, ih (by simpa using h), weave]
      simp

theorem weave_cons (c : List β) (C : List (List β)) (I : List β) :
    weave (c :: C) I = c ++ weave ([] :: C) I := by
  cases I <;> rfl

theorem weave_concat {C : List (List β)} {I : List β} (h : C.length = I.length + 1) (x : β) :
    weave C (I ++ [x]) = weave C I ++ [x] := by
  obtain ⟨D, c, rfl⟩ : ∃ D c, C = D ++ [c] := by
    have hne : C ≠ [] := by
      rintro rfl
      simp at h
    exact ⟨_, _, (dropLast_append_getLast hne).symm⟩
  have hD : D.length = I.length := by simpa using h
  have hleft := weave_append (D := [c]) (J := []) hD
  rw [append_nil] at hleft
  rw [weave_append hD, hleft]
  simp [weave]

theorem length_weave {C : List (List β)} {I : List β} (h : I.length ≤ C.length) :
    ((weave C I).length : ℤ) = (C.map fun c => (c.length : ℤ)).sum + I.length := by
  induction C generalizing I with
  | nil =>
    obtain rfl : I = [] := length_eq_zero_iff.mp (by simpa using h)
    rfl
  | cons c C ih =>
    cases I with
    | nil =>
      have hrest := ih (I := []) (Nat.zero_le _)
      simp only [weave, length_append, map_cons, sum_cons]
      push_cast
      rw [hrest]
      ring
    | cons x I =>
      have hrest := ih (I := I) (by simpa using h)
      simp only [weave, length_append, length_cons, map_cons, sum_cons]
      push_cast
      rw [hrest]
      ring

namespace Node

def toList : ℕ → Node β → List β
  | 0, n => n.items
  | h + 1, n => weave (n.children.map (toList h)) n.items

def size (h : ℕ) (n : Node β) : ℤ := (n.toList h).length

def Good (d : ℕ) : ℕ → Node β → Prop
  | 0, n => n.children = [] ∧ n.indices = []
  | h + 1, n => n.children.length = n.items.length + 1 ∧
    n.indices = cumul 0 (n.children.map (size h)) ∧
    ∀ c ∈ n.children, Good d h c ∧ d - 1 ≤ c.items.length ∧ c.items.length ≤ d * 2 - 1

/-- The node can be a child. -/
structure Child (d h : ℕ) (c : Node β) : Prop where
  good : c.Good d h
  le_length : d - 1 ≤ c.items.length
  length_le : c.items.length ≤ d * 2 - 1

variable {d h : ℕ} {n c : Node β} {I I' : List β} {C C' : List (Node β)}

@[simp]
theorem items_mk (s : List ℤ) : (mk I C s).items = I := rfl

theorem size_of_toList {A B : List β} {y : β} (hn : n.toList h = A ++ y :: B) :
    n.size h = A.length + 1 + B.length := by
  simp only [size, hn, length_append, length_cons]
  push_cast
  ring

theorem Good.depth_eq (hn : n.Good d h) : n.depth = h := by
  induction h generalizing n with
  | zero =>
    obtain ⟨items, children, indices⟩ := n
    obtain rfl : children = [] := hn.1
    rw [depth]
  | succ h ih =>
    obtain ⟨items, children, indices⟩ := n
    cases children with
    | nil => simp [Good, Node.children] at hn
    | cons child children =>
      rw [depth, ih (hn.2.2 child mem_cons_self).1]

theorem Good.size_eq (hn : n.Good d (h + 1)) :
    n.size (h + 1) = span (n.children.map (size h)) - 1 := by
  have hsum : (n.children.map (toList h)).map (fun c => (c.length : ℤ)) =
      n.children.map (size h) := by
    rw [map_map]
    rfl
  rw [size, toList, length_weave (by simp [hn.1]), hsum, span, length_map, hn.1]
  push_cast
  ring

theorem Good.length_eq (hn : n.Good d h) : n.length = n.size h := by
  unfold Node.length
  cases h with
  | zero => rw [hn.2, size, toList, getLast?_nil]
  | succ h =>
    have hne : n.children.map (size h) ≠ [] := by
      intro hnil
      have hlength := hn.1
      rw [map_eq_nil_iff.mp hnil] at hlength
      simp at hlength
    rw [hn.2.1, getLast?_cumul 0 hne, hn.size_eq, zero_add]

theorem foldl_push_length (S : List ℤ) (hC : ∀ c ∈ C, c.Good d h) :
    C.foldl (fun s c => Indices.push s c.length) (cumul 0 S) = cumul 0 (S ++ C.map (size h)) := by
  have hlength : C.map Node.length = C.map (size h) :=
    map_congr_left fun c hc => (hC c hc).length_eq
  have hpush := foldl_push_cumul S (C.map (size h))
  rw [← hlength, foldl_map] at hpush
  rw [← hlength]
  exact hpush

theorem initSize_eq (hC : ∀ c ∈ C, c.Good d h) : initSize C = cumul 0 (C.map (size h)) :=
  foldl_push_length [] hC

theorem good_succ_iff : (mk I C (cumul 0 (C.map (size h)))).Good d (h + 1) ↔
    C.length = I.length + 1 ∧ ∀ c ∈ C, c.Child d h := by
  constructor
  · rintro ⟨hlength, -, hC⟩
    exact ⟨hlength, fun c hc => ⟨(hC c hc).1, (hC c hc).2.1, (hC c hc).2.2⟩⟩
  · rintro ⟨hlength, hC⟩
    exact ⟨hlength, rfl, fun c hc => ⟨(hC c hc).good, (hC c hc).le_length, (hC c hc).length_le⟩⟩

theorem Good.eq_mk (hn : n.Good d (h + 1)) :
    n = mk n.items n.children (cumul 0 (n.children.map (size h))) := by
  obtain ⟨items, children, indices⟩ := n
  have hindices := hn.2.1
  simp only [Node.indices, Node.children] at hindices
  rw [hindices]
  rfl

def assemble (h : ℕ) (I : List β) (C : List (Node β)) (c : Node β) (I' : List β)
    (C' : List (Node β)) : Node β :=
  mk (I ++ I') (C ++ c :: C') (cumul 0 (C.map (size h) ++ c.size h :: C'.map (size h)))

@[simp]
theorem items_assemble : (assemble h I C c I' C').items = I ++ I' := rfl

@[simp]
theorem children_assemble : (assemble h I C c I' C').children = C ++ c :: C' := rfl

@[simp]
theorem indices_assemble : (assemble h I C c I' C').indices =
    cumul 0 (C.map (size h) ++ c.size h :: C'.map (size h)) := rfl

/-- The parts are those of a node. -/
structure Focus (d h : ℕ) (I : List β) (C : List (Node β)) (c : Node β) (I' : List β)
    (C' : List (Node β)) : Prop where
  length_before : C.length = I.length
  length_after : C'.length = I'.length
  before : ∀ e ∈ C, e.Child d h
  child : c.Child d h
  after : ∀ e ∈ C', e.Child d h

theorem Focus.good (f : Focus d h I C c I' C') : (assemble h I C c I' C').Good d (h + 1) := by
  rw [assemble, ← map_cons, ← map_append]
  refine good_succ_iff.mpr
    ⟨?_, forall_mem_append.mpr ⟨f.before, forall_mem_cons.mpr ⟨f.child, f.after⟩⟩⟩
  simp only [length_append, length_cons, f.length_before, f.length_after]
  omega

theorem Good.focus (hn : n.Good d (h + 1)) {I J : List β} (hitems : n.items = I ++ J) :
    ∃ C c C', Focus d h I C c J C' ∧ n = assemble h I C c J C' := by
  have hmk := hn.eq_mk
  rw [hmk] at hn
  obtain ⟨hlength, hchild⟩ := good_succ_iff.mp hn
  rw [hitems, length_append] at hlength
  have hlt : I.length < n.children.length := by omega
  obtain ⟨C, c, C', hchildren, hC⟩ : ∃ C c C', n.children = C ++ c :: C' ∧ C.length = I.length :=
    ⟨n.children.take I.length, n.children[I.length], n.children.drop (I.length + 1),
      by rw [cons_getElem_drop_succ, take_append_drop], by simp; omega⟩
  rw [hchildren] at hlength hchild
  rw [length_append, length_cons] at hlength
  obtain ⟨hbefore, hchild⟩ := forall_mem_append.mp hchild
  obtain ⟨hchild, hafter⟩ := forall_mem_cons.mp hchild
  refine ⟨C, c, C', ⟨hC, by omega, hbefore, hchild, hafter⟩, ?_⟩
  rw [hmk, hitems, hchildren, map_append, map_cons]
  rfl

theorem Focus.toList_eq (f : Focus d h I C c I' C') : (assemble h I C c I' C').toList (h + 1) =
    weave (C.map (toList h)) I ++ c.toList h ++ weave ([] :: C'.map (toList h)) I' := by
  rw [toList, assemble, Node.children, Node.items, map_append, map_cons,
    weave_append (by rw [length_map, f.length_before]), weave_cons, append_assoc]

theorem Focus.toList_pair {s : β} {c' : Node β} (f : Focus d h I C c (s :: I') (c' :: C')) :
    (assemble h I C c (s :: I') (c' :: C')).toList (h + 1) = weave (C.map (toList h)) I ++
      (c.toList h ++ s :: c'.toList h) ++ weave ([] :: C'.map (toList h)) I' := by
  have hrest : weave ([] :: (c' :: C').map (toList h)) (s :: I') =
      s :: (c'.toList h ++ weave ([] :: C'.map (toList h)) I') := by
    rw [← weave_cons]
    rfl
  rw [f.toList_eq, hrest]
  simp

theorem Focus.replace (f : Focus d h I C c I' C') {e : Node β} (he : e.Child d h) :
    Focus d h I C e I' C' :=
  { f with child := he }

theorem Focus.next {s : β} {c' : Node β} (f : Focus d h I C c (s :: I') (c' :: C')) :
    Focus d h (I ++ [s]) (C ++ [c]) c' I' C' := by
  obtain ⟨hc', hC'⟩ := forall_mem_cons.mp f.after
  exact ⟨by simp [f.length_before], by simpa using f.length_after,
    forall_mem_append.mpr ⟨f.before, forall_mem_singleton.mpr f.child⟩, hc', hC'⟩

theorem Focus.prev {s : β} {c' : Node β} (f : Focus d h (I ++ [s]) (C ++ [c]) c' I' C') :
    Focus d h I C c (s :: I') (c' :: C') := by
  obtain ⟨hC, hc⟩ := forall_mem_append.mp f.before
  exact ⟨by simpa using f.length_before, by simp [f.length_after], hC,
    forall_mem_singleton.mp hc, forall_mem_cons.mpr ⟨f.child, f.after⟩⟩

theorem assemble_next (h : ℕ) (I : List β) (C : List (Node β)) (c : Node β) (s : β) (c' : Node β)
    (I' : List β) (C' : List (Node β)) :
    assemble h I C c (s :: I') (c' :: C') = assemble h (I ++ [s]) (C ++ [c]) c' I' C' := by
  simp [assemble]

end Node

end TinyKV.RankTree
