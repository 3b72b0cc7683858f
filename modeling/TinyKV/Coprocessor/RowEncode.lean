import TinyKV.Coprocessor.RowCodec

/-!
# What the encoder writes

`Encode` computes a function of the row and of what the rows before have left in `offsets32`
(`encode_eq`).
-/

namespace TinyKV

open List

namespace RowCodec

abbrev Columns := List (ℤ × Datum)

def wide (cols : Columns) : Bool := cols.any fun c => c.1 > 255

def notNull (cols : Columns) : Columns := cols.filter fun c => !c.2.isNull

def nulls (cols : Columns) : Columns := cols.filter fun c => c.2.isNull

def toID (cols : Columns) (colID : ℤ) : ℕ :=
  if wide cols then (colID % 2^32).toNat else (colID % 2^8).toNat

def sortedNotNull (cols : Columns) : List (ℕ × Datum) :=
  ((notNull cols).map fun c => (toID cols c.1, c.2)).insertionSort fun x y => x.1 ≤ y.1

def sortedNull (cols : Columns) : List ℕ :=
  ((nulls cols).map fun c => toID cols c.1).insertionSort fun x y => x ≤ y

def sortedIds (cols : Columns) : List ℕ := (sortedNotNull cols).map Prod.fst ++ sortedNull cols

def ends : ℕ → List Bytes → List ℕ
  | _, [] => []
  | start, value :: values => (start + value.length) :: ends (start + value.length) values

section

variable (val : Datum → Bytes)

def sortedValues (cols : Columns) : List Bytes := (sortedNotNull cols).map fun c => val c.2

def rowData (cols : Columns) : Bytes := (sortedValues val cols).flatten

def rowEnds (cols : Columns) : List ℕ := ends 0 (sortedValues val cols)

def isLarge (cols : Columns) : Bool := wide cols || decide (maxUint16 < (rowData val cols).length)

end

def layout (large : Bool) (numNotNull numNull : ℕ) (ids offsets : List ℕ) (data : Bytes) : Bytes :=
  [codecVer, if large then 1 else 0] ++ LittleEndian.bytes 2 numNotNull ++
    LittleEndian.bytes 2 numNull ++
    (if large then LittleEndian.pack 4 ids ++ LittleEndian.pack 4 offsets
      else LittleEndian.pack 1 ids ++ LittleEndian.pack 2 offsets) ++ data

section

variable (val : Datum → Bytes)

def encoded (stale : List ℕ) (cols : Columns) : Go Bytes :=
  let layout := fun large offsets => layout large (notNull cols).length (nulls cols).length
    (sortedIds cols) offsets (rowData val cols)
  if isLarge val cols then .ok (layout true ((rowEnds val cols).map (· % 2^32)))
  else if (rowData val cols).length = maxUint16 then .ok (layout true stale)
  else if stale.length ≤ (notNull cols).length then
    .ok (layout false (stale.map (· % 2^16) ++ (rowEnds val cols).drop stale.length))
  else .error .indexOutOfRange

def leftBehind (stale : List ℕ) (cols : Columns) : List ℕ :=
  if isLarge val cols then (rowEnds val cols).map (· % 2^32) else stale

def Encodes (T : TidbCodec) (cols : Columns) : Prop :=
  ∀ c ∈ cols, c.2.isNull = false → Encoder.appendValue T [] c.2 = .ok (.ok (val c.2))

end

namespace Encoder

def withColumns (e : Encoder) (cols : Columns) : Encoder :=
  { e with large := wide cols, numNotNullCols := (notNull cols).length
           numNullCols := (nulls cols).length, data := [], tempColIDs := cols.map Prod.fst
           values := cols.map Prod.snd }

theorem length_notNull_add (cols : Columns) :
    (notNull cols).length + (nulls cols).length = cols.length := by
  induction cols with
  | nil => rfl
  | cons c cols ih =>
    rw [notNull, nulls] at ih ⊢
    cases hnull : c.2.isNull with
    | true => simp [hnull]; omega
    | false => simp [hnull]; omega

theorem length_sortedNotNull (cols : Columns) :
    (sortedNotNull cols).length = (notNull cols).length := by
  rw [sortedNotNull, length_insertionSort, length_map]

theorem length_sortedNull (cols : Columns) : (sortedNull cols).length = (nulls cols).length := by
  rw [sortedNull, length_insertionSort, length_map]

theorem wide_concat (cols : Columns) (c : ℤ × Datum) :
    wide (cols ++ [c]) = (wide cols || decide (c.1 > 255)) := by
  simp [wide]

theorem notNull_concat (cols : Columns) (c : ℤ × Datum) :
    notNull (cols ++ [c]) = notNull cols ++ if c.2.isNull then [] else [c] := by
  cases hnull : c.2.isNull <;> simp [notNull, hnull]

theorem nulls_concat (cols : Columns) (c : ℤ × Datum) :
    nulls (cols ++ [c]) = nulls cols ++ if c.2.isNull then [c] else [] := by
  cases hnull : c.2.isNull <;> simp [nulls, hnull]

theorem addColumn_withColumns (e : Encoder) (cols : Columns) (c : ℤ × Datum)
    (h : cols.length < 2^16 - 1) :
    (e.withColumns cols).addColumn c.1 c.2 = e.withColumns (cols ++ [c]) := by
  have hlength := length_notNull_add cols
  have hnotNull : (notNull cols).length + 1 < 65536 := by omega
  have hnulls : (nulls cols).length + 1 < 65536 := by omega
  unfold addColumn withColumns
  by_cases hc : c.1 > 255 <;> cases hnull : c.2.isNull <;>
    simp [hc, hnull, hnotNull, hnulls, wide_concat, notNull_concat, nulls_concat]

theorem addColumns_eq (e : Encoder) (cols rest : Columns) (h : (cols ++ rest).length < 2^16) :
    addColumns ((cols ++ rest).map Prod.snd) (rest.map Prod.fst) cols.length
      (e.withColumns cols) = .ok (e.withColumns (cols ++ rest)) := by
  induction rest generalizing cols with
  | nil => simp [addColumns]
  | cons c rest ih =>
    have hget : ((cols ++ c :: rest).map Prod.snd)[cols.length]? = some c.2 := by simp
    have hlength : cols.length < 2^16 - 1 := by
      rw [length_append, length_cons] at h
      omega
    have ih := ih (cols ++ [c]) (by simpa using h)
    rw [append_assoc, singleton_append, length_append, length_singleton] at ih
    rw [map_cons, addColumns, Go.index_eq_ok hget, Go.ok_bind,
      addColumn_withColumns e cols c hlength, ih]

def place (e : Encoder) (ids : Slice ℕ) (values : List Datum) : Encoder :=
  { e.setIds ids with values := values }

section

variable (e : Encoder) (ids ids' : Slice ℕ) (values values' : List Datum)

@[simp]
theorem large_place : (e.place ids values).large = e.large := by
  unfold place setIds
  split_ifs <;> simp_all

@[simp]
theorem ids_place : (e.place ids values).ids = ids := by
  unfold place setIds Row.ids
  split_ifs <;> simp_all

@[simp]
theorem values_place : (e.place ids values).values = values := rfl

@[simp]
theorem setIds_place : (e.place ids values).setIds ids' = e.place ids' values := by
  unfold place setIds
  split_ifs <;> simp_all

theorem toColID_place {cols : Columns} (h : e.large = wide cols) (colID : ℤ) :
    (e.place ids values).toColID colID = toID cols colID := by
  rw [toColID, large_place, h, toID]

end

/-- The columns `done`, which are the first ones, have been put in their places, and the values of
the others are still in theirs. -/
structure Placed (cols done : Columns) (ids : List ℕ) (values : List Datum) : Prop where
  length_ids : ids.length = cols.length
  length_values : values.length = cols.length
  notNull_ids : ids.take (notNull done).length = (notNull done).map fun c => toID cols c.1
  nulls_ids : (ids.drop (notNull cols).length).take (nulls done).length =
    (nulls done).map fun c => toID cols c.1
  notNull_values : values.take (notNull done).length = (notNull done).map Prod.snd
  rest : values.drop done.length = (cols.drop done.length).map Prod.snd

theorem take_set_succ {α : Type} {xs : List α} {n : ℕ} (h : n < xs.length) (x : α) :
    (xs.set n x).take (n + 1) = xs.take n ++ [x] := by
  rw [take_add_one, take_set_of_le le_rfl, getElem?_set_self h]
  rfl

variable {cols done rest : Columns} {ids : List ℕ} {values : List Datum} {c : ℤ × Datum}

theorem length_done (hcols : cols = done ++ c :: rest) :
    (notNull done).length + (nulls done).length = done.length ∧ done.length < cols.length ∧
      (notNull done).length + (if c.2.isNull then 0 else 1) ≤ (notNull cols).length ∧
      (nulls done).length + (if c.2.isNull then 1 else 0) ≤ (nulls cols).length := by
  have hsplit : cols = (done ++ [c]) ++ rest := by simp [hcols]
  have hnotNull : (notNull cols).length =
      (notNull (done ++ [c])).length + (notNull rest).length := by
    rw [hsplit, notNull, filter_append, length_append]
    rfl
  have hnulls : (nulls cols).length = (nulls (done ++ [c])).length + (nulls rest).length := by
    rw [hsplit, nulls, filter_append, length_append]
    rfl
  rw [notNull_concat, length_append] at hnotNull
  rw [nulls_concat, length_append] at hnulls
  refine ⟨length_notNull_add done, by simp [hcols], ?_, ?_⟩
  · cases hnull : c.2.isNull <;> simp [hnull] at hnotNull ⊢ <;> omega
  · cases hnull : c.2.isNull <;> simp [hnull] at hnulls ⊢ <;> omega

theorem Placed.pushNull (h : Placed cols done ids values) (hcols : cols = done ++ c :: rest)
    (hnull : c.2.isNull = true) :
    Placed cols (done ++ [c])
      (ids.set ((notNull cols).length + (nulls done).length) (toID cols c.1)) values := by
  obtain ⟨hdone, hlt, hleft, hright⟩ := length_done hcols
  have hall := length_notNull_add cols
  have hlength := h.length_ids
  rw [hnull] at hleft hright
  refine ⟨?_, h.length_values, ?_, ?_, ?_, ?_⟩
  · rw [length_set, hlength]
  · rw [notNull_concat, hnull, if_pos rfl, append_nil, take_set_of_le (by omega)]
    exact h.notNull_ids
  · rw [nulls_concat, hnull, if_pos rfl, drop_set, if_neg (by omega),
      Nat.add_sub_cancel_left, length_append, length_singleton,
      take_set_succ (by rw [length_drop]; simp at hright; omega), h.nulls_ids, map_append]
    rfl
  · rw [notNull_concat, hnull, if_pos rfl, append_nil]
    exact h.notNull_values
  · rw [length_append, length_singleton, ← drop_drop, h.rest, ← map_drop,
      drop_drop]

theorem Placed.push (h : Placed cols done ids values) (hcols : cols = done ++ c :: rest)
    (hnull : c.2.isNull = false) :
    Placed cols (done ++ [c]) (ids.set (notNull done).length (toID cols c.1))
      (values.set (notNull done).length c.2) := by
  obtain ⟨hdone, hlt, hleft, hright⟩ := length_done hcols
  have hlength := h.length_ids
  have hlength' := h.length_values
  simp only [hnull, Bool.false_eq_true, if_false] at hleft hright
  refine ⟨?_, ?_, ?_, ?_, ?_, ?_⟩
  · rw [length_set, hlength]
  · rw [length_set, hlength']
  · rw [notNull_concat, hnull, if_neg Bool.false_ne_true, length_append,
      length_singleton, take_set_succ (by omega), h.notNull_ids, map_append]
    rfl
  · rw [nulls_concat, hnull, if_neg Bool.false_ne_true, append_nil,
      drop_set_of_lt (by omega)]
    exact h.nulls_ids
  · rw [notNull_concat, hnull, if_neg Bool.false_ne_true, length_append,
      length_singleton, take_set_succ (by omega), h.notNull_values, map_append]
    rfl
  · rw [length_append, length_singleton, drop_set_of_lt (by omega),
      ← drop_drop, h.rest, ← map_drop, drop_drop]

def placedIds (cols : Columns) : List ℕ :=
  (notNull cols).map (fun c => toID cols c.1) ++ (nulls cols).map fun c => toID cols c.1

theorem Placed.ids_eq (h : Placed cols cols ids values) : ids = placedIds cols := by
  have hlength := length_notNull_add cols
  have hrest : ids.drop (notNull cols).length = (nulls cols).map fun c => toID cols c.1 := by
    rw [← h.nulls_ids, take_of_length_le]
    rw [length_drop, h.length_ids]
    omega
  rw [placedIds, ← h.notNull_ids, ← hrest, take_append_drop]

theorem separate_eq (e : Encoder) (hlarge : e.large = wide cols) (spare : List ℕ)
    (hcols : cols = done ++ rest) (h : Placed cols done ids values) :
    ∃ values', Placed cols cols (placedIds cols) values' ∧
      separate (rest.map Prod.fst) done.length ((notNull cols).length + (nulls done).length)
          (notNull done).length (e.place ⟨ids, spare⟩ values) =
        .ok (e.place ⟨placedIds cols, spare⟩ values', (notNull cols).length) := by
  induction rest generalizing done ids values with
  | nil =>
    rw [append_nil] at hcols
    subst hcols
    have hids := h.ids_eq
    subst hids
    exact ⟨values, h, rfl⟩
  | cons c rest ih =>
    obtain ⟨hdone, hlt, hleft, hright⟩ := length_done hcols
    have hall := length_notNull_add cols
    have hlength := h.length_ids
    have hget : values[done.length]? = some c.2 := by
      have hfirst := congrArg List.head? h.rest
      rw [head?_drop, hcols, drop_left, map_cons, head?_cons] at hfirst
      exact hfirst
    have hcols' : cols = (done ++ [c]) ++ rest := by rw [hcols, append_assoc]; rfl
    rw [map_cons, separate, values_place, Go.index_eq_ok hget, Go.ok_bind, ids_place,
      toColID_place e _ _ hlarge]
    cases hnull : c.2.isNull with
    | true =>
      rw [hnull] at hleft hright
      obtain ⟨values', hplaced, heq⟩ := ih hcols' (h.pushNull hcols hnull)
      rw [if_pos rfl, Slice.set_eq_ok (by simp at hright ⊢; omega), Go.ok_bind, setIds_place]
      refine ⟨values', hplaced, ?_⟩
      rw [nulls_concat, notNull_concat, hnull, if_pos rfl, if_pos rfl, append_nil,
        length_append, length_append, length_singleton] at heq
      exact heq
    | false =>
      simp only [hnull, Bool.false_eq_true, if_false] at hleft hright
      obtain ⟨values', hplaced, heq⟩ := ih hcols' (h.push hcols hnull)
      rw [if_neg Bool.false_ne_true, Slice.set_eq_ok (by simp; omega), Go.ok_bind,
        Go.setIndex_eq_ok (by rw [h.length_values]; omega), Go.ok_bind, setIds_place]
      refine ⟨values', hplaced, ?_⟩
      rw [nulls_concat, notNull_concat, hnull, if_neg Bool.false_ne_true,
        if_neg Bool.false_ne_true, append_nil, length_append, length_append,
        length_singleton] at heq
      exact heq

@[simp]
theorem numNotNullCols_place (e : Encoder) (ids : Slice ℕ) (values : List Datum) :
    (e.place ids values).numNotNullCols = e.numNotNullCols := by
  unfold place setIds
  split_ifs <;> rfl

@[simp]
theorem numNullCols_place (e : Encoder) (ids : Slice ℕ) (values : List Datum) :
    (e.place ids values).numNullCols = e.numNullCols := by
  unfold place setIds
  split_ifs <;> rfl

theorem sortNotNull_place (e : Encoder) (hnotNull : e.numNotNullCols = (notNull cols).length)
    (spare : List ℕ) (h : Placed cols cols (placedIds cols) values) :
    (e.place ⟨placedIds cols, spare⟩ values).sortNotNull =
      e.place
        ⟨(sortedNotNull cols).map Prod.fst ++ (nulls cols).map (fun c => toID cols c.1), spare⟩
        ((sortedNotNull cols).map Prod.snd ++ values.drop (notNull cols).length) := by
  have hids : (placedIds cols).take (notNull cols).length =
      (notNull cols).map fun c => toID cols c.1 := take_left' (length_map _)
  have hrest : (placedIds cols).drop (notNull cols).length =
      (nulls cols).map fun c => toID cols c.1 := drop_left' (length_map _)
  have hzip : ((notNull cols).map fun c => toID cols c.1).zip ((notNull cols).map Prod.snd) =
      (notNull cols).map fun c => (toID cols c.1, c.2) := zip_map'
  rw [sortNotNull, numNotNullCols_place, hnotNull, ids_place, values_place, setIds_place, hids,
    hrest, h.notNull_values, hzip]
  rfl

theorem sortNull_place (e : Encoder) (hnotNull : e.numNotNullCols = (notNull cols).length)
    (hnull : e.numNullCols = (nulls cols).length) (spare : List ℕ) (values : List Datum) :
    (if e.numNullCols > 0 then
        (e.place ⟨(sortedNotNull cols).map Prod.fst ++ (nulls cols).map (fun c => toID cols c.1),
          spare⟩ values).sortNull
      else e.place ⟨(sortedNotNull cols).map Prod.fst ++ (nulls cols).map (fun c => toID cols c.1),
        spare⟩ values) =
      e.place ⟨sortedIds cols, spare⟩ values := by
  have hlength : ((sortedNotNull cols).map Prod.fst).length = (notNull cols).length := by
    rw [length_map, length_sortedNotNull]
  have hall : ((nulls cols).map fun c => toID cols c.1).take (nulls cols).length =
      (nulls cols).map fun c => toID cols c.1 := take_of_length_le (by simp)
  have hnone : ((nulls cols).map fun c => toID cols c.1).drop (nulls cols).length = [] :=
    drop_of_length_le (by simp)
  split_ifs with hpos
  · rw [sortNull, ids_place, setIds_place, numNotNullCols_place, numNullCols_place, hnotNull, hnull,
      drop_left' hlength, take_left' hlength, hall, hnone, append_nil]
    rfl
  · have hempty : nulls cols = [] := length_eq_zero_iff.mp (by omega)
    rw [sortedIds, sortedNull, hempty]
    rfl

theorem length_ends (start : ℕ) (done : List Bytes) : (ends start done).length = done.length := by
  induction done generalizing start with
  | nil => rfl
  | cons v done ih => rw [ends, length_cons, ih, length_cons]

theorem ends_concat (start : ℕ) (done : List Bytes) (v : Bytes) :
    ends start (done ++ [v]) = ends start done ++ [start + done.flatten.length + v.length] := by
  induction done generalizing start with
  | nil => simp [ends]
  | cons w done ih =>
    rw [cons_append, ends, ih, ends, cons_append, flatten_cons, length_append]
    simp [Nat.add_assoc]

theorem length_sortedValues (val : Datum → Bytes) (cols : Columns) :
    (sortedValues val cols).length = (notNull cols).length := by
  rw [sortedValues, length_map, length_sortedNotNull]

theorem le_of_mem_ends {start : ℕ} {done : List Bytes} {x : ℕ} (h : x ∈ ends start done) :
    start ≤ x ∧ x ≤ start + done.flatten.length := by
  induction done generalizing start with
  | nil => cases h
  | cons v done ih =>
    rw [flatten_cons, length_append]
    rcases mem_cons.mp h with rfl | h
    · omega
    · have := ih h
      omega

/-- The ends of the values `done` have been written, and the bytes `data`, with `stale` left in
`offsets32` from before. -/
structure Building (cols : Columns) (stale : List ℕ) (done : List Bytes) (data : Bytes)
    (e : Encoder) : Prop where
  notNullCols : e.numNotNullCols = (notNull cols).length
  nullCols : e.numNullCols = (nulls cols).length
  tempColIDs : e.tempColIDs.length = cols.length
  numCols : cols.length < 2^16
  data : e.data = data
  large : e.large = (wide cols || decide (maxUint16 < e.data.length))
  ids : e.ids.view = sortedIds cols
  offsets : e.large = false → e.offsets.view.length = (notNull cols).length ∧
    e.offsets.view.take done.length = ends 0 done ∧ e.offsets32.view = stale
  offsets32 : e.large = true → e.offsets32.view.length = (notNull cols).length ∧
    e.offsets32.view.take done.length = (ends 0 done).map (· % 2^32)

theorem length_sortedIds (cols : Columns) : (sortedIds cols).length = cols.length := by
  rw [sortedIds, length_append, length_map, length_sortedNotNull, length_sortedNull]
  exact length_notNull_add cols

theorem copyFrom_sortedIds (ids : Slice ℕ) (cols : Columns) :
    ∃ colIDs32 : Slice ℕ, (ids.resize 0 cols.length).copyFrom id (sortedIds cols) = .ok colIDs32 ∧
      colIDs32.view = sortedIds cols := by
  refine ⟨_, Slice.copyFrom_eq _ _ (by simp [length_sortedIds]), ?_⟩
  rw [map_id, drop_of_length_le (by simp [length_sortedIds]), append_nil]

theorem encodeInt_append (data : Bytes) (v : Int64) :
    encodeInt data v = data ++ encodeInt [] v := by
  unfold encodeInt
  split_ifs <;> rfl

theorem encodeUint_append (data : Bytes) (v : UInt64) :
    encodeUint data v = data ++ encodeUint [] v := by
  unfold encodeUint
  split_ifs <;> rfl

variable {T : TidbCodec}

theorem appendValue_eq {d : Datum} {v : Bytes} (h : appendValue T [] d = .ok (.ok v))
    (data : Bytes) : appendValue T data d = .ok (.ok (data ++ v)) := by
  unfold appendValue at h ⊢
  split at h
  · cases h
    rw [encodeInt_append]
    rfl
  · cases h
    rw [encodeUint_append]
    rfl
  · cases h
    rfl
  · split at h
    · cases h
    · obtain ⟨value, hvalue, h⟩ := Go.bind_eq_ok.mp h
      cases h
      simp_all

variable {stale : List ℕ} {written : List Bytes} {data v : Bytes} {e : Encoder}

theorem Building.numCols_eq (h : Building cols stale written data e) : e.numCols = cols.length := by
  rw [Row.numCols, h.notNullCols, h.nullCols, length_notNull_add, Nat.mod_eq_of_lt h.numCols]

theorem toLarge_eq (h : Building cols stale written data e) (hlarge : e.large = false) (v : Bytes)
    (hlt : written.length < (notNull cols).length) :
    ∃ colIDs32 offsets32 : Slice ℕ, colIDs32.view = sortedIds cols ∧
      offsets32.view.length = (notNull cols).length ∧
      offsets32.view.take written.length = ends 0 written ∧
      ({ e with data := e.data ++ v }).toLarge written.length =
        .ok { e with data := e.data ++ v, colIDs32 := colIDs32, offsets32 := offsets32
                     large := true } := by
  obtain ⟨hlength, htake, -⟩ := h.offsets hlarge
  have hids : e.colIDs.view = sortedIds cols := by
    have hids := h.ids
    rwa [Row.ids, hlarge, if_neg Bool.false_ne_true] at hids
  have hslice : Go.slice e.colIDs.view 0 e.tempColIDs.length = .ok (sortedIds cols) := by
    rw [hids, h.tempColIDs, ← length_sortedIds, Go.slice_eq_ok (Nat.zero_le _) le_rfl,
      take_length, drop_zero]
  have hnumCols : ({ e with data := e.data ++ v } : Encoder).numCols = cols.length := h.numCols_eq
  obtain ⟨colIDs32, hcopy, hcolIDs32⟩ := copyFrom_sortedIds e.colIDs32 cols
  have hslice' : Go.slice e.offsets.view 0 (written.length + 1) =
      .ok (e.offsets.view.take (written.length + 1)) := by
    rw [Go.slice_eq_ok (Nat.zero_le _) (by omega), drop_zero]
  have hshort : (e.offsets.view.take (written.length + 1)).length = written.length + 1 := by
    rw [length_take]
    omega
  obtain ⟨offsets32, hcopy', hlength', htake'⟩ : ∃ offsets32 : Slice ℕ,
      (e.offsets32.resize 0 e.numNotNullCols).copyFrom id
        (e.offsets.view.take (written.length + 1)) = .ok offsets32 ∧
      offsets32.view.length = (notNull cols).length ∧
      offsets32.view.take written.length = ends 0 written := by
    refine ⟨_, Slice.copyFrom_eq _ _ (by simp [h.notNullCols]; omega), ?_, ?_⟩
    · simp [h.notNullCols]
      omega
    · rw [map_id, take_append_of_le_length (by omega), take_take,
        min_eq_left (by omega), htake]
  refine ⟨colIDs32, offsets32, hcolIDs32, hlength', htake', ?_⟩
  unfold toLarge initColIDs32 initOffsets32
  dsimp only
  rw [hnumCols, hslice, Go.ok_bind, hcopy, Go.ok_bind, hslice', Go.ok_bind, hcopy', Go.ok_bind]
  rfl

theorem setOffset_large {i : ℕ} (hlarge : e.large = true) (h : i < e.offsets32.view.length) :
    e.setOffset i = .ok { e with offsets32 := { e.offsets32 with
      view := e.offsets32.view.set i (e.data.length % 2^32) } } := by
  rw [setOffset, if_pos hlarge, Slice.set_eq_ok h]
  rfl

theorem setOffset_small {i : ℕ} (hlarge : e.large = false) (h : i < e.offsets.view.length) :
    e.setOffset i = .ok { e with offsets := { e.offsets with
      view := e.offsets.view.set i (e.data.length % 2^16) } } := by
  rw [setOffset, if_neg (by simp [hlarge]), Slice.set_eq_ok h]
  rfl

theorem Building.append (h : Building cols stale written written.flatten e) (v : Bytes)
    (hlt : written.length < (notNull cols).length) :
    ∃ e', (if (e.data ++ v).length > maxUint16 ∧ e.large = false then
        ({ e with data := e.data ++ v }).toLarge written.length
      else pure { e with data := e.data ++ v }) = .ok e' ∧
      Building cols stale written (written.flatten ++ v) e' := by
  have hdata : e.data ++ v = written.flatten ++ v := by rw [h.data]
  have hlength : (e.data ++ v).length = e.data.length + v.length := length_append
  by_cases hconv : (e.data ++ v).length > maxUint16 ∧ e.large = false
  · obtain ⟨colIDs32, offsets32, hids, hlength32, htake, heq⟩ := toLarge_eq h hconv.2 v hlt
    rw [if_pos hconv, heq]
    refine ⟨_, rfl, h.notNullCols, h.nullCols, h.tempColIDs, h.numCols, hdata, ?_, hids, ?_, ?_⟩
    · have hgt : maxUint16 < (e.data ++ v).length := hconv.1
      simp only [hgt, decide_true, Bool.or_true]
    · intro hfalse
      cases hfalse
    · refine fun _ => ⟨hlength32, htake.trans ?_⟩
      -- The ends in the small layout are below `2^16`.
      have hsmall : ∀ x ∈ ends 0 written, x % 2^32 = x := by
        intro x hx
        have hle := (le_of_mem_ends hx).2
        have hlarge := h.large
        rw [hconv.2, h.data] at hlarge
        simp only [Bool.false_eq, Bool.or_eq_false_iff, decide_eq_false_iff_not, not_lt] at hlarge
        have hmax := hlarge.2
        rw [maxUint16] at hmax
        omega
      exact ((map_congr_left hsmall).trans (map_id _)).symm
  · rw [if_neg hconv]
    refine ⟨_, rfl, h.notNullCols, h.nullCols, h.tempColIDs, h.numCols, hdata, ?_, h.ids,
      h.offsets, h.offsets32⟩
    -- The layout is that of a row that is longer, too.
    have hlarge := h.large
    cases hl : e.large with
    | true =>
      rw [hl] at hlarge
      simp only [Bool.true_eq, Bool.or_eq_true, decide_eq_true_eq] at hlarge ⊢
      exact hlarge.imp_right fun hgt => by omega
    | false =>
      rw [hl] at hlarge
      have hle : ¬ maxUint16 < (e.data ++ v).length := fun hgt => hconv ⟨hgt, hl⟩
      simp only [Bool.false_eq, Bool.or_eq_false_iff, decide_eq_false_iff_not] at hlarge ⊢
      exact ⟨hlarge.1, hle⟩

theorem Building.setOffset (h : Building cols stale written (written.flatten ++ v) e)
    (hlt : written.length < (notNull cols).length) :
    ∃ e', e.setOffset written.length = .ok e' ∧
      Building cols stale (written ++ [v]) (written ++ [v]).flatten e' := by
  have hflatten : (written ++ [v]).flatten = written.flatten ++ v := by simp
  have hlast : e.data.length = 0 + written.flatten.length + v.length := by
    rw [h.data, length_append, Nat.zero_add]
  rw [hflatten]
  cases hlarge : e.large with
  | true =>
    obtain ⟨hlength, htake⟩ := h.offsets32 hlarge
    rw [setOffset_large hlarge (by omega)]
    refine ⟨_, rfl, h.notNullCols, h.nullCols, h.tempColIDs, h.numCols, h.data, h.large, h.ids,
      fun hfalse => ?_, fun _ => ⟨?_, ?_⟩⟩
    · cases hlarge.symm.trans hfalse
    · rw [length_set, hlength]
    · rw [length_append, length_singleton, take_set_succ (by omega), htake, ends_concat,
        map_append, ← hlast]
      rfl
  | false =>
    obtain ⟨hlength, htake, hstale⟩ := h.offsets hlarge
    have hsmall : e.data.length % 2^16 = e.data.length := by
      have hmax := h.large
      rw [hlarge] at hmax
      simp only [Bool.false_eq, Bool.or_eq_false_iff, decide_eq_false_iff_not, not_lt] at hmax
      have hle := hmax.2
      rw [maxUint16] at hle
      omega
    rw [setOffset_small hlarge (by omega), hsmall]
    refine ⟨_, rfl, h.notNullCols, h.nullCols, h.tempColIDs, h.numCols, h.data, h.large, h.ids,
      fun _ => ⟨?_, ?_, hstale⟩, fun htrue => ?_⟩
    · rw [length_set, hlength]
    · rw [length_append, length_singleton, take_set_succ (by omega), htake, ends_concat,
        ← hlast]
    · cases hlarge.symm.trans htrue

variable {val : Datum → Bytes}

theorem buildData_eq (values : List Datum)
    (hval : ∀ d ∈ values, appendValue T [] d = .ok (.ok (val d)))
    (h : Building cols stale written written.flatten e)
    (hlength : written.length + values.length = (notNull cols).length) :
    ∃ e', buildData T values written.length e = .ok (e', none) ∧
      Building cols stale (written ++ values.map val) (written ++ values.map val).flatten e' := by
  induction values generalizing written e with
  | nil => exact ⟨e, rfl, by simpa using h⟩
  | cons d values ih =>
    rw [length_cons] at hlength
    have hd := appendValue_eq (hval d mem_cons_self) e.data
    obtain ⟨e₁, heq₁, h₁⟩ := h.append (val d) (by omega)
    obtain ⟨e₂, heq₂, h₂⟩ := h₁.setOffset (by omega)
    obtain ⟨e', heq, h'⟩ := ih (fun d hd => hval d (mem_cons_of_mem _ hd)) h₂
      (by rw [length_append, length_singleton]; omega)
    rw [length_append, length_singleton] at heq
    refine ⟨e', ?_, ?_⟩
    · rw [buildData, hd, Go.ok_bind]
      dsimp only
      split_ifs at heq₁ ⊢ with hconv <;> rw [heq₁, Go.ok_bind, heq₂, Go.ok_bind, heq]
    · rwa [append_assoc, singleton_append] at h'

theorem Building.toBytes_eq {large : Bool} {ids offsets : List ℕ}
    (h : Building cols stale written data e) (e' : Encoder)
    (hsame : e'.numNotNullCols = e.numNotNullCols ∧ e'.numNullCols = e.numNullCols ∧
      e'.data = e.data) (hlarge : e'.large = large) (hids : e'.ids.view = ids)
    (hoffsets : (if e'.large then e'.offsets32.view else e'.offsets.view) = offsets) :
    e'.toBytes = layout large (notNull cols).length (nulls cols).length ids offsets data := by
  subst hlarge hids hoffsets
  rw [toBytes, hsame.1, hsame.2.1, hsame.2.2, h.notNullCols, h.nullCols, h.data, layout, Row.ids]
  cases e'.large <;> rfl

theorem Building.finish_of_full (h : Building cols stale written data e) (hl : e.large = false)
    (hfull : e.data.length ≥ maxUint16) :
    ∃ colIDs32 : Slice ℕ, colIDs32.view = sortedIds cols ∧
      e.finish = .ok { e with large := true, colIDs32 := colIDs32 } := by
  have hids : e.colIDs.view = sortedIds cols := by
    have hids := h.ids
    rwa [Row.ids, hl, if_neg Bool.false_ne_true] at hids
  have hnumCols : ({ e with large := true } : Encoder).numCols = cols.length := h.numCols_eq
  obtain ⟨colIDs32, hcopy, hcolIDs32⟩ := copyFrom_sortedIds e.colIDs32 cols
  refine ⟨colIDs32, hcolIDs32, ?_⟩
  rw [finish, if_neg (by simp [hl]), if_pos hfull]
  unfold initColIDs32
  dsimp only
  rw [hnumCols, hids, hcopy, Go.ok_bind]
  rfl

theorem Building.finish_of_lt (h : Building cols stale (sortedValues val cols) data e)
    (hl : e.large = false) (hlt : ¬ e.data.length ≥ maxUint16) :
    (stale.length ≤ (notNull cols).length ∧ ∃ offsets : Slice ℕ,
      offsets.view = stale.map (· % 2^16) ++ (rowEnds val cols).drop stale.length ∧
        e.finish = .ok { e with offsets := offsets }) ∨
    (¬ stale.length ≤ (notNull cols).length ∧ e.finish = .error .indexOutOfRange) := by
  obtain ⟨hlength, htake, hstale⟩ := h.offsets hl
  have hends : (rowEnds val cols).length = (notNull cols).length := by
    rw [rowEnds, length_ends, length_sortedValues]
  have hview : (e.offsets.resize 0 e.numNotNullCols).view = rowEnds val cols := by
    rw [Slice.view_resize_of_length_eq 0 (hlength.trans h.notNullCols.symm), rowEnds, ← htake,
      length_sortedValues, ← hlength, take_length]
  rw [finish, if_neg (by simp [hl]), if_neg hlt, initOffsets]
  dsimp only
  rw [hstale]
  by_cases hfits : stale.length ≤ (notNull cols).length
  · refine .inl ⟨hfits, _, ?_, by rw [Slice.copyFrom_eq _ _ (by rw [hview]; omega)]; rfl⟩
    rw [hview]
  · refine .inr ⟨hfits, ?_⟩
    rw [Slice.copyFrom_error _ _ (by rw [hview]; omega)]
    rfl

theorem Building.finish_eq (h : Building cols stale (sortedValues val cols) (rowData val cols) e) :
    (fun e' => (e'.offsets32.view, e'.toBytes)) <$> e.finish =
      (fun b => (leftBehind val stale cols, b)) <$> encoded val stale cols := by
  have hlarge : e.large = isLarge val cols := by
    have hlarge := h.large
    rwa [h.data] at hlarge
  rw [leftBehind, encoded, ← hlarge]
  cases hl : e.large with
  | true =>
    obtain ⟨hlength, htake⟩ := h.offsets32 hl
    rw [length_sortedValues, ← hlength, take_length] at htake
    have hbytes := h.toBytes_eq e ⟨rfl, rfl, rfl⟩ hl h.ids (by rw [hl, if_pos rfl, htake])
    rw [if_pos rfl, if_pos rfl, finish, if_pos hl]
    change Except.ok (e.offsets32.view, e.toBytes) = _
    rw [hbytes, htake]
    rfl
  | false =>
    obtain ⟨-, -, hstale⟩ := h.offsets hl
    have hle : (rowData val cols).length ≤ maxUint16 := by
      rw [hl, isLarge, eq_comm, Bool.or_eq_false_iff] at hlarge
      simpa using hlarge.2
    rw [if_neg Bool.false_ne_true, if_neg Bool.false_ne_true]
    by_cases hmax : (rowData val cols).length = maxUint16
    · obtain ⟨colIDs32, hcolIDs32, heq⟩ := h.finish_of_full hl (by rw [h.data]; omega)
      have hbytes := h.toBytes_eq { e with large := true, colIDs32 := colIDs32 } ⟨rfl, rfl, rfl⟩
        rfl hcolIDs32 hstale
      rw [if_pos hmax, heq]
      change Except.ok (e.offsets32.view, Encoder.toBytes _) = _
      rw [hbytes, hstale]
      rfl
    · rw [if_neg hmax]
      rcases h.finish_of_lt hl (by rw [h.data]; omega) with
        ⟨hfits, offsets, hoffsets, heq⟩ | ⟨hfits, heq⟩
      · have hbytes := h.toBytes_eq { e with offsets := offsets } ⟨rfl, rfl, rfl⟩ hl h.ids
          (by rw [hl, if_neg Bool.false_ne_true, hoffsets])
        rw [if_pos hfits, heq]
        change Except.ok (e.offsets32.view, Encoder.toBytes _) = _
        rw [hbytes, hstale]
        rfl
      · rw [if_neg hfits, heq]
        rfl

def prepared (e : Encoder) (cols : Columns) : Encoder :=
  if wide cols then (e.withColumns cols).initColIDs32.initOffsets32
  else (e.withColumns cols).initColIDs.initOffsets

section

variable (e : Encoder) (cols : Columns)

theorem large_prepared : (e.prepared cols).large = wide cols := by
  unfold prepared
  split_ifs <;> rfl

theorem numNotNullCols_prepared : (e.prepared cols).numNotNullCols = (notNull cols).length := by
  unfold prepared
  split_ifs <;> rfl

theorem numNullCols_prepared : (e.prepared cols).numNullCols = (nulls cols).length := by
  unfold prepared
  split_ifs <;> rfl

theorem tempColIDs_prepared : (e.prepared cols).tempColIDs = cols.map Prod.fst := by
  unfold prepared
  split_ifs <;> rfl

theorem values_prepared : (e.prepared cols).values = cols.map Prod.snd := by
  unfold prepared
  split_ifs <;> rfl

end

theorem length_ids_prepared (e : Encoder) (hlength : cols.length < 2^16) :
    (e.prepared cols).ids.view.length = cols.length := by
  have hnumCols : (e.withColumns cols).numCols = cols.length := by
    change ((notNull cols).length + (nulls cols).length) % 2^16 = cols.length
    rw [length_notNull_add, Nat.mod_eq_of_lt hlength]
  rw [Row.ids, large_prepared, prepared]
  cases wide cols with
  | true => exact (Slice.length_view_resize 0 _ _).trans hnumCols
  | false => exact (Slice.length_view_resize 0 _ _).trans hnumCols

theorem place_self (e : Encoder) : e.place e.ids e.values = e := by
  unfold place setIds Row.ids
  split_ifs <;> rfl

theorem placed_nil (hlength : ids.length = cols.length) :
    Placed cols [] ids (cols.map Prod.snd) where
  length_ids := hlength
  length_values := length_map _
  notNull_ids := rfl
  nulls_ids := rfl
  notNull_values := rfl
  rest := rfl

theorem building_nil (e : Encoder) (hlength : cols.length < 2^16) (spare : List ℕ)
    (values : List Datum) :
    Building cols e.offsets32.view [] []
      ((e.prepared cols).place ⟨sortedIds cols, spare⟩ values) := by
  unfold prepared
  cases hwide : wide cols with
  | true =>
    rw [if_pos rfl]
    refine ⟨by simp; rfl, by simp; rfl, ?_, hlength, ?_, ?_, by rw [ids_place], ?_, ?_⟩
    all_goals simp [place, setIds, withColumns, initColIDs32, initOffsets32, hwide, ends]
  | false =>
    rw [if_neg Bool.false_ne_true]
    refine ⟨by simp; rfl, by simp; rfl, ?_, hlength, ?_, ?_, by rw [ids_place], ?_, ?_⟩
    all_goals simp [place, setIds, withColumns, initColIDs, initOffsets, hwide, ends]

theorem appendValue_sorted (h : Encodes val T cols) {d : Datum}
    (hd : d ∈ (sortedNotNull cols).map Prod.snd) : appendValue T [] d = .ok (.ok (val d)) := by
  obtain ⟨x, hx, rfl⟩ := mem_map.mp hd
  rw [sortedNotNull, mem_insertionSort] at hx
  obtain ⟨c, hc, rfl⟩ := mem_map.mp hx
  have hc := mem_filter.mp hc
  exact h c hc.1 (by simpa using hc.2)

theorem separate_prepared (e : Encoder) (hlength : cols.length < 2^16) :
    ∃ spare values values', values'.take (notNull cols).length = (sortedNotNull cols).map Prod.snd ∧
      separate (cols.map Prod.fst) 0 (notNull cols).length 0 (e.prepared cols) =
        .ok ((e.prepared cols).place ⟨placedIds cols, spare⟩ values, (notNull cols).length) ∧
      ((e.prepared cols).place ⟨placedIds cols, spare⟩ values).sortNotNull =
        (e.prepared cols).place
          ⟨(sortedNotNull cols).map Prod.fst ++ (nulls cols).map (fun c => toID cols c.1), spare⟩
          values' := by
  obtain ⟨values, hplaced, heq⟩ := separate_eq (e.prepared cols) (large_prepared e cols)
    (e.prepared cols).ids.spare (nil_append cols).symm
    (placed_nil (length_ids_prepared e hlength))
  have hself : (e.prepared cols).place ⟨(e.prepared cols).ids.view, (e.prepared cols).ids.spare⟩
      (cols.map Prod.snd) = e.prepared cols := by
    rw [← values_prepared e cols]
    exact place_self _
  rw [hself] at heq
  refine ⟨_, values, _, take_left' ?_, heq,
    sortNotNull_place _ (numNotNullCols_prepared e cols) _ hplaced⟩
  rw [length_map, length_sortedNotNull]

theorem build_eq (e : Encoder) (hlength : cols.length < 2^16) (hval : Encodes val T cols) :
    ∃ e', Building cols e.offsets32.view (sortedValues val cols) (rowData val cols) e' ∧
      (e.withColumns cols).build T = (fun e => (e, .ok e.toBytes)) <$> e'.finish := by
  have hnullIdx : (cols.map Prod.fst).length - (nulls cols).length = (notNull cols).length := by
    have hall := length_notNull_add cols
    rw [length_map]
    omega
  obtain ⟨spare, values, values', htake, hseparate, hsort⟩ := separate_prepared e hlength
  have hsort' := sortNull_place (e.prepared cols) (numNotNullCols_prepared e cols)
    (numNullCols_prepared e cols) spare values'
  obtain ⟨e', hdata, hbuilding⟩ := buildData_eq ((sortedNotNull cols).map Prod.snd)
    (fun d hd => appendValue_sorted hval hd) (building_nil e hlength spare values')
    (by rw [← length_sortedValues fun _ => []]; simp [sortedValues])
  rw [nil_append, map_map] at hbuilding
  refine ⟨e', hbuilding, ?_⟩
  rw [build]
  change (separate (e.prepared cols).tempColIDs 0
    ((cols.map Prod.fst).length - (nulls cols).length) 0 (e.prepared cols) >>= _) = _
  rw [tempColIDs_prepared, hnullIdx, hseparate, Go.ok_bind]
  dsimp only
  have hle : (notNull cols).length ≤ values'.length := by
    have hlength := congrArg List.length htake
    rw [length_take, length_map, length_sortedNotNull] at hlength
    omega
  rw [hsort, numNullCols_place, hsort', values_place, Go.slice_eq_ok (Nat.zero_le _) hle,
    drop_zero, htake, Go.ok_bind]
  change (buildData T _ ([] : List Bytes).length _ >>= _) = _
  rw [hdata, Go.ok_bind]
  rfl

theorem encode_eq (e : Encoder) (cols : Columns)
    (hlength : cols.length < 2^16) (hval : Encodes val T cols) :
    (fun r => (r.1.offsets32.view, r.2)) <$> e.encode T (cols.map Prod.fst) (cols.map Prod.snd) =
      (fun b => (leftBehind val e.offsets32.view cols, .ok b)) <$>
        encoded val e.offsets32.view cols := by
  have hadd := addColumns_eq e [] cols hlength
  rw [nil_append] at hadd
  obtain ⟨e', hbuilding, hbuild⟩ := build_eq e hlength hval
  have hfinish := congrArg (fun r => (fun p : List ℕ × Bytes =>
    (p.1, (.ok p.2 : Except String Bytes))) <$> r) hbuilding.finish_eq
  simp only [Functor.map_map] at hfinish
  rw [encode]
  change _ <$> (addColumns (cols.map Prod.snd) (cols.map Prod.fst) ([] : Columns).length
    (e.withColumns []) >>= _) = _
  rw [hadd, Go.ok_bind, hbuild, Functor.map_map]
  exact hfinish

end Encoder

end RowCodec

end TinyKV
