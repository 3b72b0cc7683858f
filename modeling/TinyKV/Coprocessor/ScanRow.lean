import TinyKV.Coprocessor.ClosureExec
import TinyKV.Coprocessor.DefaultValue

/-!
# The row of a pair

What `processCore` appends for a pair does not depend on the rows that were there or read before:
`rowValues` gives the values of the row from the pair alone, up to the first that cannot be decoded,
and `processCore` appends them (`processCore_eq`).
-/

namespace TinyKV.RowCodec

open List

namespace Chunk

variable {width i : ℕ} {rows : List (List Datum)} {row part : List Datum}

def of (width : ℕ) (rows : List (List Datum)) (part : List Datum) : Chunk :=
  (List.range width).map fun c => rows.map (fun row => row.getD c .null) ++ part[c]?.toList

@[simp]
theorem length_of : (of width rows part).length = width := by
  rw [of, length_map, length_range]

theorem getElem?_of {c : ℕ} (hc : c < width) : (of width rows part)[c]? =
    some (rows.map (fun row => row.getD c .null) ++ part[c]?.toList) := by
  rw [of, getElem?_map, getElem?_range hc]
  rfl

theorem getElem?_of_le {c : ℕ} (hc : width ≤ c) : (of width rows part)[c]? = none :=
  getElem?_eq_none (length_of.trans_le hc)

theorem of_nil : of width [] [] = List.replicate width [] := by
  apply ext_getElem?
  intro c
  rcases Nat.lt_or_ge c width with hc | hc
  · rw [getElem?_of hc, getElem?_replicate_of_lt hc]
    rfl
  · rw [getElem?_of_le hc, getElem?_eq_none (length_replicate.trans_le hc)]

theorem append_of (h : part.length < width) (d : Datum) :
    (of width rows part).append part.length d = .ok (of width rows (part ++ [d])) := by
  have hnone : part[part.length]? = none := getElem?_eq_none le_rfl
  rw [append, Go.index_eq_ok (getElem?_of h), Go.ok_bind, hnone, Option.toList_none,
    append_nil]
  apply congrArg Except.ok
  apply ext_getElem?
  intro c
  rcases Nat.lt_or_ge c width with hc | hc
  · rw [getElem?_of hc]
    by_cases heq : c = part.length
    · rw [heq, getElem?_set_self (by rwa [length_of]), getElem?_concat_length]
      rfl
    · rw [getElem?_set_ne (Ne.symm heq), getElem?_of hc]
      rcases Nat.lt_or_gt_of_ne heq with hlt | hgt
      · rw [getElem?_append_left hlt]
      · rw [getElem?_eq_none hgt.le,
          getElem?_eq_none (by rw [length_append, length_singleton]; omega)]
  · rw [getElem?_of_le hc, getElem?_eq_none (by rwa [length_set, length_of])]

theorem of_complete (h : part.length = width) :
    of width rows part = of width (rows ++ [part]) [] := by
  apply ext_getElem?
  intro c
  rcases Nat.lt_or_ge c width with hc | hc
  · have hget : part[c]? = some (part.getD c .null) := getElem?_eq_some_getD (h ▸ hc) .null
    rw [getElem?_of hc, getElem?_of hc, hget, map_append]
    simp
  · rw [getElem?_of_le hc, getElem?_of_le hc]

theorem numRows_of (h : 0 < width) : (of width rows []).numRows = rows.length := by
  obtain ⟨n, rfl⟩ := Nat.exists_eq_succ_of_ne_zero h.ne'
  rw [of, range_succ_eq_map]
  simp [numRows]

theorem numRows_of_part (h : 0 < width) (hpart : part ≠ []) :
    (of width rows part).numRows = rows.length + 1 := by
  obtain ⟨n, rfl⟩ := Nat.exists_eq_succ_of_ne_zero h.ne'
  obtain ⟨d, ds, rfl⟩ := exists_cons_of_ne_nil hpart
  rw [of, range_succ_eq_map]
  simp [numRows]

theorem getRow_of (hrow : rows[i]? = some row) (hwidth : row.length = width) :
    (of width rows []).getRow i = .ok row := by
  have hindex : ∀ column ∈ of width rows [],
      Go.index column i = .ok (column.getD i .null) := by
    intro column hcolumn
    obtain ⟨c, -, rfl⟩ := mem_map.mp hcolumn
    apply Go.index_eq_ok
    rw [getD_eq_getElem?_getD]
    simp [hrow]
  rw [getRow, Go.mapM_eq_ok _ hindex]
  apply congrArg Except.ok
  apply ext_getElem?
  intro c
  rcases Nat.lt_or_ge c width with hc | hc
  · have hget : row[c]? = some (row.getD c .null) := getElem?_eq_some_getD (hwidth ▸ hc) .null
    rw [getElem?_map, getElem?_of hc, hget]
    simp [hrow, getD_eq_getElem?_getD]
  · rw [getElem?_map, getElem?_of_le hc, getElem?_eq_none (hwidth.trans_le hc)]
    rfl

theorem value_of (hrow : rows[i]? = some row) (hwidth : row.length = width) (c : ℕ) :
    (of width rows []).value i c = Go.index row c := by
  rcases Nat.lt_or_ge c width with hc | hc
  · have hget : row[c]? = some (row.getD c .null) := getElem?_eq_some_getD (hwidth ▸ hc) .null
    rw [value, Go.index_eq_ok (getElem?_of hc), Go.ok_bind, Go.index_eq_ok hget]
    apply Go.index_eq_ok
    simp [hrow]
  · rw [value, Go.index, getElem?_of_le hc, Go.index, getElem?_eq_none (hwidth.trans_le hc)]
    rfl

theorem truncateTo_of :
    (of width (rows ++ [row]) []).truncateTo rows.length = of width rows [] := by
  rw [truncateTo, of, of, map_map]
  apply map_congr_left
  intro c _
  simp [take_left']

theorem reset_of : (of width rows part).reset = of width [] [] := by
  rw [reset, of, of, map_map]
  rfl

theorem getRow_last (hwidth : row.length = width) :
    (of width (rows ++ [row]) []).getRow ((of width (rows ++ [row]) []).numRows - 1) = .ok row := by
  rcases Nat.eq_zero_or_pos width with rfl | hpos
  · rw [length_eq_zero_iff.mp hwidth]
    rfl
  · rw [numRows_of hpos, length_append, length_singleton, Nat.add_sub_cancel]
    exact getRow_of getElem?_concat_length hwidth

theorem truncateTo_last :
    (of width (rows ++ [row]) []).truncateTo ((of width (rows ++ [row]) []).numRows - 1) =
      of width rows [] := by
  rcases Nat.eq_zero_or_pos width with rfl | hpos
  · rfl
  · rw [numRows_of hpos, length_append, length_singleton, Nat.add_sub_cancel]
    exact truncateTo_of

end Chunk

namespace Row

variable {r r' : Row}

/-- The rows are the same in the layout that is used. -/
structure Same (r r' : Row) : Prop where
  large_eq : r.large = r'.large
  numNotNullCols_eq : r.numNotNullCols = r'.numNotNullCols
  numNullCols_eq : r.numNullCols = r'.numNullCols
  ids_eq : r.ids = r'.ids
  used_eq : r.used = r'.used
  data_eq : r.data = r'.data

def keeping (r read : Row) : Row :=
  { read with
    colIDs := if read.large then r.colIDs else read.colIDs
    offsets := if read.large then r.offsets else read.offsets
    colIDs32 := if read.large then read.colIDs32 else r.colIDs32
    offsets32 := if read.large then read.offsets32 else r.offsets32 }

theorem same_keeping (r read : Row) : read.Same (r.keeping read) := by
  refine ⟨rfl, rfl, rfl, ?_, ?_, rfl⟩
  · cases hlarge : read.large <;> simp [ids, keeping, hlarge]
  · cases hlarge : read.large <;> simp [used, keeping, hlarge]

theorem setRowData_eq (r r' : Row) (b : Bytes) :
    r'.setRowData b = (fun result => result.map r'.keeping) <$> r.setRowData b := by
  rw [setRowData, setRowData, map_bind]
  refine bind_congr fun ver => ?_
  split_ifs
  · rfl
  simp only [map_bind]
  refine bind_congr fun flag => bind_congr fun _ => bind_congr fun notNull => bind_congr fun _ =>
    bind_congr fun null => ?_
  split_ifs with hlarge
  · simp only [map_bind]
    refine bind_congr fun colIDs => bind_congr fun offsets => bind_congr fun data => ?_
    simp [keeping, Except.map, hlarge]
  · simp only [map_bind]
    refine bind_congr fun colIDs => bind_congr fun offsets => bind_congr fun data => ?_
    simp [keeping, Except.map, hlarge]

theorem setRowData_same {r₁ : Row} {b : Bytes} (h : r₁.setRowData b = .ok (.ok r)) (r₂ : Row) :
    ∃ r', r₂.setRowData b = .ok (.ok r') ∧ r.Same r' := by
  refine ⟨r₂.keeping r, ?_, same_keeping r₂ r⟩
  rw [setRowData_eq r₁ r₂, h]
  rfl

theorem Same.findNotNull (h : r.Same r') (colID : ℤ) :
    r.findNotNull colID = r'.findNotNull colID := by
  rw [Row.findNotNull, Row.findNotNull, h.ids_eq, h.numNotNullCols_eq]

theorem Same.findNull (h : r.Same r') (colID : ℤ) : r.findNull colID = r'.findNull colID := by
  rw [Row.findNull, Row.findNull, numCols, numCols, h.ids_eq, h.numNotNullCols_eq, h.numNullCols_eq]

theorem Same.isNull (h : r.Same r') (colID : ℤ) (defaultVal : Option Bytes) :
    r.isNull colID defaultVal = r'.isNull colID defaultVal := by
  rw [Row.isNull, Row.isNull, h.findNull]

theorem Same.getData (h : r.Same r') (i : ℕ) : r.getData i = r'.getData i := by
  rw [getData_eq, getData_eq, h.used_eq, h.data_eq]

end Row

namespace Decoder

variable {T : TidbCodec} {dec : Decoder} {handle : Int64} {width : ℕ} {rows : List (List Datum)}

def typedValue (T : TidbCodec) (dec : Decoder) (colIdx : ℕ) (colData : Bytes) :
    Go (Except String Datum) := do
  let ft ← Go.index dec.requestTypes colIdx
  colValue T ft colData

def columnValue (T : TidbCodec) (dec : Decoder) (handle : Int64) (colIdx : ℕ) (colID : ℤ) :
    Go (Except String Datum) := do
  if colID = dec.handleColID then return .ok (.int64 handle)
  match ← dec.findNotNull colID with
  | some h =>
    let colData ← dec.getData h
    dec.typedValue T colIdx colData
  | none =>
    let defaultVal ← Go.index dec.origDefaults colIdx
    if ← dec.isNull colID defaultVal then return .ok .null
    else dec.typedValue T colIdx (defaultVal.getD [])

theorem decodeColData_typedValue (colIdx : ℕ) (colData : Bytes) (chk : Chunk) :
    dec.decodeColData T colIdx colData chk = do
      match ← dec.typedValue T colIdx colData with
      | .error err => return .error err
      | .ok d => return .ok (← chk.append colIdx d) := by
  rw [decodeColData, typedValue]
  exact (bind_assoc _ _ _).symm

theorem decodeColumn_eq (colIdx : ℕ) (colID : ℤ) (chk : Chunk) :
    dec.decodeColumn T handle colIdx colID chk = do
      match ← dec.columnValue T handle colIdx colID with
      | .error err => return .error err
      | .ok d => return .ok (← chk.append colIdx d) := by
  rw [decodeColumn, columnValue]
  split_ifs
  · rfl
  rw [bind_assoc]
  apply bind_congr
  intro place
  cases place with
  | some h =>
    dsimp only
    rw [bind_assoc]
    exact bind_congr fun colData => decodeColData_typedValue colIdx colData chk
  | none =>
    dsimp only
    rw [bind_assoc]
    apply bind_congr
    intro defaultVal
    rw [bind_assoc]
    apply bind_congr
    intro isNull
    cases isNull with
    | true => rfl
    | false => exact decodeColData_typedValue colIdx _ chk

def columnValues (T : TidbCodec) (dec : Decoder) (handle : Int64) :
    List ℤ → ℕ → Go (List Datum × Option String)
  | [], _ => return ([], none)
  | colID :: colIDs, colIdx => do
    match ← dec.columnValue T handle colIdx colID with
    | .error err => return ([], some err)
    | .ok d =>
      let (ds, err) ← columnValues T dec handle colIDs (colIdx + 1)
      return (d :: ds, err)

theorem decodeColumns_of {colIDs : List ℤ} {part : List Datum}
    (h : part.length + colIDs.length ≤ width) :
    dec.decodeColumns T handle colIDs part.length (Chunk.of width rows part) = do
      let (ds, err) ← dec.columnValues T handle colIDs part.length
      return (Chunk.of width rows (part ++ ds), err) := by
  induction colIDs generalizing part with
  | nil =>
    rw [decodeColumns, columnValues, pure_bind]
    dsimp only
    rw [append_nil]
  | cons colID colIDs ih =>
    rw [length_cons] at h
    rw [decodeColumns, columnValues, decodeColumn_eq, bind_assoc, bind_assoc]
    apply bind_congr
    intro result
    cases result with
    | error err =>
      dsimp only
      rw [pure_bind, pure_bind, append_nil]
    | ok d =>
      dsimp only
      have hlength : part.length + 1 = (part ++ [d]).length := by
        rw [length_append, length_singleton]
      rw [Chunk.append_of (by omega), Go.ok_bind, pure_bind, hlength, bind_assoc]
      apply (ih (by omega : (part ++ [d]).length + colIDs.length ≤ width)).trans
      apply bind_congr
      rintro ⟨ds, err⟩
      dsimp only
      rw [pure_bind, append_assoc, singleton_append]

theorem length_columnValues {colIDs : List ℤ} {colIdx : ℕ} {ds : List Datum}
    (h : dec.columnValues T handle colIDs colIdx = .ok (ds, none)) : ds.length = colIDs.length := by
  induction colIDs generalizing colIdx ds with
  | nil =>
    cases h
    rfl
  | cons colID colIDs ih =>
    obtain ⟨result, -, h⟩ := Go.bind_eq_ok.mp h
    cases result with
    | error err => cases h
    | ok d =>
      obtain ⟨⟨ds', err⟩, hrest, h⟩ := Go.bind_eq_ok.mp h
      cases h
      rw [length_cons, length_cons, ih hrest]

theorem columnValue_same {r r' : Row} (h : r.Same r') (colIdx : ℕ) (colID : ℤ) :
    (dec.withRow r).columnValue T handle colIdx colID =
      (dec.withRow r').columnValue T handle colIdx colID := by
  rw [columnValue, columnValue]
  change (if colID = dec.handleColID then _ else r.findNotNull colID >>= _) =
    if colID = dec.handleColID then _ else r'.findNotNull colID >>= _
  rw [h.findNotNull]
  split_ifs
  · rfl
  apply bind_congr
  intro place
  cases place with
  | some i =>
    change r.getData i >>= _ = r'.getData i >>= _
    rw [h.getData]
    rfl
  | none =>
    apply bind_congr
    intro defaultVal
    change r.isNull colID defaultVal >>= _ = r'.isNull colID defaultVal >>= _
    rw [h.isNull]
    rfl

theorem columnValues_same {r r' : Row} (h : r.Same r') (colIDs : List ℤ) (colIdx : ℕ) :
    (dec.withRow r).columnValues T handle colIDs colIdx =
      (dec.withRow r').columnValues T handle colIDs colIdx := by
  induction colIDs generalizing colIdx with
  | nil => rfl
  | cons colID colIDs ih =>
    rw [columnValues, columnValues, columnValue_same h]
    apply bind_congr
    intro result
    cases result with
    | error err => rfl
    | ok d =>
      dsimp only
      rw [ih]

end Decoder

end TinyKV.RowCodec

namespace TinyKV.ClosureExecutor

open RowCodec List

variable {γ : Type} {T : Tidb γ} {e : ClosureExecutor γ} {s : ScanCtx} {key value : Bytes}
  {rows : List (List Datum)} {row : List Datum}

def width (e : ClosureExecutor γ) : ℕ := e.columnInfos.length

def indexValues (T : Tidb γ) (e : ClosureExecutor γ) :
    List Bytes → ℕ → Go (List Datum × Option String)
  | [], _ => return ([], none)
  | colVal :: values, i => do
    let ft ← Go.index e.fieldTps i
    match T.decodeIndexValue colVal ft with
    | .error err => return ([], some err)
    | .ok d =>
      let (ds, err) ← indexValues T e values (i + 1)
      return (d :: ds, err)

theorem decodeIndexValues_of (values : List Bytes) (part : List Datum) :
    e.decodeIndexValues T values part.length (Chunk.of e.width rows part) = do
      let (ds, err) ← e.indexValues T values part.length
      return (Chunk.of e.width rows (part ++ ds), err) := by
  induction values generalizing part with
  | nil =>
    rw [decodeIndexValues, indexValues, pure_bind]
    dsimp only
    rw [append_nil]
  | cons colVal values ih =>
    rw [decodeIndexValues, indexValues, bind_assoc]
    by_cases hlt : part.length < e.fieldTps.length
    · apply bind_congr
      intro ft
      cases T.decodeIndexValue colVal ft with
      | error err =>
        dsimp only
        rw [pure_bind, append_nil]
      | ok d =>
        dsimp only
        have hwidth : part.length < e.width := by
          rwa [fieldTps, length_map] at hlt
        have hlength : part.length + 1 = (part ++ [d]).length := by
          rw [length_append, length_singleton]
        rw [Chunk.append_of hwidth, Go.ok_bind, hlength, ih, bind_assoc]
        apply bind_congr
        rintro ⟨ds, err⟩
        dsimp only
        rw [pure_bind, append_assoc, singleton_append]
    · -- There is no type for the column, so that both stop here.
      have hnone : e.fieldTps[part.length]? = none := getElem?_eq_none (not_lt.mp hlt)
      rw [Go.index, hnone]
      rfl

variable {ds : List Datum}

theorem of_indexValues_cons {colVal : Bytes} {values : List Bytes} {i : ℕ}
    (h : e.indexValues T (colVal :: values) i = .ok (ds, none)) :
    ∃ ft d ds', T.decodeIndexValue colVal ft = .ok d ∧ ds = d :: ds' ∧
      e.indexValues T values (i + 1) = .ok (ds', none) := by
  obtain ⟨ft, -, h⟩ := Go.bind_eq_ok.mp h
  cases hvalue : T.decodeIndexValue colVal ft with
  | error err =>
    rw [hvalue] at h
    cases h
  | ok d =>
    rw [hvalue] at h
    obtain ⟨⟨ds', err⟩, hrest, h⟩ := Go.bind_eq_ok.mp h
    cases h
    exact ⟨ft, d, ds', hvalue, rfl, hrest⟩

theorem length_indexValues {values : List Bytes} {i : ℕ}
    (h : e.indexValues T values i = .ok (ds, none)) : ds.length = values.length := by
  induction values generalizing i ds with
  | nil =>
    cases h
    rfl
  | cons colVal values ih =>
    obtain ⟨ft, d, ds', -, rfl, hrest⟩ := of_indexValues_cons h
    rw [length_cons, length_cons, ih hrest]

def handleValues (T : Tidb γ) (e : ClosureExecutor γ) (ctx : IdxScanCtx) (b value : Bytes) :
    Go (List Datum × Option String) := do
  if ctx.pkStatus = .pkColNotExists then return ([], none)
  else if b.length > 0 then e.indexValues T [b] ctx.columnLen
  else
    let handle ← uint64Handle value
    return ([.int64 handle], none)

variable {ctx : IdxScanCtx}

theorem length_handleValues {b : Bytes} (h : e.handleValues T ctx b value = .ok (ds, none)) :
    ds.length = if ctx.pkStatus = .pkColNotExists then 0 else 1 := by
  rw [handleValues] at h
  split_ifs at h ⊢
  · cases h
    rfl
  · exact length_indexValues h
  · obtain ⟨handle, -, h⟩ := Go.bind_eq_ok.mp h
    cases h
    rfl

def indexRow (T : Tidb γ) (e : ClosureExecutor γ) (ctx : IdxScanCtx) (key value : Bytes) :
    Go (List Datum × Option String) := do
  match ← T.cutIndexKeyNew key ctx.columnLen with
  | .error err => return ([], some err)
  | .ok (values, b) =>
    match ← e.indexValues T values 0 with
    | (ds, some err) => return (ds, some err)
    | (ds, none) =>
      let (handle, err) ← e.handleValues T ctx b value
      return (ds ++ handle, err)

def IdxScanCtx.Fits (ctx : IdxScanCtx) (width : ℕ) : Prop :=
  ctx.columnLen + (if ctx.pkStatus = .pkColNotExists then 0 else 1) = width

theorem of_indexRow (h : e.indexRow T ctx key value = .ok (row, none)) :
    ∃ values b ds handle, T.cutIndexKeyNew key ctx.columnLen = .ok (.ok (values, b)) ∧
      e.indexValues T values 0 = .ok (ds, none) ∧ ds.length = ctx.columnLen ∧
      e.handleValues T ctx b value = .ok (handle, none) ∧ row = ds ++ handle := by
  obtain ⟨result, hcut, h⟩ := Go.bind_eq_ok.mp h
  match result with
  | .error err => cases h
  | .ok (values, b) =>
    obtain ⟨⟨ds, err⟩, hvalues, h⟩ := Go.bind_eq_ok.mp h
    cases err with
    | some err => cases h
    | none =>
      obtain ⟨⟨handle, err⟩, hhandle, h⟩ := Go.bind_eq_ok.mp h
      cases h
      exact ⟨values, b, ds, handle, hcut, hvalues,
        (length_indexValues hvalues).trans (T.length_cutIndexKeyNew hcut), hhandle, rfl⟩

theorem length_indexRow (hfits : IdxScanCtx.Fits ctx e.width)
    (h : e.indexRow T ctx key value = .ok (row, none)) : row.length = e.width := by
  obtain ⟨values, b, ds, handle, -, -, hds, hhandle, rfl⟩ := of_indexRow h
  unfold IdxScanCtx.Fits at hfits
  rw [length_append, hds, length_handleValues hhandle, hfits]

theorem handle_of (hfits : IdxScanCtx.Fits ctx e.width) (hds : ds.length = ctx.columnLen)
    (b : Bytes) (s : ScanCtx) :
    (if b.length > 0 then
        if ctx.pkStatus ≠ .pkColNotExists then do
          let (chk, err) ← e.decodeIndexValues T [b] ctx.columnLen (Chunk.of e.width rows ds)
          return ({ s with chk := chk }, err)
        else return ({ s with chk := Chunk.of e.width rows ds }, none)
      else if ctx.pkStatus ≠ .pkColNotExists then do
        let handle ← uint64Handle value
        let chk ← (Chunk.of e.width rows ds).append ctx.columnLen (.int64 handle)
        return ({ s with chk := chk }, none)
      else return ({ s with chk := Chunk.of e.width rows ds }, none) :
      Go (ScanCtx × Option String)) = do
    let (handle, err) ← e.handleValues T ctx b value
    return ({ s with chk := Chunk.of e.width rows (ds ++ handle) }, err) := by
  unfold IdxScanCtx.Fits at hfits
  rw [handleValues]
  by_cases hpk : ctx.pkStatus = .pkColNotExists
  · rw [if_pos hpk, if_neg (not_not.mpr hpk), if_neg (not_not.mpr hpk), ite_self, pure_bind]
    dsimp only
    rw [append_nil]
  · rw [if_neg hpk, if_pos hpk, if_pos hpk]
    rw [if_neg hpk] at hfits
    split_ifs
    · rw [← hds, decodeIndexValues_of, bind_assoc]
      rfl
    · rw [bind_assoc]
      apply bind_congr
      intro handle
      rw [← hds, Chunk.append_of (by omega), Go.ok_bind, pure_bind]

theorem indexScanProcessCore_of (hctx : e.idxScanCtx = some ctx)
    (hfits : IdxScanCtx.Fits ctx e.width) (hchk : s.chk = Chunk.of e.width rows []) :
    e.indexScanProcessCore T s key value = do
      let (ds, err) ← e.indexRow T ctx key value
      return ({ s with chk := Chunk.of e.width rows ds }, err) := by
  rw [indexScanProcessCore, indexRow, hctx, Go.deref_some, Go.ok_bind, bind_assoc]
  -- The cases are the results of `CutIndexKeyNew` and of the values.
  cases hcut : T.cutIndexKeyNew key ctx.columnLen with
  | error p => rfl
  | ok result =>
    rw [Go.ok_bind, Go.ok_bind]
    match result with
    | .error err =>
      dsimp only
      rw [pure_bind, ← hchk]
    | .ok (values, b) =>
      have hvalues : e.decodeIndexValues T values 0 (Chunk.of e.width rows []) = do
          let (ds, err) ← e.indexValues T values 0
          return (Chunk.of e.width rows ds, err) := decodeIndexValues_of values []
      dsimp only
      rw [hchk, hvalues, bind_assoc, bind_assoc]
      cases hds : e.indexValues T values 0 with
      | error p => rfl
      | ok result =>
        rw [Go.ok_bind, Go.ok_bind]
        match result with
        | (ds, some err) => rfl
        | (ds, none) =>
          have hlength : ds.length = ctx.columnLen :=
            (length_indexValues hds).trans (T.length_cutIndexKeyNew hcut)
          dsimp only
          rw [pure_bind, bind_assoc]
          exact handle_of hfits hlength b s

inductive Scans (T : Tidb γ) (e : ClosureExecutor γ) (s : ScanCtx) : Prop
  | table {dec : Decoder} {r : Row} (hctx : e.idxScanCtx = none)
    (hdec : e.newRowDecoder T = .ok (.ok dec)) (hs : s.decoder = some (dec.withRow r))
  | index {ctx : IdxScanCtx} (hctx : e.idxScanCtx = some ctx) (hfits : IdxScanCtx.Fits ctx e.width)

theorem Scans.withChunk (h : Scans T e s) (chk : Chunk) : Scans T e { s with chk := chk } := by
  cases h with
  | table hctx hdec hs => exact .table hctx hdec hs
  | index hctx hfits => exact .index hctx hfits

variable {dec : Decoder}

theorem requestColIDs_eq (h : e.newRowDecoder T = .ok (.ok dec)) :
    dec.requestColIDs = e.columnInfos.map ColumnInfo.columnId := by
  obtain ⟨r, -, h⟩ := Go.bind_eq_ok.mp h
  cases r with
  | error err => cases h
  | ok defaults =>
    cases h
    rfl

theorem length_requestColIDs (h : e.newRowDecoder T = .ok (.ok dec)) :
    dec.requestColIDs.length = e.width := by
  rw [requestColIDs_eq h, length_map]
  rfl

theorem tableScanProcessCore_of {r : Row} {handle : Int64} (hdec : s.decoder = some dec)
    (hchk : s.chk = Chunk.of e.width rows []) (hlength : dec.requestColIDs.length = e.width)
    (hkey : T.decodeRowKey key = .ok handle) (hrow : dec.toRow.setRowData value = .ok (.ok r)) :
    tableScanProcessCore T s key value = do
      let (ds, err) ←
        (dec.withRow r).columnValues T.toTidbCodec handle dec.requestColIDs 0
      return ({ chk := Chunk.of e.width rows ds, decoder := some (dec.withRow r) }, err) := by
  have hdecode : (dec.withRow r).decodeColumns T.toTidbCodec handle dec.requestColIDs 0
      (Chunk.of e.width rows []) = do
        let (ds, err) ← (dec.withRow r).columnValues T.toTidbCodec handle dec.requestColIDs 0
        return (Chunk.of e.width rows ds, err) :=
    Decoder.decodeColumns_of (by rw [length_nil, Nat.zero_add, hlength])
  rw [tableScanProcessCore, hkey]
  dsimp only
  rw [hdec, Go.deref_some, Go.ok_bind, Decoder.decode, hrow, Go.ok_bind, hchk]
  change ((dec.withRow r).decodeColumns T.toTidbCodec handle dec.requestColIDs 0 _ >>= _) >>= _ = _
  rw [hdecode, bind_assoc, bind_assoc]
  rfl

def tableRow (T : Tidb γ) (e : ClosureExecutor γ) (key value : Bytes) :
    Go (List Datum × Option String) :=
  match T.decodeRowKey key with
  | .error err => return ([], some err)
  | .ok handle => do
    match ← e.newRowDecoder T with
    | .error err => return ([], some err)
    | .ok dec =>
      match ← ({} : Row).setRowData value with
      | .error err => return ([], some err)
      | .ok r => (dec.withRow r).columnValues T.toTidbCodec handle dec.requestColIDs 0

def rowValues (T : Tidb γ) (e : ClosureExecutor γ) (key value : Bytes) :
    Go (List Datum × Option String) :=
  match e.idxScanCtx with
  | none => e.tableRow T key value
  | some ctx => e.indexRow T ctx key value

theorem tableRow_of {handle : Int64} (hdec : e.newRowDecoder T = .ok (.ok dec))
    (hkey : T.decodeRowKey key = .ok handle) :
    e.tableRow T key value = (do
      match ← ({} : Row).setRowData value with
      | .error err => return ([], some err)
      | .ok r => (dec.withRow r).columnValues T.toTidbCodec handle dec.requestColIDs 0) := by
  rw [tableRow, hkey]
  dsimp only
  rw [hdec]
  rfl

theorem tableScanProcessCore_tableRow {r₀ : Row} (hdec : e.newRowDecoder T = .ok (.ok dec))
    (hs : s.decoder = some (dec.withRow r₀)) (hchk : s.chk = Chunk.of e.width rows [])
    (key value : Bytes) : ∃ r, tableScanProcessCore T s key value = do
      let (ds, err) ← e.tableRow T key value
      return ({ chk := Chunk.of e.width rows ds, decoder := some (dec.withRow r) }, err) := by
  have hlength : (dec.withRow r₀).requestColIDs.length = e.width := (length_requestColIDs hdec :)
  obtain rfl : s = { chk := Chunk.of e.width rows [], decoder := some (dec.withRow r₀) } := by
    rw [← hs, ← hchk]
  cases hkey : T.decodeRowKey key with
  | error err =>
    refine ⟨r₀, ?_⟩
    rw [tableScanProcessCore, tableRow, hkey]
    rfl
  | ok handle =>
    have hread₀ : (dec.withRow r₀).toRow.setRowData value = _ := Row.setRowData_eq {} r₀ value
    rw [tableRow_of hdec hkey]
    cases hread : ({} : Row).setRowData value with
    | error p =>
      refine ⟨r₀, ?_⟩
      rw [tableScanProcessCore, hkey]
      dsimp only
      rw [Go.deref_some, Go.ok_bind, Decoder.decode, hread₀, hread]
      rfl
    | ok result =>
      cases result with
      | error err =>
        refine ⟨r₀, ?_⟩
        rw [tableScanProcessCore, hkey]
        dsimp only
        rw [Go.deref_some, Go.ok_bind, Decoder.decode, hread₀, hread]
        rfl
      | ok r =>
        obtain ⟨r', hread', hsame⟩ := Row.setRowData_same hread r₀
        refine ⟨r', ?_⟩
        rw [tableScanProcessCore_of rfl rfl hlength hkey hread', Go.ok_bind]
        dsimp only
        rw [Decoder.columnValues_same hsame]
        rfl

theorem processCore_eq (h : Scans T e s) (hchk : s.chk = Chunk.of e.width rows [])
    (key value : Bytes) :
    ∃ s', Scans T e s' ∧ e.processCore T s key value = do
      let (ds, err) ← e.rowValues T key value
      return ({ s' with chk := Chunk.of e.width rows ds }, err) := by
  cases h with
  | @table dec r₀ hctx hdec hs =>
    obtain ⟨r, hcore⟩ := tableScanProcessCore_tableRow hdec hs hchk key value
    refine ⟨{ s with decoder := some (dec.withRow r) }, .table hctx hdec rfl, ?_⟩
    rw [processCore, rowValues, hctx]
    exact hcore
  | @index ctx hctx hfits =>
    refine ⟨s, .index hctx hfits, ?_⟩
    rw [processCore, rowValues, hctx]
    exact indexScanProcessCore_of hctx hfits hchk

theorem of_rowValues_table (hctx : e.idxScanCtx = none) (hdec : e.newRowDecoder T = .ok (.ok dec))
    (h : e.rowValues T key value = .ok (row, none)) :
    ∃ handle r, T.decodeRowKey key = .ok handle ∧ ({} : Row).setRowData value = .ok (.ok r) ∧
      (dec.withRow r).columnValues T.toTidbCodec handle dec.requestColIDs 0 = .ok (row, none) := by
  rw [rowValues, hctx] at h
  cases hkey : T.decodeRowKey key with
  | error err =>
    dsimp only at h
    rw [tableRow, hkey] at h
    cases h
  | ok handle =>
    dsimp only at h
    rw [tableRow_of hdec hkey] at h
    obtain ⟨result, hread, h⟩ := Go.bind_eq_ok.mp h
    cases result with
    | error err => cases h
    | ok r => exact ⟨handle, r, rfl, hread, h⟩

theorem length_rowValues (h : Scans T e s) (hrow : e.rowValues T key value = .ok (row, none)) :
    row.length = e.width := by
  cases h with
  | table hctx hdec =>
    obtain ⟨handle, r, -, -, hvalues⟩ := of_rowValues_table hctx hdec hrow
    exact (Decoder.length_columnValues hvalues).trans (length_requestColIDs hdec)
  | index hctx hfits =>
    rw [rowValues, hctx] at hrow
    exact length_indexRow hfits hrow

theorem processCore_of_values {err : Option String} (h : Scans T e s)
    (hchk : s.chk = Chunk.of e.width rows []) (hvalues : e.rowValues T key value = .ok (ds, err)) :
    ∃ s', e.processCore T s key value = .ok (s', err) ∧ Scans T e s' ∧
      s'.chk = Chunk.of e.width rows ds := by
  obtain ⟨s', hscans, hcore⟩ := processCore_eq h hchk key value
  rw [hvalues, Go.ok_bind] at hcore
  exact ⟨_, hcore, hscans.withChunk _, rfl⟩

theorem processCore_of_row (h : Scans T e s) (hchk : s.chk = Chunk.of e.width rows [])
    (hrow : e.rowValues T key value = .ok (row, none)) :
    ∃ s', e.processCore T s key value = .ok (s', none) ∧ Scans T e s' ∧
      s'.chk = Chunk.of e.width (rows ++ [row]) [] ∧ row.length = e.width := by
  obtain ⟨s', hcore, hscans, hchk'⟩ := processCore_of_values h hchk hrow
  have hwidth := length_rowValues h hrow
  exact ⟨s', hcore, hscans, hchk'.trans (Chunk.of_complete hwidth), hwidth⟩

theorem of_processCore {s' : ScanCtx} {err : Option String} (h : Scans T e s)
    (hchk : s.chk = Chunk.of e.width rows [])
    (hcore : e.processCore T s key value = .ok (s', err)) :
    ∃ ds, e.rowValues T key value = .ok (ds, err) ∧ Scans T e s' ∧
      s'.chk = Chunk.of e.width rows ds := by
  obtain ⟨s₁, hscans, heq⟩ := processCore_eq h hchk key value
  rw [heq] at hcore
  obtain ⟨⟨ds, err⟩, hvalues, hcore⟩ := Go.bind_eq_ok.mp hcore
  cases hcore
  exact ⟨ds, hvalues, hscans.withChunk _, rfl⟩

theorem fits_initIdxScanCtx {columnInfos : List ColumnInfo}
    (h : initIdxScanCtx columnInfos = .ok ctx) : IdxScanCtx.Fits ctx columnInfos.length := by
  obtain ⟨lastColumn, hlast, h⟩ := Go.bind_eq_ok.mp h
  have hpos := (List.getElem?_eq_some_iff.mp (Go.of_index hlast)).1
  have hlength : columnInfos.length - 1 + 1 = columnInfos.length := by omega
  split_ifs at h <;> cases h
  · exact hlength
  · exact hlength
  · exact hlength
  · rfl

structure IsNew (T : Tidb γ) (b : Built γ) : Prop where
  chk_eq : b.2.scanCtx.chk = Chunk.of b.1.width [] []
  rowCount_eq : b.2.rowCount = 0
  oldChunks_eq : b.2.oldChunks = []
  scans : Scans T b.1 b.2.scanCtx
  table : b.1.processor = .tableScan → b.1.idxScanCtx = none ∧ b.1.conditions = []
  index : b.1.processor = .indexScan → b.1.idxScanCtx.isSome ∧ b.1.conditions = []

/-- The executor is the same as before, but for its processor and what belongs to it. -/
structure SameScan (b b' : Built γ) : Prop where
  columnInfos_eq : b'.1.columnInfos = b.1.columnInfos
  idxScanCtx_eq : b'.1.idxScanCtx = b.1.idxScanCtx
  scanCtx_eq : b'.2.scanCtx = b.2.scanCtx
  rowCount_eq : b'.2.rowCount = b.2.rowCount
  oldChunks_eq : b'.2.oldChunks = b.2.oldChunks
  processor : b'.1.processor = .tableScan ∨ b'.1.processor = .indexScan →
    b'.1.processor = b.1.processor ∧ b'.1.conditions = b.1.conditions

variable {b b' : Built γ}

theorem IsNew.congr (h : IsNew T b) (hsame : SameScan b b') : IsNew T b' := by
  have hwidth : b'.1.width = b.1.width := congrArg List.length hsame.columnInfos_eq
  have hdec : b'.1.newRowDecoder T = b.1.newRowDecoder T := by
    rw [newRowDecoder, newRowDecoder, fieldTps, fieldTps, hsame.columnInfos_eq]
  refine ⟨?_, hsame.rowCount_eq.trans h.rowCount_eq, hsame.oldChunks_eq.trans h.oldChunks_eq,
    ?_, ?_, ?_⟩
  · rw [hsame.scanCtx_eq, h.chk_eq, hwidth]
  · rw [hsame.scanCtx_eq]
    cases h.scans with
    | table hctx hnew hs =>
      exact .table (hsame.idxScanCtx_eq.trans hctx) (hdec.trans hnew) hs
    | index hctx hfits => exact .index (hsame.idxScanCtx_eq.trans hctx) (hwidth ▸ hfits)
  · intro hprocessor
    obtain ⟨heq, hconditions⟩ := hsame.processor (.inl hprocessor)
    rw [hsame.idxScanCtx_eq, hconditions]
    exact h.table (heq.symm.trans hprocessor)
  · intro hprocessor
    obtain ⟨heq, hconditions⟩ := hsame.processor (.inr hprocessor)
    rw [hsame.idxScanCtx_eq, hconditions]
    exact h.index (heq.symm.trans hprocessor)

theorem isNew_newClosureExecutor {scanExec : Executor} {outputOff : List ℕ} {b : Built γ}
    (h : newClosureExecutor T scanExec outputOff = .ok (.ok b)) : IsNew T b := by
  cases scanExec with
  | tableScan columns =>
    obtain ⟨result, hdec, h⟩ := Go.bind_eq_ok.mp h
    cases result with
    | error err => cases h
    | ok decoder =>
      cases h
      exact ⟨Chunk.of_nil.symm, rfl, rfl, .table rfl hdec rfl, fun _ => ⟨rfl, rfl⟩, by simp⟩
  | indexScan columns =>
    obtain ⟨ctx, hctx, h⟩ := Go.bind_eq_ok.mp h
    cases h
    exact ⟨Chunk.of_nil.symm, rfl, rfl, .index rfl (fits_initIdxScanCtx hctx), by simp,
      fun _ => ⟨rfl, rfl⟩⟩
  | _ => cases h

theorem sameScan_buildHashAggProcessor {agg : PbAggregation}
    (h : buildHashAggProcessor T b agg = .ok b') : SameScan b b' := by
  rw [buildHashAggProcessor] at h
  cases haggs : agg.aggFunc.mapM fun expr => T.newDistAggFunc expr b.1.fieldTps with
  | error err => rw [haggs] at h; cases h
  | ok aggs =>
    rw [haggs] at h
    cases hgroupBys : convertToExprs T b.1.fieldTps agg.groupBy with
    | error err => rw [hgroupBys] at h; cases h
    | ok groupBys =>
      rw [hgroupBys] at h
      cases h
      exact ⟨rfl, rfl, rfl, rfl, rfl, by simp⟩

theorem sameScan_buildTopNProcessor {orderBy : List (PbExpr × ByItem)} {limit : ℕ}
    (h : buildTopNProcessor T b orderBy limit = .ok b') : SameScan b b' := by
  rw [buildTopNProcessor] at h
  cases hconds : convertToExprs T b.1.fieldTps (orderBy.map Prod.fst) with
  | error err => rw [hconds] at h; cases h
  | ok conds =>
    rw [hconds] at h
    cases h
    exact ⟨rfl, rfl, rfl, rfl, rfl, by simp⟩

theorem sameScan_tryBuildCountProcessor {child : PbExpr}
    (h : tryBuildCountProcessor T b child = .ok (.ok (some b'))) : SameScan b b' := by
  obtain ⟨tp, val, children⟩ := child
  cases tp with
  | columnRef =>
    rw [tryBuildCountProcessor] at h
    cases hidx : T.decodeInt val with
    | error err =>
      rw [hidx] at h
      cases h
    | ok result =>
      rw [hidx] at h
      dsimp only at h
      split_ifs at h
      · cases h
      obtain ⟨col, -, h⟩ := Go.bind_eq_ok.mp h
      split_ifs at h <;> cases h
      · exact ⟨rfl, rfl, rfl, rfl, rfl, by simp⟩
      · exact ⟨rfl, rfl, rfl, rfl, rfl, by simp⟩
  | null => cases h
  | scalarFunc => cases h
  | count =>
    cases h
    exact ⟨rfl, rfl, rfl, rfl, rfl, by simp⟩
  | other tp =>
    cases h
    exact ⟨rfl, rfl, rfl, rfl, rfl, by simp⟩

theorem sameScan_buildStreamAggProcessor {executors : List Executor} {agg : PbAggregation}
    (h : buildStreamAggProcessor T b executors agg = .ok (.ok b')) : SameScan b b' := by
  rw [buildStreamAggProcessor] at h
  split at h
  · exact sameScan_buildHashAggProcessor (Except.ok.inj h)
  · obtain ⟨result, hcount, h⟩ := Go.bind_eq_ok.mp h
    match result with
    | .error err => cases h
    | .ok (some _) =>
      cases h
      exact sameScan_tryBuildCountProcessor hcount
    | .ok none => exact sameScan_buildHashAggProcessor (Except.ok.inj h)

theorem sameScan_buildSelection {secondExec : Executor}
    (h : buildSelection T b secondExec = .ok b') : SameScan b b' := by
  cases secondExec with
  | selection conditions =>
    rw [buildSelection] at h
    cases hconditions : convertToExprs T b.1.fieldTps conditions with
    | error err =>
      rw [hconditions] at h
      cases h
    | ok exprs =>
      rw [hconditions] at h
      cases h
      exact ⟨rfl, rfl, rfl, rfl, rfl, by simp⟩
  | _ =>
    cases h
    exact ⟨rfl, rfl, rfl, rfl, rfl, fun _ => ⟨rfl, rfl⟩⟩

theorem isNew_buildClosureExecutor {executors : List Executor} {outputOff : List ℕ} {b : Built γ}
    (h : buildClosureExecutor T executors outputOff = .ok (.ok b)) : IsNew T b := by
  obtain ⟨scanExec, -, h⟩ := Go.bind_eq_ok.mp h
  obtain ⟨result, hnew, h⟩ := Go.bind_eq_ok.mp h
  cases result with
  | error err => cases h
  | ok b₁ =>
    have hnew₁ := isNew_newClosureExecutor hnew
    dsimp only at h
    split_ifs at h
    · cases h
      exact hnew₁
    obtain ⟨secondExec, -, h⟩ := Go.bind_eq_ok.mp h
    cases hsecond : buildSelection T b₁ secondExec with
    | error err =>
      rw [hsecond] at h
      cases h
    | ok b₂ =>
      rw [hsecond] at h
      dsimp only at h
      have hnew₂ : IsNew T b₂ := hnew₁.congr (sameScan_buildSelection hsecond)
      obtain ⟨lastExecutor, -, h⟩ := Go.bind_eq_ok.mp h
      cases lastExecutor with
      | limit limit =>
        cases h
        exact hnew₂.congr ⟨rfl, rfl, rfl, rfl, rfl, fun _ => ⟨rfl, rfl⟩⟩
      | topN orderBy limit =>
        exact hnew₂.congr (sameScan_buildTopNProcessor (Except.ok.inj h))
      | aggregation agg =>
        exact hnew₂.congr (sameScan_buildHashAggProcessor (Except.ok.inj h))
      | streamAgg agg => exact hnew₂.congr (sameScan_buildStreamAggProcessor h)
      | selection conditions =>
        cases h
        exact hnew₂.congr ⟨rfl, rfl, rfl, rfl, rfl, by simp⟩
      | tableScan columns => cases h
      | indexScan columns => cases h

end TinyKV.ClosureExecutor
