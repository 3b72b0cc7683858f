import TinyKV.Coprocessor.ScanOutput

/-!
# Counting a column

For a request that only counts the values of a column that are not NULL, `tryBuildCountProcessor`
installs a processor that does not decode the rows.
-/

namespace TinyKV.RowCodec

def Row.has (r : Row) (colID : ℤ) : Go (Option Bool) := do
  match ← r.findNotNull colID with
  | some _ => return some true
  | none => if ← r.findNull colID then return some false else return none

theorem Row.Same.has {r r' : Row} (h : r.Same r') (colID : ℤ) : r.has colID = r'.has colID := by
  rw [Row.has, Row.has, h.findNotNull, h.findNull]

namespace Decoder

variable {T : TidbCodec} {dec : Decoder} {handle : Int64} {r : Row} {colID : ℤ}

theorem isNull_colValue {ft : FieldType} {colData : Bytes} {d : Datum}
    (h : colValue T ft colData = .ok (.ok d)) : d.isNull = false := by
  rw [colValue] at h
  split at h
  iterate 6
    split_ifs at h
    · obtain ⟨v, -, h⟩ := Go.bind_eq_ok.mp h
      cases h
      rfl
    · obtain ⟨v, -, h⟩ := Go.bind_eq_ok.mp h
      cases h
      rfl
  iterate 2
    split at h
    · cases h
    · cases h
      rfl
  iterate 7
    cases h
    rfl
  · obtain ⟨v, -, h⟩ := Go.bind_eq_ok.mp h
    obtain ⟨b, -, h⟩ := Go.bind_eq_ok.mp h
    cases h
    rfl
  · cases h

theorem isNull_typedValue {colIdx : ℕ} {colData : Bytes} {d : Datum}
    (h : dec.typedValue T colIdx colData = .ok (.ok d)) : d.isNull = false := by
  obtain ⟨ft, -, h⟩ := Go.bind_eq_ok.mp h
  exact isNull_colValue h

theorem getElem?_columnValues {colIDs : List ℤ} {i : ℕ} {ds : List Datum}
    (h : dec.columnValues T handle colIDs i = .ok (ds, none)) {k : ℕ} {colID : ℤ}
    (hk : colIDs[k]? = some colID) :
    ∃ d, ds[k]? = some d ∧ dec.columnValue T handle (i + k) colID = .ok (.ok d) := by
  induction colIDs generalizing i ds k with
  | nil => cases hk
  | cons first colIDs ih =>
    obtain ⟨result, hfirst, h⟩ := Go.bind_eq_ok.mp h
    cases result with
    | error err => cases h
    | ok d =>
      obtain ⟨⟨ds', err⟩, hrest, h⟩ := Go.bind_eq_ok.mp h
      cases h
      cases k with
      | zero =>
        cases hk
        exact ⟨d, rfl, hfirst⟩
      | succ k =>
        obtain ⟨d', hget, hvalue⟩ := ih hrest hk
        refine ⟨d', hget, ?_⟩
        rwa [Nat.add_right_comm, Nat.add_assoc] at hvalue

theorem columnIsNull_eq {rowData : Bytes} (hread : dec.toRow.setRowData rowData = .ok (.ok r))
    (colID : ℤ) (defaultVal : Option Bytes) :
    dec.columnIsNull rowData colID defaultVal = (do
      let stored ← r.has colID
      return (dec.withRow r, .ok (!stored.getD defaultVal.isSome))) := by
  rw [columnIsNull, hread, Go.ok_bind, Row.has, bind_assoc]
  change (r.findNotNull colID >>= _) = _
  congr 1
  funext place
  cases place with
  | some i => rfl
  | none =>
    change (r.isNull colID defaultVal >>= _) = _
    rw [Row.isNull, bind_assoc, bind_assoc]
    congr 1
    funext null
    cases null <;> cases defaultVal <;> rfl

theorem isNull_columnValue {colIdx : ℕ} {d : Datum} {converted : Option Bytes}
    (hne : colID ≠ dec.handleColID)
    (hvalue : (dec.withRow r).columnValue T handle colIdx colID = .ok (.ok d))
    (hdefault : dec.origDefaults[colIdx]? = some converted) :
    ∃ stored, r.has colID = .ok stored ∧ d.isNull = !stored.getD converted.isSome := by
  rw [columnValue, if_neg (show ¬ colID = (dec.withRow r).handleColID from hne)] at hvalue
  obtain ⟨place, hplace, hvalue⟩ := Go.bind_eq_ok.mp hvalue
  have hfound : r.findNotNull colID = .ok place := hplace
  rw [Row.has, hfound, Go.ok_bind]
  cases place with
  | some i =>
    obtain ⟨colData, -, hvalue⟩ := Go.bind_eq_ok.mp hvalue
    exact ⟨some true, rfl, isNull_typedValue hvalue⟩
  | none =>
    dsimp only at hvalue
    rw [Go.index_eq_ok (show (dec.withRow r).origDefaults[colIdx]? = _ from hdefault),
      Go.ok_bind] at hvalue
    obtain ⟨isNull, hisNull, hvalue⟩ := Go.bind_eq_ok.mp hvalue
    obtain ⟨null, hnull, hisNull⟩ := Go.bind_eq_ok.mp hisNull
    have hnull' : r.findNull colID = .ok null := hnull
    have hd : d.isNull = isNull := by
      cases isNull with
      | true =>
        cases hvalue
        rfl
      | false => exact isNull_typedValue hvalue
    rw [hd]
    dsimp only
    rw [hnull', Go.ok_bind]
    cases null with
    | true =>
      cases hisNull
      exact ⟨some false, rfl, rfl⟩
    | false =>
      cases hisNull
      exact ⟨none, rfl, by cases converted <;> rfl⟩

end Decoder

end TinyKV.RowCodec

namespace TinyKV.ClosureExecutor

open RowCodec List

variable {γ : Type} {T : Tidb γ} {e : ClosureExecutor γ} {b : Built γ} {s : ExecState γ}
  {pair : Bytes × Bytes} {row : List Datum} {idx : ℕ} {col : ColumnInfo}

inductive Counts (b : Built γ) (col : ColumnInfo) (row : List Datum) (pair : Bytes × Bytes) :
    Bool → Prop
  | pkHandle (hpk : col.pkHandle = true) : Counts b col row pair true
  | index {ctx : IdxScanCtx} (hctx : b.1.idxScanCtx = some ctx) (hpk : col.pkHandle = false)
    (hpos : 0 < ctx.columnLen) : Counts b col row pair (!(row.getD 0 .null).isNull)
  | table {r : Row} {stored : Option Bool} (hctx : b.1.idxScanCtx = none)
    (hpk : col.pkHandle = false) (hread : ({} : Row).setRowData pair.2 = .ok (.ok r))
    (hstored : r.has col.columnId = .ok stored) :
    Counts b col row pair (stored.getD col.defaultVal.isSome)

theorem Counts.unique {x y : Bool} (hx : Counts b col row pair x) (hy : Counts b col row pair y) :
    x = y := by
  cases hx with
  | pkHandle hpk =>
    cases hy with
    | pkHandle => rfl
    | index _ hpk' => rw [hpk] at hpk'; cases hpk'
    | table _ hpk' => rw [hpk] at hpk'; cases hpk'
  | index hctx hpk =>
    cases hy with
    | pkHandle hpk' => rw [hpk] at hpk'; cases hpk'
    | index => rfl
    | table hctx' => rw [hctx] at hctx'; cases hctx'
  | table hctx hpk hread hstored =>
    cases hy with
    | pkHandle hpk' => rw [hpk] at hpk'; cases hpk'
    | index hctx' => rw [hctx] at hctx'; cases hctx'
    | table _ _ hread' hstored' =>
      cases hread.symm.trans hread'
      cases hstored.symm.trans hstored'
      rfl

inductive Counted (b : Built γ) (col : ColumnInfo) (row : Bytes × Bytes → List Datum) :
    List (Bytes × Bytes) → ℕ → Prop
  | nil : Counted b col row [] 0
  | cons {pair : Bytes × Bytes} {pairs : List (Bytes × Bytes)} {counted : Bool} {n : ℕ}
    (hpair : Counts b col (row pair) pair counted) (hpairs : Counted b col row pairs n) :
    Counted b col row (pair :: pairs) (counted.toNat + n)

theorem Counted.unique {row : Bytes × Bytes → List Datum} {pairs : List (Bytes × Bytes)} {m n : ℕ}
    (hm : Counted b col row pairs m) (hn : Counted b col row pairs n) : m = n := by
  induction hm generalizing n with
  | nil =>
    cases hn
    rfl
  | cons hpair hpairs ih =>
    cases hn with
    | cons hpair' hpairs' => rw [hpair.unique hpair', ih hpairs']

def DecodesTo (T : Tidb γ) (b : Built γ) (row : List Datum) (pair : Bytes × Bytes) : Prop :=
  b.1.rowValues T pair.1 pair.2 = .ok (row, none)

section

variable (hwf : DecodesTo T b row pair)
include hwf

theorem countColumnProcess_table (hctx : b.1.idxScanCtx = none) (hcol : b.1.col = some col)
    (hs : Scans T b.1 s.scanCtx) :
    ∃ r, ({} : Row).setRowData pair.2 = .ok (.ok r) ∧
      (∀ stored, r.has col.columnId = .ok stored →
        ∃ s', b.1.countColumnProcess T s pair.1 pair.2 = .ok (s', none) ∧ Scans T b.1 s'.scanCtx ∧
          s'.rowCount = s.rowCount + (stored.getD col.defaultVal.isSome).toNat) ∧
      ∀ err, r.has col.columnId = .error err →
        b.1.countColumnProcess T s pair.1 pair.2 = .error err := by
  cases hs with
  | index hctx' => rw [hctx] at hctx'; cases hctx'
  | @table dec' r₁ _ hdec' hs₁ =>
    obtain ⟨handle, r', -, hread', -⟩ := of_rowValues_table hctx hdec' hwf
    obtain ⟨r₂, hread₂, hsame₂⟩ := Row.setRowData_same hread' r₁
    have hhas : r₂.has col.columnId = r'.has col.columnId := (hsame₂.has _).symm
    have hnull : (dec'.withRow r₁).columnIsNull pair.2 col.columnId col.defaultVal = (do
        let stored ← r'.has col.columnId
        return (dec'.withRow r₂, .ok (!stored.getD col.defaultVal.isSome))) := by
      rw [← hhas]
      exact @Decoder.columnIsNull_eq (dec'.withRow r₁) r₂ pair.2 hread₂ _ _
    have hprocess : b.1.countColumnProcess T s pair.1 pair.2 = (do
        let stored ← r'.has col.columnId
        return ({ s with
          scanCtx := { s.scanCtx with decoder := some (dec'.withRow r₂) }
          rowCount := s.rowCount + (stored.getD col.defaultVal.isSome).toNat }, none)) := by
      rw [countColumnProcess, hctx]
      dsimp only
      rw [hcol, Go.deref_some, Go.ok_bind, hs₁, Go.deref_some, Go.ok_bind, hnull, bind_assoc]
      congr 1
      funext stored
      rw [Go.pure_eq_ok, Go.ok_bind]
      dsimp only
      rw [Bool.not_not]
    refine ⟨r', hread', fun stored hstored => ?_, fun err herr => ?_⟩
    · rw [hprocess, hstored]
      exact ⟨_, rfl, .table hctx hdec' rfl, rfl⟩
    · rw [hprocess, herr]
      rfl

theorem countColumnProcess_index {ctx : IdxScanCtx} (hctx : b.1.idxScanCtx = some ctx)
    (s : ExecState γ) :
    b.1.countColumnProcess T s pair.1 pair.2 =
      if 0 < ctx.columnLen then
        .ok ({ s with rowCount := s.rowCount + (!(row.getD 0 .null).isNull).toNat }, none)
      else .error .indexOutOfRange := by
  have hindex : b.1.indexRow T ctx pair.1 pair.2 = .ok (row, none) := by
    rw [DecodesTo, rowValues, hctx] at hwf
    exact hwf
  obtain ⟨values, rest, ds, handle, hcut, hvalues, -, -, rfl⟩ := of_indexRow hindex
  have hlength : values.length = ctx.columnLen := T.length_cutIndexKeyNew hcut
  rw [countColumnProcess, hctx, ← hlength]
  dsimp only
  cases values with
  | nil =>
    have hcounts : indexCounts T ctx pair.1 = .error .indexOutOfRange := by
      rw [indexCounts, hcut]
      rfl
    rw [hcounts, if_neg (by simp)]
    rfl
  | cons first values =>
    obtain ⟨ft, d, ds', hvalue, rfl, -⟩ := of_indexValues_cons hvalues
    obtain ⟨flag, rest', rfl, hnull⟩ := T.isNull_decodeIndexValue hvalue
    have hcounts : indexCounts T ctx pair.1 = .ok (.ok (decide (flag ≠ nilFlag))) := by
      rw [indexCounts, hcut]
      rfl
    have hdecide : decide (flag ≠ nilFlag) = !d.isNull := by
      by_cases hflag : flag = nilFlag
      · rw [hnull.mpr hflag, hflag]
        rfl
      · rw [Bool.eq_false_iff.mpr fun htrue => hflag (hnull.mp htrue), decide_eq_true hflag]
        rfl
    rw [hcounts, Go.ok_bind, hdecide, if_pos (by simp)]
    rfl

end

/-- Scans and columns for which the processor counts what the row path decodes. -/
inductive CountsAlike (T : Tidb γ) (e : ClosureExecutor γ) (idx : ℕ) (col : ColumnInfo) : Prop
  | handle (hctx : e.idxScanCtx = none) (hpk : col.pkHandle = true)
    (hid : col.columnId = handleColID e.columnInfos)
  | column (hctx : e.idxScanCtx = none) (hpk : col.pkHandle = false)
    (hid : col.columnId ≠ handleColID e.columnInfos)
    (hdefault : col.defaultVal = none ∨
      ∃ colVal, convertDefault T.toTidbCodec col.defaultVal = .ok (.ok (some colVal)))
  | first {ctx : IdxScanCtx} (hctx : e.idxScanCtx = some ctx) (hpk : col.pkHandle = false)
    (hidx : idx = 0) (hpos : 0 < ctx.columnLen)

theorem isSome_convertDefault {T : TidbCodec} {defaultVal converted : Option Bytes}
    (h : convertDefault T defaultVal = .ok (.ok converted))
    (hdefault : defaultVal = none ∨ ∃ colVal, convertDefault T defaultVal = .ok (.ok (some
      colVal))) : converted.isSome = defaultVal.isSome := by
  rcases hdefault with rfl | ⟨colVal, hconvert⟩
  · cases h
    rfl
  · rw [hconvert] at h
    cases h
    cases defaultVal with
    | none => cases hconvert
    | some b => rfl

theorem columnValue_of_decodesTo {dec : Decoder} (hctx : b.1.idxScanCtx = none)
    (hdec : b.1.newRowDecoder T = .ok (.ok dec)) (hcol : b.1.columnInfos[idx]? = some col)
    (hwf : DecodesTo T b row pair) :
    ∃ handle r, ({} : Row).setRowData pair.2 = .ok (.ok r) ∧
      (dec.withRow r).columnValue T.toTidbCodec handle idx col.columnId =
        .ok (.ok (row.getD idx .null)) := by
  obtain ⟨handle, r, -, hread, hvalues⟩ := of_rowValues_table hctx hdec hwf
  have hid : dec.requestColIDs[idx]? = some col.columnId := by
    rw [requestColIDs_eq hdec, getElem?_map, hcol]
    rfl
  obtain ⟨d, hget, hvalue⟩ := Decoder.getElem?_columnValues hvalues hid
  rw [Nat.zero_add] at hvalue
  refine ⟨handle, r, hread, ?_⟩
  rwa [getD_eq_getElem?_getD, hget]

theorem counts_value (hnew : IsNew T b) (hcol : b.1.columnInfos[idx]? = some col)
    (halike : CountsAlike T b.1 idx col) (hwf : DecodesTo T b row pair) :
    Counts b col row pair (!(row.getD idx .null).isNull) := by
  cases halike with
  | first hctx hpk hidx hpos =>
    subst hidx
    exact .index hctx hpk hpos
  | handle hctx hpk hid =>
    cases hnew.scans with
    | index hctx' => rw [hctx] at hctx'; cases hctx'
    | @table dec _ _ hdec =>
      obtain ⟨handle, r, -, hvalue⟩ := columnValue_of_decodesTo hctx hdec hcol hwf
      have hhandle : col.columnId = (dec.withRow r).handleColID :=
        hid.trans (newDecoder_eq hdec).1.symm
      rw [Decoder.columnValue, if_pos hhandle] at hvalue
      rw [← Except.ok.inj (Except.ok.inj hvalue)]
      exact .pkHandle hpk
  | column hctx hpk hid hdefault =>
    cases hnew.scans with
    | index hctx' => rw [hctx] at hctx'; cases hctx'
    | @table dec _ _ hdec =>
      obtain ⟨handle, r, hread, hvalue⟩ := columnValue_of_decodesTo hctx hdec hcol hwf
      -- The default of the column, as `NewDecoder` has converted it.
      have horig : (b.1.columnInfos.map ColumnInfo.defaultVal)[idx]? = some col.defaultVal := by
        rw [getElem?_map, hcol]
        rfl
      obtain ⟨hhandle, -, hconverts⟩ := newDecoder_eq hdec
      obtain ⟨converted, hconvert, hget⟩ := convertDefaults_eq hconverts horig
      obtain ⟨stored, hstored, hnull⟩ := Decoder.isNull_columnValue (hhandle ▸ hid) hvalue hget
      rw [hnull, Bool.not_not, isSome_convertDefault hconvert hdefault]
      exact .table hctx hpk hread hstored

section

variable (hcol : b.1.col = some col)
  (hprocessor : b.1.processor = if col.pkHandle then .countStar else .countColumn)
include hcol hprocessor

theorem process_counts (hwf : DecodesTo T b row pair) (hs : Scans T b.1 s.scanCtx) :
    (∃ counted s', Counts b col row pair counted ∧ b.1.process T s pair.1 pair.2 = .ok (s', none) ∧
      Scans T b.1 s'.scanCtx ∧ s'.rowCount = s.rowCount + counted.toNat) ∨
    (∀ counted, ¬ Counts b col row pair counted) ∧
      ∃ err, b.1.process T s pair.1 pair.2 = .error err := by
  cases hpk : col.pkHandle with
  | true =>
    rw [process, hprocessor, hpk]
    exact .inl ⟨true, _, .pkHandle hpk, rfl, hs, rfl⟩
  | false =>
    rw [process, hprocessor, hpk]
    simp only [Bool.false_eq_true, if_false]
    cases hctx : b.1.idxScanCtx with
    | none =>
      obtain ⟨r, hread, hok, herror⟩ := countColumnProcess_table hwf hctx hcol hs
      cases hstored : r.has col.columnId with
      | ok stored =>
        obtain ⟨s', hprocess, hs', hcount⟩ := hok stored hstored
        exact .inl ⟨_, s', .table hctx hpk hread hstored, hprocess, hs', hcount⟩
      | error err =>
        refine .inr ⟨fun counted hcounts => ?_, err, herror err hstored⟩
        cases hcounts with
        | pkHandle hpk' => rw [hpk] at hpk'; cases hpk'
        | index hctx' => rw [hctx] at hctx'; cases hctx'
        | table _ _ hread' hstored' =>
          rw [hread] at hread'
          cases hread'
          rw [hstored] at hstored'
          cases hstored'
    | some ctx =>
      rw [countColumnProcess_index hwf hctx]
      split_ifs with hpos
      · exact .inl ⟨_, _, .index hctx hpk hpos, rfl, hs, rfl⟩
      · refine .inr ⟨fun counted hcounts => ?_, _, rfl⟩
        cases hcounts with
        | pkHandle hpk' => rw [hpk] at hpk'; cases hpk'
        | table hctx' => rw [hctx] at hctx'; cases hctx'
        | index hctx' _ hpos' =>
          rw [hctx] at hctx'
          cases hctx'
          exact hpos hpos'

theorem scan_counts {row : Bytes × Bytes → List Datum} {pairs : List (Bytes × Bytes)}
    (hwf : ∀ pair ∈ pairs, DecodesTo T b (row pair) pair) (hs : Scans T b.1 s.scanCtx) :
    (∃ n s', Counted b col row pairs n ∧ b.1.scan T pairs s = .ok (s', none) ∧
      s'.rowCount = s.rowCount + n) ∨
    (∀ n, ¬ Counted b col row pairs n) ∧ ∃ err, b.1.scan T pairs s = .error err := by
  induction pairs generalizing s with
  | nil => exact .inl ⟨0, s, .nil, rfl, rfl⟩
  | cons pair pairs ih =>
    obtain ⟨hpair, hpairs⟩ := forall_mem_cons.mp hwf
    rw [scan]
    obtain ⟨counted, s₁, hcounts, hprocess, hs₁, hcount₁⟩ | ⟨hnone, err, hprocess⟩ :=
      process_counts hcol hprocessor hpair hs
    · rw [hprocess, Go.ok_bind]
      dsimp only
      obtain ⟨n, s₂, hcounted, hscan, hcount₂⟩ | ⟨hnone, herr⟩ := ih hpairs hs₁
      · exact .inl ⟨_, s₂, .cons hcounts hcounted, hscan, by omega⟩
      · refine .inr ⟨fun n hn => ?_, herr⟩
        cases hn with
        | cons _ hrest => exact hnone _ hrest
    · rw [hprocess]
      refine .inr ⟨fun n hn => ?_, err, rfl⟩
      cases hn with
      | cons hcounts _ => exact hnone _ hcounts

end

theorem of_tryBuildCountProcessor {b₁ : Built γ} {val rest : Bytes} {children : List PbExpr}
    {i : Int64} (hidx : T.decodeInt val = .ok (rest, i))
    (h : tryBuildCountProcessor T b₁ (.mk .columnRef val children) = .ok (.ok (some b))) :
    ∃ col, b.1.columnInfos[i.toNatClampNeg]? = some col ∧ b.1.col = some col ∧
      b.1.processor = if col.pkHandle then .countStar else .countColumn := by
  rw [tryBuildCountProcessor, hidx] at h
  dsimp only at h
  split_ifs at h
  · cases h
  obtain ⟨col, hcol, h⟩ := Go.bind_eq_ok.mp h
  refine ⟨col, ?_⟩
  split_ifs at h ⊢ with hpk
  · cases h
    exact ⟨Go.of_index hcol, rfl, rfl⟩
  · cases h
    exact ⟨Go.of_index hcol, rfl, rfl⟩

/-- A request that counts a column of a scan, and the executor that is built for it. -/
structure CountRequest (T : Tidb γ) where
  scanExec : Executor
  outputOff : List ℕ
  agg : PbAggregation
  val : Bytes
  children : List PbExpr
  rest : Bytes
  idx : Int64
  b : Built γ
  child_eq : countChild agg = some (.mk .columnRef val children)
  idx_eq : T.decodeInt val = .ok (rest, idx)
  build_eq : buildClosureExecutor T [scanExec, .streamAgg agg] outputOff = .ok (.ok b)

namespace CountRequest

def position (c : CountRequest T) : ℕ := c.idx.toNatClampNeg

def Agrees (c : CountRequest T) (row : Bytes × Bytes → List Datum) (pairs : List (Bytes × Bytes)) :
    Prop :=
  ∃ s, c.b.1.scan T pairs c.b.2 = .ok (s, none) ∧
    s.rowCount = pairs.countP fun pair => !((row pair).getD c.position .null).isNull

theorem exists_column (c : CountRequest T) :
    ∃ col, c.b.1.columnInfos[c.position]? = some col ∧ c.b.1.col = some col ∧
      c.b.1.processor = if col.pkHandle then .countStar else .countColumn := by
  obtain ⟨scanExec, -, h⟩ := Go.bind_eq_ok.mp c.build_eq
  obtain ⟨result, -, h⟩ := Go.bind_eq_ok.mp h
  cases result with
  | error err => cases h
  | ok b₁ =>
    have hstream : buildStreamAggProcessor T b₁ [c.scanExec, .streamAgg c.agg] c.agg =
        .ok (.ok c.b) := h
    rw [buildStreamAggProcessor, if_neg (by simp), c.child_eq] at hstream
    obtain ⟨result, hcount, hstream⟩ := Go.bind_eq_ok.mp hstream
    rcases result with err | _ | b₂
    · cases hstream
    · -- For a column reference there is always a processor.
      rw [tryBuildCountProcessor, c.idx_eq] at hcount
      dsimp only at hcount
      split_ifs at hcount
      · cases hcount
      obtain ⟨col, -, hcount⟩ := Go.bind_eq_ok.mp hcount
      split_ifs at hcount <;> cases hcount
    · cases hstream
      exact of_tryBuildCountProcessor c.idx_eq hcount

def firstColumn : ColumnInfo := { columnId := 1, fieldType := { tp := .longlong } }

def secondColumn : ColumnInfo := { columnId := 2, fieldType := { tp := .longlong } }

def countAgg (x : UInt8) : PbAggregation :=
  { aggFunc := [.mk .count [] [.mk .columnRef [x] []]], groupBy := [] }

def indexBuilt (col : ColumnInfo) : Built Unit :=
  ({ columnInfos := [firstColumn, secondColumn], outputOff := [0]
     idxScanCtx := some { pkStatus := .pkColNotExists, columnLen := 2 }, col := some col
     processor := .countColumn },
    { scanCtx := { chk := [[], []] } })

def indexCount (x : UInt8) (col : ColumnInfo)
    (h : buildClosureExecutor sampleTidb
      [.indexScan [firstColumn, secondColumn], .streamAgg (countAgg x)] [0] =
        .ok (.ok (indexBuilt col))) : CountRequest sampleTidb where
  scanExec := .indexScan [firstColumn, secondColumn]
  outputOff := [0]
  agg := countAgg x
  val := [x]
  children := []
  rest := []
  idx := Int64.ofNat x.toNat
  b := indexBuilt col
  child_eq := rfl
  idx_eq := rfl
  build_eq := h

def keyRow (pair : Bytes × Bytes) : List Datum :=
  pair.1.map fun x => if x = nilFlag then .null else .int64 (Int64.ofNat x.toNat)

end CountRequest

end TinyKV.ClosureExecutor
