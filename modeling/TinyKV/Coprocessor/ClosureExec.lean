import Mathlib.Data.List.AList
import TinyKV.Coprocessor.TopN

/-!
# The closure executor

`kv/coprocessor/closure_exec.go`, with `appendRow` and `newRowDecoder` of `cop_handler.go`.
-/

namespace TinyKV

open RowCodec

abbrev Expression := List Datum → Except String Datum

structure Aggregation (γ : Type) where
  createContext : γ
  update : γ → List Datum → γ × Option String
  getPartialResult : γ → List Datum

inductive ExprType
  | columnRef | null | scalarFunc | count
  | other (tp : ℕ)
deriving DecidableEq, Repr

inductive PbExpr
  | mk (tp : ExprType) (val : Bytes) (children : List PbExpr)

def nilFlag : UInt8 := 0

/-- What the code takes from TiDB, and `sort.Sort`, with the two facts about index keys that the
proofs use. -/
structure Tidb (γ : Type) extends TidbCodec where
  decodeInt : Bytes → Except String (Bytes × Int64)
  decodeRowKey : Bytes → Except String Int64
  cutIndexKeyNew : Bytes → ℕ → Go (Except String (List Bytes × Bytes))
  decodeIndexValue : Bytes → FieldType → Except String Datum
  getDatum : FieldType → Datum → Datum
  toBool : Datum → Except String Int64
  compareDatum : CompareDatum
  sort : TopNHeap → Go TopNHeap
  pbToExpr : PbExpr → List FieldType → Except String Expression
  newDistAggFunc : PbExpr → List FieldType → Except String (Aggregation γ)
  length_cutIndexKeyNew : ∀ {key : Bytes} {length : ℕ} {values : List Bytes} {b : Bytes},
    cutIndexKeyNew key length = .ok (.ok (values, b)) → values.length = length
  isNull_decodeIndexValue : ∀ {b : Bytes} {ft : FieldType} {d : Datum},
    decodeIndexValue b ft = .ok d →
      ∃ flag rest, b = flag :: rest ∧ (d.isNull = true ↔ flag = nilFlag)

def extraHandleID : ℤ := -1

namespace RowCodec.Chunk

def numRows : Chunk → ℕ
  | [] => 0
  | column :: _ => column.length

def getRow (chk : Chunk) (i : ℕ) : Go (List Datum) := chk.mapM fun column => Go.index column i

def value (chk : Chunk) (i colIdx : ℕ) : Go Datum := do
  let column ← Go.index chk colIdx
  Go.index column i

def truncateTo (chk : Chunk) (n : ℕ) : Chunk := chk.map (List.take n)

def reset (chk : Chunk) : Chunk := chk.map fun _ => []

end RowCodec.Chunk

def rowsPerChunk : ℕ := 64

def chunkMaxRows : ℕ := 1024

def appendRow (chunks : List Bytes) (data : Bytes) (rowCnt : ℕ) : Go (List Bytes) := do
  let chunks := if rowCnt % rowsPerChunk = 0 then chunks ++ [[]] else chunks
  let cur ← Go.index chunks (chunks.length - 1)
  Go.setIndex chunks (chunks.length - 1) (cur ++ data)

def encodeValues (T : TidbCodec) : List Datum → Except String Bytes
  | [] => .ok []
  | d :: ds => do
    let b ← T.encodeValue d
    let bs ← encodeValues T ds
    return b ++ bs

structure ColumnInfo where
  columnId : ℤ
  pkHandle : Bool := false
  fieldType : FieldType
  defaultVal : Option Bytes := none
deriving DecidableEq, Repr

inductive PkStatus
  | pkColNotExists | pkColIsSigned | pkColIsUnsigned
deriving DecidableEq, Repr

structure IdxScanCtx where
  pkStatus : PkStatus
  columnLen : ℕ
deriving DecidableEq, Repr

inductive Processor
  | tableScan | indexScan | selection | topN | hashAgg | countStar | countColumn
deriving DecidableEq, Repr

structure ClosureExecutor (γ : Type) where
  columnInfos : List ColumnInfo
  outputOff : List ℕ
  limit : ℕ := maxInt
  idxScanCtx : Option IdxScanCtx := none
  conditions : List Expression := []
  orderByExprs : List Expression := []
  aggExprs : List (Aggregation γ) := []
  groupByExprs : List Expression := []
  col : Option ColumnInfo := none
  processor : Processor

structure ScanCtx where
  chk : Chunk
  decoder : Option Decoder := none
deriving DecidableEq, Repr

structure TopNCtx where
  heap : TopNHeap
  sortKey : List Datum
deriving DecidableEq, Repr

structure ExecState (γ : Type) where
  scanCtx : ScanCtx
  rowCount : ℕ := 0
  oldChunks : List Bytes := []
  topNCtx : Option TopNCtx := none
  groups : AList (fun _ : Bytes => Unit) := ∅
  groupKeys : List Bytes := []
  aggCtxsMap : AList (fun _ : Bytes => List γ) := ∅

inductive ExecError
  | scanBreak
  | failed (err : String)
deriving DecidableEq, Repr

namespace ClosureExecutor

variable {γ : Type} (T : Tidb γ) (e : ClosureExecutor γ)

def fieldTps : List FieldType := e.columnInfos.map ColumnInfo.fieldType

def tableScanProcessCore (s : ScanCtx) (key value : Bytes) : Go (ScanCtx × Option String) :=
  match T.decodeRowKey key with
  | .error err => return (s, some err)
  | .ok handle => do
    let decoder ← Go.deref s.decoder
    let (decoder, chk, err) ← decoder.decode T.toTidbCodec value handle s.chk
    return ({ chk := chk, decoder := some decoder }, err)

def decodeIndexValues : List Bytes → ℕ → Chunk → Go (Chunk × Option String)
  | [], _, chk => return (chk, none)
  | colVal :: values, i, chk => do
    let ft ← Go.index e.fieldTps i
    match T.decodeIndexValue colVal ft with
    | .error err => return (chk, some err)
    | .ok d =>
      let chk ← chk.append i d
      decodeIndexValues values (i + 1) chk

def uint64Handle (value : Bytes) : Go Int64 := do
  let _ ← Go.index value 7
  return (UInt64.ofNat (BigEndian.value (value.take 8))).toInt64

def indexScanProcessCore (s : ScanCtx) (key value : Bytes) : Go (ScanCtx × Option String) := do
  let ctx ← Go.deref e.idxScanCtx
  match ← T.cutIndexKeyNew key ctx.columnLen with
  | .error err => return (s, some err)
  | .ok (values, b) =>
    match ← e.decodeIndexValues T values 0 s.chk with
    | (chk, some err) => return ({ s with chk := chk }, some err)
    | (chk, none) =>
      if b.length > 0 then
        if ctx.pkStatus ≠ .pkColNotExists then
          let (chk, err) ← e.decodeIndexValues T [b] ctx.columnLen chk
          return ({ s with chk := chk }, err)
        else return ({ s with chk := chk }, none)
      else if ctx.pkStatus ≠ .pkColNotExists then
        let handle ← uint64Handle value
        let chk ← chk.append ctx.columnLen (.int64 handle)
        return ({ s with chk := chk }, none)
      else return ({ s with chk := chk }, none)

def processCore (s : ScanCtx) (key value : Bytes) : Go (ScanCtx × Option String) :=
  if e.idxScanCtx.isSome then e.indexScanProcessCore T s key value
  else tableScanProcessCore T s key value

def condition (expr : Expression) (row : List Datum) : Except String Bool := do
  let d ← expr row
  if d.isNull then return false
  let i ← T.toBool d
  return i ≠ 0

def evalConditions : List Expression → List Datum → Except String Bool
  | [], _ => return true
  | expr :: exprs, row => do
    let gotRow ← condition T expr row
    if gotRow then evalConditions exprs row else return false

def processSelection (chk : Chunk) : Go (Chunk × Except String Bool) := do
  let row ← chk.getRow (chk.numRows - 1)
  match evalConditions T e.conditions row with
  | .error err => return (chk, .error err)
  | .ok true => return (chk, .ok true)
  | .ok false => return (chk.truncateTo (chk.numRows - 1), .ok false)

/-- The output of one row of the chunk. -/
def encodeRow (chk : Chunk) (i : ℕ) : Go (Except String Bytes) := do
  let oldRow ← e.outputOff.mapM fun outputOff => do
    let d ← chk.value i outputOff
    let ft ← Go.index e.fieldTps outputOff
    return T.getDatum ft d
  return encodeValues T.toTidbCodec oldRow

def encodeRows (chk : Chunk) : ℕ → ℕ → List Bytes → Go (List Bytes × Option String)
  | 0, _, oldChunks => return (oldChunks, none)
  | n + 1, i, oldChunks => do
    match ← e.encodeRow T chk i with
    | .error err => return (oldChunks, some err)
    | .ok data =>
      let oldChunks ← appendRow oldChunks data i
      encodeRows chk n (i + 1) oldChunks

def chunkToOldChunk (s : ExecState γ) : Go (ExecState γ × Option String) := do
  match ← e.encodeRows T s.scanCtx.chk s.scanCtx.chk.numRows 0 s.oldChunks with
  | (oldChunks, some err) => return ({ s with oldChunks := oldChunks }, some err)
  | (oldChunks, none) =>
    return ({ s with
      oldChunks := oldChunks, scanCtx := { s.scanCtx with chk := s.scanCtx.chk.reset } }, none)

def scanProcess (core : ScanCtx → Go (ScanCtx × Option String)) (s : ExecState γ) :
    Go (ExecState γ × Option ExecError) := do
  if s.rowCount = e.limit then return (s, some .scanBreak)
  let (scanCtx, err) ← core s.scanCtx
  let s := { s with scanCtx := scanCtx, rowCount := s.rowCount + 1 }
  -- The error of the core is overwritten when the buffer is full.
  if s.scanCtx.chk.numRows = chunkMaxRows then
    let (s, err) ← e.chunkToOldChunk T s
    return (s, err.map .failed)
  else return (s, err.map .failed)

def tableScanProcess (s : ExecState γ) (key value : Bytes) : Go (ExecState γ × Option ExecError) :=
  e.scanProcess T (fun scanCtx => tableScanProcessCore T scanCtx key value) s

def indexScanProcess (s : ExecState γ) (key value : Bytes) : Go (ExecState γ × Option ExecError) :=
  e.scanProcess T (fun scanCtx => e.indexScanProcessCore T scanCtx key value) s

def selectionProcess (s : ExecState γ) (key value : Bytes) :
    Go (ExecState γ × Option ExecError) := do
  if s.rowCount = e.limit then return (s, some .scanBreak)
  match ← e.processCore T s.scanCtx key value with
  | (scanCtx, some err) => return ({ s with scanCtx := scanCtx }, some (.failed err))
  | (scanCtx, none) =>
    match ← e.processSelection T scanCtx.chk with
    | (chk, .error err) =>
      return ({ s with scanCtx := { scanCtx with chk := chk } }, some (.failed err))
    | (chk, .ok false) => return ({ s with scanCtx := { scanCtx with chk := chk } }, none)
    | (chk, .ok true) =>
      let s := { s with scanCtx := { scanCtx with chk := chk }, rowCount := s.rowCount + 1 }
      if s.scanCtx.chk.numRows = chunkMaxRows then
        let (s, err) ← e.chunkToOldChunk T s
        return (s, err.map .failed)
      else return (s, none)

def scanFinish (s : ExecState γ) : Go (ExecState γ × Option ExecError) := do
  let (s, err) ← e.chunkToOldChunk T s
  return (s, err.map .failed)

def processRow (s : ScanCtx) (key value : Bytes) : Go (ScanCtx × Except String Bool) := do
  match ← e.processCore T s key value with
  | (s, some err) => return (s, .error err)
  | (s, none) =>
    if e.conditions.length > 0 then
      let (chk, gotRow) ← e.processSelection T s.chk
      return ({ s with chk := chk }, gotRow)
    else return (s, .ok true)

def evalKey (row : List Datum) : List Expression → ℕ → List Datum → Go (List Datum × Option String)
  | [], _, key => return (key, none)
  | expr :: exprs, i, key => do
    let _ ← Go.index key i
    match expr row with
    | .error err => return (key, some err)
    | .ok d =>
      let key ← Go.setIndex key i d
      evalKey row exprs (i + 1) key

def newTopNSortRow : List Datum := List.replicate e.columnInfos.length .null

def topNProcess (s : ExecState γ) (key value : Bytes) : Go (ExecState γ × Option ExecError) := do
  match ← e.processRow T s.scanCtx key value with
  | (scanCtx, .error err) => return ({ s with scanCtx := scanCtx }, some (.failed err))
  | (scanCtx, .ok false) => return ({ s with scanCtx := scanCtx }, none)
  | (scanCtx, .ok true) =>
    let ctx ← Go.deref s.topNCtx
    let row ← scanCtx.chk.getRow 0
    match ← evalKey row e.orderByExprs 0 ctx.sortKey with
    | (sortKey, some err) =>
      return ({ s with scanCtx := scanCtx, topNCtx := some { ctx with sortKey := sortKey } },
        some (.failed err))
    | (sortKey, none) =>
      let (heap, added) ← ctx.heap.tryToAddRow T.compareDatum ⟨sortKey, [key, value]⟩
      let ctx := { heap := heap, sortKey := if added then e.newTopNSortRow else sortKey }
      return ({ s with
        scanCtx := { scanCtx with chk := scanCtx.chk.reset }, topNCtx := some ctx },
        heap.err.map .failed)

def topNRows : List SortRow → ExecState γ → Go (ExecState γ × Option String)
  | [], s => return (s, none)
  | row :: rows, s => do
    let key ← Go.index row.data 0
    let value ← Go.index row.data 1
    match ← e.processCore T s.scanCtx key value with
    | (scanCtx, some err) => return ({ s with scanCtx := scanCtx }, some err)
    | (scanCtx, none) =>
      let s := { s with scanCtx := scanCtx }
      if s.scanCtx.chk.numRows = chunkMaxRows then
        match ← e.chunkToOldChunk T s with
        | (s, some err) => return (s, some err)
        | (s, none) => topNRows rows s
      else topNRows rows s

def topNFinish (s : ExecState γ) : Go (ExecState γ × Option ExecError) := do
  let ctx ← Go.deref s.topNCtx
  let heap ← T.sort ctx.heap
  let s := { s with topNCtx := some { ctx with heap := heap } }
  match ← e.topNRows T heap.rows s with
  | (s, some err) => return (s, some (.failed err))
  | (s, none) => e.scanFinish T s

def groupKey (row : List Datum) : List Expression → Except String Bytes
  | [] => return []
  | item :: items => do
    let v ← item row
    let b ← T.encodeValue v
    let bs ← groupKey row items
    return b ++ bs

def getGroupKey (row : List Datum) : Except String Bytes := groupKey T row e.groupByExprs

def getContexts (s : ExecState γ) (groupKey : Bytes) : ExecState γ × List γ :=
  match s.aggCtxsMap.lookup groupKey with
  | some aggCtxs => (s, aggCtxs)
  | none =>
    let aggCtxs := e.aggExprs.map Aggregation.createContext
    ({ s with aggCtxsMap := s.aggCtxsMap.insert groupKey aggCtxs }, aggCtxs)

def updateContexts (row : List Datum) :
    List (Aggregation γ) → ℕ → List γ → Go (List γ × Option String)
  | [], _, aggCtxs => return (aggCtxs, none)
  | agg :: aggs, i, aggCtxs => do
    let ctx ← Go.index aggCtxs i
    let (ctx, err) := agg.update ctx row
    let aggCtxs ← Go.setIndex aggCtxs i ctx
    match err with
    | some err => return (aggCtxs, some err)
    | none => updateContexts row aggs (i + 1) aggCtxs

def addGroup (s : ExecState γ) (gk : Bytes) : ExecState γ :=
  match s.groups.lookup gk with
  | some _ => s
  | none => { s with groups := s.groups.insert gk (), groupKeys := s.groupKeys ++ [gk] }

def hashAggProcess (s : ExecState γ) (key value : Bytes) :
    Go (ExecState γ × Option ExecError) := do
  match ← e.processRow T s.scanCtx key value with
  | (scanCtx, .error err) => return ({ s with scanCtx := scanCtx }, some (.failed err))
  | (scanCtx, .ok false) => return ({ s with scanCtx := scanCtx }, none)
  | (scanCtx, .ok true) =>
    let row ← scanCtx.chk.getRow (scanCtx.chk.numRows - 1)
    -- The error of `getGroupKey` is not looked at; the key is nil then.
    let gk := (e.getGroupKey T row).toOption.getD []
    let (s, aggCtxs) := e.getContexts (addGroup { s with scanCtx := scanCtx } gk) gk
    let (aggCtxs, err) ← updateContexts row e.aggExprs 0 aggCtxs
    let s := { s with aggCtxsMap := s.aggCtxsMap.insert gk aggCtxs }
    match err with
    | some err => return (s, some (.failed err))
    | none =>
      return ({ s with scanCtx := { s.scanCtx with chk := s.scanCtx.chk.reset } }, none)

def encodeGroup : List (Aggregation γ) → ℕ → List γ → Bytes → Go (Except String Bytes)
  | [], _, _, oldRowBuf => return .ok oldRowBuf
  | agg :: aggs, i, aggCtxs, oldRowBuf => do
    let ctx ← Go.index aggCtxs i
    match encodeValues T.toTidbCodec (agg.getPartialResult ctx) with
    | .error err => return .error err
    | .ok b => encodeGroup aggs (i + 1) aggCtxs (oldRowBuf ++ b)

def encodeGroups : List Bytes → ℕ → ExecState γ → Go (ExecState γ × Option String)
  | [], _, s => return (s, none)
  | gk :: gks, i, s => do
    let (s, aggCtxs) := e.getContexts s gk
    match ← encodeGroup T e.aggExprs 0 aggCtxs [] with
    | .error err => return (s, some err)
    | .ok oldRowBuf =>
      let oldChunks ← appendRow s.oldChunks (oldRowBuf ++ gk) i
      encodeGroups gks (i + 1) { s with oldChunks := oldChunks }

def hashAggFinish (s : ExecState γ) : Go (ExecState γ × Option ExecError) := do
  let (s, err) ← e.encodeGroups T s.groupKeys 0 s
  return (s, err.map .failed)

def countStarProcess (s : ExecState γ) : Go (ExecState γ × Option ExecError) :=
  return ({ s with rowCount := s.rowCount + 1 }, none)

def indexCounts (ctx : IdxScanCtx) (key : Bytes) : Go (Except String Bool) := do
  match ← T.cutIndexKeyNew key ctx.columnLen with
  | .error err => return .error err
  | .ok (values, _) =>
    let first ← Go.index values 0
    let flag ← Go.index first 0
    return .ok (flag ≠ nilFlag)

def countColumnProcess (s : ExecState γ) (key value : Bytes) :
    Go (ExecState γ × Option ExecError) := do
  match e.idxScanCtx with
  | some ctx =>
    match ← indexCounts T ctx key with
    | .error err => return (s, some (.failed err))
    | .ok counts => return ({ s with rowCount := s.rowCount + counts.toNat }, none)
  | none =>
    let col ← Go.deref e.col
    let decoder ← Go.deref s.scanCtx.decoder
    let (decoder, isNull) ← decoder.columnIsNull value col.columnId col.defaultVal
    let s := { s with scanCtx := { s.scanCtx with decoder := some decoder } }
    match isNull with
    | .error err => return (s, some (.failed err))
    | .ok isNull => return ({ s with rowCount := s.rowCount + (!isNull).toNat }, none)

def countFinish (s : ExecState γ) : Go (ExecState γ × Option ExecError) :=
  match T.encodeValue (.int64 (Int64.ofNat s.rowCount)) with
  | .error err => return (s, some (.failed err))
  | .ok rowData => do
    let oldChunks ← appendRow s.oldChunks rowData 0
    return ({ s with oldChunks := oldChunks }, none)

def process (s : ExecState γ) (key value : Bytes) : Go (ExecState γ × Option ExecError) :=
  match e.processor with
  | .tableScan => e.tableScanProcess T s key value
  | .indexScan => e.indexScanProcess T s key value
  | .selection => e.selectionProcess T s key value
  | .topN => e.topNProcess T s key value
  | .hashAgg => e.hashAggProcess T s key value
  | .countStar => countStarProcess s
  | .countColumn => e.countColumnProcess T s key value

def finish (s : ExecState γ) : Go (ExecState γ × Option ExecError) :=
  match e.processor with
  | .tableScan | .indexScan | .selection => e.scanFinish T s
  | .topN => e.topNFinish T s
  | .hashAgg => e.hashAggFinish T s
  | .countStar | .countColumn => countFinish T s

def scan : List (Bytes × Bytes) → ExecState γ → Go (ExecState γ × Option ExecError)
  | [], s => return (s, none)
  | (key, value) :: pairs, s => do
    match ← e.process T s key value with
    | (s, none) => scan pairs s
    | (s, some err) => return (s, some err)

def execute (pairs : List (Bytes × Bytes)) (s : ExecState γ) :
    Go (ExecState γ × Option ExecError) := do
  match ← e.scan T pairs s with
  | (s, some (.failed err)) => return (s, some (.failed err))
  | (s, some .scanBreak) => e.finish T s
  | (s, none) => e.finish T s

def handleColID (columnInfos : List ColumnInfo) : ℤ :=
  columnInfos.foldl (fun handleColID col => if col.pkHandle then col.columnId else handleColID) 0

def newRowDecoder : Go (Except String Decoder) :=
  newDecoder T.toTidbCodec (e.columnInfos.map ColumnInfo.columnId) (handleColID e.columnInfos)
    e.fieldTps (e.columnInfos.map ColumnInfo.defaultVal)

def initIdxScanCtx (columnInfos : List ColumnInfo) : Go IdxScanCtx := do
  let lastColumn ← Go.index columnInfos (columnInfos.length - 1)
  if lastColumn.pkHandle then
    let pkStatus := if lastColumn.fieldType.unsigned then .pkColIsUnsigned else .pkColIsSigned
    return { pkStatus := pkStatus, columnLen := columnInfos.length - 1 }
  else if lastColumn.columnId = extraHandleID then
    return { pkStatus := .pkColIsSigned, columnLen := columnInfos.length - 1 }
  else return { pkStatus := .pkColNotExists, columnLen := columnInfos.length }

end ClosureExecutor

structure PbAggregation where
  aggFunc : List PbExpr
  groupBy : List PbExpr

inductive Executor
  | tableScan (columns : List ColumnInfo)
  | indexScan (columns : List ColumnInfo)
  | selection (conditions : List PbExpr)
  | limit (limit : ℕ)
  | topN (orderBy : List (PbExpr × ByItem)) (limit : ℕ)
  | aggregation (agg : PbAggregation)
  | streamAgg (agg : PbAggregation)

namespace ClosureExecutor

variable {γ : Type} (T : Tidb γ)

abbrev Built (γ : Type) := ClosureExecutor γ × ExecState γ

def newClosureExecutor (scanExec : Executor) (outputOff : List ℕ) :
    Go (Except String (Built γ)) := do
  match scanExec with
  | .tableScan columns =>
    let e : ClosureExecutor γ :=
      { columnInfos := columns, outputOff := outputOff, processor := .tableScan }
    match ← e.newRowDecoder T with
    | .error err => return .error err
    | .ok decoder =>
      let scanCtx := { chk := List.replicate columns.length [], decoder := some decoder }
      return .ok (e, { scanCtx := scanCtx })
  | .indexScan columns =>
    let idxScanCtx ← initIdxScanCtx columns
    let e : ClosureExecutor γ :=
      { columnInfos := columns, outputOff := outputOff, idxScanCtx := some idxScanCtx
        processor := .indexScan }
    return .ok (e, { scanCtx := { chk := List.replicate columns.length [] } })
  | _ => .error (.text "unknown first executor type")

def convertToExprs (fieldTps : List FieldType) (pbExprs : List PbExpr) :
    Except String (List Expression) :=
  pbExprs.mapM fun expr => T.pbToExpr expr fieldTps

def buildTopNProcessor (b : Built γ) (orderBy : List (PbExpr × ByItem)) (limit : ℕ) :
    Except String (Built γ) := do
  let conds ← convertToExprs T b.1.fieldTps (orderBy.map Prod.fst)
  let heap := TopNHeap.new (orderBy.map Prod.snd) limit
  return ({ b.1 with orderByExprs := conds, processor := .topN },
    { b.2 with topNCtx := some { heap := heap, sortKey := b.1.newTopNSortRow } })

def buildHashAggProcessor (b : Built γ) (agg : PbAggregation) : Except String (Built γ) := do
  let aggs ← agg.aggFunc.mapM fun expr => T.newDistAggFunc expr b.1.fieldTps
  let groupBys ← convertToExprs T b.1.fieldTps agg.groupBy
  return ({ b.1 with aggExprs := aggs, groupByExprs := groupBys, processor := .hashAgg }, b.2)

def countChild : PbAggregation → Option PbExpr
  | ⟨[.mk .count _ [child]], []⟩ => some child
  | _ => none

def tryBuildCountProcessor (b : Built γ) (child : PbExpr) :
    Go (Except String (Option (Built γ))) := do
  match child with
  | .mk .columnRef val _ =>
    match T.decodeInt val with
    | .error err => return .error err
    | .ok (_, idx) =>
      if idx < 0 then .error .indexOutOfRange
      let col ← Go.index b.1.columnInfos idx.toNatClampNeg
      if col.pkHandle then
        return .ok (some ({ b.1 with col := some col, processor := .countStar }, b.2))
      else return .ok (some ({ b.1 with col := some col, processor := .countColumn }, b.2))
  | .mk .null _ _ | .mk .scalarFunc _ _ => return .ok none
  | _ => return .ok (some ({ b.1 with processor := .countStar }, b.2))

def buildStreamAggProcessor (b : Built γ) (executors : List Executor) (agg : PbAggregation) :
    Go (Except String (Built γ)) := do
  match if executors.length > 2 then none else countChild agg with
  | none => return buildHashAggProcessor T b agg
  | some child =>
    match ← tryBuildCountProcessor T b child with
    | .error err => return .error err
    | .ok (some b) => return .ok b
    | .ok none => return buildHashAggProcessor T b agg

def buildSelection (b : Built γ) : Executor → Except String (Built γ)
  | .selection conditions => do
    let conditions ← convertToExprs T b.1.fieldTps conditions
    return ({ b.1 with conditions := conditions, processor := .selection }, b.2)
  | _ => return b

def buildClosureExecutor (executors : List Executor) (outputOff : List ℕ) :
    Go (Except String (Built γ)) := do
  let scanExec ← Go.index executors 0
  match ← newClosureExecutor T scanExec outputOff with
  | .error err => return .error err
  | .ok b =>
    if executors.length = 1 then return .ok b
    let secondExec ← Go.index executors 1
    match buildSelection T b secondExec with
    | .error err => return .error err
    | .ok b =>
      let lastExecutor ← Go.index executors (executors.length - 1)
      match lastExecutor with
      | .limit limit => return .ok ({ b.1 with limit := limit }, b.2)
      | .topN orderBy limit => return buildTopNProcessor T b orderBy limit
      | .aggregation agg => return buildHashAggProcessor T b agg
      | .streamAgg agg => buildStreamAggProcessor T b executors agg
      | .selection _ => return .ok ({ b.1 with processor := .selection }, b.2)
      | .tableScan _ | .indexScan _ => .error (.text "unknown executor type")

end ClosureExecutor

end TinyKV
