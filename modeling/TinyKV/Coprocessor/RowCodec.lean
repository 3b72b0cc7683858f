import Mathlib.Data.List.Sort
import TinyKV.LittleEndian
import TinyKV.Search
import TinyKV.Slice

/-!
# The row format

`kv/coprocessor/rowcodec`.
-/

namespace TinyKV

inductive Datum
  | null
  | int64 (v : Int64)
  | uint64 (v : UInt64)
  | bytes (b : Bytes)
  | float32 (bits : UInt32)
  | float64 (bits : UInt64)
  | other (kind : ℕ) (content : Bytes)
deriving DecidableEq, Repr

def Datum.isNull : Datum → Bool
  | .null => true
  | _ => false

/-- What the code takes from TiDB. -/
structure TidbCodec where
  encodeValue : Datum → Except String Bytes
  decodeOne : Bytes → Except String (Bytes × Datum)
  decodeFloat : Bytes → Except String (Bytes × UInt64)
  toFloat32 : UInt64 → UInt32
  newBinaryLiteralFromUint : UInt64 → ℤ → Go Bytes

namespace RowCodec

def uint16 (b : Bytes) : Go ℕ := do
  let _ ← Go.index b 1
  return LittleEndian.value (b.take 2)

def uint64 (b : Bytes) : Go ℕ := do
  let _ ← Go.index b 7
  return LittleEndian.value (b.take 8)

def encodeInt (buf : Bytes) (iVal : Int64) : Bytes :=
  if iVal.toInt8.toInt64 = iVal then buf ++ LittleEndian.bytes 1 iVal.toUInt64.toNat
  else if iVal.toInt16.toInt64 = iVal then buf ++ LittleEndian.bytes 2 iVal.toUInt64.toNat
  else if iVal.toInt32.toInt64 = iVal then buf ++ LittleEndian.bytes 4 iVal.toUInt64.toNat
  else buf ++ LittleEndian.bytes 8 iVal.toUInt64.toNat

def decodeInt (val : Bytes) : Go Int64 := do
  match val.length with
  | 1 => return (UInt8.ofNat (LittleEndian.value val)).toInt8.toInt64
  | 2 => return (UInt16.ofNat (LittleEndian.value val)).toInt16.toInt64
  | 4 => return (UInt32.ofNat (LittleEndian.value val)).toInt32.toInt64
  | _ => return (UInt64.ofNat (← uint64 val)).toInt64

def encodeUint (buf : Bytes) (uVal : UInt64) : Bytes :=
  if uVal.toUInt8.toUInt64 = uVal then buf ++ LittleEndian.bytes 1 uVal.toNat
  else if uVal.toUInt16.toUInt64 = uVal then buf ++ LittleEndian.bytes 2 uVal.toNat
  else if uVal.toUInt32.toUInt64 = uVal then buf ++ LittleEndian.bytes 4 uVal.toNat
  else buf ++ LittleEndian.bytes 8 uVal.toNat

def decodeUint (val : Bytes) : Go UInt64 := do
  match val.length with
  | 1 | 2 | 4 => return UInt64.ofNat (LittleEndian.value val)
  | _ => return UInt64.ofNat (← uint64 val)

def codecVer : UInt8 := 128

def maxUint16 : ℕ := 2^16 - 1

structure Row where
  large : Bool := false
  numNotNullCols : ℕ := 0
  numNullCols : ℕ := 0
  colIDs : Slice ℕ := .empty
  offsets : Slice ℕ := .empty
  data : Bytes := []
  colIDs32 : Slice ℕ := .empty
  offsets32 : Slice ℕ := .empty
deriving DecidableEq, Repr

namespace Row

def numCols (r : Row) : ℕ := (r.numNotNullCols + r.numNullCols) % 2^16

def ids (r : Row) : Slice ℕ := if r.large then r.colIDs32 else r.colIDs

def getData (r : Row) (i : ℕ) : Go Bytes := do
  let offsets := if r.large then r.offsets32.view else r.offsets.view
  let start ← if i > 0 then Go.index offsets (i - 1) else pure 0
  let stop ← Go.index offsets i
  Go.slice r.data start stop

def setRowData (r : Row) (rowData : Bytes) : Go (Except String Row) := do
  let ver ← Go.index rowData 0
  if ver ≠ codecVer then return .error "invalid codec version"
  let flag ← Go.index rowData 1
  let numNotNullCols ← uint16 (← Go.slice rowData 2 rowData.length)
  let numNullCols ← uint16 (← Go.slice rowData 4 rowData.length)
  let r := { r with
    large := flag &&& 1 > 0, numNotNullCols := numNotNullCols, numNullCols := numNullCols }
  let cursor := 6
  if r.large then
    let colIDsLen := r.numCols * 4
    let colIDs ← Go.slice rowData cursor (cursor + colIDsLen)
    let cursor := cursor + colIDsLen
    let offsetsLen := r.numNotNullCols * 4
    let offsets ← Go.slice rowData cursor (cursor + offsetsLen)
    let data ← Go.slice rowData (cursor + offsetsLen) rowData.length
    return .ok { r with
      colIDs32 := ⟨LittleEndian.unpack 4 colIDs, []⟩
      offsets32 := ⟨LittleEndian.unpack 4 offsets, []⟩
      data := data }
  else
    let colIDsLen := r.numCols
    let colIDs ← Go.slice rowData cursor (cursor + colIDsLen)
    let cursor := cursor + colIDsLen
    let offsetsLen := r.numNotNullCols * 2
    let offsets ← Go.slice rowData cursor (cursor + offsetsLen)
    let data ← Go.slice rowData (cursor + offsetsLen) rowData.length
    return .ok { r with
      colIDs := ⟨LittleEndian.unpack 1 colIDs, []⟩
      offsets := ⟨LittleEndian.unpack 2 offsets, []⟩
      data := data }

def findNotNull (r : Row) (colID : ℤ) : Go (Option ℕ) :=
  Search.find (r.ids.view.map Int.ofNat) colID 0 r.numNotNullCols

def findNull (r : Row) (colID : ℤ) : Go Bool :=
  Option.isSome <$> Search.find (r.ids.view.map Int.ofNat) colID r.numNotNullCols r.numCols

def isNull (r : Row) (colID : ℤ) (defaultVal : Option Bytes) : Go Bool := do
  if ← r.findNull colID then return true
  return defaultVal.isNone

end Row

structure Encoder extends Row where
  tempColIDs : List ℤ := []
  values : List Datum := []
deriving DecidableEq, Repr

namespace Encoder

def reset (e : Encoder) : Encoder :=
  { e with large := false, numNotNullCols := 0, numNullCols := 0, data := [], tempColIDs := []
           values := [] }

def addColumn (e : Encoder) (colID : ℤ) (d : Datum) : Encoder :=
  let e := if colID > 255 then { e with large := true } else e
  let e :=
    if d.isNull then { e with numNullCols := (e.numNullCols + 1) % 2^16 }
    else { e with numNotNullCols := (e.numNotNullCols + 1) % 2^16 }
  { e with tempColIDs := e.tempColIDs ++ [colID], values := e.values ++ [d] }

/-- The loop of `Encode` over the ids that are left, with the index of the first of them. -/
def addColumns (values : List Datum) : List ℤ → ℕ → Encoder → Go Encoder
  | [], _, e => return e
  | colID :: colIDs, i, e => do
    let d ← Go.index values i
    addColumns values colIDs (i + 1) (e.addColumn colID d)

def initColIDs (e : Encoder) : Encoder := { e with colIDs := e.colIDs.resize 0 e.numCols }

def initColIDs32 (e : Encoder) : Encoder := { e with colIDs32 := e.colIDs32.resize 0 e.numCols }

def initOffsets (e : Encoder) : Encoder := { e with offsets := e.offsets.resize 0 e.numNotNullCols }

def initOffsets32 (e : Encoder) : Encoder :=
  { e with offsets32 := e.offsets32.resize 0 e.numNotNullCols }

def setIds (e : Encoder) (ids : Slice ℕ) : Encoder :=
  if e.large then { e with colIDs32 := ids } else { e with colIDs := ids }

def toColID (e : Encoder) (colID : ℤ) : ℕ :=
  if e.large then (colID % 2^32).toNat else (colID % 2^8).toNat

def separate : List ℤ → ℕ → ℕ → ℕ → Encoder → Go (Encoder × ℕ)
  | [], _, _, notNullIdx, e => return (e, notNullIdx)
  | colID :: colIDs, i, nullIdx, notNullIdx, e => do
    let d ← Go.index e.values i
    if d.isNull then
      let ids ← e.ids.set nullIdx (e.toColID colID)
      separate colIDs (i + 1) (nullIdx + 1) notNullIdx (e.setIds ids)
    else
      let ids ← e.ids.set notNullIdx (e.toColID colID)
      let values ← Go.setIndex e.values notNullIdx d
      separate colIDs (i + 1) nullIdx (notNullIdx + 1) { e.setIds ids with values := values }

def sortNotNull (e : Encoder) : Encoder :=
  let n := e.numNotNullCols
  let sorted := ((e.ids.view.take n).zip (e.values.take n)).insertionSort fun x y => x.1 ≤ y.1
  { e.setIds { e.ids with view := sorted.map Prod.fst ++ e.ids.view.drop n } with
    values := sorted.map Prod.snd ++ e.values.drop n }

def sortNull (e : Encoder) : Encoder :=
  let nullCols := e.ids.view.drop e.numNotNullCols
  let sorted := (nullCols.take e.numNullCols).insertionSort fun x y => x ≤ y
  e.setIds { e.ids with
    view := e.ids.view.take e.numNotNullCols ++ (sorted ++ nullCols.drop e.numNullCols) }

def appendValue (T : TidbCodec) (data : Bytes) (d : Datum) : Go (Except String Bytes) :=
  match d with
  | .int64 v => return .ok (encodeInt data v)
  | .uint64 v => return .ok (encodeUint data v)
  | .bytes b => return .ok (data ++ b)
  | d =>
    match T.encodeValue d with
    | .error err => return .error err
    | .ok tempData => do
      let value ← Go.slice tempData 1 tempData.length
      return .ok (data ++ value)

def toLarge (e : Encoder) (i : ℕ) : Go Encoder := do
  let e := e.initColIDs32
  let ids ← Go.slice e.colIDs.view 0 e.tempColIDs.length
  let colIDs32 ← e.colIDs32.copyFrom id ids
  let e := { e with colIDs32 := colIDs32 }
  let e := e.initOffsets32
  let offsets ← Go.slice e.offsets.view 0 (i + 1)
  let offsets32 ← e.offsets32.copyFrom id offsets
  return { e with offsets32 := offsets32, large := true }

def setOffset (e : Encoder) (i : ℕ) : Go Encoder := do
  if e.large then
    let offsets32 ← e.offsets32.set i (e.data.length % 2^32)
    return { e with offsets32 := offsets32 }
  else
    let offsets ← e.offsets.set i (e.data.length % 2^16)
    return { e with offsets := offsets }

def buildData (T : TidbCodec) : List Datum → ℕ → Encoder → Go (Encoder × Option String)
  | [], _, e => return (e, none)
  | d :: values, i, e => do
    match ← appendValue T e.data d with
    | .error err => return (e, some err)
    | .ok data =>
      let e := { e with data := data }
      let e ← if e.data.length > maxUint16 ∧ e.large = false then e.toLarge i else pure e
      let e ← e.setOffset i
      buildData T values (i + 1) e

def finish (e : Encoder) : Go Encoder := do
  if e.large then return e
  else if e.data.length ≥ maxUint16 then
    let e := { e with large := true }
    let e := e.initColIDs32
    let colIDs32 ← e.colIDs32.copyFrom id e.colIDs.view
    return { e with colIDs32 := colIDs32 }
  else
    let e := e.initOffsets
    let offsets ← e.offsets.copyFrom (· % 2^16) e.offsets32.view
    return { e with offsets := offsets }

def toBytes (e : Encoder) : Bytes :=
  [codecVer, if e.large then 1 else 0] ++ LittleEndian.bytes 2 e.numNotNullCols ++
    LittleEndian.bytes 2 e.numNullCols ++
    (if e.large then LittleEndian.pack 4 e.colIDs32.view ++ LittleEndian.pack 4 e.offsets32.view
      else LittleEndian.pack 1 e.colIDs.view ++ LittleEndian.pack 2 e.offsets.view) ++ e.data

def build (T : TidbCodec) (e : Encoder) : Go (Encoder × Except String Bytes) := do
  let nullIdx := e.tempColIDs.length - e.numNullCols
  let e := if e.large then e.initColIDs32.initOffsets32 else e.initColIDs.initOffsets
  let (e, notNullIdx) ← separate e.tempColIDs 0 nullIdx 0 e
  let e := e.sortNotNull
  let e := if e.numNullCols > 0 then e.sortNull else e
  let values ← Go.slice e.values 0 notNullIdx
  let (e, err) ← buildData T values 0 e
  match err with
  | some err => return (e, .error err)
  | none =>
    let e ← e.finish
    return (e, .ok e.toBytes)

def encode (T : TidbCodec) (e : Encoder) (colIDs : List ℤ) (values : List Datum) :
    Go (Encoder × Except String Bytes) := do
  let e ← addColumns values colIDs 0 e.reset
  e.build T

end Encoder

inductive MysqlType
  | longlong | long | int24 | short | tiny | year | float | double
  | varString | varchar | string | blob | tinyBlob | mediumBlob | longBlob | bit
  | other (tp : ℕ)
deriving DecidableEq, Repr

structure FieldType where
  tp : MysqlType
  unsigned : Bool := false
  flen : ℤ := 0
deriving DecidableEq, Repr

abbrev Chunk := List (List Datum)

def Chunk.append (chk : Chunk) (colIdx : ℕ) (d : Datum) : Go Chunk := do
  let column ← Go.index chk colIdx
  return chk.set colIdx (column ++ [d])

structure Decoder extends Row where
  requestColIDs : List ℤ
  handleColID : ℤ
  requestTypes : List FieldType
  origDefaults : List (Option Bytes)
deriving DecidableEq, Repr

def convertDefaultValue (T : TidbCodec) (defaultVal : Bytes) : Go (Except String (Option Bytes)) :=
  match T.decodeOne defaultVal with
  | .error err => return .error err
  | .ok (_, d) =>
    match d with
    | .null => return .ok none
    | .int64 v => return .ok (some (encodeInt [] v))
    | .uint64 v => return .ok (some (encodeUint [] v))
    | .bytes b => return .ok (some b)
    | .float32 bits => return .ok (some (encodeUint [] bits.toUInt64))
    | .float64 bits => return .ok (some (encodeUint [] bits))
    | .other _ _ => do
      let colVal ← Go.slice defaultVal 1 defaultVal.length
      return .ok (some colVal)

def convertDefaults (T : TidbCodec) : List (Option Bytes) → Go (Except String (List (Option Bytes)))
  | [] => return .ok []
  | origDefault :: origDefaults => do
    match origDefault with
    | none | some [] =>
      match ← convertDefaults T origDefaults with
      | .error err => return .error err
      | .ok defaults => return .ok (none :: defaults)
    | some defaultVal =>
      match ← convertDefaultValue T defaultVal with
      | .error err => return .error err
      | .ok colVal =>
        match ← convertDefaults T origDefaults with
        | .error err => return .error err
        | .ok defaults => return .ok (colVal :: defaults)

def newDecoder (T : TidbCodec) (requestColIDs : List ℤ) (handleColID : ℤ) (tps : List FieldType)
    (origDefaults : List (Option Bytes)) : Go (Except String Decoder) := do
  match ← convertDefaults T origDefaults with
  | .error err => return .error err
  | .ok defaults =>
    return .ok { requestColIDs := requestColIDs, handleColID := handleColID, requestTypes := tps
                 origDefaults := defaults }

namespace Decoder

def colValue (T : TidbCodec) (ft : FieldType) (colData : Bytes) : Go (Except String Datum) :=
  match ft.tp with
  | .longlong | .long | .int24 | .short | .tiny | .year =>
    if ft.unsigned then return .ok (.uint64 (← decodeUint colData))
    else return .ok (.int64 (← decodeInt colData))
  | .float =>
    match T.decodeFloat colData with
    | .error err => return .error err
    | .ok (_, fVal) => return .ok (.float32 (T.toFloat32 fVal))
  | .double =>
    match T.decodeFloat colData with
    | .error err => return .error err
    | .ok (_, fVal) => return .ok (.float64 fVal)
  | .varString | .varchar | .string | .blob | .tinyBlob | .mediumBlob | .longBlob =>
    return .ok (.bytes colData)
  | .bit => do
    let byteSize := (ft.flen + 7) / 8
    return .ok (.bytes (← T.newBinaryLiteralFromUint (← decodeUint colData) byteSize))
  | .other tp => return .error s!"unknown type {tp}"

def decodeColData (T : TidbCodec) (decoder : Decoder) (colIdx : ℕ) (colData : Bytes) (chk : Chunk) :
    Go (Except String Chunk) := do
  let ft ← Go.index decoder.requestTypes colIdx
  match ← colValue T ft colData with
  | .error err => return .error err
  | .ok d => return .ok (← chk.append colIdx d)

def decodeColumn (T : TidbCodec) (decoder : Decoder) (handle : Int64) (colIdx : ℕ) (colID : ℤ)
    (chk : Chunk) : Go (Except String Chunk) := do
  if colID = decoder.handleColID then return .ok (← chk.append colIdx (.int64 handle))
  match ← decoder.findNotNull colID with
  | some h =>
    let colData ← decoder.getData h
    decoder.decodeColData T colIdx colData chk
  | none =>
    let defaultVal ← Go.index decoder.origDefaults colIdx
    if ← decoder.isNull colID defaultVal then return .ok (← chk.append colIdx .null)
    else
      -- A default that is nil is NULL.
      decoder.decodeColData T colIdx (defaultVal.getD []) chk

def decodeColumns (T : TidbCodec) (decoder : Decoder) (handle : Int64) :
    List ℤ → ℕ → Chunk → Go (Chunk × Option String)
  | [], _, chk => return (chk, none)
  | colID :: colIDs, colIdx, chk => do
    match ← decoder.decodeColumn T handle colIdx colID chk with
    | .error err => return (chk, some err)
    | .ok chk => decodeColumns T decoder handle colIDs (colIdx + 1) chk

def decode (T : TidbCodec) (decoder : Decoder) (rowData : Bytes) (handle : Int64) (chk : Chunk) :
    Go (Decoder × Chunk × Option String) := do
  match ← decoder.toRow.setRowData rowData with
  | .error err => return (decoder, chk, some err)
  | .ok r =>
    let decoder := { decoder with toRow := r }
    let (chk, err) ← decoder.decodeColumns T handle decoder.requestColIDs 0 chk
    return (decoder, chk, err)

def columnIsNull (decoder : Decoder) (rowData : Bytes) (colID : ℤ) (defaultVal : Option Bytes) :
    Go (Decoder × Except String Bool) := do
  match ← decoder.toRow.setRowData rowData with
  | .error err => return (decoder, .error err)
  | .ok r =>
    let decoder := { decoder with toRow := r }
    match ← decoder.findNotNull colID with
    | some _ => return (decoder, .ok false)
    | none => return (decoder, .ok (← decoder.isNull colID defaultVal))

end Decoder

end RowCodec

end TinyKV
