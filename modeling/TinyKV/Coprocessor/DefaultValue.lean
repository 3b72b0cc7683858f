import TinyKV.Coprocessor.RoundTrip

/-!
# Default values and stored values

A column that a row does not have is given its default, which `NewDecoder` has converted from the
format of TiDB to that of the row.
-/

namespace TinyKV

open List

namespace RowCodec

def floatOrder (bits : ℕ) : ℕ := if bits < 2^63 then bits + 2^63 else 2^64 - 1 - bits

def floatBits (v : ℕ) : ℕ := if v < 2^63 then 2^64 - 1 - v else v - 2^63

def encodeFloat (bits : UInt64) : Bytes := BigEndian.bytes 8 (floatOrder bits.toNat)

def isValue : Datum → Bool
  | .int64 _ | .uint64 _ | .bytes _ | .float32 _ | .float64 _ => true
  | _ => false

structure TidbLaws (T : TidbCodec) where
  toFloat64 : UInt32 → UInt64
  widens : Bool
  decodeOne_encodeValue : ∀ d, isValue d = true → ∃ flag b, T.encodeValue d = .ok (flag :: b) ∧
    T.decodeOne (flag :: b) = .ok ([], match d with
      | .float32 bits => if widens then .float64 (toFloat64 bits) else .float32 bits
      | d => d)
  encodeValue_float64 : ∀ bits,
    ∃ flag, T.encodeValue (.float64 bits) = .ok (flag :: encodeFloat bits)
  encodeValue_float32 : ∀ bits, ∃ flag,
    T.encodeValue (.float32 bits) = .ok (flag :: encodeFloat (toFloat64 bits))
  decodeFloat_encodeFloat : ∀ bits, T.decodeFloat (encodeFloat bits) = .ok ([], bits)
  decodeFloat_short : ∀ b, b.length < 8 → ∃ err, T.decodeFloat b = .error err
  literal : UInt64 → ℤ → Bytes
  newBinaryLiteralFromUint_eq : ∀ v size, 1 ≤ size → size ≤ 8 →
    T.newBinaryLiteralFromUint v size = .ok (literal v size)

def HasType (ft : FieldType) (d : Datum) : Prop :=
  match ft.tp with
  | .longlong | .long | .int24 | .short | .tiny | .year =>
    if ft.unsigned then ∃ v, d = .uint64 v else ∃ v, d = .int64 v
  | .float => ∃ bits, d = .float32 bits
  | .double => ∃ bits, d = .float64 bits
  | .varString | .varchar | .string | .blob | .tinyBlob | .mediumBlob | .longBlob =>
    ∃ b, d = .bytes b
  | .bit => (1 ≤ ft.flen ∧ ft.flen ≤ 64) ∧ ∃ v, d = .uint64 v
  | .other _ => False

def byteSwap (v : ℕ) : ℕ := BigEndian.value (LittleEndian.bytes 8 v)

def swapped (bits : UInt64) : UInt64 := UInt64.ofNat (floatBits (byteSwap bits.toNat))

namespace TidbLaws

variable {T : TidbCodec} (L : TidbLaws T) (ft : FieldType)

def stored : Datum → Datum
  | .uint64 v => if ft.tp = .bit then .bytes (L.literal v ((ft.flen + 7) / 8)) else .uint64 v
  | .float32 bits => .float32 (T.toFloat32 (L.toFloat64 bits))
  | d => d

def default : Datum → Option Datum
  | .float32 bits =>
    if L.widens = true ∧ 2^32 ≤ (L.toFloat64 bits).toNat then
      some (.float32 (T.toFloat32 (swapped (L.toFloat64 bits))))
    else none
  | .float64 bits => if 2^32 ≤ bits.toNat then some (.float64 (swapped bits)) else none
  | d => some (L.stored ft d)

def Good : Datum → Prop
  | .float64 bits => 2^63 ≤ bits.toNat ∧ bits.toNat + byteSwap bits.toNat = 2^64 - 1
  | .float32 bits => L.widens = true ∧ 2^32 ≤ (L.toFloat64 bits).toNat ∧
    T.toFloat32 (swapped (L.toFloat64 bits)) = T.toFloat32 (L.toFloat64 bits)
  | _ => True

end TidbLaws

variable {T : TidbCodec} {dec : Decoder} {handle : Int64} {colIdx : ℕ} {colID : ℤ} {chk : Chunk}
  {column : List Datum} {ft : FieldType} {data : Bytes}

def Decoder.withRow (dec : Decoder) (r : Row) : Decoder := { dec with toRow := r }

theorem decodeColData_eq (hft : dec.requestTypes[colIdx]? = some ft)
    (hchk : chk[colIdx]? = some column) :
    dec.decodeColData T colIdx data chk = do
      match ← Decoder.colValue T ft data with
      | .error err => return .error err
      | .ok d => return .ok (chk.set colIdx (column ++ [d])) := by
  have happend : ∀ d, chk.append colIdx d = .ok (chk.set colIdx (column ++ [d])) := by
    intro d
    rw [Chunk.append, Go.index_eq_ok hchk, Go.ok_bind]
    rfl
  rw [Decoder.decodeColData, Go.index_eq_ok hft, Go.ok_bind]
  simp only [happend]
  rfl

theorem decodeColumn_of_handle (heq : colID = dec.handleColID) (hchk : chk[colIdx]? = some column) :
    dec.decodeColumn T handle colIdx colID chk =
      .ok (.ok (chk.set colIdx (column ++ [.int64 handle]))) := by
  rw [Decoder.decodeColumn, if_pos heq, Chunk.append, Go.index_eq_ok hchk]
  rfl

theorem decodeColumn_of_found (hne : colID ≠ dec.handleColID) {i : ℕ}
    (h : dec.toRow.findNotNull colID = .ok (some i)) :
    dec.decodeColumn T handle colIdx colID chk =
      dec.toRow.getData i >>= fun data => dec.decodeColData T colIdx data chk := by
  rw [Decoder.decodeColumn, if_neg hne, h, Go.ok_bind]

theorem decodeColumn_of_absent (hne : colID ≠ dec.handleColID)
    (h : dec.toRow.lookup colID = .ok .absent)
    (hdefault : dec.origDefaults[colIdx]? = some (some data)) :
    dec.decodeColumn T handle colIdx colID chk = dec.decodeColData T colIdx data chk := by
  obtain ⟨hfound, hnull⟩ := Row.of_lookup_none h (fun _ => by simp)
  rw [Decoder.decodeColumn, if_neg hne, hfound, Go.ok_bind]
  dsimp only
  rw [Go.index_eq_ok hdefault, Go.ok_bind, Row.isNull, hnull, Go.ok_bind]
  rfl

def convertDefault (T : TidbCodec) : Option Bytes → Go (Except String (Option Bytes))
  | none | some [] => .ok (.ok none)
  | some defaultVal => convertDefaultValue T defaultVal

theorem convertDefaults_cons {origDefault : Option Bytes} {defaults converted : List (Option Bytes)}
    (h : convertDefaults T (origDefault :: defaults) = .ok (.ok converted)) :
    ∃ colVal rest, converted = colVal :: rest ∧ convertDefault T origDefault = .ok (.ok colVal) ∧
      convertDefaults T defaults = .ok (.ok rest) := by
  match origDefault with
  | none | some [] =>
    obtain ⟨r, hrest, h⟩ := Go.bind_eq_ok.mp h
    cases r with
    | error err => cases h
    | ok rest =>
      cases h
      exact ⟨none, rest, rfl, rfl, hrest⟩
  | some (x :: b) =>
    obtain ⟨r, hvalue, h⟩ := Go.bind_eq_ok.mp h
    cases r with
    | error err => cases h
    | ok colVal =>
      obtain ⟨r, hrest, h⟩ := Go.bind_eq_ok.mp h
      cases r with
      | error err => cases h
      | ok rest =>
        cases h
        exact ⟨colVal, rest, rfl, hvalue, hrest⟩

theorem convertDefaults_eq {defaults converted : List (Option Bytes)}
    (h : convertDefaults T defaults = .ok (.ok converted)) {i : ℕ} {origDefault : Option Bytes}
    (hget : defaults[i]? = some origDefault) :
    ∃ colVal, convertDefault T origDefault = .ok (.ok colVal) ∧ converted[i]? = some colVal := by
  induction defaults generalizing converted i with
  | nil => cases hget
  | cons first defaults ih =>
    obtain ⟨colVal, rest, rfl, hvalue, hrest⟩ := convertDefaults_cons h
    cases i with
    | zero =>
      cases hget
      exact ⟨colVal, hvalue, rfl⟩
    | succ i => exact ih hrest hget

theorem newDecoder_eq {requestColIDs : List ℤ} {handleColID : ℤ} {tps : List FieldType}
    {defaults : List (Option Bytes)}
    (h : newDecoder T requestColIDs handleColID tps defaults = .ok (.ok dec)) :
    dec.handleColID = handleColID ∧ dec.requestTypes = tps ∧
      convertDefaults T defaults = .ok (.ok dec.origDefaults) := by
  obtain ⟨r, hconvert, h⟩ := Go.bind_eq_ok.mp h
  cases r with
  | error err => cases h
  | ok converted =>
    cases h
    exact ⟨rfl, rfl, hconvert⟩

/-- A row that holds the datum in a column, a row that does not have the column, and a decoder with
the datum as the default of the column. -/
structure DefaultCase (T : TidbCodec) (ft : FieldType) (d : Datum) where
  row : TableRow
  val : Datum → Bytes
  encodes : Encodes val T row.cols
  length_lt : (rowData val row.cols).length < 2^32
  colID : ℤ
  mem : (colID, d) ∈ row.cols
  dec : Decoder
  requestColIDs : List ℤ
  handleColID : ℤ
  tps : List FieldType
  defaults : List (Option Bytes)
  newDecoder_eq : newDecoder T requestColIDs handleColID tps defaults = .ok (.ok dec)
  colIdx : ℕ
  requested : requestColIDs[colIdx]? = some colID
  type_eq : tps[colIdx]? = some ft
  defaultVal : Bytes
  encodeValue_eq : T.encodeValue d = .ok defaultVal
  default_eq : defaults[colIdx]? = some (some defaultVal)
  otherData : Bytes
  other : Row
  other_eq : dec.toRow.setRowData otherData = .ok (.ok other)
  absent : other.lookup colID = .ok .absent

def DefaultCase.Agrees {d : Datum} (c : DefaultCase T ft d) : Prop :=
  ∃ b r, Prod.snd <$> ({} : Encoder).encode T (c.row.cols.map Prod.fst) (c.row.cols.map Prod.snd) =
      .ok (.ok b) ∧
    c.dec.toRow.setRowData b = .ok (.ok r) ∧
    ∀ (handle : Int64) (chk : Chunk) (column : List Datum), chk[c.colIdx]? = some column →
      ∃ v, (c.dec.withRow c.other).decodeColumn T handle c.colIdx c.colID chk =
          .ok (.ok (chk.set c.colIdx (column ++ [v]))) ∧
        (c.dec.withRow r).decodeColumn T handle c.colIdx c.colID chk =
          .ok (.ok (chk.set c.colIdx (column ++ [v])))

theorem decodeColData_eq_iff (hft : dec.requestTypes[colIdx]? = some ft)
    (hchk : chk[colIdx]? = some column) {v : Datum} :
    dec.decodeColData T colIdx data chk = .ok (.ok (chk.set colIdx (column ++ [v]))) ↔
      Decoder.colValue T ft data = .ok (.ok v) := by
  rw [decodeColData_eq hft hchk, Go.bind_eq_ok]
  constructor
  · rintro ⟨r, hvalue, h⟩
    cases r with
    | error err => cases h
    | ok d =>
      have hset := Except.ok.inj (Except.ok.inj h)
      have hlt := (List.getElem?_eq_some_iff.mp hchk).1
      have hget := congrArg (fun chk => chk[colIdx]?) hset
      simp only [getElem?_set_self hlt, Option.some.injEq, append_cancel_left_eq,
        List.cons.injEq, and_true] at hget
      rw [hvalue, hget]
  · intro hvalue
    exact ⟨_, hvalue, rfl⟩

namespace DefaultCase

variable {d : Datum} (c : DefaultCase T ft d)

def Misread (data : Bytes) : Prop :=
  ∃ i, (sortedNotNull c.row.cols)[i]? = some (toID c.row.cols c.colID, d) ∧
    misread c.val c.row.cols i = .ok data

theorem exists_row (hnull : d.isNull = false) :
    ∃ b r i, Prod.snd <$> ({} : Encoder).encode T (c.row.cols.map Prod.fst)
        (c.row.cols.map Prod.snd) = .ok (.ok b) ∧
      c.dec.toRow.setRowData b = .ok (.ok r) ∧ r.findNotNull c.colID = .ok (some i) ∧
      ∀ data, r.getData i = .ok data ↔
        ¬ Full c.val c.row.cols ∧ data = c.val d ∨ Full c.val c.row.cols ∧ c.Misread data := by
  rw [snd_encode_new T c.row c.encodes]
  by_cases hfull : Full c.val c.row.cols
  · obtain ⟨b, r, hencode, hread, hreads, hget, -⟩ := setRowData_of_full hfull c.dec.toRow
    obtain ⟨i, hi, hfound⟩ := hreads.findNotNull_of_mem c.mem hnull
    refine ⟨b, r, i, by rw [hencode]; rfl, hread, hfound, fun data => ?_⟩
    rw [hget, or_iff_right (fun h => h.1 hfull), and_iff_right hfull]
    refine ⟨fun h => ⟨i, hi, h⟩, fun ⟨j, hj, h⟩ => ?_⟩
    rwa [c.row.place_inj hi hj]
  · obtain ⟨b, r, hencode, hread, hreads, hused, hdata⟩ :=
      setRowData_of_not_full c.length_lt hfull c.dec.toRow
    obtain ⟨i, hi, hfound⟩ := hreads.findNotNull_of_mem c.mem hnull
    have hget : r.getData i = .ok (c.val d) := by
      refine Row.getData_of_ends hused hdata ?_
      rw [sortedValues, getElem?_map, hi]
      rfl
    refine ⟨b, r, i, by rw [hencode]; rfl, hread, hfound, fun data => ?_⟩
    rw [hget, or_iff_left (fun h => hfull h.1), and_iff_right hfull, Except.ok.injEq, eq_comm]

theorem convert_eq {colVal : Bytes}
    (h : convertDefault T (some c.defaultVal) = .ok (.ok (some colVal))) :
    c.dec.origDefaults[c.colIdx]? = some (some colVal) := by
  obtain ⟨-, -, hconvert⟩ := RowCodec.newDecoder_eq c.newDecoder_eq
  obtain ⟨colVal', hvalue, hget⟩ := convertDefaults_eq hconvert c.default_eq
  rw [h] at hvalue
  cases hvalue
  exact hget

theorem agrees_iff_colValue {colVal : Bytes} (hnull : d.isNull = false)
    (h : convertDefault T (some c.defaultVal) = .ok (.ok (some colVal))) :
    c.Agrees ↔ c.colID = c.handleColID ∨ ∃ data v,
      (¬ Full c.val c.row.cols ∧ data = c.val d ∨ Full c.val c.row.cols ∧ c.Misread data) ∧
      Decoder.colValue T ft data = .ok (.ok v) ∧ Decoder.colValue T ft colVal = .ok (.ok v) := by
  obtain ⟨hhandle, htypes, -⟩ := RowCodec.newDecoder_eq c.newDecoder_eq
  obtain ⟨b, r, i, hencode, hread, hfound, hget⟩ := c.exists_row hnull
  have hdefault := c.convert_eq h
  have htype : ∀ r, (c.dec.withRow r).requestTypes[c.colIdx]? = some ft := by
    intro r
    change c.dec.requestTypes[c.colIdx]? = some ft
    rw [htypes, c.type_eq]
  by_cases hcol : c.colID = c.handleColID
  · -- The handle is appended for both rows.
    have hcol' : c.colID = c.dec.handleColID := hcol.trans hhandle.symm
    exact ⟨fun _ => .inl hcol, fun _ => ⟨b, r, hencode, hread, fun handle chk column hchk =>
      ⟨.int64 handle, decodeColumn_of_handle hcol' hchk, decodeColumn_of_handle hcol' hchk⟩⟩⟩
  · have hne : ∀ r, c.colID ≠ (c.dec.withRow r).handleColID := fun _ => by
      change c.colID ≠ c.dec.handleColID
      rwa [hhandle]
    have hother : ∀ handle chk,
        (c.dec.withRow c.other).decodeColumn T handle c.colIdx c.colID chk =
          (c.dec.withRow c.other).decodeColData T c.colIdx colVal chk :=
      fun handle chk => decodeColumn_of_absent (hne _) c.absent hdefault
    have hrow : ∀ handle chk,
        (c.dec.withRow r).decodeColumn T handle c.colIdx c.colID chk =
          r.getData i >>= fun data => (c.dec.withRow r).decodeColData T c.colIdx data chk :=
      fun handle chk => decodeColumn_of_found (hne r) hfound
    simp only [or_iff_right hcol, ← hget]
    constructor
    · rintro ⟨b', r', hencode', hread', hagrees⟩
      obtain rfl : b = b' := Except.ok.inj (Except.ok.inj (hencode.symm.trans hencode'))
      obtain rfl : r = r' := Except.ok.inj (Except.ok.inj (hread.symm.trans hread'))
      have hchk : (List.replicate (c.colIdx + 1) ([] : List Datum))[c.colIdx]? = some [] := by simp
      obtain ⟨v, hv, hv'⟩ := hagrees 0 _ _ hchk
      rw [hother, decodeColData_eq_iff (htype c.other) hchk] at hv
      rw [hrow] at hv'
      obtain ⟨data, hdata, hv'⟩ := Go.bind_eq_ok.mp hv'
      exact ⟨data, v, hdata, (decodeColData_eq_iff (htype r) hchk).mp hv', hv⟩
    · rintro ⟨data, v, hdata, hvalue, hvalue'⟩
      refine ⟨b, r, hencode, hread, fun handle chk column hchk => ⟨v, ?_, ?_⟩⟩
      · rw [hother, decodeColData_eq_iff (htype c.other) hchk]
        exact hvalue'
      · rw [hrow, hdata, Go.ok_bind, decodeColData_eq_iff (htype r) hchk]
        exact hvalue

end DefaultCase

theorem floatOrder_lt (bits : UInt64) : floatOrder bits.toNat < 256^8 := by
  have hlt := bits.toNat_lt
  unfold floatOrder
  split_ifs <;> omega

theorem floatBits_floatOrder (bits : UInt64) : floatBits (floatOrder bits.toNat) = bits.toNat := by
  have hlt := bits.toNat_lt
  unfold floatBits floatOrder
  split_ifs <;> omega

theorem floatOrder_floatBits {v : ℕ} (hv : v < 2^64) :
    floatOrder (UInt64.ofNat (floatBits v)).toNat = v := by
  have hlt : floatBits v < 2^64 := by
    unfold floatBits
    split_ifs <;> omega
  rw [UInt64.toNat_ofNat_of_lt' hlt]
  unfold floatOrder floatBits
  split_ifs <;> omega

theorem length_encodeFloat (bits : UInt64) : (encodeFloat bits).length = 8 :=
  BigEndian.length_bytes _ _

theorem byteSwap_lt (v : ℕ) : byteSwap v < 2^64 := by
  have hlt := BigEndian.value_lt (LittleEndian.bytes 8 v)
  rwa [LittleEndian.length_bytes] at hlt

theorem byteSwap_outer (v : ℕ) :
    byteSwap v % 256 = v / 2^56 % 256 ∧ byteSwap v / 2^56 = v % 256 := by
  simp only [byteSwap, LittleEndian.bytes, BigEndian.bytes, BigEndian.value, reverse_cons,
    reverse_nil, nil_append, cons_append, foldl_cons, foldl_nil,
    BigEndian.toNat_ofNat]
  omega

theorem encodeUint_of_le {bits : UInt64} (h : 2^32 ≤ bits.toNat) :
    encodeUint [] bits = encodeFloat (swapped bits) := by
  have hwidth : uintWidth bits.toNat = 8 := by
    unfold uintWidth
    split_ifs <;> omega
  have hbytes := BigEndian.bytes_value (LittleEndian.bytes 8 bits.toNat)
  rw [LittleEndian.length_bytes] at hbytes
  rw [encodeUint_eq, hwidth, encodeFloat, swapped, floatOrder_floatBits (byteSwap_lt _)]
  exact hbytes.symm

theorem swapped_eq_iff (bits : UInt64) :
    2^32 ≤ bits.toNat ∧ swapped bits = bits ↔
      2^63 ≤ bits.toNat ∧ bits.toNat + byteSwap bits.toNat = 2^64 - 1 := by
  have hlt := bits.toNat_lt
  have hswap := byteSwap_lt bits.toNat
  obtain ⟨hlast, hfirst⟩ := byteSwap_outer bits.toNat
  have hiff : swapped bits = bits ↔ byteSwap bits.toNat = floatOrder bits.toNat := by
    constructor
    · intro h
      have horder := floatOrder_floatBits hswap
      rw [← swapped, h] at horder
      exact horder.symm
    · intro h
      rw [swapped, h, floatBits_floatOrder, UInt64.ofNat_toNat]
  rw [hiff, floatOrder]
  split_ifs with hsign
  · -- The first byte would be the last one, and differ from it in the sign bit.
    have hdiff : byteSwap bits.toNat ≠ bits.toNat + 2^63 := by
      intro h
      have hdiv : (bits.toNat + 2^63) / 2^56 = bits.toNat / 2^56 + 128 := by omega
      rw [h, hdiv] at hfirst
      omega
    omega
  · omega

namespace TidbLaws

variable (L : TidbLaws T)

theorem decodeFloat_encodeUint (L : TidbLaws T) (bits : UInt64) {rest : Bytes} {bits' : UInt64} :
    T.decodeFloat (encodeUint [] bits) = .ok (rest, bits') ↔
      rest = [] ∧ 2^32 ≤ bits.toNat ∧ bits' = swapped bits := by
  by_cases hle : 2^32 ≤ bits.toNat
  · rw [encodeUint_of_le hle, L.decodeFloat_encodeFloat]
    simp only [Except.ok.injEq, Prod.mk.injEq, hle, true_and, eq_comm]
  · have hshort : (encodeUint [] bits).length < 8 := by
      rw [encodeUint_eq, LittleEndian.length_bytes, uintWidth]
      split_ifs <;> omega
    obtain ⟨err, herr⟩ := L.decodeFloat_short _ hshort
    simp only [herr, reduceCtorEq, hle, false_and, and_false]

def converted : Datum → Bytes
  | .float64 bits => encodeUint [] bits
  | .float32 bits =>
    if L.widens then encodeUint [] (L.toFloat64 bits) else encodeUint [] bits.toUInt64
  | d => plainValue d

theorem convertDefault_encodeValue {d : Datum} (hd : isValue d = true) {b : Bytes}
    (h : T.encodeValue d = .ok b) :
    convertDefault T (some b) = .ok (.ok (some (L.converted d))) := by
  obtain ⟨flag, b', hencode, hdecode⟩ := L.decodeOne_encodeValue d hd
  obtain rfl : flag :: b' = b := Except.ok.inj (hencode.symm.trans h)
  change convertDefaultValue T (flag :: b') = _
  rw [convertDefaultValue, hdecode]
  cases d with
  | float32 bits =>
    rw [converted]
    dsimp only
    cases L.widens <;> rfl
  | int64 v => rfl
  | uint64 v => rfl
  | bytes b => rfl
  | float64 bits => rfl
  | null => cases hd
  | other kind content => cases hd

theorem appendValue_of_encodeValue {d : Datum} (hd : isPlain d = false) {flag : UInt8} {b : Bytes}
    (h : T.encodeValue d = .ok (flag :: b)) : Encoder.appendValue T [] d = .ok (.ok b) := by
  have hslice : Go.slice (flag :: b) 1 (flag :: b).length = .ok b :=
    slice_append_end [flag] b rfl rfl
  cases d with
  | float32 bits => simp only [Encoder.appendValue, h, hslice]; rfl
  | float64 bits => simp only [Encoder.appendValue, h, hslice]; rfl
  | other kind content => simp only [Encoder.appendValue, h, hslice]; rfl
  | null => cases hd
  | int64 v => cases hd
  | uint64 v => cases hd
  | bytes b => cases hd

end TidbLaws

theorem HasType.inv {d : Datum} (T : TidbCodec) (h : HasType ft d) :
    (∃ v, d = .int64 v ∧
      ∀ data, Decoder.colValue T ft data = (fun v => .ok (.int64 v)) <$> decodeInt data) ∨
    (∃ v, d = .uint64 v ∧ ft.tp ≠ .bit ∧
      ∀ data, Decoder.colValue T ft data = (fun v => .ok (.uint64 v)) <$> decodeUint data) ∨
    (∃ v, d = .uint64 v ∧ 1 ≤ ft.flen ∧ ft.flen ≤ 64 ∧ ft.tp = .bit) ∨
    (∃ b, d = .bytes b ∧ ∀ data, Decoder.colValue T ft data = .ok (.ok (.bytes data))) ∨
    (∃ bits, d = .float32 bits ∧ ft.tp = .float) ∨ ∃ bits, d = .float64 bits ∧ ft.tp = .double := by
  obtain ⟨tp, unsigned, flen⟩ := ft
  cases tp
  case longlong | long | int24 | short | tiny | year =>
    cases unsigned with
    | true =>
      obtain ⟨v, rfl⟩ := h
      exact .inr (.inl ⟨v, rfl, by simp, fun _ => rfl⟩)
    | false =>
      obtain ⟨v, rfl⟩ := h
      exact .inl ⟨v, rfl, fun _ => rfl⟩
  case float =>
    obtain ⟨bits, rfl⟩ := h
    exact .inr (.inr (.inr (.inr (.inl ⟨bits, rfl, rfl⟩))))
  case double =>
    obtain ⟨bits, rfl⟩ := h
    exact .inr (.inr (.inr (.inr (.inr ⟨bits, rfl, rfl⟩))))
  case varString | varchar | string | blob | tinyBlob | mediumBlob | longBlob =>
    obtain ⟨b, rfl⟩ := h
    exact .inr (.inr (.inr (.inl ⟨b, rfl, fun _ => rfl⟩)))
  case bit =>
    obtain ⟨⟨hpos, hle⟩, v, rfl⟩ := h
    exact .inr (.inr (.inl ⟨v, rfl, hpos, hle, rfl⟩))
  case other => cases h

theorem colValue_float {f : UInt64 → Datum}
    (hft : ft.tp = .double ∧ f = .float64 ∨ ft.tp = .float ∧ f = fun bits => .float32 (T.toFloat32
      bits)) {v : Datum} :
    Decoder.colValue T ft data = .ok (.ok v) ↔
      ∃ rest bits, T.decodeFloat data = .ok (rest, bits) ∧ v = f bits := by
  have hvalue : Decoder.colValue T ft data =
      .ok ((fun r => f r.2) <$> T.decodeFloat data) := by
    cases hdecode : T.decodeFloat data <;> rcases hft with ⟨htp, rfl⟩ | ⟨htp, rfl⟩ <;>
      rw [Decoder.colValue, htp] <;> dsimp only <;> rw [hdecode] <;> rfl
  rw [hvalue]
  cases hdecode : T.decodeFloat data with
  | error err => simp
  | ok r =>
    constructor
    · intro h
      cases h
      exact ⟨r.1, r.2, rfl, rfl⟩
    · rintro ⟨rest, bits, h, rfl⟩
      cases h
      rfl

theorem colValue_stored (L : TidbLaws T) {d : Datum} (h : HasType ft d) {b : Bytes}
    (hb : Encoder.appendValue T [] d = .ok (.ok b)) :
    Decoder.colValue T ft b = .ok (.ok (L.stored ft d)) := by
  rcases h.inv T with ⟨v, rfl, hvalue⟩ | ⟨v, rfl, hbit, hvalue⟩ | ⟨v, rfl, hpos, hle, htp⟩ |
    ⟨b, rfl, hvalue⟩ | ⟨bits, rfl, htp⟩ | ⟨bits, rfl, htp⟩
  · obtain rfl : encodeInt [] v = b := Except.ok.inj (Except.ok.inj hb)
    rw [hvalue, decodeInt_encodeInt]
    rfl
  · obtain rfl : encodeUint [] v = b := Except.ok.inj (Except.ok.inj hb)
    rw [hvalue, decodeUint_encodeUint, TidbLaws.stored, if_neg hbit]
    rfl
  · obtain rfl : encodeUint [] v = b := Except.ok.inj (Except.ok.inj hb)
    have hliteral := L.newBinaryLiteralFromUint_eq v ((ft.flen + 7) / 8) (by omega) (by omega)
    rw [Decoder.colValue, htp, TidbLaws.stored, if_pos htp]
    dsimp only
    rw [decodeUint_encodeUint, Go.ok_bind, hliteral]
    rfl
  · obtain rfl := Except.ok.inj (Except.ok.inj hb)
    exact hvalue _
  · obtain ⟨flag, hencode⟩ := L.encodeValue_float32 bits
    rw [TidbLaws.appendValue_of_encodeValue rfl hencode] at hb
    cases hb
    exact (colValue_float (.inr ⟨htp, rfl⟩)).mpr ⟨_, _, L.decodeFloat_encodeFloat _, rfl⟩
  · obtain ⟨flag, hencode⟩ := L.encodeValue_float64 bits
    rw [TidbLaws.appendValue_of_encodeValue rfl hencode] at hb
    cases hb
    exact (colValue_float (.inl ⟨htp, rfl⟩)).mpr ⟨_, _, L.decodeFloat_encodeFloat _, rfl⟩

theorem colValue_converted_iff (L : TidbLaws T) {d v : Datum} (h : HasType ft d) :
    Decoder.colValue T ft (L.converted d) = .ok (.ok v) ↔ L.default ft d = some v := by
  have hplain : ∀ b, Encoder.appendValue T [] d = .ok (.ok b) →
      (Decoder.colValue T ft b = .ok (.ok v) ↔ some (L.stored ft d) = some v) := by
    intro b hb
    rw [colValue_stored L h hb]
    simp
  rcases h.inv T with ⟨i, rfl, -⟩ | ⟨u, rfl, -⟩ | ⟨u, rfl, -⟩ | ⟨b, rfl, -⟩ | ⟨bits, rfl, htp⟩ |
    ⟨bits, rfl, htp⟩
  · exact hplain _ rfl
  · exact hplain _ rfl
  · exact hplain _ rfl
  · exact hplain _ rfl
  · rw [colValue_float (.inr ⟨htp, rfl⟩), TidbLaws.converted, TidbLaws.default]
    cases L.widens with
    | true => simp [L.decodeFloat_encodeUint, @eq_comm _ v]
    | false =>
      -- The bits of a `float32` take no more than four bytes.
      have hlt := bits.toNat_lt
      simp [L.decodeFloat_encodeUint]
      omega
  · rw [colValue_float (.inl ⟨htp, rfl⟩), TidbLaws.converted, TidbLaws.default]
    simp [L.decodeFloat_encodeUint, @eq_comm _ v]

theorem good_iff (L : TidbLaws T) (ft : FieldType) (d : Datum) :
    L.default ft d = some (L.stored ft d) ↔ L.Good d := by
  cases d with
  | float32 bits =>
    rw [TidbLaws.default, TidbLaws.stored, TidbLaws.Good, Option.ite_none_right_eq_some,
      Option.some.injEq, Datum.float32.injEq, and_assoc]
  | float64 bits =>
    rw [TidbLaws.default, TidbLaws.stored, TidbLaws.Good, Option.ite_none_right_eq_some,
      Option.some.injEq, Datum.float64.injEq]
    · exact swapped_eq_iff bits
    all_goals simp
  | _ => exact ⟨fun _ => trivial, fun _ => rfl⟩

theorem HasType.isValue {d : Datum} (h : HasType ft d) : isValue d = true := by
  rcases h.inv Encoder.noCodec with ⟨v, rfl, -⟩ | ⟨v, rfl, -⟩ | ⟨v, rfl, -⟩ | ⟨b, rfl, -⟩ |
    ⟨bits, rfl, -⟩ | ⟨bits, rfl, -⟩ <;> rfl

theorem HasType.not_null {d : Datum} (h : HasType ft d) : d.isNull = false := by
  have hvalue := h.isValue
  cases d with
  | null => cases hvalue
  | _ => rfl

theorem agrees_iff_default (L : TidbLaws T) {d : Datum} (c : DefaultCase T ft d)
    (h : HasType ft d) :
    c.Agrees ↔ c.colID = c.handleColID ∨ ∃ data v,
      (¬ Full c.val c.row.cols ∧ data = c.val d ∨ Full c.val c.row.cols ∧ c.Misread data) ∧
      Decoder.colValue T ft data = .ok (.ok v) ∧ L.default ft d = some v := by
  have hconvert := L.convertDefault_encodeValue h.isValue c.encodeValue_eq
  rw [c.agrees_iff_colValue h.not_null hconvert]
  simp only [colValue_converted_iff L h]

theorem agrees_iff_good (L : TidbLaws T) {d : Datum} (c : DefaultCase T ft d) (h : HasType ft d)
    (hfull : ¬ Full c.val c.row.cols) : c.Agrees ↔ c.colID = c.handleColID ∨ L.Good d := by
  have hstored := colValue_stored L h (c.encodes _ c.mem h.not_null)
  rw [agrees_iff_default L c h, ← good_iff L ft]
  simp [hfull, hstored]

def sampleCodec : TidbCodec where
  encodeValue
    | .bytes b => .ok (2 :: b)
    | .int64 v => .ok (3 :: LittleEndian.bytes 8 v.toUInt64.toNat)
    | .uint64 v => .ok (4 :: LittleEndian.bytes 8 v.toNat)
    | .float32 bits => .ok (5 :: encodeFloat bits.toUInt64)
    | .float64 bits => .ok (5 :: encodeFloat bits)
    | .null | .other _ _ => .error "unsupported"
  decodeOne
    | 2 :: b => .ok ([], .bytes b)
    | 3 :: b => .ok ([], .int64 (UInt64.ofNat (LittleEndian.value b)).toInt64)
    | 4 :: b => .ok ([], .uint64 (UInt64.ofNat (LittleEndian.value b)))
    | 5 :: b => .ok ([], .float64 (UInt64.ofNat (floatBits (BigEndian.value b))))
    | _ => .error "invalid encoded key"
  decodeFloat b :=
    if b.length < 8 then .error "insufficient bytes to decode value"
    else .ok (b.drop 8, UInt64.ofNat (floatBits (BigEndian.value (b.take 8))))
  toFloat32 bits := bits.toUInt32
  newBinaryLiteralFromUint v size := .ok (BigEndian.bytes size.toNat v.toNat)

theorem floatBits_value_encodeFloat (bits : UInt64) :
    UInt64.ofNat (floatBits (BigEndian.value (encodeFloat bits))) = bits := by
  rw [encodeFloat, BigEndian.value_bytes (floatOrder_lt bits), floatBits_floatOrder,
    UInt64.ofNat_toNat]

theorem ofNat_value_bytes (v : UInt64) :
    UInt64.ofNat (LittleEndian.value (LittleEndian.bytes 8 v.toNat)) = v := by
  have hlt : v.toNat < 256^8 := v.toNat_lt
  rw [LittleEndian.value_bytes, Nat.mod_eq_of_lt hlt, UInt64.ofNat_toNat]

def sampleLaws : TidbLaws sampleCodec where
  toFloat64 bits := bits.toUInt64
  widens := true
  decodeOne_encodeValue d hd := by
    cases d with
    | null => cases hd
    | other kind content => cases hd
    | bytes b => exact ⟨2, b, rfl, rfl⟩
    | int64 v =>
      refine ⟨3, _, rfl, ?_⟩
      simp only [sampleCodec, ofNat_value_bytes]
      rfl
    | uint64 v =>
      refine ⟨4, _, rfl, ?_⟩
      simp only [sampleCodec, ofNat_value_bytes]
    | float32 bits =>
      refine ⟨5, _, rfl, ?_⟩
      simp only [sampleCodec, floatBits_value_encodeFloat, if_true]
    | float64 bits =>
      refine ⟨5, _, rfl, ?_⟩
      simp only [sampleCodec, floatBits_value_encodeFloat]
  encodeValue_float64 bits := ⟨5, rfl⟩
  encodeValue_float32 bits := ⟨5, rfl⟩
  decodeFloat_encodeFloat bits := by
    have hlength := length_encodeFloat bits
    simp only [sampleCodec, hlength, lt_irrefl, if_false, take_of_length_le hlength.le,
      drop_of_length_le hlength.le, floatBits_value_encodeFloat]
  decodeFloat_short b hb := ⟨_, if_pos hb⟩
  literal v size := BigEndian.bytes size.toNat v.toNat
  newBinaryLiteralFromUint_eq v size _ _ := rfl

def columnCase (ft : FieldType) (d : Datum) (stored defaultVal colVal : Bytes)
    (hd : isValue d = true) (hstored : Encoder.appendValue sampleCodec [] d = .ok (.ok stored))
    (hlength : stored.length < 2^32) (hencode : sampleCodec.encodeValue d = .ok defaultVal)
    (hcolVal : sampleLaws.converted d = colVal) : DefaultCase sampleCodec ft d where
  row := ⟨[(1, d)], by simp [maxUint16], nodup_singleton _, by simp⟩
  val _ := stored
  encodes := by
    intro c hc _
    obtain rfl : c = (1, d) := mem_singleton.mp hc
    exact hstored
  length_lt := by
    have hnull : d.isNull = false := by
      cases d with
      | null => cases hd
      | _ => rfl
    simpa [rowData, sortedValues, sortedNotNull, notNull, hnull] using hlength
  colID := 1
  mem := mem_singleton_self _
  dec := { requestColIDs := [1], handleColID := 0, requestTypes := [ft]
           origDefaults := [some colVal] }
  requestColIDs := [1]
  handleColID := 0
  tps := [ft]
  defaults := [some defaultVal]
  newDecoder_eq := by
    have hconvert := sampleLaws.convertDefault_encodeValue hd hencode
    obtain ⟨flag, b, hencode', -⟩ := sampleLaws.decodeOne_encodeValue d hd
    obtain rfl : flag :: b = defaultVal := Except.ok.inj (hencode'.symm.trans hencode)
    change convertDefaultValue sampleCodec (flag :: b) = _ at hconvert
    rw [newDecoder, convertDefaults, hconvert, hcolVal]
    · rfl
    · exact fun h => cons_ne_nil _ _ h
  colIdx := 0
  requested := rfl
  type_eq := rfl
  defaultVal := defaultVal
  encodeValue_eq := hencode
  default_eq := rfl
  otherData := layout false 0 0 [] [] []
  other := ({} : Row).ofLayout false 0 0 [] [] []
  other_eq := setRowData_layout _ _ (by decide) rfl rfl (by simp) (by simp)
  absent := rfl

def intCase : DefaultCase sampleCodec { tp := .longlong } (.int64 (-5)) :=
  columnCase _ _ (encodeInt [] (-5)) _ _ rfl rfl (by decide) rfl rfl

def doubleCase : DefaultCase sampleCodec { tp := .double } (.float64 0x3ff8000000000000) :=
  columnCase _ _ (encodeFloat 0x3ff8000000000000) _ _ rfl rfl (by decide) rfl rfl

end RowCodec

end TinyKV
