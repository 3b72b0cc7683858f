import Mathlib.Data.Int.Interval
import TinyKV.Coprocessor.RowDecode

/-!
# What is encoded is read back

A row that a new encoder returns is read back, but for a row in which all ids fit into a byte and
the values take exactly 65535 bytes: it is written in the large layout, but its ends are not
(`roundTrips_iff`).
-/

namespace TinyKV

open List

namespace RowCodec

def Full (val : Datum → Bytes) (cols : Columns) : Prop :=
  wide cols = false ∧ (rowData val cols).length = maxUint16

variable {val : Datum → Bytes} {row : TableRow}

theorem le_of_mem_rowEnds {v : ℕ} (hv : v ∈ rowEnds val row.cols) :
    v ≤ (rowData val row.cols).length := by
  have hle := (Encoder.le_of_mem_ends hv).2
  rwa [Nat.zero_add] at hle

theorem encoded_of_not_full (hlt : (rowData val row.cols).length < 2^32)
    (hfull : ¬ Full val row.cols) :
    encoded val [] row.cols = .ok (layout (isLarge val row.cols) (notNull row.cols).length
      (nulls row.cols).length (sortedIds row.cols) (rowEnds val row.cols)
      (rowData val row.cols)) := by
  have hmod : (rowEnds val row.cols).map (· % 2^32) = rowEnds val row.cols := by
    refine (map_congr_left fun v hv => ?_).trans (map_id _)
    exact Nat.mod_eq_of_lt ((le_of_mem_rowEnds hv).trans_lt hlt)
  unfold encoded
  cases hlarge : isLarge val row.cols with
  | true => rw [if_pos rfl, hmod]
  | false =>
    have hmax : (rowData val row.cols).length ≠ maxUint16 := by
      rw [isLarge, Bool.or_eq_false_iff] at hlarge
      exact fun hmax => hfull ⟨hlarge.1, hmax⟩
    rw [if_neg Bool.false_ne_true, if_neg hmax, length_nil, if_pos (Nat.zero_le _)]
    rfl

theorem encoded_of_full (hfull : Full val row.cols) :
    encoded val [] row.cols = .ok (layout true (notNull row.cols).length (nulls row.cols).length
      (sortedIds row.cols) [] (rowData val row.cols)) := by
  have hlarge : isLarge val row.cols = false := by
    rw [isLarge, hfull.1, hfull.2]
    decide
  rw [encoded, hlarge, if_neg Bool.false_ne_true, if_pos hfull.2]

theorem snd_encode_new (T : TidbCodec) (row : TableRow) (hval : Encodes val T row.cols) :
    Prod.snd <$> ({} : Encoder).encode T (row.cols.map Prod.fst) (row.cols.map Prod.snd) =
      .ok <$> encoded val [] row.cols := by
  have heq := congrArg (Prod.snd <$> ·) (Encoder.encode_eq {} row.cols row.length_lt hval)
  simp only [Functor.map_map] at heq
  exact heq

theorem mem_of_mem_sortedIds {v : ℕ} (hv : v ∈ sortedIds row.cols) :
    ∃ d, ((v : ℤ), d) ∈ row.cols := by
  rcases mem_append.mp hv with hv | hv
  · obtain ⟨x, hx, rfl⟩ := mem_map.mp hv
    exact ⟨x.2, (row.mem_sortedNotNull.mp hx).1⟩
  · exact ⟨.null, row.mem_sortedNull.mp hv⟩

theorem lt_of_mem_sortedIds {v : ℕ} (hv : v ∈ sortedIds row.cols) : v < 256^4 := by
  obtain ⟨d, hmem⟩ := mem_of_mem_sortedIds hv
  have hlt := (row.range _ hmem).2
  dsimp only at hlt
  omega

variable {c : ℤ × Datum}

theorem lt_of_not_wide (hwide : wide row.cols = false) (hc : c ∈ row.cols) :
    0 ≤ c.1 ∧ c.1 < 256 := by
  have hnonneg := (row.range c hc).1
  rw [wide, any_eq_false] at hwide
  have hle : c.1 ≤ 255 := by simpa using hwide c hc
  omega

theorem reads_ofLayout (r : Row) (large : Bool) (offsets : List ℕ) (data : Bytes) :
    Reads (r.ofLayout large (notNull row.cols).length (nulls row.cols).length (sortedIds row.cols)
      offsets data) row.cols := by
  cases large <;> exact ⟨rfl, rfl, rfl⟩

theorem used_ofLayout (r : Row) (large : Bool) (numNotNull numNull : ℕ) (ids offsets : List ℕ)
    (data : Bytes) : (r.ofLayout large numNotNull numNull ids offsets data).used = offsets := by
  cases large <;> rfl

theorem data_ofLayout (r : Row) (large : Bool) (numNotNull numNull : ℕ) (ids offsets : List ℕ)
    (data : Bytes) : (r.ofLayout large numNotNull numNull ids offsets data).data = data := by
  cases large <;> rfl

theorem setRowData_of_not_full (hlt : (rowData val row.cols).length < 2^32)
    (hfull : ¬ Full val row.cols) (r₀ : Row) :
    ∃ b r, encoded val [] row.cols = .ok b ∧ r₀.setRowData b = .ok (.ok r) ∧ Reads r row.cols ∧
      r.used = rowEnds val row.cols ∧ r.data = rowData val row.cols := by
  refine ⟨_, _, encoded_of_not_full hlt hfull, setRowData_layout r₀ _ ?_ ?_ ?_ ?_ ?_,
    reads_ofLayout _ _ _ _, used_ofLayout _ _ _ _ _ _ _, data_ofLayout _ _ _ _ _ _ _⟩
  · rw [Encoder.length_notNull_add]
    exact row.length_lt
  · rw [Encoder.length_sortedIds, Encoder.length_notNull_add]
  · rw [rowEnds, Encoder.length_ends, Encoder.length_sortedValues]
  · intro v hv
    cases hlarge : isLarge val row.cols with
    | true => exact lt_of_mem_sortedIds hv
    | false =>
      rw [isLarge, Bool.or_eq_false_iff] at hlarge
      obtain ⟨d, hmem⟩ := mem_of_mem_sortedIds hv
      have hbyte := (lt_of_not_wide hlarge.1 hmem).2
      simp only [Bool.false_eq_true, if_false, pow_one]
      dsimp only at hbyte
      omega
  · intro v hv
    have hle := le_of_mem_rowEnds hv
    cases hlarge : isLarge val row.cols with
    | true => exact hle.trans_lt hlt
    | false =>
      rw [isLarge, Bool.or_eq_false_iff] at hlarge
      have hmax : (rowData val row.cols).length ≤ maxUint16 := by simpa using hlarge.2
      rw [maxUint16] at hmax
      simp only [Bool.false_eq_true, if_false]
      omega

theorem length_le_of_not_wide (hwide : wide row.cols = false) : row.cols.length ≤ 256 := by
  have hsubset : (row.cols.map Prod.fst).toFinset ⊆ Finset.Ico 0 256 := by
    intro x hx
    obtain ⟨c, hc, rfl⟩ := mem_map.mp (mem_toFinset.mp hx)
    exact Finset.mem_Ico.mpr (lt_of_not_wide hwide hc)
  have hcard := Finset.card_le_card hsubset
  rw [toFinset_card_of_nodup row.nodup, length_map, Int.card_Ico] at hcard
  exact hcard

def misread (val : Datum → Bytes) (cols : Columns) (i : ℕ) : Go Bytes := do
  let n := 4 * (notNull cols).length
  let ends := LittleEndian.unpack 4 ((rowData val cols).take n)
  let start ← Go.index (0 :: ends) i
  let stop ← Go.index ends i
  Go.slice ((rowData val cols).drop n) start stop

theorem setRowData_of_full (hfull : Full val row.cols) (r₀ : Row) :
    ∃ b r, encoded val [] row.cols = .ok b ∧ r₀.setRowData b = .ok (.ok r) ∧ Reads r row.cols ∧
      (∀ i, r.getData i = misread val row.cols i) ∧
      r.data.length + 4 * (notNull row.cols).length = maxUint16 := by
  have hcount := Encoder.length_notNull_add row.cols
  have hmany := length_le_of_not_wide hfull.1
  have hlength := hfull.2
  rw [maxUint16] at hlength
  have htake : ((rowData val row.cols).take (4 * (notNull row.cols).length)).length =
      4 * (notNull row.cols).length := by
    rw [length_take]
    omega
  have hpack := LittleEndian.pack_unpack (by decide) htake
  have hlayout : layout true (notNull row.cols).length (nulls row.cols).length
      (sortedIds row.cols) [] (rowData val row.cols) =
      layout true (notNull row.cols).length (nulls row.cols).length (sortedIds row.cols)
        (LittleEndian.unpack 4 ((rowData val row.cols).take (4 * (notNull row.cols).length)))
        ((rowData val row.cols).drop (4 * (notNull row.cols).length)) := by
    rw [layout, layout, if_pos rfl, if_pos rfl, if_pos rfl, hpack]
    simp [LittleEndian.pack]
  refine ⟨_, _, encoded_of_full hfull,
    (congrArg r₀.setRowData hlayout).trans (setRowData_layout r₀ _ ?_ ?_ ?_ ?_ ?_),
    reads_ofLayout _ _ _ _, fun i => ?_, ?_⟩
  · rw [hcount]
    exact row.length_lt
  · rw [Encoder.length_sortedIds, hcount]
  · rw [LittleEndian.length_unpack, htake]
    omega
  · exact fun v hv => lt_of_mem_sortedIds hv
  · exact fun v hv => LittleEndian.lt_of_mem_unpack hv
  · rw [Row.getData_eq, used_ofLayout, data_ofLayout, misread]
  · rw [data_ofLayout, length_drop, maxUint16]
    omega

/-- The column is read as what it holds. -/
def ReadsBack (r : Row) (c : ℤ × Datum) : Prop :=
  match c.2 with
  | .null => r.lookup c.1 = .ok .null
  | .int64 v => ∃ data, r.lookup c.1 = .ok (.value data) ∧ decodeInt data = .ok v
  | .uint64 v => ∃ data, r.lookup c.1 = .ok (.value data) ∧ decodeUint data = .ok v
  | .bytes b => r.lookup c.1 = .ok (.value b)
  | _ => False

def RoundTrips (T : TidbCodec) (r₀ : Row) (row : PlainRow) : Prop :=
  ∃ b r, Prod.snd <$> ({} : Encoder).encodeRow T row = .ok (.ok b) ∧
    r₀.setRowData b = .ok (.ok r) ∧ (∀ c ∈ row.cols, ReadsBack r c) ∧
    ∀ colID, colID ∉ row.cols.map Prod.fst → r.lookup colID = .ok .absent

theorem readsBack_of_lookup {r : Row} (hplain : isPlain c.2 = true) (hnull : c.2.isNull = false)
    (h : r.lookup c.1 = .ok (.value (plainValue c.2))) : ReadsBack r c := by
  obtain ⟨colID, d⟩ := c
  cases d with
  | null => cases hnull
  | int64 v => exact ⟨_, h, decodeInt_encodeInt v⟩
  | uint64 v => exact ⟨_, h, decodeUint_encodeUint v⟩
  | bytes b => exact h
  | float32 bits => cases hplain
  | float64 bits => cases hplain
  | other kind content => cases hplain

theorem length_le_of_readsBack {r : Row} (hnull : c.2.isNull = false) (h : ReadsBack r c) :
    ∃ data, r.lookup c.1 = .ok (.value data) ∧ (plainValue c.2).length ≤ data.length := by
  obtain ⟨colID, d⟩ := c
  cases d with
  | null => cases hnull
  | int64 v =>
    obtain ⟨data, hlookup, hdecode⟩ := h
    exact ⟨data, hlookup, length_encodeInt_le hdecode⟩
  | uint64 v =>
    obtain ⟨data, hlookup, hdecode⟩ := h
    exact ⟨data, hlookup, length_encodeUint_le hdecode⟩
  | bytes b => exact ⟨b, h, le_rfl⟩
  | float32 bits => cases h
  | float64 bits => cases h
  | other kind content => cases h

theorem lookup_value {r : Row} (hreads : Reads r row.cols) (hused : r.used = rowEnds val row.cols)
    (hdata : r.data = rowData val row.cols) (hc : c ∈ row.cols)
    (hnull : c.2.isNull = false) : r.lookup c.1 = .ok (.value (val c.2)) := by
  obtain ⟨i, hi, hlookup⟩ := hreads.lookup_of_mem hc hnull
  have hvalue : (sortedValues val row.cols)[i]? = some (val c.2) := by
    rw [sortedValues, getElem?_map, hi]
    rfl
  rw [hlookup, Row.getData_of_ends hused hdata hvalue]
  rfl

theorem TableRow.place_inj (row : TableRow) {i j : ℕ} {x : ℕ × Datum}
    (hi : (sortedNotNull row.cols)[i]? = some x) (hj : (sortedNotNull row.cols)[j]? = some x) :
    i = j := by
  have hnodup := row.pairwise_sortedNotNull.imp fun hlt => Nat.ne_of_lt hlt
  exact (getElem?_inj (List.getElem?_eq_some_iff.mp hi).1
    (List.Nodup.of_map _ hnodup)).mp (hi.trans hj.symm)

theorem getData_of_readsBack {r : Row} (hreads : Reads r row.cols)
    (h : ∀ c ∈ row.cols, ReadsBack r c) {i : ℕ} {v : Bytes}
    (hi : (sortedValues plainValue row.cols)[i]? = some v) :
    ∃ d, r.getData i = .ok d ∧ v.length ≤ d.length := by
  rw [sortedValues, getElem?_map, Option.map_eq_some_iff] at hi
  obtain ⟨x, hx, rfl⟩ := hi
  obtain ⟨hmem, hnull⟩ := row.mem_sortedNotNull.mp (mem_of_getElem? hx)
  obtain ⟨data, hdata, hle⟩ := length_le_of_readsBack hnull (h _ hmem)
  obtain ⟨j, hj, hlookup⟩ := hreads.lookup_of_mem hmem hnull
  have hij : i = j := by
    refine row.place_inj hx ?_
    rw [hj, Int.ofNat_inj.mp (row.toID_eq hmem)]
  subst hij
  rw [hlookup] at hdata
  obtain ⟨d, hd, hvalue⟩ := Go.map_eq_ok.mp hdata
  cases hvalue
  exact ⟨_, hd, hle⟩

theorem not_roundTrips_of_full {T : TidbCodec} {r₀ : Row} {row : PlainRow}
    (hfull : Full plainValue row.cols) : ¬ RoundTrips T r₀ row := by
  rintro ⟨b, r, hencode, hread, hback, -⟩
  obtain ⟨b', r', hencode', hread', hreads, -, hlength⟩ := setRowData_of_full hfull r₀
  have hb : b = b' := by
    rw [Encoder.encodeRow, snd_encode_new T row.toTableRow (row.encodes T), hencode'] at hencode
    exact (Except.ok.inj (Except.ok.inj hencode)).symm
  subst hb
  obtain rfl : r = r' := Except.ok.inj (Except.ok.inj (hread.symm.trans hread'))
  -- The values need all the bytes, and some of them have been taken for ends.
  have hle : (rowData plainValue row.cols).length ≤ r.data.length :=
    Row.length_flatten_le fun i v hi => getData_of_readsBack hreads hback hi
  have hmax := hfull.2
  have hnone : (sortedValues plainValue row.cols).length = 0 := by
    rw [Encoder.length_sortedValues]
    omega
  rw [rowData, length_eq_zero_iff.mp hnone] at hmax
  cases hmax

/-- A row is read back exactly if it is not full. -/
theorem roundTrips_iff (T : TidbCodec) (r₀ : Row) (row : PlainRow)
    (hlt : (rowData plainValue row.cols).length < 2^32) :
    RoundTrips T r₀ row ↔ ¬ Full plainValue row.cols := by
  refine ⟨fun hback hfull => not_roundTrips_of_full hfull hback, fun hfull => ?_⟩
  obtain ⟨b, r, hencode, hread, hreads, hused, hdata⟩ := setRowData_of_not_full hlt hfull r₀
  refine ⟨b, r, ?_, hread, fun c hc => ?_, fun colID hnot => hreads.lookup_of_notMem hnot⟩
  · rw [Encoder.encodeRow, snd_encode_new T row.toTableRow (row.encodes T), hencode]
    rfl
  · cases hnull : c.2.isNull with
    | true =>
      have hc' : c = (c.1, Datum.null) := Prod.ext rfl (isNull_iff.mp hnull)
      rw [hc'] at hc ⊢
      exact hreads.lookup_of_null hc
    | false =>
      exact readsBack_of_lookup (row.plain c hc) hnull (lookup_value hreads hused hdata hc hnull)

def mixedRow : PlainRow where
  cols := [(7, .bytes [1, 2]), (300, .int64 (-3)), (2, .null), (1, .uint64 70000)]
  length_le := by decide
  nodup := by decide
  range := by decide
  plain := by decide

theorem roundTrips_sample :
    (rowData plainValue mixedRow.cols).length < 2^32 ∧ RoundTrips Encoder.noCodec {} mixedRow :=
  ⟨by decide, (roundTrips_iff _ _ _ (by decide)).mpr (by unfold Full; decide)⟩

theorem not_roundTrips_full :
    (rowData plainValue
      (Encoder.bytesRow 1 (List.replicate maxUint16 0) (by decide)).cols).length < 2^32 ∧
      ¬ RoundTrips Encoder.noCodec {}
        (Encoder.bytesRow 1 (List.replicate maxUint16 0) (by decide)) := by
  have hdata : rowData plainValue
      (Encoder.bytesRow 1 (List.replicate maxUint16 0) (by decide)).cols =
      List.replicate maxUint16 0 := append_nil _
  rw [hdata, length_replicate]
  refine ⟨by decide, not_roundTrips_of_full ⟨rfl, ?_⟩⟩
  rw [hdata, length_replicate]

end RowCodec

end TinyKV
