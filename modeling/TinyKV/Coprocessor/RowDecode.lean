import TinyKV.Coprocessor.PlainRow

/-!
# What the decoder reads
-/

namespace TinyKV

open List

namespace RowCodec

theorem toNat_signExtend {w : ℕ} (hw : w ≤ 64) (v : Int64) :
    (v.toBitVec.signExtend w).toNat = v.toUInt64.toNat % 2^w := by
  rw [BitVec.signExtend_eq_setWidth_of_le _ hw, BitVec.toNat_setWidth]
  rfl

theorem toInt8_ofNat (v : Int64) : (UInt8.ofNat (v.toUInt64.toNat % 256^1)).toInt8 = v.toInt8 := by
  apply Int8.toBitVec_inj.mp
  apply BitVec.eq_of_toNat_eq
  rw [Int64.toBitVec_toInt8, toNat_signExtend (by decide)]
  simp

theorem toInt16_ofNat (v : Int64) :
    (UInt16.ofNat (v.toUInt64.toNat % 256^2)).toInt16 = v.toInt16 := by
  apply Int16.toBitVec_inj.mp
  apply BitVec.eq_of_toNat_eq
  rw [Int64.toBitVec_toInt16, toNat_signExtend (by decide)]
  simp

theorem toInt32_ofNat (v : Int64) :
    (UInt32.ofNat (v.toUInt64.toNat % 256^4)).toInt32 = v.toInt32 := by
  apply Int32.toBitVec_inj.mp
  apply BitVec.eq_of_toNat_eq
  rw [Int64.toBitVec_toInt32, toNat_signExtend (by decide)]
  simp

theorem uint64_bytes (v : ℕ) : uint64 (LittleEndian.bytes 8 v) = .ok (v % 256^8) := by
  have hlength := LittleEndian.length_bytes 8 v
  rw [uint64, Go.index_eq_ok (getElem?_eq_getElem (by omega)), Go.ok_bind,
    take_of_length_le hlength.le, LittleEndian.value_bytes]
  rfl

theorem length_le_of_uint64 {b : Bytes} {v : ℕ} (h : uint64 b = .ok v) : 8 ≤ b.length := by
  by_contra hlt
  rw [uint64, Go.index, getElem?_eq_none (by omega)] at h
  cases h

theorem decodeInt_encodeInt (v : Int64) : decodeInt (encodeInt [] v) = .ok v := by
  unfold encodeInt decodeInt
  split_ifs with h8 h16 h32
  all_goals simp only [nil_append, LittleEndian.length_bytes, LittleEndian.value_bytes,
    uint64_bytes, toInt8_ofNat, toInt16_ofNat, toInt32_ofNat, Go.ok_bind]
  · rw [h8]
    rfl
  · rw [h16]
    rfl
  · rw [h32]
    rfl
  · have hlt : v.toUInt64.toNat < 256^8 := v.toUInt64.toNat_lt
    rw [Nat.mod_eq_of_lt hlt, UInt64.ofNat_toNat]
    rfl

theorem length_encodeInt (v : Int64) :
    (v.toInt8.toInt64 = v → (encodeInt [] v).length ≤ 1) ∧
      (v.toInt16.toInt64 = v → (encodeInt [] v).length ≤ 2) ∧
      (v.toInt32.toInt64 = v → (encodeInt [] v).length ≤ 4) ∧ (encodeInt [] v).length ≤ 8 := by
  unfold encodeInt
  split_ifs with h8 h16 h32 <;> simp_all

theorem length_encodeInt_le {data : Bytes} {v : Int64} (h : decodeInt data = .ok v) :
    (encodeInt [] v).length ≤ data.length := by
  obtain ⟨hone, htwo, hfour, height⟩ := length_encodeInt v
  unfold decodeInt at h
  split at h
  · next hlength =>
    rw [hlength]
    exact hone (by rw [← Except.ok.inj h, Int8.toInt8_toInt64])
  · next hlength =>
    rw [hlength]
    exact htwo (by rw [← Except.ok.inj h, Int16.toInt16_toInt64])
  · next hlength =>
    rw [hlength]
    exact hfour (by rw [← Except.ok.inj h, Int32.toInt32_toInt64])
  · obtain ⟨w, hw, -⟩ := Go.bind_eq_ok.mp h
    exact height.trans (length_le_of_uint64 hw)

theorem fits_iff (v : UInt64) :
    (v.toUInt8.toUInt64 = v ↔ v.toNat < 2^8) ∧ (v.toUInt16.toUInt64 = v ↔ v.toNat < 2^16) ∧
      (v.toUInt32.toUInt64 = v ↔ v.toNat < 2^32) := by
  refine ⟨?_, ?_, ?_⟩ <;> rw [← UInt64.toNat_inj]
  · simp only [UInt8.toNat_toUInt64, UInt64.toNat_toUInt8]
    omega
  · simp only [UInt16.toNat_toUInt64, UInt64.toNat_toUInt16]
    omega
  · simp only [UInt32.toNat_toUInt64, UInt64.toNat_toUInt32]
    omega

def uintWidth (v : ℕ) : ℕ :=
  if v < 2^8 then 1 else if v < 2^16 then 2 else if v < 2^32 then 4 else 8

theorem encodeUint_eq (v : UInt64) :
    encodeUint [] v = LittleEndian.bytes (uintWidth v.toNat) v.toNat := by
  obtain ⟨h8, h16, h32⟩ := fits_iff v
  unfold encodeUint uintWidth
  simp only [h8, h16, h32, nil_append]
  split_ifs <;> rfl

theorem decodeUint_encodeUint (v : UInt64) : decodeUint (encodeUint [] v) = .ok v := by
  have h64 : v.toNat < 256^8 := v.toNat_lt
  rw [encodeUint_eq]
  unfold uintWidth decodeUint
  split_ifs with hlt hlt hlt
  all_goals
    simp only [LittleEndian.length_bytes, LittleEndian.value_bytes, uint64_bytes, Go.ok_bind]
  all_goals
    rw [Nat.mod_eq_of_lt (by assumption), UInt64.ofNat_toNat]
    rfl

theorem length_encodeUint_le {data : Bytes} {v : UInt64} (h : decodeUint data = .ok v) :
    (encodeUint [] v).length ≤ data.length := by
  have hvalue := LittleEndian.value_lt data
  have hmod : v = UInt64.ofNat (LittleEndian.value data) →
      v.toNat ≤ LittleEndian.value data := by
    rintro rfl
    rw [UInt64.toNat_ofNat']
    exact Nat.mod_le _ _
  rw [encodeUint_eq, LittleEndian.length_bytes, uintWidth]
  unfold decodeUint at h
  split at h
  · next hlength =>
    have hle := hmod (Except.ok.inj h).symm
    rw [hlength] at hvalue ⊢
    rw [if_pos (by omega)]
  · next hlength =>
    have hle := hmod (Except.ok.inj h).symm
    rw [hlength] at hvalue ⊢
    split_ifs <;> omega
  · next hlength =>
    have hle := hmod (Except.ok.inj h).symm
    rw [hlength] at hvalue ⊢
    split_ifs <;> omega
  · obtain ⟨w, hw, -⟩ := Go.bind_eq_ok.mp h
    have hlength := length_le_of_uint64 hw
    split_ifs <;> omega

theorem isNull_iff {d : Datum} : d.isNull = true ↔ d = .null := by
  cases d <;> simp [Datum.isNull]

namespace TableRow

variable (row : TableRow)

theorem toID_eq {c : ℤ × Datum} (hc : c ∈ row.cols) : (toID row.cols c.1 : ℤ) = c.1 := by
  obtain ⟨hnonneg, hlt⟩ := row.range c hc
  unfold toID
  cases hwide : wide row.cols with
  | true =>
    rw [if_pos rfl, Int.emod_eq_of_lt hnonneg hlt, Int.toNat_of_nonneg hnonneg]
  | false =>
    have hbyte : c.1 ≤ 255 := by
      rw [wide, any_eq_false] at hwide
      simpa using hwide c hc
    rw [if_neg Bool.false_ne_true, Int.emod_eq_of_lt hnonneg (by omega),
      Int.toNat_of_nonneg hnonneg]

theorem eq_of_fst_eq {c c' : ℤ × Datum} (hc : c ∈ row.cols) (hc' : c' ∈ row.cols)
    (h : c.1 = c'.1) : c = c' :=
  inj_on_of_nodup_map row.nodup hc hc' h

theorem nodup_toID {cols : Columns} (h : cols.Sublist row.cols) :
    (cols.map fun c => toID row.cols c.1).Nodup := by
  have hnodup : cols.Nodup := (List.Nodup.of_map _ row.nodup).sublist h
  refine hnodup.map_on fun c hc c' hc' heq => row.eq_of_fst_eq (h.subset hc) (h.subset hc') ?_
  rw [← row.toID_eq (h.subset hc), heq, row.toID_eq (h.subset hc')]

theorem pairwise_sortedNotNull : ((sortedNotNull row.cols).map Prod.fst).Pairwise (· < ·) := by
  have hle : ((sortedNotNull row.cols).map Prod.fst).Pairwise (· ≤ ·) := by
    rw [pairwise_map]
    exact pairwise_insertionSort _ _
  have hnodup : ((sortedNotNull row.cols).map Prod.fst).Nodup := by
    have hperm := (perm_insertionSort (fun x y : ℕ × Datum => x.1 ≤ y.1)
      ((notNull row.cols).map fun c => (toID row.cols c.1, c.2))).map Prod.fst
    rw [map_map] at hperm
    exact hperm.nodup_iff.mpr (row.nodup_toID filter_sublist)
  exact (hle.and hnodup).imp fun h => lt_of_le_of_ne h.1 h.2

theorem pairwise_sortedNull : (sortedNull row.cols).Pairwise (· < ·) := by
  have hle : (sortedNull row.cols).Pairwise (· ≤ ·) := pairwise_insertionSort _ _
  have hnodup : (sortedNull row.cols).Nodup :=
    (perm_insertionSort _ _).nodup_iff.mpr (row.nodup_toID filter_sublist)
  exact (hle.and hnodup).imp fun h => lt_of_le_of_ne h.1 h.2

theorem mem_sortedNotNull {x : ℕ × Datum} :
    x ∈ sortedNotNull row.cols ↔ ((x.1 : ℤ), x.2) ∈ row.cols ∧ x.2.isNull = false := by
  rw [sortedNotNull, mem_insertionSort, mem_map]
  constructor
  · rintro ⟨c, hc, rfl⟩
    obtain ⟨hmem, hnull⟩ := mem_filter.mp hc
    rw [row.toID_eq hmem]
    exact ⟨hmem, by simpa using hnull⟩
  · rintro ⟨hmem, hnull⟩
    refine ⟨_, mem_filter.mpr ⟨hmem, by simpa using hnull⟩, ?_⟩
    exact Prod.ext (Int.ofNat_inj.mp (row.toID_eq hmem)) rfl

theorem mem_sortedNull {x : ℕ} : x ∈ sortedNull row.cols ↔ ((x : ℤ), Datum.null) ∈ row.cols := by
  rw [sortedNull, mem_insertionSort, mem_map]
  constructor
  · rintro ⟨c, hc, rfl⟩
    obtain ⟨hmem, hnull⟩ := mem_filter.mp hc
    have hc : c = (c.1, Datum.null) := Prod.ext rfl (isNull_iff.mp hnull)
    rw [row.toID_eq hmem, ← hc]
    exact hmem
  · intro hmem
    exact ⟨_, mem_filter.mpr ⟨hmem, rfl⟩, Int.ofNat_inj.mp (row.toID_eq hmem)⟩

end TableRow

/-- What the search of the decoder finds for an id. -/
inductive Found
  | value (data : Bytes)
  | null
  | absent
deriving DecidableEq, Repr

def Row.lookup (r : Row) (colID : ℤ) : Go Found := do
  match ← r.findNotNull colID with
  | some h => return .value (← r.getData h)
  | none => if ← r.findNull colID then return .null else return .absent

theorem Row.of_lookup_none {r : Row} {colID : ℤ} {found : Found} (h : r.lookup colID = .ok found)
    (hnone : ∀ data, found ≠ .value data) :
    r.findNotNull colID = .ok none ∧ r.findNull colID = .ok (decide (found = .null)) := by
  obtain ⟨place, hplace, h⟩ := Go.bind_eq_ok.mp h
  cases place with
  | some i =>
    obtain ⟨data, -, hvalue⟩ := Go.bind_eq_ok.mp h
    cases hvalue
    exact absurd rfl (hnone data)
  | none =>
    obtain ⟨null, hnull, h⟩ := Go.bind_eq_ok.mp h
    cases null <;> cases h <;> exact ⟨hplace, hnull⟩

/-- The decoder has read the ids of the row. -/
structure Reads (r : Row) (cols : Columns) : Prop where
  ids : r.ids.view = sortedIds cols
  notNullCols : r.numNotNullCols = (notNull cols).length
  nullCols : r.numNullCols = (nulls cols).length

namespace Reads

variable {row : TableRow} {r : Row}

variable (h : Reads r row.cols)
include h

theorem findNotNull_eq (colID : ℤ) :
    ∃ found, r.findNotNull colID = .ok found ∧ ∀ i, found = some i ↔
      ∃ c, (sortedNotNull row.cols)[i]? = some c ∧ (c.1 : ℤ) = colID := by
  have hlength := Encoder.length_sortedNotNull row.cols
  have hasc := Search.ascends_of_pairwise ([] : List ℤ) ((sortedNull row.cols).map Int.ofNat)
    (row.pairwise_sortedNotNull.map Int.ofNat fun a b hab => Int.ofNat_lt.mpr hab)
  rw [nil_append, length_nil, Nat.zero_add, length_map, length_map,
    hlength] at hasc
  obtain ⟨found, heq, hfound⟩ := Search.find_spec (x := colID) (by simp [hlength]) hasc
  refine ⟨found, ?_, fun i => ?_⟩
  · rw [Row.findNotNull, h.ids, h.notNullCols, sortedIds, map_append]
    exact heq
  · rw [hfound]
    constructor
    · rintro ⟨-, hi, hget⟩
      rw [getElem?_append_left (by simp; omega), map_map, getElem?_map,
        Option.map_eq_some_iff] at hget
      exact hget
    · rintro ⟨c, hget, rfl⟩
      obtain ⟨hi, -⟩ := List.getElem?_eq_some_iff.mp hget
      refine ⟨Nat.zero_le _, by omega, ?_⟩
      rw [getElem?_append_left (by simp; omega), map_map, getElem?_map, hget]
      rfl

theorem findNull_eq (colID : ℤ) :
    r.findNull colID = .ok (decide ((colID, Datum.null) ∈ row.cols)) := by
  have hlength := Encoder.length_sortedNotNull row.cols
  have hlength' := Encoder.length_sortedNull row.cols
  have hnumCols : r.numCols = (notNull row.cols).length + (nulls row.cols).length := by
    have hlt := row.length_lt
    rw [← Encoder.length_notNull_add] at hlt
    rw [Row.numCols, h.notNullCols, h.nullCols, Nat.mod_eq_of_lt hlt]
  have hasc := Search.ascends_of_pairwise
    (((sortedNotNull row.cols).map Prod.fst).map Int.ofNat) []
    (row.pairwise_sortedNull.map Int.ofNat fun a b hab => Int.ofNat_lt.mpr hab)
  rw [append_nil, length_map, length_map, length_map, hlength, hlength'] at hasc
  obtain ⟨found, heq, hfound⟩ := Search.find_spec (x := colID) (by simp [hlength, hlength']) hasc
  have hiff : found.isSome = true ↔ (colID, Datum.null) ∈ row.cols := by
    rw [Option.isSome_iff_exists]
    constructor
    · rintro ⟨i, hi⟩
      obtain ⟨hle, hlt, hget⟩ := (hfound i).mp hi
      rw [getElem?_append_right (by simp; omega), getElem?_map,
        Option.map_eq_some_iff] at hget
      obtain ⟨x, hx, rfl⟩ := hget
      exact row.mem_sortedNull.mp (mem_of_getElem? hx)
    · intro hmem
      have hid : (toID row.cols colID : ℤ) = colID := row.toID_eq hmem
      have hx : toID row.cols colID ∈ sortedNull row.cols := by
        rw [row.mem_sortedNull, hid]
        exact hmem
      obtain ⟨i, hi, hget⟩ := getElem_of_mem hx
      refine ⟨(notNull row.cols).length + i, (hfound _).mpr ⟨by omega, by omega, ?_⟩⟩
      rw [getElem?_append_right (by simp; omega), getElem?_map]
      simp [hlength, getElem?_eq_getElem hi, hget, hid]
  rw [Row.findNull, h.ids, h.notNullCols, hnumCols, sortedIds, map_append, heq]
  change Except.ok found.isSome = _
  rw [← Bool.decide_coe found.isSome, decide_eq_decide.mpr hiff]

theorem findNotNull_of_mem {c : ℤ × Datum} (hc : c ∈ row.cols) (hnull : c.2.isNull = false) :
    ∃ i, (sortedNotNull row.cols)[i]? = some (toID row.cols c.1, c.2) ∧
      r.findNotNull c.1 = .ok (some i) := by
  have hmem : (toID row.cols c.1, c.2) ∈ sortedNotNull row.cols := by
    rw [row.mem_sortedNotNull, row.toID_eq hc]
    exact ⟨hc, hnull⟩
  obtain ⟨i, hi⟩ := mem_iff_getElem?.mp hmem
  obtain ⟨found, heq, hfound⟩ := h.findNotNull_eq c.1
  rw [(hfound i).mpr ⟨_, hi, row.toID_eq hc⟩] at heq
  exact ⟨i, hi, heq⟩

theorem lookup_of_mem {c : ℤ × Datum} (hc : c ∈ row.cols) (hnull : c.2.isNull = false) :
    ∃ i, (sortedNotNull row.cols)[i]? = some (toID row.cols c.1, c.2) ∧
      r.lookup c.1 = .value <$> r.getData i := by
  obtain ⟨i, hi, hfound⟩ := h.findNotNull_of_mem hc hnull
  refine ⟨i, hi, ?_⟩
  rw [Row.lookup, hfound, Go.ok_bind]
  rfl

theorem findNotNull_eq_none {colID : ℤ} (habsent : ∀ c ∈ row.cols, c.1 = colID → c.2 = .null) :
    r.findNotNull colID = .ok none := by
  obtain ⟨found, heq, hfound⟩ := h.findNotNull_eq colID
  cases found with
  | none => exact heq
  | some i =>
    obtain ⟨c, hget, rfl⟩ := (hfound i).mp rfl
    obtain ⟨hmem, hnull⟩ := row.mem_sortedNotNull.mp (mem_of_getElem? hget)
    have hc : c.2 = .null := habsent _ hmem rfl
    rw [hc] at hnull
    cases hnull

theorem lookup_of_null {colID : ℤ} (hc : (colID, Datum.null) ∈ row.cols) :
    r.lookup colID = .ok .null := by
  have hnone : r.findNotNull colID = .ok none := by
    refine h.findNotNull_eq_none fun c hmem heq => ?_
    rw [row.eq_of_fst_eq hmem hc heq]
  rw [Row.lookup, hnone, Go.ok_bind]
  dsimp only
  rw [h.findNull_eq, decide_eq_true hc, Go.ok_bind]
  rfl

theorem lookup_of_notMem {colID : ℤ}
    (habsent : colID ∉ row.cols.map Prod.fst) : r.lookup colID = .ok .absent := by
  have hne : ∀ c ∈ row.cols, c.1 ≠ colID := fun c hmem heq =>
    habsent (heq ▸ mem_map_of_mem hmem)
  have hnone := h.findNotNull_eq_none fun c hmem heq => absurd heq (hne c hmem)
  rw [Row.lookup, hnone, Go.ok_bind]
  dsimp only
  rw [h.findNull_eq, decide_eq_false fun hmem => hne _ hmem rfl, Go.ok_bind]
  rfl

end Reads

def Row.ofLayout (r : Row) (large : Bool) (numNotNull numNull : ℕ) (ids offsets : List ℕ)
    (data : Bytes) : Row :=
  let r := { r with
    large := large, numNotNullCols := numNotNull, numNullCols := numNull, data := data }
  if large then { r with colIDs32 := ⟨ids, []⟩, offsets32 := ⟨offsets, []⟩ }
  else { r with colIDs := ⟨ids, []⟩, offsets := ⟨offsets, []⟩ }

theorem slice_append (b₁ b₂ b₃ : Bytes) {lo hi : ℕ} (hlo : lo = b₁.length)
    (hhi : hi = lo + b₂.length) : Go.slice (b₁ ++ b₂ ++ b₃) lo hi = .ok b₂ := by
  subst hlo hhi
  rw [Go.slice_eq_ok (by omega) (by simp), ← length_append, take_left, drop_left]

theorem slice_append_end (b₁ b₂ : Bytes) {lo hi : ℕ} (hlo : lo = b₁.length)
    (hhi : hi = (b₁ ++ b₂).length) : Go.slice (b₁ ++ b₂) lo hi = .ok b₂ := by
  subst hlo hhi
  rw [Go.slice_eq_ok (by simp) le_rfl, take_length, drop_left]

theorem uint16_bytes {v : ℕ} (hv : v < 2^16) (b : Bytes) :
    uint16 (LittleEndian.bytes 2 v ++ b) = .ok v := by
  have hlength := LittleEndian.length_bytes 2 v
  have hlt : 1 < (LittleEndian.bytes 2 v ++ b).length := by
    rw [length_append]
    omega
  have hmod : v % 256^2 = v := Nat.mod_eq_of_lt hv
  rw [uint16, Go.index_eq_ok (getElem?_eq_getElem hlt), Go.ok_bind,
    take_left' hlength, LittleEndian.value_bytes, hmod]
  rfl

def header (large : Bool) (numNotNull numNull : ℕ) : Bytes :=
  [codecVer, if large then 1 else 0] ++ LittleEndian.bytes 2 numNotNull ++
    LittleEndian.bytes 2 numNull

theorem length_header (large : Bool) (numNotNull numNull : ℕ) :
    (header large numNotNull numNull).length = 6 := by
  simp [header]

theorem slice_header_two (large : Bool) (numNotNull numNull : ℕ) (b : Bytes) :
    Go.slice (header large numNotNull numNull ++ b) 2
        (header large numNotNull numNull ++ b).length =
      .ok (LittleEndian.bytes 2 numNotNull ++ (LittleEndian.bytes 2 numNull ++ b)) := by
  rw [header, append_assoc, append_assoc]
  exact slice_append_end _ _ rfl rfl

theorem slice_header_four (large : Bool) (numNotNull numNull : ℕ) (b : Bytes) :
    Go.slice (header large numNotNull numNull ++ b) 4
        (header large numNotNull numNull ++ b).length =
      .ok (LittleEndian.bytes 2 numNull ++ b) := by
  rw [header, append_assoc]
  exact slice_append_end _ _ (by simp) rfl

theorem slice_body {first : Bytes} (ids offsets data : Bytes) {m n : ℕ}
    (hfirst : first.length = 6) (hids : m = ids.length) (hoffsets : n = offsets.length) :
    Go.slice (first ++ (ids ++ (offsets ++ data))) 6 (6 + m) = .ok ids ∧
      Go.slice (first ++ (ids ++ (offsets ++ data))) (6 + m) (6 + m + n) = .ok offsets ∧
      Go.slice (first ++ (ids ++ (offsets ++ data))) (6 + m + n)
        (first ++ (ids ++ (offsets ++ data))).length = .ok data := by
  subst hids hoffsets
  refine ⟨?_, ?_, ?_⟩
  · rw [← append_assoc]
    exact slice_append _ _ _ hfirst.symm rfl
  · rw [← append_assoc, ← append_assoc]
    exact slice_append _ _ _ (by rw [length_append, hfirst]) rfl
  · rw [← append_assoc, ← append_assoc]
    exact slice_append_end _ _ (by rw [length_append, length_append, hfirst]) rfl

theorem setRowData_layout (r : Row) {large : Bool} {numNotNull numNull : ℕ} {ids offsets : List ℕ}
    (data : Bytes) (hcount : numNotNull + numNull < 2^16) (hids : ids.length = numNotNull + numNull)
    (hoffsets : offsets.length = numNotNull) (hids' : ∀ v ∈ ids, v < 256^(if large then 4 else 1))
    (hoffsets' : ∀ v ∈ offsets, v < 256^(if large then 4 else 2)) :
    r.setRowData (layout large numNotNull numNull ids offsets data) =
      .ok (.ok (r.ofLayout large numNotNull numNull ids offsets data)) := by
  have hlength := length_header large numNotNull numNull
  have hver : ∀ b, Go.index (header large numNotNull numNull ++ b) 0 = .ok codecVer := fun b => rfl
  have hflag : ∀ b, Go.index (header large numNotNull numNull ++ b) 1 =
      .ok (if large then 1 else 0) := fun b => rfl
  have hnumCols : ∀ r : Row, r.numNotNullCols = numNotNull → r.numNullCols = numNull →
      r.numCols = numNotNull + numNull := by
    rintro r rfl rfl
    exact Nat.mod_eq_of_lt hcount
  cases large with
  | true =>
    obtain ⟨hslice, hslice', hdata⟩ := slice_body (LittleEndian.pack 4 ids)
      (LittleEndian.pack 4 offsets) data (m := (numNotNull + numNull) * 4)
      (n := numNotNull * 4) hlength (by rw [LittleEndian.length_pack]; omega)
      (by rw [LittleEndian.length_pack]; omega)
    have hunpack : LittleEndian.unpack 4 (LittleEndian.pack 4 ids) = ids :=
      LittleEndian.unpack_pack (by decide) hids'
    have hunpack' : LittleEndian.unpack 4 (LittleEndian.pack 4 offsets) = offsets :=
      LittleEndian.unpack_pack (by decide) hoffsets'
    have hlayout : layout true numNotNull numNull ids offsets data =
        header true numNotNull numNull ++
          (LittleEndian.pack 4 ids ++ (LittleEndian.pack 4 offsets ++ data)) := by
      simp [layout, header]
    rw [hlayout, Row.setRowData, hver, Go.ok_bind, if_neg (by simp), hflag, Go.ok_bind,
      slice_header_two, Go.ok_bind, uint16_bytes (by omega), Go.ok_bind, slice_header_four,
      Go.ok_bind, uint16_bytes (by omega), Go.ok_bind, if_pos (by simp)]
    dsimp only
    rw [hnumCols _ rfl rfl, hslice, Go.ok_bind, hslice', Go.ok_bind, hdata, Go.ok_bind,
      hunpack, hunpack']
    rfl
  | false =>
    obtain ⟨hslice, hslice', hdata⟩ := slice_body (LittleEndian.pack 1 ids)
      (LittleEndian.pack 2 offsets) data (m := numNotNull + numNull)
      (n := numNotNull * 2) hlength (by rw [LittleEndian.length_pack]; omega)
      (by rw [LittleEndian.length_pack]; omega)
    have hunpack : LittleEndian.unpack 1 (LittleEndian.pack 1 ids) = ids :=
      LittleEndian.unpack_pack (by decide) hids'
    have hunpack' : LittleEndian.unpack 2 (LittleEndian.pack 2 offsets) = offsets :=
      LittleEndian.unpack_pack (by decide) hoffsets'
    have hlayout : layout false numNotNull numNull ids offsets data =
        header false numNotNull numNull ++
          (LittleEndian.pack 1 ids ++ (LittleEndian.pack 2 offsets ++ data)) := by
      simp [layout, header]
    rw [hlayout, Row.setRowData, hver, Go.ok_bind, if_neg (by simp), hflag, Go.ok_bind,
      slice_header_two, Go.ok_bind, uint16_bytes (by omega), Go.ok_bind, slice_header_four,
      Go.ok_bind, uint16_bytes (by omega), Go.ok_bind, if_neg (by simp)]
    dsimp only
    rw [hnumCols _ rfl rfl, hslice, Go.ok_bind, hslice', Go.ok_bind, hdata, Go.ok_bind,
      hunpack, hunpack']
    rfl

theorem getElem?_ends (start : ℕ) (values : List Bytes) {i : ℕ} (hi : i ≤ values.length) :
    (start :: ends start values)[i]? = some (start + (values.take i).flatten.length) := by
  induction values generalizing start i with
  | nil =>
    obtain rfl : i = 0 := by simpa using hi
    rfl
  | cons v values ih =>
    cases i with
    | zero => rfl
    | succ i =>
      have ih := ih (start + v.length) (Nat.le_of_succ_le_succ hi)
      rw [ends, getElem?_cons_succ, ih, take_succ_cons, flatten_cons,
        length_append, Nat.add_assoc]

namespace Row

def used (r : Row) : List ℕ := if r.large then r.offsets32.view else r.offsets.view

variable {r : Row} {values : List Bytes}

theorem getData_eq (r : Row) (i : ℕ) : r.getData i = (do
    let start ← Go.index (0 :: r.used) i
    let stop ← Go.index r.used i
    Go.slice r.data start stop) := by
  cases i with
  | zero => rfl
  | succ i => rfl

theorem getData_of_ends (hused : r.used = ends 0 values) (hdata : r.data = values.flatten) {i : ℕ}
    {v : Bytes} (hi : values[i]? = some v) : r.getData i = .ok v := by
  obtain ⟨hlt, hget⟩ := List.getElem?_eq_some_iff.mp hi
  have hstart := getElem?_ends 0 values hlt.le
  have hstop := getElem?_ends 0 values hlt
  have hsplit : values.flatten =
      (values.take i).flatten ++ v ++ (values.drop (i + 1)).flatten := by
    conv_lhs => rw [← take_append_drop i values, drop_eq_getElem_cons hlt, hget]
    simp
  have htake : (values.take (i + 1)).flatten.length =
      (values.take i).flatten.length + v.length := by
    rw [take_add_one, hi]
    simp
  rw [getElem?_cons_succ] at hstop
  rw [getData_eq, hused, Go.index_eq_ok hstart, Go.ok_bind, Go.index_eq_ok hstop, Go.ok_bind, hdata,
    hsplit]
  exact slice_append _ _ _ (Nat.zero_add _) (by rw [htake]; omega)

theorem length_flatten_le (h : ∀ i v, values[i]? = some v →
    ∃ d, r.getData i = .ok d ∧ v.length ≤ d.length) : values.flatten.length ≤ r.data.length := by
  have hstep : ∀ i, i ≤ values.length → ∃ stop, (0 :: r.used)[i]? = some stop ∧
      (values.take i).flatten.length ≤ stop ∧ stop ≤ r.data.length := by
    intro i
    induction i with
    | zero => exact fun _ => ⟨0, rfl, by simp, Nat.zero_le _⟩
    | succ i ih =>
      intro hi
      obtain ⟨start, hstart, hle, -⟩ := ih (Nat.le_of_succ_le hi)
      have hv : values[i]? = some values[i] := getElem?_eq_getElem hi
      obtain ⟨d, hd, hlength⟩ := h i _ hv
      rw [getData_eq, Go.index_eq_ok hstart, Go.ok_bind] at hd
      obtain ⟨stop, hstop, hslice⟩ := Go.bind_eq_ok.mp hd
      obtain ⟨hrange, hrange', rfl⟩ := Go.of_slice hslice
      refine ⟨stop, Go.of_index hstop, ?_, hrange'⟩
      rw [length_drop, length_take] at hlength
      rw [take_add_one, hv]
      simp only [Option.toList_some, flatten_append, flatten_singleton,
        length_append]
      omega
  obtain ⟨stop, -, hle, hle'⟩ := hstep values.length le_rfl
  rw [take_length] at hle
  exact hle.trans hle'

end Row

end RowCodec

end TinyKV
