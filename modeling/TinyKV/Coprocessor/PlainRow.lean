import TinyKV.Coprocessor.RowEncode

/-!
# Plain rows, and the encoder that is used again

A plain row has distinct ids, and its values are NULL, integers or byte strings, which are written
without the help of TiDB.
-/

namespace TinyKV

open List

namespace RowCodec

/-- A row of at most 65535 columns with distinct ids of 32 bits. -/
structure TableRow where
  cols : Columns
  length_le : cols.length ≤ maxUint16
  nodup : (cols.map Prod.fst).Nodup
  range : ∀ c ∈ cols, 0 ≤ c.1 ∧ c.1 < 2^32

theorem TableRow.length_lt (row : TableRow) : row.cols.length < 2^16 := by
  have hle := row.length_le
  rw [maxUint16] at hle
  omega

def isPlain : Datum → Bool
  | .null | .int64 _ | .uint64 _ | .bytes _ => true
  | _ => false

def plainValue : Datum → Bytes
  | .int64 v => encodeInt [] v
  | .uint64 v => encodeUint [] v
  | .bytes b => b
  | _ => []

structure PlainRow extends TableRow where
  plain : ∀ c ∈ cols, isPlain c.2 = true

namespace PlainRow

theorem encodes (row : PlainRow) (T : TidbCodec) : Encodes plainValue T row.cols := by
  intro c hc hnull
  have hplain := row.plain c hc
  cases hd : c.2 with
  | null => rw [hd] at hnull; cases hnull
  | int64 v => rfl
  | uint64 v => rfl
  | bytes b => rfl
  | float32 bits => rw [hd] at hplain; cases hplain
  | float64 bits => rw [hd] at hplain; cases hplain
  | other kind content => rw [hd] at hplain; cases hplain

end PlainRow

namespace Encoder

def encodeRow (T : TidbCodec) (e : Encoder) (row : PlainRow) : Go (Encoder × Except String Bytes) :=
  e.encode T (row.cols.map Prod.fst) (row.cols.map Prod.snd)

def encodeAll (T : TidbCodec) : List PlainRow → Encoder → Go Encoder
  | [], e => return e
  | row :: rows, e => do
    let (e, _) ← e.encodeRow T row
    encodeAll T rows e

def SameAsNew (T : TidbCodec) (e : Encoder) (row : PlainRow) : Prop :=
  ∃ b, Prod.snd <$> e.encodeRow T row = .ok (.ok b) ∧
    Prod.snd <$> ({} : Encoder).encodeRow T row = .ok (.ok b)

def leftAfter (history : List PlainRow) : List ℕ :=
  history.foldl (fun stale row => leftBehind plainValue stale row.cols) []

def Fits (stale : List ℕ) (row : PlainRow) : Prop :=
  isLarge plainValue row.cols = true ∨
  if (rowData plainValue row.cols).length = maxUint16 then stale = []
  else stale.map (· % 2^16) <+: rowEnds plainValue row.cols

theorem encodeRow_eq (T : TidbCodec) (e : Encoder) (row : PlainRow) :
    (fun r => (r.1.offsets32.view, r.2)) <$> e.encodeRow T row =
      (fun b => (leftBehind plainValue e.offsets32.view row.cols, .ok b)) <$>
        encoded plainValue e.offsets32.view row.cols :=
  encode_eq e row.cols row.length_lt (row.encodes T)

theorem snd_encodeRow (T : TidbCodec) (e : Encoder) (row : PlainRow) :
    Prod.snd <$> e.encodeRow T row = .ok <$> encoded plainValue e.offsets32.view row.cols := by
  have heq := congrArg (Prod.snd <$> ·) (encodeRow_eq T e row)
  simp only [Functor.map_map] at heq
  exact heq

theorem offsets32_encodeRow {T : TidbCodec} {e e' : Encoder} {row : PlainRow}
    {r : Except String Bytes} (h : e.encodeRow T row = .ok (e', r)) :
    e'.offsets32.view = leftBehind plainValue e.offsets32.view row.cols := by
  have heq := encodeRow_eq T e row
  rw [h] at heq
  obtain ⟨b, -, hb⟩ := Go.map_eq_ok.mp heq.symm
  exact (Prod.mk.inj hb).1.symm

theorem offsets32_encodeAll {T : TidbCodec} {history : List PlainRow} {e e' : Encoder}
    (h : encodeAll T history e = .ok e') :
    e'.offsets32.view =
      history.foldl (fun stale row => leftBehind plainValue stale row.cols) e.offsets32.view := by
  induction history generalizing e with
  | nil =>
    cases h
    rfl
  | cons row history ih =>
    obtain ⟨⟨e₁, r⟩, hrow, hrest⟩ := Go.bind_eq_ok.mp h
    rw [foldl_cons, ← offsets32_encodeRow hrow]
    exact ih hrest

theorem layout_inj {large : Bool} {numNotNull numNull : ℕ} {ids offsets offsets' : List ℕ}
    {data : Bytes} :
    layout large numNotNull numNull ids offsets data =
        layout large numNotNull numNull ids offsets' data ↔
      LittleEndian.pack (if large then 4 else 2) offsets =
        LittleEndian.pack (if large then 4 else 2) offsets' := by
  unfold layout
  cases large <;> simp

theorem pack_two_inj {words words' : List ℕ} (h : ∀ v ∈ words, v < 2^16)
    (h' : ∀ v ∈ words', v < 2^16) :
    LittleEndian.pack 2 words = LittleEndian.pack 2 words' ↔ words = words' := by
  refine ⟨fun heq => ?_, fun heq => by rw [heq]⟩
  rw [← LittleEndian.unpack_pack (n := 2) (by decide) h, heq,
    LittleEndian.unpack_pack (by decide) h']

theorem append_drop_eq_iff {α : Type} (xs ys : List α) :
    xs ++ ys.drop xs.length = ys ↔ xs <+: ys := by
  constructor
  · intro h
    exact ⟨_, h⟩
  · rintro ⟨zs, rfl⟩
    rw [drop_left]

theorem lt_of_mem_rowEnds {val : Datum → Bytes} {cols : Columns} {v : ℕ}
    (hlt : (rowData val cols).length < maxUint16) (hv : v ∈ rowEnds val cols) : v < 2^16 := by
  have hle : v ≤ 0 + (rowData val cols).length := (le_of_mem_ends hv).2
  rw [maxUint16] at hlt
  omega

theorem exists_ok_iff {b b' : Bytes} :
    (∃ b'', (.ok b : Go Bytes) = .ok b'' ∧ (.ok b' : Go Bytes) = .ok b'') ↔ b = b' := by
  constructor
  · rintro ⟨b'', hb, hb'⟩
    exact (Except.ok.inj hb).trans (Except.ok.inj hb').symm
  · rintro rfl
    exact ⟨b, rfl, rfl⟩

theorem encoded_eq_iff (stale : List ℕ) (row : PlainRow) :
    (∃ b, encoded plainValue stale row.cols = .ok b ∧ encoded plainValue [] row.cols = .ok b) ↔
      Fits stale row := by
  unfold encoded Fits
  dsimp only
  by_cases hlarge : isLarge plainValue row.cols = true
  · rw [if_pos hlarge, if_pos hlarge, exists_ok_iff]
    exact ⟨fun _ => .inl hlarge, fun _ => rfl⟩
  · have hle : (rowData plainValue row.cols).length ≤ maxUint16 := by
      rw [isLarge, Bool.or_eq_true, not_or] at hlarge
      simpa using hlarge.2
    rw [if_neg hlarge, if_neg hlarge, or_iff_right hlarge]
    by_cases hmax : (rowData plainValue row.cols).length = maxUint16
    · rw [if_pos hmax, if_pos hmax, if_pos hmax, exists_ok_iff, layout_inj]
      refine ⟨fun heq => ?_, fun heq => by rw [heq]⟩
      have hlength := congrArg List.length heq
      rw [LittleEndian.length_pack, LittleEndian.length_pack, length_nil] at hlength
      exact length_eq_zero_iff.mp (by simpa using hlength)
    · have hends : (rowEnds plainValue row.cols).length = (notNull row.cols).length := by
        rw [rowEnds, length_ends, length_sortedValues]
      have hsmall : ∀ v ∈ rowEnds plainValue row.cols, v < 2^16 := fun v hv =>
        lt_of_mem_rowEnds (by omega) hv
      rw [if_neg hmax, if_neg hmax, if_neg hmax, length_nil, if_pos (Nat.zero_le _),
        map_nil, nil_append, drop_zero]
      by_cases hfits : stale.length ≤ (notNull row.cols).length
      · rw [if_pos hfits, exists_ok_iff, layout_inj, if_neg Bool.false_ne_true,
          pack_two_inj ?_ hsmall, ← append_drop_eq_iff, length_map]
        intro v hv
        rcases mem_append.mp hv with hv | hv
        · obtain ⟨x, -, rfl⟩ := mem_map.mp hv
          exact Nat.mod_lt _ (by decide)
        · exact hsmall v (mem_of_mem_drop hv)
      · -- There are more ends left than the row has, and the copy panics.
        rw [if_neg hfits]
        constructor
        · rintro ⟨b, hb, -⟩
          cases hb
        · intro hfirst
          have hlength := hfirst.length_le
          rw [length_map, hends] at hlength
          exact absurd hlength hfits

/-- After any rows, the encoder returns what a new one does exactly if what the rows have left
fits. -/
theorem sameAsNew_iff (T : TidbCodec) (history : List PlainRow) (row : PlainRow) (e : Encoder)
    (h : encodeAll T history {} = .ok e) :
    SameAsNew T e row ↔ Fits (leftAfter history) row := by
  have hleft : e.offsets32.view = leftAfter history := offsets32_encodeAll h
  have hmap : ∀ {x : Go Bytes} {b : Bytes},
      ((.ok : Bytes → Except String Bytes) <$> x = .ok (.ok b)) ↔ x = .ok b := by
    intro x b
    rw [Go.map_eq_ok]
    simp
  rw [← encoded_eq_iff, SameAsNew]
  simp only [snd_encodeRow, hmap, hleft]
  rfl

def noCodec : TidbCodec where
  encodeValue _ := .error "unsupported"
  decodeOne _ := .error "unsupported"
  decodeFloat _ := .error "unsupported"
  toFloat32 _ := 0
  newBinaryLiteralFromUint _ _ := .ok []

def bytesRow (colID : ℤ) (b : Bytes) (h : 0 ≤ colID ∧ colID < 2^32) : PlainRow where
  cols := [(colID, .bytes b)]
  length_le := by simp [maxUint16]
  nodup := nodup_singleton _
  range := by simpa using h
  plain := by simp [isPlain]

theorem sameAsNew_sample :
    ∃ e, encodeAll noCodec [bytesRow 256 [1, 2] (by decide)] {} = .ok e ∧
      SameAsNew noCodec e (bytesRow 1 [7, 8] (by decide)) := by
  refine ⟨_, rfl, (sameAsNew_iff noCodec [bytesRow 256 [1, 2] (by decide)] _ _ rfl).mpr ?_⟩
  refine .inr ?_
  rw [if_neg (by decide)]
  decide

theorem not_sameAsNew_of_ne {T : TidbCodec} {e : Encoder} {row : PlainRow} {b b' : Bytes}
    (h : Prod.snd <$> e.encodeRow T row = .ok (.ok b))
    (h' : Prod.snd <$> ({} : Encoder).encodeRow T row = .ok (.ok b')) (hne : b ≠ b') :
    ¬ SameAsNew T e row := by
  rintro ⟨b'', hb, hb'⟩
  have heq : b = b'' := Except.ok.inj (Except.ok.inj (h.symm.trans hb))
  have heq' : b' = b'' := Except.ok.inj (Except.ok.inj (h'.symm.trans hb'))
  exact hne (heq.trans heq'.symm)

theorem not_sameAsNew_sample :
    ∃ e, encodeAll noCodec [bytesRow 256 [1, 2] (by decide)] {} = .ok e ∧
      Prod.snd <$> e.encodeRow noCodec (bytesRow 1 [7] (by decide)) =
        .ok (.ok [128, 0, 1, 0, 0, 0, 1, 2, 0, 7]) ∧
      Prod.snd <$> ({} : Encoder).encodeRow noCodec (bytesRow 1 [7] (by decide)) =
        .ok (.ok [128, 0, 1, 0, 0, 0, 1, 1, 0, 7]) ∧
      ¬ SameAsNew noCodec e (bytesRow 1 [7] (by decide)) :=
  ⟨_, rfl, rfl, rfl, not_sameAsNew_of_ne rfl rfl (by decide)⟩

end Encoder

end RowCodec

end TinyKV
