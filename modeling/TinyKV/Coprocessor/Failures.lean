import TinyKV.Coprocessor.ScanOutput

/-!
# Failures of the coprocessor

A stage of `Process` fails for a pair if its row cannot be decoded, an expression cannot be
evaluated, or a row cannot be encoded when the buffer is flushed.
-/

namespace TinyKV

open List

/-- How a computation fails: it returns an error, or it panics. -/
inductive Failure
  | error (err : String)
  | panic (p : Panic)
deriving DecidableEq, Repr

namespace Failure

variable {α β : Type}

def result : Failure → Go (Except String α)
  | error err => .ok (.error err)
  | panic p => .error p

def after (a : α) : Failure → Go (α × Option String)
  | error err => .ok (a, some err)
  | panic p => .error p

theorem after_bind (f : Failure) (a : α) (g : α → β) :
    (f.after a >>= fun r => return (g r.1, r.2)) = f.after (g a) := by
  cases f <;> rfl

end Failure

namespace RowCodec

def Chunk.plus (chk : Chunk) (ds : List Datum) : Chunk :=
  chk.mapIdx fun c column => column ++ ds[c]?.toList

theorem Chunk.plus_of {width : ℕ} {rows : List (List Datum)} (ds : List Datum) :
    (Chunk.of width rows []).plus ds = Chunk.of width rows ds := by
  apply ext_getElem?
  intro c
  rw [plus, getElem?_mapIdx]
  rcases Nat.lt_or_ge c width with hc | hc
  · rw [getElem?_of hc, getElem?_of hc]
    simp
  · rw [getElem?_of_le hc, getElem?_of_le hc]
    rfl

theorem Chunk.value_of_part {width i : ℕ} {rows : List (List Datum)} (hi : i < rows.length)
    (ds : List Datum) (c : ℕ) :
    (Chunk.of width rows ds).value i c = (Chunk.of width rows []).value i c := by
  rcases Nat.lt_or_ge c width with hc | hc
  · have hlt : i < (rows.map fun row => row.getD c .null).length := by rwa [length_map]
    rw [value, value, Go.index_eq_ok (getElem?_of hc), Go.index_eq_ok (getElem?_of hc), Go.ok_bind,
      Go.ok_bind, Go.index, Go.index, getElem?_append_left hlt, getElem?_append_left hlt]
  · rw [value, value, Go.index, Go.index, getElem?_of_le hc, getElem?_of_le hc]

end RowCodec

namespace ClosureExecutor

open RowCodec

variable {γ : Type} {T : Tidb γ} {e : ClosureExecutor γ} {b : Built γ} {s s' : ExecState γ}
  {scanCtx : ScanCtx} {key value : Bytes} {err : String} {out : List Bytes} {f : Failure}
  {rows : List (List Datum)} {row ds : List Datum}

theorem rowValues_of_width_eq_zero (h : Scans T e scanCtx) (hwidth : e.width = 0)
    {err : Option String} (hvalues : e.rowValues T key value = .ok (ds, err)) : ds = [] := by
  cases h with
  | @table dec r₀ hctx hdec hs =>
    have hnil : dec.requestColIDs = [] :=
      eq_nil_of_length_eq_zero ((length_requestColIDs hdec).trans hwidth)
    rw [rowValues, hctx] at hvalues
    dsimp only at hvalues
    cases hkey : T.decodeRowKey key with
    | error err =>
      rw [tableRow, hkey] at hvalues
      cases hvalues
      rfl
    | ok handle =>
      rw [tableRow_of hdec hkey] at hvalues
      obtain ⟨result, -, hvalues⟩ := Go.bind_eq_ok.mp hvalues
      cases result with
      | error err =>
        cases hvalues
        rfl
      | ok r =>
        dsimp only at hvalues
        rw [hnil] at hvalues
        cases hvalues
        rfl
  | @index ctx hctx hfits =>
    unfold IdxScanCtx.Fits at hfits
    have hpk : ctx.pkStatus = .pkColNotExists := by
      by_contra hpk
      rw [if_neg hpk] at hfits
      omega
    rw [rowValues, hctx] at hvalues
    obtain ⟨result, hcut, hvalues⟩ := Go.bind_eq_ok.mp hvalues
    cases result with
    | error err =>
      cases hvalues
      rfl
    | ok cut =>
      obtain ⟨values, rest⟩ := cut
      have hnil : values = [] :=
        eq_nil_of_length_eq_zero ((T.length_cutIndexKeyNew hcut).trans (by omega))
      rw [hnil] at hvalues
      change (e.handleValues T ctx rest value >>= _) = _ at hvalues
      rw [handleValues, if_pos hpk] at hvalues
      cases hvalues
      rfl

def EncodeFails (T : Tidb γ) (e : ClosureExecutor γ) (chk : Chunk) (chunks out : List Bytes)
    (f : Failure) : Prop :=
  ∃ i < chk.numRows, e.encodeRows T chk i 0 chunks = .ok (out, none) ∧
    e.encodeRow T chk i = f.result

theorem encodeRows_add {chk : Chunk} {m i : ℕ} {chunks : List Bytes} (n : ℕ)
    (h : e.encodeRows T chk m i chunks = .ok (out, none)) :
    e.encodeRows T chk (m + n) i chunks = e.encodeRows T chk n (i + m) out := by
  induction m generalizing i chunks with
  | zero =>
    cases h
    rw [Nat.zero_add, Nat.add_zero]
  | succ m ih =>
    obtain ⟨result, hrow, h⟩ := Go.bind_eq_ok.mp h
    cases result with
    | error err => cases h
    | ok data =>
      obtain ⟨chunks', happend, h⟩ := Go.bind_eq_ok.mp h
      rw [Nat.add_right_comm, encodeRows, hrow, Go.ok_bind]
      dsimp only
      rw [happend, Go.ok_bind, ih h, Nat.add_assoc, Nat.add_comm 1 m]

theorem encodeRows_congr {chk chk' : Chunk} {n i : ℕ}
    (h : ∀ j < i + n, e.encodeRow T chk j = e.encodeRow T chk' j) (chunks : List Bytes) :
    e.encodeRows T chk n i chunks = e.encodeRows T chk' n i chunks := by
  induction n generalizing i chunks with
  | zero => rfl
  | succ n ih =>
    rw [encodeRows, encodeRows, h i (by omega)]
    refine bind_congr fun result => ?_
    cases result with
    | error err => rfl
    | ok data => exact bind_congr fun chunks' => ih (fun j hj => h j (by omega)) chunks'

theorem inChunks_self (chunks : List Bytes) : InChunks chunks chunks := by
  induction chunks with
  | nil => exact ⟨[], rfl, rfl⟩
  | cons chunk chunks ih =>
    obtain ⟨groups, hflatten, hgroups⟩ := ih
    refine ⟨[chunk] :: groups, ?_, ?_⟩
    · rw [flatten_cons, hflatten, singleton_append]
    · rw [map_cons, ← hgroups, flatten_singleton]

theorem encodeRows_cases (chk : Chunk) (n : ℕ) {i : ℕ} {chunks : List Bytes}
    (hi : i = 0 ∨ chunks ≠ []) :
    (∃ out, e.encodeRows T chk n i chunks = .ok (out, none)) ∨
      ∃ m < n, ∃ out f, e.encodeRows T chk m i chunks = .ok (out, none) ∧
        e.encodeRow T chk (i + m) = Failure.result f := by
  induction n generalizing i chunks with
  | zero => exact .inl ⟨chunks, rfl⟩
  | succ n ih =>
    cases hrow : e.encodeRow T chk i with
    | error p => exact .inr ⟨0, Nat.succ_pos n, chunks, .panic p, rfl, hrow⟩
    | ok result =>
      cases result with
      | error err => exact .inr ⟨0, Nat.succ_pos n, chunks, .error err, rfl, hrow⟩
      | ok data =>
        obtain ⟨chunks', happend, -, hne⟩ := (inChunks_self chunks).appendRow hi data
        have hnext (m : ℕ) : e.encodeRows T chk (m + 1) i chunks =
            e.encodeRows T chk m (i + 1) chunks' := by
          rw [encodeRows, hrow, Go.ok_bind]
          dsimp only
          rw [happend, Go.ok_bind]
        rcases ih (.inr hne) with ⟨out, hrest⟩ | ⟨m, hm, out, f, hbefore, hfails⟩
        · exact .inl ⟨out, (hnext n).trans hrest⟩
        · refine .inr ⟨m + 1, Nat.succ_lt_succ hm, out, f, (hnext m).trans hbefore, ?_⟩
          rwa [← Nat.add_assoc, Nat.add_right_comm]

theorem chunkToOldChunk_of_encodeFails (h : EncodeFails T e s.scanCtx.chk s.oldChunks out f) :
    e.chunkToOldChunk T s = f.after { s with oldChunks := out } := by
  obtain ⟨i, hi, hbefore, hrow⟩ := h
  obtain ⟨n, hn⟩ : ∃ n, s.scanCtx.chk.numRows = i + (n + 1) :=
    ⟨s.scanCtx.chk.numRows - i - 1, by omega⟩
  rw [chunkToOldChunk, hn, encodeRows_add (n + 1) hbefore, encodeRows, Nat.zero_add, hrow]
  cases f <;> rfl

theorem of_chunkToOldChunk (h : e.chunkToOldChunk T s = .ok (s', none)) :
    s'.scanCtx = { s.scanCtx with chk := s.scanCtx.chk.reset } := by
  obtain ⟨⟨chunks, err⟩, -, h⟩ := Go.bind_eq_ok.mp h
  cases err with
  | some err => cases h
  | none =>
    cases h
    rfl

def Stops (x : Go (ExecState γ × Option ExecError)) (f : Failure) (out : List Bytes) : Prop :=
  match f with
  | .error err => ∃ s', x = .ok (s', some (.failed err)) ∧ s'.oldChunks = out
  | .panic p => x = .error p

section

variable {α : Type} {x : Go (α × Option String)} {y : Go (Except String α)}

theorem stops_after {a : α} (hx : x = f.after a)
    {k : α × Option String → Go (ExecState γ × Option ExecError)}
    (hk : ∀ err, ∃ s', k (a, some err) = .ok (s', some (.failed err)) ∧ s'.oldChunks = out) :
    Stops (x >>= k) f out := by
  subst hx
  cases f with
  | error err => exact hk err
  | panic p => rfl

theorem stops_result (hy : y = f.result)
    {k : Except String α → Go (ExecState γ × Option ExecError)}
    (hk : ∀ err, ∃ s', k (.error err) = .ok (s', some (.failed err)) ∧ s'.oldChunks = out) :
    Stops (y >>= k) f out := by
  subst hy
  cases f with
  | error err => exact hk err
  | panic p => rfl

end

theorem scanFinish_stops (h : EncodeFails T e s.scanCtx.chk s.oldChunks out f) :
    Stops (e.scanFinish T s) f out :=
  stops_after (chunkToOldChunk_of_encodeFails h) fun _ => ⟨_, rfl, rfl⟩

theorem chunkToOldChunk_cases : (∃ s', e.chunkToOldChunk T s = .ok (s', none)) ∨
    ∃ f out, EncodeFails T e s.scanCtx.chk s.oldChunks out f := by
  rcases encodeRows_cases (e := e) (T := T) s.scanCtx.chk s.scanCtx.chk.numRows
    (.inl (Eq.refl 0)) with ⟨out, h⟩ | ⟨m, hm, out, f, hbefore, hfails⟩
  · refine .inl ⟨{ s with
      oldChunks := out, scanCtx := { s.scanCtx with chk := s.scanCtx.chk.reset } }, ?_⟩
    rw [chunkToOldChunk, h]
    rfl
  · rw [Nat.zero_add] at hfails
    exact .inr ⟨f, out, m, hm, hbefore, hfails⟩

inductive Stage
  | decode | selection | orderBy | groupBy | encode
deriving DecidableEq, Repr

def PlainScan (e : ClosureExecutor γ) : Prop :=
  e.processor = .tableScan ∨ e.processor = .indexScan

def Decoding (e : ClosureExecutor γ) : Prop :=
  e.processor ≠ .countStar ∧ e.processor ≠ .countColumn

def Selects (T : Tidb γ) (e : ClosureExecutor γ) (key value : Bytes) (row : List Datum) : Prop :=
  e.rowValues T key value = .ok (row, none) ∧ evalConditions T e.conditions row = .ok true

/-- A stage of `Process` fails for the pair. -/
inductive Fails (T : Tidb γ) (e : ClosureExecutor γ) (s : ExecState γ) (key value : Bytes) :
    Stage → Failure → Prop
  | decode {ds : List Datum} {f : Failure} (hprocessor : Decoding e)
    (h : e.rowValues T key value = f.after ds) : Fails T e s key value .decode f
  | countIndex {ctx : IdxScanCtx} {f : Failure} (hprocessor : e.processor = .countColumn)
    (hctx : e.idxScanCtx = some ctx) (h : indexCounts T ctx key = f.result) :
    Fails T e s key value .decode f
  | countRow {col : ColumnInfo} {dec : Decoder} {f : Failure}
    (hprocessor : e.processor = .countColumn) (hctx : e.idxScanCtx = none) (hcol : e.col = some col)
    (hdec : s.scanCtx.decoder = some dec)
    (h : Prod.snd <$> dec.columnIsNull value col.columnId col.defaultVal = f.result) :
    Fails T e s key value .decode f
  | selection {row : List Datum} {err : String}
    (hprocessor : e.processor = .selection ∨ e.processor = .topN ∨ e.processor = .hashAgg)
    (hrow : e.rowValues T key value = .ok (row, none))
    (h : evalConditions T e.conditions row = .error err) :
    Fails T e s key value .selection (.error err)
  | orderBy {row sortKey : List Datum} {ctx : TopNCtx} {f : Failure}
    (hprocessor : e.processor = .topN) (hrow : Selects T e key value row)
    (hctx : s.topNCtx = some ctx) (h : evalKey row e.orderByExprs 0 ctx.sortKey = f.after sortKey) :
    Fails T e s key value .orderBy f
  | groupBy {row : List Datum} {err : String} (hprocessor : e.processor = .hashAgg)
    (hrow : Selects T e key value row) (h : e.getGroupKey T row = .error err) :
    Fails T e s key value .groupBy (.error err)
  | encode {row : List Datum} {out : List Bytes} {f : Failure} (hprocessor : Scanning e)
    (hrow : Selects T e key value row) (hfull : (s.scanCtx.chk.plus row).numRows = chunkMaxRows)
    (h : EncodeFails T e (s.scanCtx.chk.plus row) s.oldChunks out f) :
    Fails T e s key value .encode f

def Returns (T : Tidb γ) (e : ClosureExecutor γ) (s : ExecState γ) (key value : Bytes)
    (f : Failure) : Prop :=
  ∃ err s' n, f = .error err ∧ e.process T s key value = .ok (s', some (.failed err)) ∧
    n ≤ s.scanCtx.chk.numRows ∧
    e.encodeRows T s.scanCtx.chk n 0 s.oldChunks = .ok (s'.oldChunks, none)

/-- The failure of the stage reaches the caller, after these pairs. -/
structure Reported (T : Tidb γ) (e : ClosureExecutor γ) (before : List (Bytes × Bytes))
    (s : ExecState γ) (key value : Bytes) (stage : Stage) (f : Failure) : Prop where
  error : ∃ err, f = .error err
  groupBy : stage = .groupBy → ∀ row, Selects T e key value row →
    ∃ aggCtxs, updateContexts row e.aggExprs 0 (e.getContexts s []).2 = f.after aggCtxs
  flush : stage = .decode → PlainScan e → chunkMaxRows ∣ before.length + 1 →
    ∀ ds, e.rowValues T key value = f.after ds → ds ≠ [] →
      ∃ out, EncodeFails T e (s.scanCtx.chk.plus ds) s.oldChunks out f

theorem process_scan (hnew : IsNew T b) (hscan : PlainScan b.1) :
    b.1.process T s key value =
      b.1.scanProcess T (fun scanCtx => b.1.processCore T scanCtx key value) s := by
  rcases hscan with hprocessor | hprocessor
  · rw [process, hprocessor]
    dsimp only
    rw [tableScanProcess]
    congr 1
    funext scanCtx
    rw [processCore, (hnew.table hprocessor).1]
    rfl
  · rw [process, hprocessor]
    dsimp only
    rw [indexScanProcess]
    congr 1
    funext scanCtx
    rw [processCore, if_pos (hnew.index hprocessor).1]

structure Buffers (T : Tidb γ) (e : ClosureExecutor γ) (n : ℕ) (s : ExecState γ) : Prop where
  scans : Scans T e s.scanCtx
  rows : ∃ rows, s.scanCtx.chk = Chunk.of e.width rows [] ∧
    (PlainScan e → 0 < e.width → rows.length = n % chunkMaxRows) ∧ (¬ Scanning e → rows = [])

theorem buffers_new (hnew : IsNew T b) : Buffers T b.1 0 b.2 :=
  ⟨hnew.scans, [], hnew.chk_eq, fun _ _ => rfl, fun _ => rfl⟩

variable {n : ℕ}

theorem Buffers.of_not_scanning (h : Buffers T e n s) (hscan : ¬ Scanning e) :
    s.scanCtx.chk = Chunk.of e.width [] [] := by
  obtain ⟨rows, hchk, -, hrows⟩ := h.rows
  rw [hchk, hrows hscan]

theorem buffers_of_not_scanning (hscan : ¬ Scanning e) (hscans : Scans T e s.scanCtx)
    (hchk : s.scanCtx.chk = Chunk.of e.width [] []) : Buffers T e n s :=
  ⟨hscans, [], hchk, fun hplain => absurd (hplain.imp_right .inl) hscan, fun _ => rfl⟩

theorem Buffers.full_iff (h : Buffers T e n s) (hscan : PlainScan e) {err : Option String}
    (hvalues : e.rowValues T key value = .ok (ds, err)) :
    (s.scanCtx.chk.plus ds).numRows = chunkMaxRows ↔ chunkMaxRows ∣ n + 1 ∧ ds ≠ [] := by
  obtain ⟨rows, hchk, hlength, -⟩ := h.rows
  rw [hchk, Chunk.plus_of]
  rcases Nat.eq_zero_or_pos e.width with hzero | hpos
  · have hnil := rowValues_of_width_eq_zero h.scans hzero hvalues
    rw [hzero]
    exact ⟨fun hfull => absurd (show 0 = 1024 from hfull) (by decide),
      fun hdvd => absurd hnil hdvd.2⟩
  · have hrows := hlength hscan hpos
    by_cases hnil : ds = []
    · rw [hnil, Chunk.numRows_of hpos]
      refine ⟨fun hfull => ?_, fun hdvd => absurd rfl hdvd.2⟩
      unfold chunkMaxRows at *
      omega
    · rw [Chunk.numRows_of_part hpos hnil, hrows]
      refine ⟨fun hfull => ⟨?_, hnil⟩, fun hdvd => ?_⟩
      · unfold chunkMaxRows at *
        omega
      · have hdvd' := hdvd.1
        unfold chunkMaxRows at *
        omega

theorem Buffers.not_full (h : Buffers T e n s) (hscan : PlainScan e) :
    (s.scanCtx.chk.plus []).numRows ≠ chunkMaxRows := by
  obtain ⟨rows, hchk, hlength, -⟩ := h.rows
  rw [hchk, Chunk.plus_of]
  rcases Nat.eq_zero_or_pos e.width with hzero | hpos
  · rw [hzero]
    exact fun hfull => absurd (show 0 = 1024 from hfull) (by decide)
  · rw [Chunk.numRows_of hpos, hlength hscan hpos]
    exact (Nat.mod_lt n (Nat.succ_pos _)).ne

theorem processCore_of_fails (h : Scans T e scanCtx) (hchk : scanCtx.chk = Chunk.of e.width rows [])
    (hvalues : e.rowValues T key value = f.after ds) :
    ∃ scanCtx', e.processCore T scanCtx key value = f.after scanCtx' ∧
      scanCtx'.chk = Chunk.of e.width rows ds := by
  obtain ⟨scanCtx', -, hcore⟩ := processCore_eq h hchk key value
  rw [hvalues] at hcore
  refine ⟨{ scanCtx' with chk := Chunk.of e.width rows ds }, ?_, rfl⟩
  rw [hcore]
  exact f.after_bind ds fun ds => { scanCtx' with chk := Chunk.of e.width rows ds }

theorem processSelection_eq (hwidth : row.length = e.width) (rows : List (List Datum)) :
    e.processSelection T (Chunk.of e.width (rows ++ [row]) []) =
      .ok (Chunk.of e.width
        (if evalConditions T e.conditions row = .ok false then rows else rows ++ [row]) [],
        evalConditions T e.conditions row) := by
  rw [processSelection, Chunk.getRow_last hwidth, Go.ok_bind]
  cases evalConditions T e.conditions row with
  | error err => rfl
  | ok gotRow =>
    cases gotRow with
    | true => rfl
    | false => exact congrArg (fun chk => Except.ok (chk, Except.ok false)) Chunk.truncateTo_last

theorem processRow_of_row (h : Scans T e scanCtx) (hchk : scanCtx.chk = Chunk.of e.width rows [])
    (hrow : e.rowValues T key value = .ok (row, none)) :
    ∃ scanCtx', e.processRow T scanCtx key value =
        .ok (scanCtx', evalConditions T e.conditions row) ∧ Scans T e scanCtx' ∧
      scanCtx'.chk = Chunk.of e.width
        (if evalConditions T e.conditions row = .ok false then rows else rows ++ [row]) [] := by
  obtain ⟨scanCtx', hcore, hscans, hchk', hwidth⟩ := processCore_of_row h hchk hrow
  rw [processRow, hcore, Go.ok_bind]
  dsimp only
  by_cases hconditions : e.conditions.length > 0
  · rw [if_pos hconditions, hchk', processSelection_eq hwidth]
    exact ⟨_, rfl, hscans.withChunk _, rfl⟩
  · have hnil : e.conditions = [] := eq_nil_of_length_eq_zero (by omega)
    rw [if_neg hconditions, hnil]
    exact ⟨scanCtx', rfl, hscans, hchk'⟩

theorem processRow_of_selects (h : Scans T e scanCtx) (hchk : scanCtx.chk = Chunk.of e.width [] [])
    (hrow : Selects T e key value row) :
    ∃ scanCtx', e.processRow T scanCtx key value = .ok (scanCtx', .ok true) ∧ Scans T e scanCtx' ∧
      scanCtx'.chk = Chunk.of e.width [row] [] ∧ scanCtx'.chk.getRow 0 = .ok row := by
  obtain ⟨scanCtx', hprocess, hscans, hchk'⟩ := processRow_of_row h hchk hrow.1
  rw [hrow.2] at hprocess hchk'
  rw [if_neg (by simp), nil_append] at hchk'
  refine ⟨scanCtx', hprocess, hscans, hchk', ?_⟩
  rw [hchk']
  exact Chunk.getRow_of rfl (length_rowValues h hrow.1)

theorem of_processRow_eq_ok {scanCtx' : ScanCtx} {gotRow : Bool} (h : Scans T e scanCtx)
    (hchk : scanCtx.chk = Chunk.of e.width rows [])
    (hprocess : e.processRow T scanCtx key value = .ok (scanCtx', .ok gotRow)) :
    Scans T e scanCtx' ∧ ∃ row, e.rowValues T key value = .ok (row, none) ∧
      scanCtx'.chk = Chunk.of e.width (if gotRow then rows ++ [row] else rows) [] := by
  have hstart := hprocess
  obtain ⟨⟨scanCtx₁, err⟩, hcore, hstart⟩ := Go.bind_eq_ok.mp hstart
  cases err with
  | some err => cases hstart
  | none =>
    obtain ⟨row, hrow, -, -⟩ := of_processCore h hchk hcore
    obtain ⟨scanCtx₂, heq, hscans, hchk'⟩ := processRow_of_row h hchk hrow
    rw [heq] at hprocess
    obtain ⟨rfl, hgotRow⟩ := Prod.mk.inj (Except.ok.inj hprocess)
    refine ⟨hscans, row, hrow, ?_⟩
    rw [hchk', hgotRow]
    cases gotRow <;> rfl

theorem Buffers.scanStep (h : Buffers T e n s) (hscan : PlainScan e)
    (hprocess : e.scanProcess T (fun scanCtx => e.processCore T scanCtx key value) s =
      .ok (s', none)) : Buffers T e (n + 1) s' := by
  rw [scanProcess] at hprocess
  split_ifs at hprocess with hlimit
  · cases hprocess
  obtain ⟨⟨scanCtx, err⟩, hcore, hprocess⟩ := Go.bind_eq_ok.mp hprocess
  obtain ⟨rows, hchk, hlength, -⟩ := h.rows
  obtain ⟨ds, hvalues, hscans, hchk'⟩ := of_processCore h.scans hchk hcore
  have hplus : scanCtx.chk = s.scanCtx.chk.plus ds := by rw [hchk', hchk, Chunk.plus_of]
  dsimp only at hprocess
  split_ifs at hprocess with hfull
  · obtain ⟨⟨s₁, err₁⟩, hflush, hprocess⟩ := Go.bind_eq_ok.mp hprocess
    cases err₁ with
    | some err => cases hprocess
    | none =>
      cases hprocess
      rw [hplus] at hfull
      have hdvd := ((h.full_iff hscan hvalues).mp hfull).1
      have hctx : s₁.scanCtx = { scanCtx with chk := scanCtx.chk.reset } :=
        of_chunkToOldChunk hflush
      refine ⟨?_, [], ?_, fun _ _ => (Nat.mod_eq_zero_of_dvd hdvd).symm, fun _ => rfl⟩
      · change Scans T e s₁.scanCtx
        rw [hctx]
        exact hscans.withChunk _
      · change s₁.scanCtx.chk = _
        rw [hctx]
        exact (congrArg Chunk.reset hchk').trans Chunk.reset_of
  · cases err with
    | some err => cases hprocess
    | none =>
      cases hprocess
      have hcomplete := length_rowValues h.scans hvalues
      refine ⟨hscans, rows ++ [ds], hchk'.trans (Chunk.of_complete hcomplete), fun _ hpos => ?_,
        fun hnot => absurd (hscan.imp_right .inl) hnot⟩
      have hnil : ds ≠ [] := by
        rintro rfl
        exact hpos.ne hcomplete
      have hdvd : ¬ chunkMaxRows ∣ n + 1 := fun hdvd =>
        hfull ((congrArg Chunk.numRows hplus).trans
          ((h.full_iff hscan hvalues).mpr ⟨hdvd, hnil⟩))
      have hrows := hlength hscan hpos
      rw [length_append, length_singleton]
      unfold chunkMaxRows at *
      omega

theorem Buffers.selectionStep (h : Buffers T e n s) (hprocessor : e.processor = .selection)
    (hprocess : e.selectionProcess T s key value = .ok (s', none)) : Buffers T e (n + 1) s' := by
  have hplain : ¬ PlainScan e := by simp [PlainScan, hprocessor]
  have hscan : Scanning e := .inr (.inr hprocessor)
  -- How many rows there are matters only for a scan without a selection.
  have hbuffers {s' : ExecState γ} {rows : List (List Datum)} (hscans : Scans T e s'.scanCtx)
      (hchk : s'.scanCtx.chk = Chunk.of e.width rows []) : Buffers T e (n + 1) s' :=
    ⟨hscans, rows, hchk, fun h => absurd h hplain, fun h => absurd hscan h⟩
  rw [selectionProcess] at hprocess
  split_ifs at hprocess with hlimit
  · cases hprocess
  obtain ⟨⟨scanCtx, err⟩, hcore, hprocess⟩ := Go.bind_eq_ok.mp hprocess
  obtain ⟨rows, hchk, -⟩ := h.rows
  cases err with
  | some err => cases hprocess
  | none =>
    obtain ⟨row, hrow, hscans, hchk'⟩ := of_processCore h.scans hchk hcore
    have hwidth := length_rowValues h.scans hrow
    rw [Chunk.of_complete hwidth] at hchk'
    have hselection : e.processSelection T scanCtx.chk = _ :=
      (congrArg _ hchk').trans (processSelection_eq hwidth rows)
    cases hconditions : evalConditions T e.conditions row with
    | error err =>
      dsimp only at hprocess
      rw [hselection, hconditions] at hprocess
      cases hprocess
    | ok gotRow =>
      dsimp only at hprocess
      cases gotRow with
      | false =>
        rw [hselection, hconditions, if_pos rfl] at hprocess
        cases hprocess
        exact hbuffers (hscans.withChunk _) rfl
      | true =>
        rw [hselection, hconditions, if_neg (by simp), Go.ok_bind] at hprocess
        dsimp only at hprocess
        split_ifs at hprocess with hfull
        · obtain ⟨⟨s₁, err₁⟩, hflush, hprocess⟩ := Go.bind_eq_ok.mp hprocess
          cases err₁ with
          | some err => cases hprocess
          | none =>
            cases hprocess
            have hctx := of_chunkToOldChunk hflush
            refine @hbuffers s₁ [] ?_ ?_
            · rw [hctx]
              exact (hscans.withChunk _).withChunk _
            · rw [hctx]
              exact Chunk.reset_of
        · cases hprocess
          exact hbuffers (hscans.withChunk _) rfl

theorem Buffers.topNStep (h : Buffers T e n s) (hprocessor : e.processor = .topN)
    (hprocess : e.topNProcess T s key value = .ok (s', none)) : Buffers T e (n + 1) s' := by
  have hscan : ¬ Scanning e := by simp [Scanning, hprocessor]
  have hchk := h.of_not_scanning hscan
  obtain ⟨⟨scanCtx, result⟩, hrow, hprocess⟩ := Go.bind_eq_ok.mp hprocess
  cases result with
  | error err => cases hprocess
  | ok gotRow =>
    obtain ⟨hscans, row, -, hchk'⟩ := of_processRow_eq_ok h.scans hchk hrow
    cases gotRow with
    | false =>
      cases hprocess
      exact buffers_of_not_scanning hscan hscans hchk'
    | true =>
      obtain ⟨ctx, -, hprocess⟩ := Go.bind_eq_ok.mp hprocess
      obtain ⟨row', -, hprocess⟩ := Go.bind_eq_ok.mp hprocess
      obtain ⟨⟨sortKey, err⟩, -, hprocess⟩ := Go.bind_eq_ok.mp hprocess
      cases err with
      | some err => cases hprocess
      | none =>
        obtain ⟨⟨heap, added⟩, -, hprocess⟩ := Go.bind_eq_ok.mp hprocess
        obtain ⟨rfl, -⟩ := Prod.mk.inj (Except.ok.inj hprocess)
        exact buffers_of_not_scanning hscan (hscans.withChunk _)
          ((congrArg Chunk.reset hchk').trans Chunk.reset_of)

theorem exists_getContexts (e : ClosureExecutor γ) (s : ExecState γ) (scanCtx : ScanCtx)
    (gk : Bytes) : ∃ s₁ : ExecState γ, s₁.scanCtx = scanCtx ∧ s₁.oldChunks = s.oldChunks ∧
      e.getContexts (addGroup { s with scanCtx := scanCtx } gk) gk =
        (s₁, (e.getContexts s gk).2) := by
  obtain ⟨s₂, hs₂, hctx, hchunks, hmap⟩ : ∃ s₂, s₂ = addGroup { s with scanCtx := scanCtx } gk ∧
      s₂.scanCtx = scanCtx ∧ s₂.oldChunks = s.oldChunks ∧ s₂.aggCtxsMap = s.aggCtxsMap := by
    refine ⟨_, rfl, ?_⟩
    rw [addGroup]
    split <;> exact ⟨rfl, rfl, rfl⟩
  rw [← hs₂, getContexts, getContexts, hmap]
  cases s.aggCtxsMap.lookup gk with
  | some aggCtxs => exact ⟨s₂, hctx, hchunks, rfl⟩
  | none =>
    exact ⟨{ s₂ with
      aggCtxsMap := s.aggCtxsMap.insert gk (e.aggExprs.map Aggregation.createContext) },
      hctx, hchunks, rfl⟩

theorem hashAggProcess_of_row (hrow : e.processRow T s.scanCtx key value = .ok (scanCtx, .ok true))
    (hget : scanCtx.chk.getRow (scanCtx.chk.numRows - 1) = .ok row) :
    ∃ s₁ : List γ → ExecState γ,
      (∀ aggCtxs, (s₁ aggCtxs).scanCtx = scanCtx ∧ (s₁ aggCtxs).oldChunks = s.oldChunks) ∧
      e.hashAggProcess T s key value = (do
        let (aggCtxs, err) ← updateContexts row e.aggExprs 0
          (e.getContexts s ((e.getGroupKey T row).toOption.getD [])).2
        match err with
        | some err => return (s₁ aggCtxs, some (.failed err))
        | none =>
          return ({ s₁ aggCtxs with scanCtx := { scanCtx with chk := scanCtx.chk.reset } },
            none)) := by
  rw [hashAggProcess, hrow, Go.ok_bind]
  dsimp only
  rw [hget, Go.ok_bind]
  generalize (e.getGroupKey T row).toOption.getD [] = gk
  obtain ⟨s₁, hctx, hchunks, hcontexts⟩ := exists_getContexts e s scanCtx gk
  refine ⟨fun aggCtxs => { s₁ with aggCtxsMap := s₁.aggCtxsMap.insert gk aggCtxs },
    fun _ => ⟨hctx, hchunks⟩, ?_⟩
  rw [hcontexts]
  subst hctx
  rfl

theorem Buffers.hashAggStep (h : Buffers T e n s) (hprocessor : e.processor = .hashAgg)
    (hprocess : e.hashAggProcess T s key value = .ok (s', none)) : Buffers T e (n + 1) s' := by
  have hscan : ¬ Scanning e := by simp [Scanning, hprocessor]
  have hchk := h.of_not_scanning hscan
  have hstart := hprocess
  rw [hashAggProcess] at hstart
  obtain ⟨⟨scanCtx, result⟩, hrow, hstart⟩ := Go.bind_eq_ok.mp hstart
  cases result with
  | error err => cases hstart
  | ok gotRow =>
    obtain ⟨hscans, row, hvalues, hchk'⟩ := of_processRow_eq_ok h.scans hchk hrow
    cases gotRow with
    | false =>
      cases hstart
      exact buffers_of_not_scanning hscan hscans hchk'
    | true =>
      have hget : scanCtx.chk.getRow (scanCtx.chk.numRows - 1) = .ok row := by
        rw [hchk']
        exact Chunk.getRow_last (length_rowValues h.scans hvalues)
      obtain ⟨s₁, hs₁, heq⟩ := hashAggProcess_of_row hrow hget
      rw [heq] at hprocess
      obtain ⟨⟨aggCtxs, err⟩, -, hprocess⟩ := Go.bind_eq_ok.mp hprocess
      cases err with
      | some err => cases hprocess
      | none =>
        cases hprocess
        exact buffers_of_not_scanning hscan (hscans.withChunk _)
          ((congrArg Chunk.reset hchk').trans Chunk.reset_of)

theorem Buffers.step (hnew : IsNew T b) (hdecoding : Decoding b.1) (h : Buffers T b.1 n s)
    (hprocess : b.1.process T s key value = .ok (s', none)) : Buffers T b.1 (n + 1) s' := by
  have hplain (hscan : PlainScan b.1) : Buffers T b.1 (n + 1) s' := by
    rw [process_scan hnew hscan] at hprocess
    exact h.scanStep hscan hprocess
  cases hkind : b.1.processor with
  | tableScan => exact hplain (.inl hkind)
  | indexScan => exact hplain (.inr hkind)
  | selection =>
    rw [process, hkind] at hprocess
    exact h.selectionStep hkind hprocess
  | topN =>
    rw [process, hkind] at hprocess
    exact h.topNStep hkind hprocess
  | hashAgg =>
    rw [process, hkind] at hprocess
    exact h.hashAggStep hkind hprocess
  | countStar => exact absurd hkind hdecoding.1
  | countColumn => exact absurd hkind hdecoding.2

theorem Buffers.scan (hnew : IsNew T b) (hdecoding : Decoding b.1) {pairs : List (Bytes × Bytes)}
    (h : Buffers T b.1 n s) (hpairs : b.1.scan T pairs s = .ok (s', none)) :
    Buffers T b.1 (n + pairs.length) s' := by
  induction pairs generalizing s n with
  | nil =>
    cases hpairs
    exact h
  | cons pair pairs ih =>
    obtain ⟨⟨s₁, err⟩, hprocess, hpairs⟩ := Go.bind_eq_ok.mp hpairs
    cases err with
    | some err => cases hpairs
    | none =>
      rw [length_cons, ← Nat.add_assoc, Nat.add_right_comm]
      exact ih (h.step hnew hdecoding hprocess) hpairs

section

variable (h : Buffers T b.1 n s) (hlimit : Scanning b.1 → s.rowCount ≠ b.1.limit)
include h hlimit

theorem process_of_decode (hnew : IsNew T b)
    (hprocessor : Decoding b.1)
    (hvalues : b.1.rowValues T key value = f.after ds)
    (hkept : PlainScan b.1 → (s.scanCtx.chk.plus ds).numRows ≠ chunkMaxRows) :
    Stops (b.1.process T s key value) f s.oldChunks := by
  obtain ⟨rows, hchk, -⟩ := h.rows
  obtain ⟨scanCtx, hcore, hchk'⟩ := processCore_of_fails h.scans hchk hvalues
  have hscan (hplain : PlainScan b.1) : Stops (b.1.process T s key value) f s.oldChunks := by
    have hfull : scanCtx.chk.numRows ≠ chunkMaxRows := by
      have hkept := hkept hplain
      rwa [hchk, Chunk.plus_of, ← hchk'] at hkept
    rw [process_scan hnew hplain, scanProcess, if_neg (hlimit (hplain.imp_right .inl))]
    exact stops_after hcore fun _ => ⟨_, if_neg hfull, rfl⟩
  cases hkind : b.1.processor with
  | tableScan => exact hscan (.inl hkind)
  | indexScan => exact hscan (.inr hkind)
  | selection =>
    rw [process, hkind]
    dsimp only
    rw [selectionProcess, if_neg (hlimit (.inr (.inr hkind)))]
    exact stops_after hcore fun _ => ⟨_, rfl, rfl⟩
  | topN =>
    rw [process, hkind]
    dsimp only
    rw [topNProcess, processRow, bind_assoc]
    exact stops_after hcore fun _ => ⟨_, rfl, rfl⟩
  | hashAgg =>
    rw [process, hkind]
    dsimp only
    rw [hashAggProcess, processRow, bind_assoc]
    exact stops_after hcore fun _ => ⟨_, rfl, rfl⟩
  | countStar => exact absurd hkind hprocessor.1
  | countColumn => exact absurd hkind hprocessor.2

theorem process_of_full (hnew : IsNew T b) (hscan : PlainScan b.1) {err : Option String}
    (hvalues : b.1.rowValues T key value = .ok (ds, err))
    (hfull : (s.scanCtx.chk.plus ds).numRows = chunkMaxRows) :
    ∃ s₁, b.1.process T s key value = b.1.scanFinish T s₁ ∧
      s₁.scanCtx.chk = s.scanCtx.chk.plus ds ∧ s₁.oldChunks = s.oldChunks := by
  obtain ⟨rows, hchk, -⟩ := h.rows
  obtain ⟨scanCtx, hcore, -, hchk'⟩ := processCore_of_values h.scans hchk hvalues
  have hplus : scanCtx.chk = s.scanCtx.chk.plus ds := by rw [hchk', hchk, Chunk.plus_of]
  refine ⟨{ s with scanCtx := scanCtx, rowCount := s.rowCount + 1 }, ?_, hplus, rfl⟩
  rw [process_scan hnew hscan, scanProcess, if_neg (hlimit (hscan.imp_right .inl)), hcore,
    Go.ok_bind]
  exact if_pos ((congrArg Chunk.numRows hplus).trans hfull)

theorem process_of_selection
    (hprocessor : b.1.processor = .selection ∨ b.1.processor = .topN ∨ b.1.processor = .hashAgg)
    (hrow : b.1.rowValues T key value = .ok (row, none))
    (hconditions : evalConditions T b.1.conditions row = .error err) :
    Stops (b.1.process T s key value) (.error err) s.oldChunks := by
  obtain ⟨rows, hchk, -⟩ := h.rows
  have hbegin : ∃ scanCtx, b.1.processRow T s.scanCtx key value = .ok (scanCtx, .error err) := by
    obtain ⟨scanCtx, hprocess, -⟩ := processRow_of_row h.scans hchk hrow
    rw [hconditions] at hprocess
    exact ⟨scanCtx, hprocess⟩
  obtain ⟨scanCtx', hbegin⟩ := hbegin
  rcases hprocessor with hkind | hkind | hkind
  · obtain ⟨scanCtx, hcore, -, hchk', hwidth⟩ := processCore_of_row h.scans hchk hrow
    rw [process, hkind]
    dsimp only
    rw [selectionProcess, if_neg (hlimit (.inr (.inr hkind))), hcore, Go.ok_bind]
    dsimp only
    rw [hchk', processSelection_eq hwidth, hconditions]
    exact ⟨_, rfl, rfl⟩
  · rw [process, hkind]
    dsimp only
    rw [topNProcess, hbegin]
    exact ⟨_, rfl, rfl⟩
  · rw [process, hkind]
    dsimp only
    rw [hashAggProcess, hbegin]
    exact ⟨_, rfl, rfl⟩

theorem process_of_encode (hnew : IsNew T b) (hscan : Scanning b.1)
    (hrow : Selects T b.1 key value row)
    (hfull : (s.scanCtx.chk.plus row).numRows = chunkMaxRows)
    (hfails : EncodeFails T b.1 (s.scanCtx.chk.plus row) s.oldChunks out f) :
    Stops (b.1.process T s key value) f out := by
  have hplain (hplain : PlainScan b.1) : Stops (b.1.process T s key value) f out := by
    obtain ⟨s₁, hprocess, hchk, hchunks⟩ := process_of_full h hlimit hnew hplain hrow.1 hfull
    rw [hprocess]
    rw [← hchk, ← hchunks] at hfails
    exact scanFinish_stops hfails
  rcases hscan with hkind | hkind | hkind
  · exact hplain (.inl hkind)
  · exact hplain (.inr hkind)
  · obtain ⟨rows, hchk, -⟩ := h.rows
    obtain ⟨scanCtx, hcore, -, hchk', hwidth⟩ := processCore_of_row h.scans hchk hrow.1
    have hplus : s.scanCtx.chk.plus row = Chunk.of b.1.width (rows ++ [row]) [] := by
      rw [hchk, Chunk.plus_of, Chunk.of_complete hwidth]
    rw [hplus] at hfull hfails
    rw [process, hkind]
    dsimp only
    rw [selectionProcess, if_neg (hlimit (.inr (.inr hkind))), hcore, Go.ok_bind]
    dsimp only
    rw [hchk', processSelection_eq hwidth, hrow.2, if_neg (by simp), Go.ok_bind]
    dsimp only
    rw [if_pos hfull]
    exact scanFinish_stops (s := { s with
      scanCtx := { scanCtx with chk := Chunk.of b.1.width (rows ++ [row]) [] }
      rowCount := s.rowCount + 1 }) hfails

omit hlimit

theorem process_of_orderBy {ctx : TopNCtx} {sortKey : List Datum}
    (hprocessor : b.1.processor = .topN) (hrow : Selects T b.1 key value row)
    (hctx : s.topNCtx = some ctx)
    (hfails : evalKey row b.1.orderByExprs 0 ctx.sortKey = f.after sortKey) :
    Stops (b.1.process T s key value) f s.oldChunks := by
  have hscan : ¬ Scanning b.1 := by simp [Scanning, hprocessor]
  obtain ⟨scanCtx, hbegin, -, -, hget⟩ :=
    processRow_of_selects h.scans (h.of_not_scanning hscan) hrow
  rw [process, hprocessor]
  dsimp only
  rw [topNProcess, hbegin, Go.ok_bind]
  dsimp only
  rw [hctx, Go.deref_some, Go.ok_bind, hget, Go.ok_bind]
  exact stops_after hfails fun _ => ⟨_, rfl, rfl⟩

theorem process_of_groupBy (hprocessor : b.1.processor = .hashAgg)
    (hrow : Selects T b.1 key value row) (hkey : b.1.getGroupKey T row = .error err) :
    (∀ f aggCtxs, updateContexts row b.1.aggExprs 0 (b.1.getContexts s []).2 =
        Failure.after aggCtxs f → Stops (b.1.process T s key value) f s.oldChunks) ∧
      ∀ aggCtxs, updateContexts row b.1.aggExprs 0 (b.1.getContexts s []).2 = .ok (aggCtxs, none) →
        ∃ s', b.1.process T s key value = .ok (s', none) := by
  obtain ⟨rows, hchk, -⟩ := h.rows
  obtain ⟨scanCtx, hbegin, -, hchk'⟩ := processRow_of_row h.scans hchk hrow.1
  rw [hrow.2] at hbegin hchk'
  rw [if_neg (by simp)] at hchk'
  have hget : scanCtx.chk.getRow (scanCtx.chk.numRows - 1) = .ok row := by
    rw [hchk']
    exact Chunk.getRow_last (length_rowValues h.scans hrow.1)
  obtain ⟨s₁, hs₁, heq⟩ := hashAggProcess_of_row hbegin hget
  have hnil : (b.1.getGroupKey T row).toOption.getD [] = [] := by
    rw [hkey]
    rfl
  rw [hnil] at heq
  rw [process, hprocessor]
  dsimp only
  rw [heq]
  refine ⟨fun f aggCtxs hupdate => ?_, fun aggCtxs hupdate => ?_⟩
  · exact stops_after hupdate fun _ => ⟨s₁ aggCtxs, rfl, (hs₁ aggCtxs).2⟩
  · rw [hupdate]
    exact ⟨_, rfl⟩

theorem exists_encodeRows (hfails : EncodeFails T b.1 (s.scanCtx.chk.plus ds) s.oldChunks out f) :
    ∃ m ≤ s.scanCtx.chk.numRows,
      b.1.encodeRows T s.scanCtx.chk m 0 s.oldChunks = .ok (out, none) := by
  obtain ⟨rows, hchk, -⟩ := h.rows
  rw [hchk, Chunk.plus_of] at hfails
  obtain ⟨m, hm, hbefore, -⟩ := hfails
  rw [hchk]
  rcases Nat.eq_zero_or_pos b.1.width with hzero | hpos
  · rw [hzero] at hm
    exact absurd (show m < 0 from hm) (Nat.not_lt_zero m)
  · have hle : m ≤ rows.length := by
      by_cases hnil : ds = []
      · rw [hnil, Chunk.numRows_of hpos] at hm
        exact hm.le
      · rw [Chunk.numRows_of_part hpos hnil] at hm
        omega
    refine ⟨m, by rwa [Chunk.numRows_of hpos], ?_⟩
    rw [← hbefore]
    apply encodeRows_congr
    intro j hj
    rw [encodeRow, encodeRow]
    simp only [Chunk.value_of_part (by omega : j < rows.length) ds]

end

theorem process_of_countIndex {ctx : IdxScanCtx} (hprocessor : e.processor = .countColumn)
    (hctx : e.idxScanCtx = some ctx) (hfails : indexCounts T ctx key = f.result) :
    Stops (e.process T s key value) f s.oldChunks := by
  rw [process, hprocessor]
  dsimp only
  rw [countColumnProcess, hctx]
  exact stops_result hfails fun _ => ⟨s, rfl, rfl⟩

theorem process_of_countRow {col : ColumnInfo} {dec : Decoder}
    (hprocessor : e.processor = .countColumn) (hctx : e.idxScanCtx = none) (hcol : e.col = some col)
    (hdec : s.scanCtx.decoder = some dec)
    (hfails : Prod.snd <$> dec.columnIsNull value col.columnId col.defaultVal = f.result) :
    Stops (e.process T s key value) f s.oldChunks := by
  rw [process, hprocessor]
  dsimp only
  rw [countColumnProcess, hctx]
  dsimp only
  rw [hcol, Go.deref_some, Go.ok_bind, hdec, Go.deref_some, Go.ok_bind]
  cases hread : dec.columnIsNull value col.columnId col.defaultVal with
  | error p =>
    rw [hread] at hfails
    cases f with
    | error err => cases hfails
    | panic p =>
      cases hfails
      rfl
  | ok result =>
    obtain ⟨dec', isNull⟩ := result
    rw [hread] at hfails
    cases f with
    | error err =>
      cases hfails
      exact ⟨_, rfl, rfl⟩
    | panic p => cases hfails

theorem returns_iff (hstops : Stops (e.process T s key value) f out)
    (hout : ∃ m ≤ s.scanCtx.chk.numRows,
      e.encodeRows T s.scanCtx.chk m 0 s.oldChunks = .ok (out, none)) :
    Returns T e s key value f ↔ ∃ err, f = .error err := by
  refine ⟨fun ⟨err, _, _, hf, _⟩ => ⟨err, hf⟩, ?_⟩
  rintro ⟨err, rfl⟩
  obtain ⟨s', hprocess, rfl⟩ := hstops
  obtain ⟨m, hm, hencode⟩ := hout
  exact ⟨err, s', m, rfl, hprocess, hm, hencode⟩

theorem exists_encodeRows_zero (T : Tidb γ) (e : ClosureExecutor γ) (s : ExecState γ) :
    ∃ m ≤ s.scanCtx.chk.numRows,
      e.encodeRows T s.scanCtx.chk m 0 s.oldChunks = .ok (s.oldChunks, none) :=
  ⟨0, Nat.zero_le _, rfl⟩

theorem Returns.eq_of_stops {f' : Failure} (h : Returns T e s key value f)
    (hstops : Stops (e.process T s key value) f' out) : f = f' := by
  obtain ⟨err, s', m, rfl, hprocess, -⟩ := h
  cases f' with
  | error err' =>
    obtain ⟨s₁, hprocess', -⟩ := hstops
    rw [hprocess] at hprocess'
    cases hprocess'
    rfl
  | panic p =>
    rw [show e.process T s key value = .error p from hstops] at hprocess
    cases hprocess

theorem not_returns (h : e.process T s key value = .ok (s', none)) :
    ¬ Returns T e s key value f := by
  rintro ⟨err, s₁, m, rfl, hprocess, -⟩
  rw [h] at hprocess
  cases hprocess

theorem returns_decode_iff {before : List (Bytes × Bytes)} (hnew : IsNew T b)
    (h : Buffers T b.1 before.length s) (hlimit : Scanning b.1 → s.rowCount ≠ b.1.limit)
    (hprocessor : Decoding b.1)
    (hvalues : b.1.rowValues T key value = f.after ds) :
    Returns T b.1 s key value f ↔ Reported T b.1 before s key value .decode f := by
  cases f with
  | panic p =>
    have hpanics : b.1.rowValues T key value = (Failure.panic p).after [] := hvalues
    have hstops := process_of_decode h hlimit hnew hprocessor hpanics h.not_full
    rw [returns_iff hstops (exists_encodeRows_zero T b.1 s)]
    exact ⟨by simp, fun hreported => hreported.error⟩
  | error err =>
    by_cases hover : PlainScan b.1 ∧ (s.scanCtx.chk.plus ds).numRows = chunkMaxRows
    · obtain ⟨hscan, hfull⟩ := hover
      obtain ⟨hdvd, hnil⟩ := (h.full_iff hscan hvalues).mp hfull
      obtain ⟨s₁, hprocess, hchk, hchunks⟩ := process_of_full h hlimit hnew hscan hvalues hfull
      -- The flush returns nothing, or its own failure.
      refine ⟨fun hreturns => ⟨⟨err, rfl⟩, by simp,
        fun _ _ _ ds' hvalues' _ => ?_⟩, fun hreported => ?_⟩
      · obtain rfl : ds = ds' := by
          rw [hvalues] at hvalues'
          cases hvalues'
          rfl
        rcases chunkToOldChunk_cases (T := T) (e := b.1) (s := s₁) with
          ⟨s', hflush⟩ | ⟨f', out, hfails⟩
        · rw [scanFinish, hflush] at hprocess
          exact absurd hreturns (not_returns hprocess)
        · have hstops := scanFinish_stops hfails
          rw [← hprocess] at hstops
          obtain rfl := hreturns.eq_of_stops hstops
          rw [hchk, hchunks] at hfails
          exact ⟨out, hfails⟩
      · obtain ⟨out, hfails⟩ := hreported.flush rfl hscan hdvd ds hvalues hnil
        have hout := exists_encodeRows h hfails
        rw [← hchk, ← hchunks] at hfails
        have hstops := scanFinish_stops hfails
        rw [← hprocess] at hstops
        exact (returns_iff hstops hout).mpr hreported.error
    · have hkept : PlainScan b.1 → (s.scanCtx.chk.plus ds).numRows ≠ chunkMaxRows :=
        fun hscan hfull => hover ⟨hscan, hfull⟩
      rw [returns_iff (process_of_decode h hlimit hnew hprocessor hvalues hkept)
        (exists_encodeRows_zero T b.1 s)]
      refine ⟨fun herror => ⟨herror, by simp,
        fun _ hscan hdvd ds' hvalues' hnil => ?_⟩, fun hreported => hreported.error⟩
      exact absurd ((h.full_iff hscan hvalues').mpr ⟨hdvd, hnil⟩) (by
        rw [hvalues] at hvalues'
        cases hvalues'
        exact hkept hscan)

theorem reported_iff {before : List (Bytes × Bytes)} (stage : Stage) (hgroupBy : stage ≠ .groupBy)
    (hdecode : stage = .decode → ¬ PlainScan e) :
    Reported T e before s key value stage f ↔ ∃ err, f = .error err :=
  ⟨fun h => h.error, fun h => ⟨h, fun hstage => absurd hstage hgroupBy,
    fun hstage hscan => absurd hscan (hdecode hstage)⟩⟩

theorem returns_groupBy_iff {before : List (Bytes × Bytes)} (h : Buffers T b.1 n s)
    (hprocessor : b.1.processor = .hashAgg) (hrow : Selects T b.1 key value row)
    (hkey : b.1.getGroupKey T row = .error err) :
    Returns T b.1 s key value (.error err) ↔
      Reported T b.1 before s key value .groupBy (.error err) := by
  obtain ⟨hstops, hpasses⟩ := process_of_groupBy h hprocessor hrow hkey
  refine ⟨fun hreturns => ⟨⟨err, rfl⟩, fun _ row' hrow' => ?_, by simp⟩,
    fun hreported => ?_⟩
  · obtain rfl : row = row' := by
      have heq := hrow.1.symm.trans hrow'.1
      cases heq
      rfl
    cases hupdate : updateContexts row b.1.aggExprs 0 (b.1.getContexts s []).2 with
    | error p => cases hreturns.eq_of_stops (hstops (.panic p) [] hupdate)
    | ok result =>
      obtain ⟨aggCtxs, err'⟩ := result
      cases err' with
      | none =>
        obtain ⟨s', hprocess⟩ := hpasses aggCtxs hupdate
        exact absurd hreturns (not_returns hprocess)
      | some err' =>
        obtain rfl : err = err' := by
          cases hreturns.eq_of_stops (hstops (.error err') aggCtxs hupdate)
          rfl
        exact ⟨aggCtxs, rfl⟩
  · obtain ⟨aggCtxs, hupdate⟩ := hreported.groupBy rfl row hrow
    exact (returns_iff (hstops _ aggCtxs hupdate) (exists_encodeRows_zero T b.1 s)).mpr ⟨err, rfl⟩

theorem returns_iff_reported {before : List (Bytes × Bytes)} {stage : Stage} (hnew : IsNew T b)
    (h : Decoding b.1 → Buffers T b.1 before.length s)
    (hlimit : Scanning b.1 → s.rowCount ≠ b.1.limit) (hfails : Fails T b.1 s key value stage f) :
    Returns T b.1 s key value f ↔ Reported T b.1 before s key value stage f := by
  have hzero := exists_encodeRows_zero T b.1 s
  have hplain (hprocessor : b.1.processor = .countColumn) : ¬ PlainScan b.1 := by
    simp [PlainScan, hprocessor]
  have hdecoding {kind : Processor} (hkind : b.1.processor = kind) (hstar : kind ≠ .countStar)
      (hcolumn : kind ≠ .countColumn) : Buffers T b.1 before.length s :=
    h ⟨hkind ▸ hstar, hkind ▸ hcolumn⟩
  cases hfails with
  | decode hprocessor hvalues =>
    exact returns_decode_iff hnew (h hprocessor) hlimit hprocessor hvalues
  | countIndex hprocessor hctx hvalue =>
    exact (returns_iff (process_of_countIndex hprocessor hctx hvalue) hzero).trans
      (reported_iff .decode (by decide) fun _ => hplain hprocessor).symm
  | countRow hprocessor hctx hcol hdec hvalue =>
    exact (returns_iff (process_of_countRow hprocessor hctx hcol hdec hvalue) hzero).trans
      (reported_iff .decode (by decide) fun _ => hplain hprocessor).symm
  | selection hprocessor hrow hconditions =>
    have hbuffers : Buffers T b.1 before.length s := by
      rcases hprocessor with hkind | hkind | hkind <;> exact hdecoding hkind (by decide) (by decide)
    have hstops := process_of_selection hbuffers hlimit hprocessor hrow hconditions
    exact (returns_iff hstops hzero).trans
      (reported_iff .selection (by decide) (by simp)).symm
  | orderBy hprocessor hrow hctx hkey =>
    have hbuffers := hdecoding hprocessor (by decide) (by decide)
    exact (returns_iff (process_of_orderBy hbuffers hprocessor hrow hctx hkey) hzero).trans
      (reported_iff .orderBy (by decide) (by simp)).symm
  | groupBy hprocessor hrow hkey =>
    exact returns_groupBy_iff (hdecoding hprocessor (by decide) (by decide)) hprocessor hrow hkey
  | encode hscan hrow hfull hencode =>
    have hbuffers : Buffers T b.1 before.length s := by
      rcases hscan with hkind | hkind | hkind <;> exact hdecoding hkind (by decide) (by decide)
    exact (returns_iff (process_of_encode hbuffers hlimit hnew hscan hrow hfull hencode)
      (exists_encodeRows hbuffers hencode)).trans
      (reported_iff .encode (by decide) (by simp)).symm

/-- A stage of `Finish` fails, and what is in the response then. -/
inductive FinishFails (T : Tidb γ) (e : ClosureExecutor γ) (s : ExecState γ) (f : Failure) :
    List Bytes → Prop
  | encode {out : List Bytes} (hprocessor : Scanning e)
    (h : EncodeFails T e s.scanCtx.chk s.oldChunks out f) : FinishFails T e s f out
  | topNDecode {ctx : TopNCtx} {heap : TopNHeap} {before after : List SortRow} {row : SortRow}
    {s₁ : ExecState γ} {key value : Bytes} {scanCtx : ScanCtx} (hprocessor : e.processor = .topN)
    (hctx : s.topNCtx = some ctx) (hsort : T.sort ctx.heap = .ok heap)
    (hrows : heap.rows = before ++ row :: after)
    (hbefore : e.topNRows T before { s with topNCtx := some { ctx with heap := heap } } =
      .ok (s₁, none))
    (hdata : row.data = [key, value])
    (h : e.processCore T s₁.scanCtx key value = f.after scanCtx) :
    FinishFails T e s f s₁.oldChunks
  | topNFlush {ctx : TopNCtx} {heap : TopNHeap} {before after : List SortRow} {row : SortRow}
    {s₁ : ExecState γ} {key value : Bytes} {scanCtx : ScanCtx} {out : List Bytes}
    (hprocessor : e.processor = .topN) (hctx : s.topNCtx = some ctx)
    (hsort : T.sort ctx.heap = .ok heap) (hrows : heap.rows = before ++ row :: after)
    (hbefore : e.topNRows T before { s with topNCtx := some { ctx with heap := heap } } =
      .ok (s₁, none))
    (hdata : row.data = [key, value])
    (hcore : e.processCore T s₁.scanCtx key value = .ok (scanCtx, none))
    (hfull : scanCtx.chk.numRows = chunkMaxRows)
    (h : EncodeFails T e scanCtx.chk s₁.oldChunks out f) : FinishFails T e s f out
  | topNEncode {ctx : TopNCtx} {heap : TopNHeap} {s₁ : ExecState γ} {out : List Bytes}
    (hprocessor : e.processor = .topN) (hctx : s.topNCtx = some ctx)
    (hsort : T.sort ctx.heap = .ok heap)
    (hrows : e.topNRows T heap.rows { s with topNCtx := some { ctx with heap := heap } } =
      .ok (s₁, none))
    (h : EncodeFails T e s₁.scanCtx.chk s₁.oldChunks out f) : FinishFails T e s f out
  | group {before after : List Bytes} {gk : Bytes} {s₁ : ExecState γ}
    (hprocessor : e.processor = .hashAgg) (hgroups : s.groupKeys = before ++ gk :: after)
    (hbefore : e.encodeGroups T before 0 s = .ok (s₁, none))
    (h : encodeGroup T e.aggExprs 0 (e.getContexts s₁ gk).2 [] = f.result) :
    FinishFails T e s f s₁.oldChunks
  | count (hprocessor : e.processor = .countStar ∨ e.processor = .countColumn)
    {err : String} (h : T.encodeValue (.int64 (Int64.ofNat s.rowCount)) = .error err)
    (hf : f = .error err) : FinishFails T e s f s.oldChunks

theorem topNRows_append {before after : List SortRow} {s₁ : ExecState γ}
    (h : e.topNRows T before s = .ok (s₁, none)) :
    e.topNRows T (before ++ after) s = e.topNRows T after s₁ := by
  induction before generalizing s with
  | nil =>
    cases h
    rfl
  | cons row rows ih =>
    obtain ⟨key, hkey, h⟩ := Go.bind_eq_ok.mp h
    obtain ⟨value, hvalue, h⟩ := Go.bind_eq_ok.mp h
    obtain ⟨⟨scanCtx, err⟩, hcore, h⟩ := Go.bind_eq_ok.mp h
    rw [cons_append, topNRows, hkey, Go.ok_bind, hvalue, Go.ok_bind, hcore, Go.ok_bind]
    cases err with
    | some err => cases h
    | none =>
      dsimp only at h ⊢
      split_ifs at h ⊢ with hfull
      · obtain ⟨⟨s₂, err⟩, hflush, h⟩ := Go.bind_eq_ok.mp h
        rw [hflush, Go.ok_bind]
        cases err with
        | some err => cases h
        | none => exact ih h
      · exact ih h

theorem encodeGroups_append {before after : List Bytes} {i : ℕ} {s₁ : ExecState γ}
    (h : e.encodeGroups T before i s = .ok (s₁, none)) :
    e.encodeGroups T (before ++ after) i s = e.encodeGroups T after (i + before.length) s₁ := by
  induction before generalizing i s with
  | nil =>
    cases h
    rfl
  | cons gk gks ih =>
    rw [encodeGroups] at h
    dsimp only at h
    rw [cons_append, encodeGroups]
    dsimp only
    obtain ⟨result, hgroup, h⟩ := Go.bind_eq_ok.mp h
    cases result with
    | error err => cases h
    | ok buf =>
      obtain ⟨chunks, happend, h⟩ := Go.bind_eq_ok.mp h
      rw [hgroup, Go.ok_bind]
      dsimp only
      rw [happend, Go.ok_bind, ih h, length_cons, Nat.add_assoc, Nat.add_comm 1]

theorem oldChunks_getContexts (gk : Bytes) : (e.getContexts s gk).1.oldChunks = s.oldChunks := by
  rw [getContexts]
  split <;> rfl

theorem finish_of_topNRows {ctx : TopNCtx} {heap : TopNHeap} (hprocessor : e.processor = .topN)
    (hctx : s.topNCtx = some ctx) (hsort : T.sort ctx.heap = .ok heap)
    (s' : ExecState γ)
    (h : e.topNRows T heap.rows { s with topNCtx := some { ctx with heap := heap } } = f.after s') :
    Stops (e.finish T s) f s'.oldChunks := by
  rw [finish, hprocessor]
  dsimp only
  rw [topNFinish, hctx, Go.deref_some, Go.ok_bind, hsort, Go.ok_bind]
  exact stops_after h fun _ => ⟨s', rfl, rfl⟩

theorem finish_of_fails (h : FinishFails T e s f out) : Stops (e.finish T s) f out := by
  cases h with
  | encode hprocessor h =>
    have hfinish : e.finish T s = e.scanFinish T s := by
      rcases hprocessor with hkind | hkind | hkind <;> rw [finish, hkind]
    rw [hfinish]
    exact scanFinish_stops h
  | @topNDecode ctx heap before after row s₁ key value scanCtx hprocessor hctx hsort hrows hbefore
      hdata h =>
    refine finish_of_topNRows hprocessor hctx hsort { s₁ with scanCtx := scanCtx } ?_
    rw [hrows, topNRows_append hbefore, topNRows, hdata]
    change (e.processCore T s₁.scanCtx key value >>= _) = _
    rw [h]
    cases f <;> rfl
  | @topNFlush ctx heap before after row s₁ key value scanCtx out hprocessor hctx hsort hrows
      hbefore hdata hcore hfull h =>
    have hflush : e.chunkToOldChunk T { s₁ with scanCtx := scanCtx } = _ :=
      chunkToOldChunk_of_encodeFails h
    refine finish_of_topNRows hprocessor hctx hsort
      { s₁ with scanCtx := scanCtx, oldChunks := out } ?_
    rw [hrows, topNRows_append hbefore, topNRows, hdata]
    change (e.processCore T s₁.scanCtx key value >>= _) = _
    rw [hcore, Go.ok_bind]
    dsimp only
    rw [if_pos hfull, hflush]
    cases f <;> rfl
  | @topNEncode ctx heap s₁ out hprocessor hctx hsort hrows h =>
    rw [finish, hprocessor]
    dsimp only
    rw [topNFinish, hctx, Go.deref_some, Go.ok_bind, hsort, Go.ok_bind]
    dsimp only
    rw [hrows, Go.ok_bind]
    exact scanFinish_stops h
  | @group before after gk s₁ hprocessor hgroups hbefore h =>
    rw [finish, hprocessor]
    dsimp only
    rw [hashAggFinish, hgroups, encodeGroups_append hbefore, encodeGroups]
    dsimp only
    rw [bind_assoc]
    exact stops_result h fun _ => ⟨(e.getContexts s₁ gk).1, rfl, oldChunks_getContexts gk⟩
  | count hprocessor h hf =>
    have hfinish : e.finish T s = countFinish T s := by
      rcases hprocessor with hkind | hkind <;> rw [finish, hkind]
    rw [hfinish, countFinish, h, hf]
    exact ⟨s, rfl, rfl⟩

structure ReturnsFailures (T : Tidb γ) (e : ClosureExecutor γ) (before : List (Bytes × Bytes))
    (s : ExecState γ) : Prop where
  process : ∀ key value stage f, Fails T e s key value stage f →
    (Scanning e → s.rowCount ≠ e.limit) →
    (Returns T e s key value f ↔ Reported T e before s key value stage f)
  finish : ∀ f out, FinishFails T e s f out →
    ((∃ err s', f = .error err ∧ e.finish T s = .ok (s', some (.failed err)) ∧ s'.oldChunks = out) ↔
      ∃ err, f = .error err)

def overflowTidb : Tidb Unit :=
  { sampleTidb with pbToExpr := fun _ _ => .ok fun _ => .error "BIGINT value is out of range" }

def groupScan : List Executor :=
  [.tableScan [handleColumn], .aggregation ⟨[], [.mk .columnRef [0] []]⟩]

def groupExecutor : Built Unit :=
  ({ columnInfos := [handleColumn], outputOff := [0], processor := .hashAgg
     groupByExprs := [fun _ => .error "BIGINT value is out of range"] },
    { scanCtx := handleExecutor.2.scanCtx })

end ClosureExecutor

end TinyKV
