import TinyKV.Coprocessor.ScanRow

/-!
# The output of scans and selections

The rows that have been accepted are those in the chunks of the response, followed by those in the
buffer (`Collects`): an accepted row is added to the buffer, and a flush moves the rows on.
-/

namespace TinyKV

open List

def InChunks (chunks rows : List Bytes) : Prop :=
  ∃ groups : List (List Bytes), groups.flatten = rows ∧ chunks = groups.map List.flatten

theorem InChunks.flatten_eq {chunks rows : List Bytes} (h : InChunks chunks rows) :
    chunks.flatten = rows.flatten := by
  obtain ⟨groups, rfl, rfl⟩ := h
  exact flatten_flatten.symm

theorem appendRow_last {chunks : List Bytes} {cur data : Bytes} {i : ℕ}
    (hi : i % rowsPerChunk ≠ 0) :
    appendRow (chunks ++ [cur]) data i = .ok (chunks ++ [cur ++ data]) := by
  have hlast : (chunks ++ [cur]).length - 1 = chunks.length := by
    rw [length_append, length_singleton, Nat.add_sub_cancel]
  rw [appendRow, if_neg hi, hlast, Go.index_eq_ok getElem?_concat_length, Go.ok_bind,
    Go.setIndex_eq_ok (by rw [length_append]; simp), set_append_right _ _ le_rfl,
    Nat.sub_self, set_cons_zero]

theorem appendRow_new {chunks : List Bytes} {data : Bytes} {i : ℕ} (hi : i % rowsPerChunk = 0) :
    appendRow chunks data i = .ok (chunks ++ [data]) := by
  have hlast : (chunks ++ [[]]).length - 1 = chunks.length := by
    rw [length_append, length_singleton, Nat.add_sub_cancel]
  rw [appendRow, if_pos hi, hlast, Go.index_eq_ok getElem?_concat_length, Go.ok_bind,
    Go.setIndex_eq_ok (by rw [length_append]; simp), set_append_right _ _ le_rfl,
    Nat.sub_self, set_cons_zero, nil_append]

theorem InChunks.appendRow {chunks rows : List Bytes} (h : InChunks chunks rows) {i : ℕ}
    (hi : i = 0 ∨ chunks ≠ []) (data : Bytes) :
    ∃ chunks', appendRow chunks data i = .ok chunks' ∧ InChunks chunks' (rows ++ [data]) ∧
      chunks' ≠ [] := by
  obtain ⟨groups, rfl, rfl⟩ := h
  by_cases hnew : i % rowsPerChunk = 0
  · refine ⟨_, appendRow_new hnew, ⟨groups ++ [[data]], ?_, ?_⟩, by simp⟩
    · rw [flatten_append, flatten_singleton]
    · rw [map_append]
      simp
  · have hne : groups ≠ [] := by
      rintro rfl
      rcases hi with rfl | hi
      · exact hnew rfl
      · exact hi rfl
    -- The row joins the last group.
    obtain ⟨groups, last, rfl⟩ : ∃ init last, groups = init ++ [last] :=
      ⟨_, _, (dropLast_append_getLast hne).symm⟩
    rw [map_append, map_singleton]
    refine ⟨_, appendRow_last hnew, ⟨groups ++ [last ++ [data]], ?_, ?_⟩, by simp⟩
    · simp
    · simp

namespace ClosureExecutor

open RowCodec

variable {γ : Type} {T : Tidb γ} {e : ClosureExecutor γ} {s : ExecState γ}
  {rows : List (List Datum)} {row : List Datum} {enc : List Datum → Bytes}

def outputRow (T : Tidb γ) (e : ClosureExecutor γ) (row : List Datum) :
    Go (Except String Bytes) := do
  let oldRow ← e.outputOff.mapM fun outputOff => do
    let d ← Go.index row outputOff
    let ft ← Go.index e.fieldTps outputOff
    return T.getDatum ft d
  return encodeValues T.toTidbCodec oldRow

theorem encodeRow_of {i : ℕ} (hrow : rows[i]? = some row) (hwidth : row.length = e.width) :
    e.encodeRow T (Chunk.of e.width rows []) i = e.outputRow T row := by
  rw [encodeRow, outputRow]
  simp only [Chunk.value_of hrow hwidth]

theorem outputRow_nil {data : Bytes} (h : e.outputRow T [] = .ok (.ok data)) : data = [] := by
  obtain ⟨oldRow, hmap, h⟩ := Go.bind_eq_ok.mp h
  have hnone : e.outputOff = [] := by
    apply eq_nil_iff_forall_not_mem.mpr
    intro outputOff hmem
    obtain ⟨d, hd⟩ := Go.of_mapM hmap hmem
    cases hd
  rw [hnone, mapM_nil] at hmap
  cases hmap
  cases h
  rfl

theorem encodeRows_of (hwidth : ∀ row ∈ rows, row.length = e.width)
    (henc : ∀ row ∈ rows, e.outputRow T row = .ok (.ok (enc row))) {n i : ℕ}
    (hn : i + n = rows.length) {chunks encoded : List Bytes} (hin : InChunks chunks encoded)
    (hi : i = 0 ∨ chunks ≠ []) :
    ∃ chunks', e.encodeRows T (Chunk.of e.width rows []) n i chunks = .ok (chunks', none) ∧
      InChunks chunks' (encoded ++ (rows.drop i).map enc) := by
  induction n generalizing i chunks encoded with
  | zero =>
    refine ⟨chunks, rfl, ?_⟩
    rwa [drop_of_length_le (by omega), map_nil, append_nil]
  | succ n ih =>
    have hlt : i < rows.length := by omega
    have hmem : rows.get ⟨i, hlt⟩ ∈ rows := getElem_mem hlt
    obtain ⟨chunks₁, happend, hin₁, hne⟩ := hin.appendRow hi (enc (rows.get ⟨i, hlt⟩))
    obtain ⟨chunks₂, hrest, hin₂⟩ := ih (by omega : i + 1 + n = rows.length) hin₁ (.inr hne)
    refine ⟨chunks₂, ?_, ?_⟩
    · rw [encodeRows, encodeRow_of (getElem?_eq_getElem hlt) (hwidth _ hmem)]
      change e.outputRow T (rows.get ⟨i, hlt⟩) >>= _ = _
      rw [henc _ hmem, Go.ok_bind]
      dsimp only
      rw [happend, Go.ok_bind, hrest]
    · rw [drop_eq_getElem_cons hlt, map_cons]
      rwa [append_assoc, singleton_append] at hin₂

/-- The rows that have been encoded into the response, and those in the buffer. -/
structure Collects (T : Tidb γ) (e : ClosureExecutor γ) (enc : List Datum → Bytes)
    (done pending : List (List Datum)) (s : ExecState γ) : Prop where
  scans : Scans T e s.scanCtx
  chk_eq : s.scanCtx.chk = Chunk.of e.width pending []
  rowCount_eq : s.rowCount = (done ++ pending).length
  width_eq : ∀ row ∈ pending, row.length = e.width
  encodes : ∀ row ∈ pending, e.outputRow T row = .ok (.ok (enc row))
  flatten_eq : s.oldChunks.flatten = (done.map enc).flatten
  inChunks : 0 < e.width → InChunks s.oldChunks (done.map enc)

variable {done pending : List (List Datum)}

theorem Collects.chunkToOldChunk (h : Collects T e enc done pending s) :
    ∃ s', e.chunkToOldChunk T s = .ok (s', none) ∧ Collects T e enc (done ++ pending) [] s' := by
  have hchk : s.scanCtx.chk.reset = Chunk.of e.width [] [] := by rw [h.chk_eq, Chunk.reset_of]
  have hcount : s.rowCount = (done ++ pending ++ []).length := by
    rw [append_nil, h.rowCount_eq]
  rcases Nat.eq_zero_or_pos e.width with hzero | hpos
  · -- Without columns there are no rows in the buffer, and no bytes in their encodings.
    have hempty : s.scanCtx.chk.numRows = 0 := by
      rw [h.chk_eq, hzero]
      rfl
    have hpending : (pending.map enc).flatten = [] := by
      rw [flatten_eq_nil_iff]
      intro data hdata
      obtain ⟨row, hrow, rfl⟩ := mem_map.mp hdata
      obtain rfl : row = [] := length_eq_zero_iff.mp ((h.width_eq row hrow).trans hzero)
      exact outputRow_nil (h.encodes [] hrow)
    refine ⟨{ s with scanCtx := { s.scanCtx with chk := s.scanCtx.chk.reset } }, ?_,
      h.scans.withChunk _, hchk, hcount, by simp, by simp, ?_, ?_⟩
    · rw [ClosureExecutor.chunkToOldChunk, hempty]
      rfl
    · rw [map_append, flatten_append, hpending, append_nil]
      exact h.flatten_eq
    · intro hpos
      omega
  · have hlength : 0 + (Chunk.of e.width pending []).numRows = pending.length := by
      rw [Chunk.numRows_of hpos, Nat.zero_add]
    obtain ⟨chunks, hrows, hin⟩ :=
      encodeRows_of h.width_eq h.encodes hlength (h.inChunks hpos) (.inl rfl)
    rw [drop_zero, ← map_append] at hin
    refine ⟨{ s with
      oldChunks := chunks, scanCtx := { s.scanCtx with chk := s.scanCtx.chk.reset } }, ?_,
      h.scans.withChunk _, hchk, hcount, by simp, by simp, hin.flatten_eq, fun _ => hin⟩
    rw [ClosureExecutor.chunkToOldChunk, h.chk_eq, hrows]
    rfl

theorem Collects.add (h : Collects T e enc done pending s)
    {scanCtx : ScanCtx} (hscans : Scans T e scanCtx)
    (hchk : scanCtx.chk = Chunk.of e.width (pending ++ [row]) []) (hwidth : row.length = e.width)
    (henc : e.outputRow T row = .ok (.ok (enc row))) :
    Collects T e enc done (pending ++ [row])
      { s with scanCtx := scanCtx, rowCount := s.rowCount + 1 } where
  scans := hscans
  chk_eq := hchk
  rowCount_eq := by
    rw [← append_assoc, length_append, ← h.rowCount_eq]
    rfl
  width_eq row' hrow' := by
    rcases mem_append.mp hrow' with hrow' | hrow'
    · exact h.width_eq row' hrow'
    · rw [mem_singleton.mp hrow']
      exact hwidth
  encodes row' hrow' := by
    rcases mem_append.mp hrow' with hrow' | hrow'
    · exact h.encodes row' hrow'
    · rw [mem_singleton.mp hrow']
      exact henc
  flatten_eq := h.flatten_eq
  inChunks := h.inChunks

def Accepted (T : Tidb γ) (e : ClosureExecutor γ) (enc : List Datum → Bytes)
    (rows : List (List Datum)) (s : ExecState γ) : Prop :=
  ∃ done pending, rows = done ++ pending ∧ Collects T e enc done pending s

theorem Collects.flush (h : Collects T e enc done pending s) :
    ∃ s', (if s.scanCtx.chk.numRows = chunkMaxRows then do
        let (s, err) ← e.chunkToOldChunk T s
        return (s, err.map ExecError.failed)
      else return (s, none)) = Except.ok (s', none) ∧ Accepted T e enc (done ++ pending) s' := by
  split_ifs
  · obtain ⟨s', heq, h'⟩ := h.chunkToOldChunk
    refine ⟨s', ?_, _, [], (append_nil _).symm, h'⟩
    rw [heq]
    rfl
  · exact ⟨s, rfl, done, pending, rfl, h⟩

theorem Accepted.rowCount_eq (h : Accepted T e enc rows s) : s.rowCount = rows.length := by
  obtain ⟨done, pending, rfl, h⟩ := h
  exact h.rowCount_eq

def holds (T : Tidb γ) (row : List Datum) (expr : Expression) : Bool :=
  match condition T expr row with
  | .ok gotRow => gotRow
  | .error _ => false

def satisfies (T : Tidb γ) (e : ClosureExecutor γ) (row : List Datum) : Bool :=
  e.conditions.all (holds T row)

theorem evalConditions_eq {exprs : List Expression}
    (h : ∀ expr ∈ exprs, ∃ gotRow, condition T expr row = .ok gotRow) :
    evalConditions T exprs row = .ok (exprs.all (holds T row)) := by
  induction exprs with
  | nil => rfl
  | cons expr exprs ih =>
    obtain ⟨gotRow, hgotRow⟩ := h expr mem_cons_self
    have hholds : holds T row expr = gotRow := by rw [holds, hgotRow]
    rw [evalConditions, hgotRow, all_cons, hholds]
    cases gotRow with
    | true => exact ih fun expr hexpr => h expr (mem_cons_of_mem _ hexpr)
    | false => rfl

theorem processSelection_of (hwidth : row.length = e.width)
    (h : ∀ expr ∈ e.conditions, ∃ gotRow, condition T expr row = .ok gotRow) :
    e.processSelection T (Chunk.of e.width (rows ++ [row]) []) =
      .ok (Chunk.of e.width (if e.satisfies T row then rows ++ [row] else rows) [],
        .ok (e.satisfies T row)) := by
  have hall : e.conditions.all (holds T row) = e.satisfies T row := rfl
  rw [processSelection, Chunk.getRow_last hwidth, Go.ok_bind, evalConditions_eq h, hall]
  cases e.satisfies T row with
  | true => rfl
  | false =>
    rw [if_neg Bool.false_ne_true]
    exact congrArg (fun chk => Except.ok (chk, Except.ok false)) Chunk.truncateTo_last

def Scanning (e : ClosureExecutor γ) : Prop :=
  e.processor = .tableScan ∨ e.processor = .indexScan ∨ e.processor = .selection

/-- A pair whose row can be decoded, tested and encoded. -/
structure Fine (T : Tidb γ) (b : Built γ) (enc : List Datum → Bytes) (row : List Datum)
    (pair : Bytes × Bytes) : Prop where
  decodes : b.1.rowValues T pair.1 pair.2 = .ok (row, none)
  tests : ∀ expr ∈ b.1.conditions, ∃ gotRow, condition T expr row = .ok gotRow
  encodes : b.1.satisfies T row = true → b.1.outputRow T row = .ok (.ok (enc row))

def accept (T : Tidb γ) (e : ClosureExecutor γ) (rows : List (List Datum)) (row : List Datum) :
    List (List Datum) :=
  if e.satisfies T row then rows ++ [row] else rows

variable {b : Built γ} {pair : Bytes × Bytes}

theorem scanProcess_of (hfine : Fine T b enc row pair)
    (hconditions : b.1.conditions = []) {core : ScanCtx → Go (ScanCtx × Option String)}
    (hcore : ∀ scanCtx, core scanCtx = b.1.processCore T scanCtx pair.1 pair.2)
    (h : Accepted T b.1 enc rows s) (hlimit : s.rowCount ≠ b.1.limit) :
    ∃ s', b.1.scanProcess T core s = .ok (s', none) ∧
      Accepted T b.1 enc (accept T b.1 rows row) s' := by
  have hsatisfies : b.1.satisfies T row = true := by
    rw [satisfies, hconditions]
    rfl
  obtain ⟨done, pending, rfl, h⟩ := h
  obtain ⟨scanCtx, hprocess, hscans, hchk, hwidth⟩ :=
    processCore_of_row h.scans h.chk_eq hfine.decodes
  obtain ⟨s', hflush, h'⟩ := (h.add hscans hchk hwidth (hfine.encodes hsatisfies)).flush
  refine ⟨s', ?_, ?_⟩
  · rw [scanProcess, if_neg hlimit, hcore, hprocess, Go.ok_bind]
    exact hflush
  · rwa [accept, if_pos hsatisfies, append_assoc]

theorem selectionProcess_of (hfine : Fine T b enc row pair)
    (h : Accepted T b.1 enc rows s) (hlimit : s.rowCount ≠ b.1.limit) :
    ∃ s', b.1.selectionProcess T s pair.1 pair.2 = .ok (s', none) ∧
      Accepted T b.1 enc (accept T b.1 rows row) s' := by
  obtain ⟨done, pending, rfl, h⟩ := h
  obtain ⟨scanCtx, hprocess, hscans, hchk, hwidth⟩ :=
    processCore_of_row h.scans h.chk_eq hfine.decodes
  have hselection : b.1.processSelection T (Chunk.of b.1.width (pending ++ [row]) []) = _ :=
    processSelection_of hwidth hfine.tests
  rw [selectionProcess, if_neg hlimit, hprocess, Go.ok_bind]
  dsimp only
  rw [hchk, hselection, Go.ok_bind, accept]
  cases hsatisfies : b.1.satisfies T row with
  | true =>
    rw [if_pos rfl, if_pos rfl, append_assoc]
    exact (h.add (hscans.withChunk _) rfl hwidth (hfine.encodes hsatisfies)).flush
  | false =>
    rw [if_neg Bool.false_ne_true, if_neg Bool.false_ne_true]
    exact ⟨_, rfl, done, pending, rfl, hscans.withChunk _, rfl, h.rowCount_eq, h.width_eq,
      h.encodes, h.flatten_eq, h.inChunks⟩

theorem process_of (hnew : IsNew T b) (hscan : Scanning b.1) (hfine : Fine T b enc row pair)
    (h : Accepted T b.1 enc rows s) (hlimit : s.rowCount ≠ b.1.limit) :
    ∃ s', b.1.process T s pair.1 pair.2 = .ok (s', none) ∧
      Accepted T b.1 enc (accept T b.1 rows row) s' := by
  rcases hscan with hprocessor | hprocessor | hprocessor
  · obtain ⟨hctx, hconditions⟩ := hnew.table hprocessor
    rw [process, hprocessor]
    apply scanProcess_of hfine hconditions _ h hlimit
    intro scanCtx
    rw [processCore, hctx]
    rfl
  · obtain ⟨hctx, hconditions⟩ := hnew.index hprocessor
    rw [process, hprocessor]
    apply scanProcess_of hfine hconditions _ h hlimit
    intro scanCtx
    rw [processCore, if_pos hctx]
  · rw [process, hprocessor]
    exact selectionProcess_of hfine h hlimit

theorem process_of_limit (hscan : Scanning e) (hlimit : s.rowCount = e.limit) :
    e.process T s pair.1 pair.2 = .ok (s, some .scanBreak) := by
  rcases hscan with hprocessor | hprocessor | hprocessor
  · rw [process, hprocessor]
    exact if_pos hlimit
  · rw [process, hprocessor]
    exact if_pos hlimit
  · rw [process, hprocessor]
    exact if_pos hlimit

theorem scan_of (hnew : IsNew T b) (hscan : Scanning b.1) {row : Bytes × Bytes → List Datum}
    {pairs : List (Bytes × Bytes)} (hfine : ∀ pair ∈ pairs, Fine T b enc (row pair) pair)
    (h : Accepted T b.1 enc rows s) (hle : rows.length ≤ b.1.limit) :
    ∃ s' err, b.1.scan T pairs s = .ok (s', err) ∧
      (err = none ∨ err = some .scanBreak ∧ b.1.limit < rows.length + pairs.length) ∧
      Accepted T b.1 enc
        (rows ++ ((pairs.map row).filter (b.1.satisfies T)).take (b.1.limit - rows.length)) s' := by
  induction pairs generalizing s rows with
  | nil =>
    refine ⟨s, none, rfl, .inl rfl, ?_⟩
    rwa [map_nil, filter_nil, take_nil, append_nil]
  | cons pair pairs ih =>
    have hrowCount := h.rowCount_eq
    by_cases hlimit : s.rowCount = b.1.limit
    · refine ⟨s, some .scanBreak, ?_, .inr ⟨rfl, ?_⟩, ?_⟩
      · rw [scan, process_of_limit hscan hlimit]
        rfl
      · rw [← hlimit, hrowCount, length_cons]
        omega
      · rwa [← hrowCount, hlimit, Nat.sub_self, take_zero, append_nil]
    · obtain ⟨s₁, hprocess, h₁⟩ :=
        process_of hnew hscan (hfine pair mem_cons_self) h hlimit
      have hrest : ∀ pair ∈ pairs, Fine T b enc (row pair) pair :=
        fun pair' hpair' => hfine pair' (mem_cons_of_mem pair hpair')
      rw [scan, hprocess, Go.ok_bind]
      dsimp only
      cases hsatisfies : b.1.satisfies T (row pair) with
      | true =>
        rw [accept, if_pos hsatisfies] at h₁
        have hlength : (rows ++ [row pair]).length = rows.length + 1 := by
          rw [length_append, length_singleton]
        have hleft : b.1.limit - rows.length = b.1.limit - (rows.length + 1) + 1 := by omega
        obtain ⟨s₂, err, hscan₂, herr, h₂⟩ := ih hrest h₁ (by omega)
        rw [hlength] at herr h₂
        refine ⟨s₂, err, hscan₂, herr.imp_right (And.imp_right ?_), ?_⟩
        · rw [length_cons]
          omega
        rw [append_assoc] at h₂
        rwa [map_cons, filter_cons_of_pos hsatisfies, hleft, take_succ_cons]
      | false =>
        have hnot : ¬ b.1.satisfies T (row pair) = true := by
          rw [hsatisfies]
          exact Bool.false_ne_true
        rw [accept, if_neg hnot] at h₁
        obtain ⟨s₂, err, hscan₂, herr, h₂⟩ := ih hrest h₁ hle
        refine ⟨s₂, err, hscan₂, herr.imp_right (And.imp_right ?_), ?_⟩
        · rw [length_cons]
          omega
        rwa [map_cons, filter_cons_of_neg hnot]

theorem accepted_new (hnew : IsNew T b) (enc : List Datum → Bytes) : Accepted T b.1 enc [] b.2 := by
  refine ⟨[], [], rfl, hnew.scans, hnew.chk_eq, hnew.rowCount_eq, by simp, by simp, ?_, ?_⟩
  · rw [hnew.oldChunks_eq]
    rfl
  · intro _
    rw [hnew.oldChunks_eq]
    exact ⟨[], rfl, rfl⟩

theorem Accepted.finish (h : Accepted T e enc rows s) (hscan : Scanning e) :
    ∃ s', e.finish T s = .ok (s', none) ∧ s'.oldChunks.flatten = (rows.map enc).flatten ∧
      (0 < e.width → InChunks s'.oldChunks (rows.map enc)) := by
  obtain ⟨done, pending, rfl, h⟩ := h
  obtain ⟨s', hflush, h'⟩ := h.chunkToOldChunk
  have hfinish : e.finish T s = e.scanFinish T s := by
    rcases hscan with hprocessor | hprocessor | hprocessor <;>
      rw [ClosureExecutor.finish, hprocessor]
  refine ⟨s', ?_, h'.flatten_eq, h'.inChunks⟩
  rw [hfinish, scanFinish, hflush]
  rfl

/-- The pairs of a scan or a selection leave in the response the encodings of the first rows that
satisfy all conditions, up to the limit, in order and each once. -/
theorem execute_output {executors : List Executor} {outputOff : List ℕ}
    (hbuild : buildClosureExecutor T executors outputOff = .ok (.ok b)) (hscan : Scanning b.1)
    (pairs : List (Bytes × Bytes)) (row : Bytes × Bytes → List Datum) (enc : List Datum → Bytes)
    (hfine : ∀ pair ∈ pairs, Fine T b enc (row pair) pair) :
    ∃ s, b.1.execute T pairs b.2 = .ok (s, none) ∧
      s.oldChunks.flatten = ((((pairs.map row).filter (b.1.satisfies T)).take b.1.limit).map
        enc).flatten ∧
      (0 < b.1.width → InChunks s.oldChunks
        ((((pairs.map row).filter (b.1.satisfies T)).take b.1.limit).map enc)) := by
  have hnew := isNew_buildClosureExecutor hbuild
  obtain ⟨s₁, err, heq, herr, h₁⟩ :=
    scan_of hnew hscan hfine (accepted_new hnew enc) (Nat.zero_le _)
  obtain ⟨s₂, hfinish, h₂⟩ := h₁.finish hscan
  refine ⟨s₂, ?_, h₂⟩
  rw [execute, heq, Go.ok_bind]
  rcases herr with rfl | ⟨rfl, -⟩
  · exact hfinish
  · exact hfinish

def sampleTidb : Tidb Unit where
  toTidbCodec := sampleCodec
  decodeInt
    | [x] => .ok ([], Int64.ofNat x.toNat)
    | _ => .error "insufficient bytes to decode value"
  decodeRowKey
    | [x] => .ok (Int64.ofNat x.toNat)
    | _ => .error "invalid record key"
  cutIndexKeyNew key length :=
    if length ≤ key.length then .ok (.ok ((key.take length).map fun x => [x], key.drop length))
    else .ok (.error "invalid encoded key")
  decodeIndexValue
    | flag :: _, _ => .ok (if flag = nilFlag then .null else .int64 (Int64.ofNat flag.toNat))
    | [], _ => .error "invalid encoded key"
  getDatum _ d := d
  toBool
    | .int64 v => .ok v
    | _ => .error "unsupported"
  compareDatum := TopNHeap.compareRank
  sort := TopNHeap.insertionSort TopNHeap.compareRank
  pbToExpr
    | .mk .columnRef [x] _, _ => .ok fun row => .ok (row.getD x.toNat .null)
    | _, _ => .error "unsupported"
  newDistAggFunc _ _ := .error "unsupported"
  length_cutIndexKeyNew := by
    intro key length values b h
    split_ifs at h with hle
    · cases h
      rw [length_map, length_take, Nat.min_eq_left hle]
    · cases h
  isNull_decodeIndexValue := by
    intro b ft d h
    cases b with
    | nil => cases h
    | cons flag rest =>
      cases h
      refine ⟨flag, rest, rfl, ?_⟩
      split_ifs with hflag
      · simp [Datum.isNull, hflag]
      · simp [Datum.isNull, hflag]

def handleColumn : ColumnInfo :=
  { columnId := 1, pkHandle := true, fieldType := { tp := .longlong } }

def handlePair (x : UInt8) : Bytes × Bytes := ([x], [128, 0, 0, 0, 0, 0])

def handleScan : List Executor :=
  [.tableScan [handleColumn], .selection [.mk .columnRef [0] []], .limit 2]

def handleExecutor : Built Unit :=
  ({ columnInfos := [handleColumn], outputOff := [0], limit := 2
     conditions := [fun row => .ok (row.getD 0 .null)], processor := .selection },
    { scanCtx := { chk := [[]], decoder := some { requestColIDs := [1], handleColID := 1
                                                  requestTypes := [{ tp := .longlong }]
                                                  origDefaults := [none] } } })

def handleRow (pair : Bytes × Bytes) : List Datum := [.int64 (Int64.ofNat (pair.1.headD 0).toNat)]

def handleEnc : List Datum → Bytes
  | [.int64 v] => 3 :: LittleEndian.bytes 8 v.toUInt64.toNat
  | _ => []

theorem fine_handlePair {pair : Bytes × Bytes} (h : pair ∈ [0, 1, 2, 3].map handlePair) :
    Fine sampleTidb handleExecutor handleEnc (handleRow pair) pair := by
  refine ⟨?_, ?_, fun _ => rfl⟩
  · revert pair
    decide +kernel
  · intro expr hexpr
    obtain rfl := mem_singleton.mp hexpr
    exact ⟨_, rfl⟩

theorem execute_output_handles : ∃ s,
    handleExecutor.1.execute sampleTidb ([0, 1, 2, 3].map handlePair) handleExecutor.2 =
      .ok (s, none) ∧
    s.oldChunks.flatten = (((([0, 1, 2, 3].map handlePair).map handleRow).filter
      (handleExecutor.1.satisfies sampleTidb)).take 2 |>.map handleEnc).flatten ∧
    (0 < handleExecutor.1.width → InChunks s.oldChunks
      ((((([0, 1, 2, 3].map handlePair).map handleRow).filter
        (handleExecutor.1.satisfies sampleTidb)).take 2).map handleEnc)) :=
  execute_output
    (show buildClosureExecutor sampleTidb handleScan [0] = .ok (.ok handleExecutor) from rfl)
    (.inr (.inr rfl)) _ handleRow handleEnc fun _ => fine_handlePair

end ClosureExecutor

end TinyKV
