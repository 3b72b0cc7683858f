import TinyKV.Coprocessor.Failures

/-!
# Index expressions of TopN

The keys of TopN have a place for each column (`newTopNSortRow`), but `Process` fills them with the
values of the order-by expressions, and `Finish` reads the output offsets, which need not be
columns.
-/

namespace TinyKV

open List

namespace TopNHeap

variable {cmp : CompareDatum} {Q : SortRow → Prop} {items : List ByItem} {total n m : ℕ}
  {t : TopNHeap} {row : SortRow}

/-- The heap has `n` of `m` rows, which all have a property. Nothing is said of their order. -/
structure HasRows (Q : SortRow → Prop) (items : List ByItem) (total n m : ℕ) (t : TopNHeap) :
    Prop where
  items_eq : t.orderByItems = items
  totalCount_eq : t.totalCount = total
  heapSize_eq : t.heapSize = n
  length_eq : t.rows.length = m
  rows : ∀ r ∈ t.rows, Q r

theorem compareKeys_ok {index : ℕ} {x y : SortRow} (hx : index + items.length ≤ x.key.length)
    (hy : index + items.length ≤ y.key.length) :
    ∃ ret, compareKeys cmp items index x y = .ok ret := by
  induction items generalizing index with
  | nil => exact ⟨_, rfl⟩
  | cons item items ih =>
    rw [length_cons] at hx hy
    have hgetx : x.key[index]? = some _ := getElem?_eq_getElem (by omega)
    have hgety : y.key[index]? = some _ := getElem?_eq_getElem (by omega)
    rw [compareKeys, Go.index_eq_ok hgetx, Go.ok_bind, Go.index_eq_ok hgety, Go.ok_bind]
    split
    · exact ⟨_, rfl⟩
    · rename_i ret _
      dsimp only
      generalize (if item.desc = true then -ret else ret) = ret'
      split_ifs
      · exact ⟨_, rfl⟩
      · exact ih (by omega) (by omega)

theorem HasRows.lessBy (h : HasRows Q items total n m t)
    (hQ : ∀ r, Q r → items.length ≤ r.key.length) (test : ℤ → Bool) {i j : ℕ} (hi : i < m)
    (hj : j < m) :
    ∃ t' less, t.lessBy cmp test i j = .ok (t', less) ∧ HasRows Q items total n m t' := by
  rw [← h.length_eq] at hi hj
  have hx : t.rows[i]? = some (t.rows.get ⟨i, hi⟩) := getElem?_eq_getElem hi
  have hy : t.rows[j]? = some (t.rows.get ⟨j, hj⟩) := getElem?_eq_getElem hj
  have hkey : 0 + items.length ≤ (t.rows.get ⟨i, hi⟩).key.length := by
    rw [Nat.zero_add]
    exact hQ _ (h.rows _ (mem_of_getElem? hx))
  have hkey' : 0 + items.length ≤ (t.rows.get ⟨j, hj⟩).key.length := by
    rw [Nat.zero_add]
    exact hQ _ (h.rows _ (mem_of_getElem? hy))
  obtain ⟨ret, hret⟩ := compareKeys_ok hkey hkey'
  rw [TopNHeap.lessBy, Go.index_eq_ok hx, Go.ok_bind, Go.index_eq_ok hy, Go.ok_bind, h.items_eq,
    hret, Go.ok_bind]
  cases ret with
  | error err => exact ⟨_, _, rfl, rfl, h.totalCount_eq, h.heapSize_eq, h.length_eq, h.rows⟩
  | ok ret => exact ⟨t, _, rfl, h⟩

theorem HasRows.swap (h : HasRows Q items total n m t) {i j : ℕ} (hi : i < m) (hj : j < m) :
    ∃ t', t.swap i j = .ok t' ∧ HasRows Q items total n m t' := by
  rw [← h.length_eq] at hi hj
  have hx : t.rows[i]? = some (t.rows.get ⟨i, hi⟩) := getElem?_eq_getElem hi
  have hy : t.rows[j]? = some (t.rows.get ⟨j, hj⟩) := getElem?_eq_getElem hj
  have hperm := (Heap.rearranged_exchange hx hy hi hj).perm
  refine ⟨{ t with rows := Heap.exchange t.rows i j _ _ }, ?_, h.items_eq, h.totalCount_eq,
    h.heapSize_eq, hperm.length_eq.trans h.length_eq, fun r hr => h.rows r (hperm.mem_iff.mp hr)⟩
  rw [TopNHeap.swap, Go.index_eq_ok hx, Go.ok_bind, Go.index_eq_ok hy, Go.ok_bind]
  rfl

theorem safe (hQ : ∀ r, Q r → items.length ≤ r.key.length) (total n m : ℕ) :
    Heap.Safe (interface cmp) (HasRows Q items total n m) m where
  less _ _ _ h hi hj := h.lessBy hQ _ hi hj
  swap _ _ _ h hi hj := h.swap hi hj

theorem HasRows.append (h : HasRows Q items total n m t) (hrow : Q row) (size : ℕ) :
    HasRows Q items total size (m + 1) { t with rows := t.rows ++ [row], heapSize := size } := by
  refine ⟨h.items_eq, h.totalCount_eq, rfl, ?_, fun r hr => ?_⟩
  · rw [length_append, h.length_eq, length_singleton]
  · rcases mem_append.mp hr with hr | hr
    · exact h.rows r hr
    · rw [mem_singleton.mp hr]
      exact hrow

theorem HasRows.cut (h : HasRows Q items total n (n + 1) t) :
    Go.slice t.rows 0 t.heapSize = .ok (t.rows.take n) ∧
      HasRows Q items total n n { t with rows := t.rows.take n } := by
  refine ⟨?_, h.items_eq, h.totalCount_eq, h.heapSize_eq, ?_,
    fun r hr => h.rows r (mem_of_mem_take hr)⟩
  · have hle : t.heapSize ≤ t.rows.length := by
      rw [h.heapSize_eq, h.length_eq]
      exact Nat.le_succ n
    rw [Go.slice_eq_ok (Nat.zero_le _) hle, h.heapSize_eq]
    rfl
  · rw [length_take, h.length_eq]
    exact Nat.min_eq_left (Nat.le_succ n)

theorem HasRows.tryToAddRow (cmp : CompareDatum) (h : HasRows Q items total n n t)
    (hQ : ∀ r, Q r → items.length ≤ r.key.length) (hle : n ≤ total) (hrow : Q row) :
    ∃ t' added, t.tryToAddRow cmp row = .ok (t', added) ∧
      HasRows Q items total (min (n + 1) total) (min (n + 1) total) t' := by
  rw [TopNHeap.tryToAddRow]
  by_cases hfull : t.heapSize = t.totalCount
  · have hmin : min (n + 1) total = n := by
      rw [← h.totalCount_eq, ← hfull, h.heapSize_eq]
      exact Nat.min_eq_right (Nat.le_succ n)
    rw [hmin]
    -- The row is parked behind the heap, where it can be compared with the root.
    have happend := h.append hrow t.heapSize
    have hparked : HasRows Q items total n (n + 1) { t with rows := t.rows ++ [row] } :=
      ⟨h.items_eq, h.totalCount_eq, h.heapSize_eq, happend.length_eq, happend.rows⟩
    obtain ⟨t₁, less, hless, ht₁⟩ := hparked.lessBy hQ (· > 0) (Nat.succ_pos n)
      (Nat.lt_succ_self n)
    rw [← h.heapSize_eq] at hless
    rw [if_pos hfull]
    dsimp only
    rw [TopNHeap.less, hless, Go.ok_bind]
    dsimp only
    cases less with
    | false =>
      rw [if_neg Bool.false_ne_true]
      change ∃ t' added, Go.slice t₁.rows 0 t₁.heapSize >>= _ = _ ∧ _
      rw [ht₁.cut.1, Go.ok_bind]
      exact ⟨_, false, rfl, ht₁.cut.2⟩
    | true =>
      obtain ⟨t₂, hswap, ht₂⟩ := ht₁.swap (Nat.succ_pos n) (Nat.lt_succ_self n)
      have hlen : (interface cmp).len t₂ ≤ n + 1 := ht₂.heapSize_eq.le.trans (Nat.le_succ n)
      obtain ⟨t₃, hfix, ht₃⟩ := (safe hQ total n (n + 1)).fix_root hlen ht₂
      rw [if_pos rfl, ht₁.heapSize_eq, hswap, Go.ok_bind, hfix, Go.ok_bind, ht₃.cut.1, Go.ok_bind]
      exact ⟨_, true, rfl, ht₃.cut.2⟩
  · have hmin : min (n + 1) total = n + 1 := by
      rw [h.heapSize_eq, h.totalCount_eq] at hfull
      exact Nat.min_eq_left (by omega)
    have happend := h.append hrow (t.heapSize + 1)
    have hpushed : HasRows Q items total (n + 1) (n + 1) (t.push row) :=
      ⟨h.items_eq, h.totalCount_eq, congrArg (· + 1) h.heapSize_eq, happend.length_eq, happend.rows⟩
    have hlen : (interface cmp).len (t.push row) - 1 < n + 1 := by
      rw [show (interface cmp).len (t.push row) = n + 1 from hpushed.heapSize_eq]
      exact Nat.lt_succ_self n
    obtain ⟨t', hpush, ht'⟩ := (safe hQ total (n + 1) (n + 1)).push hlen hpushed
    rw [if_neg hfull, hpush, Go.ok_bind, hmin]
    exact ⟨t', true, rfl, ht'⟩

def SortsInRange (cmp : CompareDatum) (sort : TopNHeap → Go TopNHeap) : Prop :=
  ∀ t : TopNHeap, (∀ (rows : List SortRow) (i j : ℕ), rows.Perm t.rows → i < rows.length →
      j < rows.length → ∃ r, sorterLess cmp { t with rows := rows } i j = .ok r) →
    ∃ rows err, sort t = .ok { t with rows := rows, err := err } ∧ rows.Perm t.rows

theorem HasRows.sort {sort : TopNHeap → Go TopNHeap} (hsort : SortsInRange cmp sort)
    (h : HasRows Q items total n m t) (hQ : ∀ r, Q r → items.length ≤ r.key.length) :
    ∃ t', sort t = .ok t' ∧ HasRows Q items total n m t' := by
  obtain ⟨rows, err, heq, hperm⟩ := hsort t fun rows i j hperm hi hj => by
    have hrows : HasRows Q items total n m { t with rows := rows } :=
      ⟨h.items_eq, h.totalCount_eq, h.heapSize_eq, hperm.length_eq.trans h.length_eq,
        fun r hr => h.rows r (hperm.mem_iff.mp hr)⟩
    rw [show rows.length = m from hrows.length_eq] at hi hj
    obtain ⟨t', less, hless, -⟩ := hrows.lessBy hQ (· < 0) hi hj
    exact ⟨_, hless⟩
  exact ⟨_, heq, h.items_eq, h.totalCount_eq, h.heapSize_eq, hperm.length_eq.trans h.length_eq,
    fun r hr => h.rows r (hperm.mem_iff.mp hr)⟩

end TopNHeap

namespace ClosureExecutor

open RowCodec

variable {γ : Type} {T : Tidb γ} {e : ClosureExecutor γ} {b : Built γ} {s : ExecState γ}
  {rows : List (List Datum)} {row : List Datum}

def OffsetsOk (e : ClosureExecutor γ) : Prop :=
  e.width = 0 ∨ ∀ off ∈ e.outputOff, off < e.width

theorem not_offsetsOk_iff :
    ¬ e.OffsetsOk ↔ 0 < e.width ∧ ∃ off ∈ e.outputOff, e.width ≤ off := by
  simp only [OffsetsOk, not_or, not_forall, not_lt, exists_prop, Nat.pos_iff_ne_zero, ne_eq]

theorem outputRow_ok (hoff : ∀ off ∈ e.outputOff, off < e.width) (hwidth : row.length = e.width) :
    ∃ result, e.outputRow T row = .ok result := by
  have hvalue : ∀ off ∈ e.outputOff, ∃ d, (do
      let d ← Go.index row off
      let ft ← Go.index e.fieldTps off
      return T.getDatum ft d : Go Datum) = .ok d := by
    intro off hmem
    have hlt := hoff off hmem
    have hd : row[off]? = some _ := getElem?_eq_getElem (hwidth ▸ hlt)
    have hft : e.fieldTps[off]? = some _ :=
      getElem?_eq_getElem (by rwa [fieldTps, length_map])
    rw [Go.index_eq_ok hd, Go.ok_bind, Go.index_eq_ok hft]
    exact ⟨_, rfl⟩
  obtain ⟨oldRow, hrow⟩ := Go.mapM_ok hvalue
  rw [outputRow, hrow]
  exact ⟨_, rfl⟩

theorem outputRow_outOfRange {off : ℕ} (hmem : off ∈ e.outputOff) (hoff : e.width ≤ off)
    (hwidth : row.length = e.width) : e.outputRow T row = .error .indexOutOfRange := by
  rw [outputRow]
  generalize e.outputOff = offs at hmem
  induction offs with
  | nil => simp at hmem
  | cons first offs ih =>
    rw [mapM_cons]
    rcases Nat.lt_or_ge first e.width with hlt | hge
    · have hd : row[first]? = some _ := getElem?_eq_getElem (hwidth ▸ hlt)
      have hft : e.fieldTps[first]? = some _ :=
        getElem?_eq_getElem (by rwa [fieldTps, length_map])
      have hrest := ih ((mem_cons.mp hmem).resolve_left (by omega))
      rw [Go.index_eq_ok hd, Go.ok_bind, Go.index_eq_ok hft, Go.ok_bind, Go.pure_eq_ok, Go.ok_bind]
      generalize (offs.mapM _ : Go (List Datum)) = result at hrest ⊢
      cases result with
      | error err => exact hrest
      | ok oldRow => cases hrest
    · rw [Go.index, getElem?_eq_none (by omega)]
      rfl

theorem chunkToOldChunk_ok (hoff : rows = [] ∨ e.OffsetsOk)
    (hchk : s.scanCtx.chk = Chunk.of e.width rows [])
    (hwidth : ∀ row ∈ rows, row.length = e.width) : ∃ r, e.chunkToOldChunk T s = .ok r := by
  rcases chunkToOldChunk_cases (T := T) (e := e) (s := s) with ⟨s', hflush⟩ | ⟨f, out, hfails⟩
  · exact ⟨_, hflush⟩
  · rw [chunkToOldChunk_of_encodeFails hfails]
    obtain ⟨i, hi, -, hrow⟩ := hfails
    cases f with
    | error err => exact ⟨_, rfl⟩
    | panic p =>
      -- The row has a value at each offset.
      exfalso
      rw [hchk] at hi hrow
      rcases Nat.eq_zero_or_pos e.width with hzero | hpos
      · rw [hzero] at hi
        exact Nat.not_lt_zero i hi
      · rw [Chunk.numRows_of hpos] at hi
        have hget : rows[i]? = some (rows.get ⟨i, hi⟩) := getElem?_eq_getElem hi
        have hlength := hwidth _ (mem_of_getElem? hget)
        rcases hoff with rfl | hzero | hoff
        · exact Nat.not_lt_zero i hi
        · exact hpos.ne' hzero
        · obtain ⟨result, hresult⟩ := outputRow_ok (T := T) hoff hlength
          rw [encodeRow_of hget hlength, hresult] at hrow
          cases hrow

theorem chunkToOldChunk_outOfRange (hoff : ¬ e.OffsetsOk) (hrows : rows ≠ [])
    (hchk : s.scanCtx.chk = Chunk.of e.width rows [])
    (hwidth : ∀ row ∈ rows, row.length = e.width) :
    e.chunkToOldChunk T s = .error .indexOutOfRange := by
  obtain ⟨hpos, off, hmem, hle⟩ := not_offsetsOk_iff.mp hoff
  obtain ⟨row, rows, rfl⟩ := exists_cons_of_ne_nil hrows
  have hrow := hwidth row mem_cons_self
  have hencode : e.encodeRow T (Chunk.of e.width (row :: rows) []) 0 = .error .indexOutOfRange :=
    (encodeRow_of rfl hrow).trans (outputRow_outOfRange hmem hle hrow)
  rw [chunkToOldChunk, hchk, Chunk.numRows_of hpos, length_cons, encodeRows, hencode]
  rfl

theorem scanFinish_ok (hoff : rows = [] ∨ e.OffsetsOk)
    (hchk : s.scanCtx.chk = Chunk.of e.width rows [])
    (hwidth : ∀ row ∈ rows, row.length = e.width) : ∃ r, e.scanFinish T s = .ok r := by
  obtain ⟨⟨s', err⟩, hflush⟩ := chunkToOldChunk_ok (T := T) hoff hchk hwidth
  rw [scanFinish, hflush]
  exact ⟨_, rfl⟩

def Decodes (T : Tidb γ) (b : Built γ) (pair : Bytes × Bytes) : Prop :=
  ∃ row, b.1.rowValues T pair.1 pair.2 = .ok (row, none)

def Evaluates (T : Tidb γ) (b : Built γ) (pair : Bytes × Bytes) (gotRow : Bool) (row : List Datum) :
    Prop :=
  b.1.rowValues T pair.1 pair.2 = .ok (row, none) ∧
    evalConditions T b.1.conditions row = .ok gotRow

def Selected (T : Tidb γ) (b : Built γ) (pair : Bytes × Bytes) : Prop :=
  ∃ row, Evaluates T b pair true row

def Rejected (T : Tidb γ) (b : Built γ) (pair : Bytes × Bytes) : Prop :=
  ∃ row, Evaluates T b pair false row

def FillsKey (T : Tidb γ) (b : Built γ) (pair : Bytes × Bytes) : Prop :=
  ∃ row, Evaluates T b pair true row ∧
    ∀ expr ∈ b.1.orderByExprs.take b.1.width, ∃ d, expr row = .ok d

def FillsFirst (T : Tidb γ) (b : Built γ) : List (Bytes × Bytes) → Prop
  | [] => False
  | pair :: pairs => FillsKey T b pair ∨ Rejected T b pair ∧ FillsFirst T b pairs

variable {pair : Bytes × Bytes} {pairs : List (Bytes × Bytes)}

theorem Rejected.not_selected (h : Rejected T b pair) : ¬ Selected T b pair := by
  obtain ⟨row, hrow, hfalse⟩ := h
  rintro ⟨row', hrow', htrue⟩
  obtain rfl : row = row' := by
    cases hrow.symm.trans hrow'
    rfl
  rw [hfalse] at htrue
  cases htrue

/-- A row that TopN keeps: its key has a value for each expression, and its data are a pair. -/
structure Kept (T : Tidb γ) (b : Built γ) (items : List ByItem) (row : SortRow) : Prop where
  le_length : items.length ≤ row.key.length
  data : ∃ pair, row.data = [pair.1, pair.2] ∧ Decodes T b pair

/-- The state of TopN between two pairs. The heap has a row if one was selected. -/
structure KeepsRows (T : Tidb γ) (b : Built γ) (items : List ByItem) (total : ℕ) (selected : Prop)
    (s : ExecState γ) : Prop where
  scans : Scans T b.1 s.scanCtx
  chk_eq : s.scanCtx.chk = Chunk.of b.1.width [] []
  ctx : ∃ ctx n, s.topNCtx = some ctx ∧ TopNHeap.HasRows (Kept T b items) items total n n ctx.heap ∧
    ctx.sortKey.length = b.1.width ∧ n ≤ total ∧ (0 < n ↔ 0 < total ∧ selected)

theorem KeepsRows.congr {items : List ByItem} {total : ℕ} {selected selected' : Prop}
    (h : KeepsRows T b items total selected s) (hiff : selected ↔ selected') :
    KeepsRows T b items total selected' s := by
  obtain rfl := propext hiff
  exact h

variable {exprs : List Expression}

theorem evalKey_ok (row : List Datum) {i : ℕ} {sortKey : List Datum}
    (h : i + exprs.length ≤ sortKey.length) :
    ∃ sortKey' err, evalKey row exprs i sortKey = .ok (sortKey', err) ∧
      sortKey'.length = sortKey.length := by
  induction exprs generalizing i sortKey with
  | nil => exact ⟨sortKey, none, rfl, rfl⟩
  | cons expr exprs ih =>
    rw [length_cons] at h
    have hi : i < sortKey.length := by omega
    rw [evalKey, Go.index_eq_ok (getElem?_eq_getElem hi), Go.ok_bind]
    cases expr row with
    | error err => exact ⟨sortKey, some err, rfl, rfl⟩
    | ok d =>
      have hset : (sortKey.set i d).length = sortKey.length := length_set
      dsimp only
      rw [Go.setIndex_eq_ok hi, Go.ok_bind, ← hset]
      exact ih (by omega)

theorem evalKey_of_lt (row : List Datum) {i : ℕ} {sortKey : List Datum} (hi : i ≤ sortKey.length)
    (h : sortKey.length < i + exprs.length) :
    ((∀ expr ∈ exprs.take (sortKey.length - i), ∃ d, expr row = .ok d) →
      evalKey row exprs i sortKey = .error .indexOutOfRange) ∧
    ((¬ ∀ expr ∈ exprs.take (sortKey.length - i), ∃ d, expr row = .ok d) →
      ∃ sortKey' err, evalKey row exprs i sortKey = .ok (sortKey', some err)) := by
  induction exprs generalizing i sortKey with
  | nil => exact absurd h (not_lt.mpr hi)
  | cons expr exprs ih =>
    rw [length_cons] at h
    rw [evalKey]
    rcases hi.lt_or_eq with hlt | rfl
    · rw [Go.index_eq_ok (getElem?_eq_getElem hlt), Go.ok_bind,
        show sortKey.length - i = sortKey.length - (i + 1) + 1 by omega, take_succ_cons,
        forall_mem_cons]
      cases hexpr : expr row with
      | error err => exact ⟨fun hall => by simp at hall, fun _ => ⟨sortKey, err, rfl⟩⟩
      | ok d =>
        have hset : (sortKey.set i d).length = sortKey.length := length_set
        have hrest := @ih (i + 1) (sortKey.set i d) (by omega) (by omega)
        rw [hset] at hrest
        dsimp only
        rw [Go.setIndex_eq_ok hlt, Go.ok_bind]
        exact ⟨fun hall => hrest.1 hall.2, fun hnot => hrest.2 fun hall => hnot ⟨⟨d, rfl⟩, hall⟩⟩
    · rw [Go.index, getElem?_eq_none le_rfl, Nat.sub_self, take_zero]
      exact ⟨fun _ => rfl, fun hnot => absurd (by simp) hnot⟩

variable {items : List ByItem} {total : ℕ} {selected : Prop}

section

variable (h : KeepsRows T b items total selected s) (hprocessor : b.1.processor = .topN)
include h hprocessor

theorem KeepsRows.process_rejected (hpair : Rejected T b pair) :
    ∃ s', b.1.process T s pair.1 pair.2 = .ok (s', none) ∧
      KeepsRows T b items total selected s' := by
  obtain ⟨row, hrow, hcond⟩ := hpair
  obtain ⟨scanCtx, hprocess, hscans, hchk⟩ := processRow_of_row h.scans h.chk_eq hrow
  rw [hcond] at hprocess hchk
  refine ⟨{ s with scanCtx := scanCtx }, ?_, hscans, hchk, h.ctx⟩
  rw [ClosureExecutor.process, hprocessor]
  dsimp only
  rw [topNProcess, hprocess]
  rfl

theorem KeepsRows.process_outOfRange (hexprs : b.1.width < b.1.orderByExprs.length)
    (hpair : FillsKey T b pair) : b.1.process T s pair.1 pair.2 = .error .indexOutOfRange := by
  obtain ⟨row, hrow, heval⟩ := hpair
  obtain ⟨scanCtx, hprocess, -, -, hget⟩ := processRow_of_selects h.scans h.chk_eq hrow
  obtain ⟨ctx, n, hctx, -, hkey, -⟩ := h.ctx
  rw [← hkey] at hexprs heval
  have hpanic := (evalKey_of_lt row (Nat.zero_le _) (by rwa [Nat.zero_add])).1 heval
  rw [ClosureExecutor.process, hprocessor]
  dsimp only
  rw [topNProcess, hprocess, Go.ok_bind]
  dsimp only
  rw [hctx, Go.deref_some, Go.ok_bind, hget, Go.ok_bind, hpanic]
  rfl

theorem KeepsRows.process_returns (hitems : b.1.orderByExprs.length = items.length)
    (hpair : Decodes T b pair)
    (hkey : ¬ (b.1.width < b.1.orderByExprs.length ∧ FillsKey T b pair)) :
    ∃ s' err, b.1.process T s pair.1 pair.2 = .ok (s', err) ∧ err ≠ some .scanBreak ∧
      (err = none → KeepsRows T b items total (selected ∨ Selected T b pair) s' ∧
        (b.1.width < b.1.orderByExprs.length → Rejected T b pair)) := by
  obtain ⟨row, hrow⟩ := hpair
  cases hcond : evalConditions T b.1.conditions row with
  | error err =>
    obtain ⟨scanCtx, hprocess, -⟩ := processRow_of_row h.scans h.chk_eq hrow
    rw [hcond] at hprocess
    rw [ClosureExecutor.process, hprocessor]
    dsimp only
    rw [topNProcess, hprocess]
    exact ⟨_, _, rfl, by simp, by simp⟩
  | ok gotRow =>
    cases gotRow with
    | false =>
      have hrejected : Rejected T b pair := ⟨row, hrow, hcond⟩
      obtain ⟨s', heq, hs'⟩ := h.process_rejected hprocessor hrejected
      refine ⟨s', none, heq, by simp, fun _ => ⟨hs'.congr ?_, fun _ => hrejected⟩⟩
      exact (or_iff_left hrejected.not_selected).symm
    | true =>
      have hselected : Selected T b pair := ⟨row, hrow, hcond⟩
      obtain ⟨ctx, n, hctx, hheap, hlength, hle, hcount⟩ := h.ctx
      obtain ⟨scanCtx, hprocess, hscans, hchk, hget⟩ :=
        processRow_of_selects h.scans h.chk_eq ⟨hrow, hcond⟩
      rw [ClosureExecutor.process, hprocessor]
      dsimp only
      rw [topNProcess, hprocess, Go.ok_bind]
      dsimp only
      rw [hctx, Go.deref_some, Go.ok_bind, hget, Go.ok_bind]
      rcases Nat.lt_or_ge b.1.width b.1.orderByExprs.length with hexprs | hexprs
      · -- One of the first expressions fails.
        have heval : ¬ ∀ expr ∈ b.1.orderByExprs.take b.1.width, ∃ d, expr row = .ok d :=
          fun hall => hkey ⟨hexprs, row, ⟨hrow, hcond⟩, hall⟩
        rw [← hlength] at hexprs heval
        obtain ⟨sortKey, err, hfails⟩ :=
          (evalKey_of_lt row (Nat.zero_le _) (by rwa [Nat.zero_add])).2 heval
        rw [hfails, Go.ok_bind]
        exact ⟨_, _, rfl, by simp, by simp⟩
      · obtain ⟨sortKey, err, heval, hlength'⟩ :=
          evalKey_ok row (show 0 + b.1.orderByExprs.length ≤ ctx.sortKey.length by omega)
        rw [heval, Go.ok_bind]
        cases err with
        | some err => exact ⟨_, _, rfl, by simp, by simp⟩
        | none =>
          have hkept : Kept T b items ⟨sortKey, [pair.1, pair.2]⟩ :=
            ⟨by dsimp only; omega, pair, rfl, row, hrow⟩
          obtain ⟨heap, added, hadd, hheap'⟩ := hheap.tryToAddRow T.compareDatum
            (fun r hr => hr.le_length) hle hkept
          dsimp only
          rw [hadd, Go.ok_bind]
          refine ⟨_, _, rfl, ?_, fun _ => ⟨⟨hscans.withChunk _, ?_, _, _, rfl, hheap', ?_, ?_, ?_⟩,
            fun hlt => absurd hlt (not_lt.mpr hexprs)⟩⟩
          · cases heap.err <;> simp
          · change scanCtx.chk.reset = _
            rw [hchk, Chunk.reset_of]
          · dsimp only
            split_ifs
            · exact length_replicate
            · exact hlength'.trans hlength
          · exact Nat.min_le_right _ _
          · rw [and_iff_left (Or.inr hselected)]
            omega

theorem KeepsRows.scan (hitems : b.1.orderByExprs.length = items.length)
    (hpairs : ∀ pair ∈ pairs, Decodes T b pair) :
    (b.1.width < b.1.orderByExprs.length ∧ FillsFirst T b pairs →
      b.1.scan T pairs s = .error .indexOutOfRange) ∧
    (¬ (b.1.width < b.1.orderByExprs.length ∧ FillsFirst T b pairs) →
      ∃ s' err, b.1.scan T pairs s = .ok (s', err) ∧ err ≠ some .scanBreak ∧
        (err = none →
          KeepsRows T b items total (selected ∨ ∃ pair ∈ pairs, Selected T b pair) s')) := by
  induction pairs generalizing s selected with
  | nil => exact ⟨fun hfills => hfills.2.elim, fun _ => ⟨s, none, rfl, by simp, fun _ => by simpa⟩⟩
  | cons pair pairs ih =>
    obtain ⟨hpair, hpairs⟩ := forall_mem_cons.mp hpairs
    rw [ClosureExecutor.scan]
    constructor
    · rintro ⟨hexprs, hfills | ⟨hrejected, hfills⟩⟩
      · rw [h.process_outOfRange hprocessor hexprs hfills]
        rfl
      · obtain ⟨s₁, hprocess, hs₁⟩ := h.process_rejected hprocessor hrejected
        rw [hprocess, Go.ok_bind]
        exact (ih hs₁ hpairs).1 ⟨hexprs, hfills⟩
    · intro hnot
      obtain ⟨s₁, err, hprocess, hbreak, hs₁⟩ := h.process_returns hprocessor hitems hpair
        fun hkey => hnot ⟨hkey.1, .inl hkey.2⟩
      rw [hprocess, Go.ok_bind]
      cases err with
      | some err => exact ⟨s₁, some err, rfl, hbreak, by simp⟩
      | none =>
        obtain ⟨hkeeps, hrejected⟩ := hs₁ rfl
        obtain ⟨s', err, hscan, hbreak, hs'⟩ := (ih hkeeps hpairs).2 fun hfills =>
          hnot ⟨hfills.1, .inr ⟨hrejected hfills.1, hfills.2⟩⟩
        refine ⟨s', err, hscan, hbreak, fun herr => (hs' herr).congr ?_⟩
        rw [exists_mem_cons_iff, or_assoc]

end

section

variable {kept : List SortRow} (hscans : Scans T b.1 s.scanCtx)
  (hchk : s.scanCtx.chk = Chunk.of b.1.width rows [])
  (hwidth : ∀ row ∈ rows, row.length = b.1.width)
include hscans hchk hwidth

theorem topNRows_cons {sortRow : SortRow} (hsortRow : Kept T b items sortRow)
    (kept : List SortRow) :
    ∃ row scanCtx, Scans T b.1 scanCtx ∧ scanCtx.chk = Chunk.of b.1.width (rows ++ [row]) [] ∧
      (∀ row' ∈ rows ++ [row], row'.length = b.1.width) ∧
      b.1.topNRows T (sortRow :: kept) s =
        if scanCtx.chk.numRows = chunkMaxRows then do
          match ← b.1.chunkToOldChunk T { s with scanCtx := scanCtx } with
          | (s, some err) => return (s, some err)
          | (s, none) => b.1.topNRows T kept s
        else b.1.topNRows T kept { s with scanCtx := scanCtx } := by
  obtain ⟨pair, hdata, row, hrow⟩ := hsortRow.data
  obtain ⟨s₁, hcore, hscans₁, hchk₁, hlength⟩ := processCore_of_row hscans hchk hrow
  have hkey : Go.index sortRow.data 0 = .ok pair.1 := by
    rw [hdata]
    rfl
  have hvalue : Go.index sortRow.data 1 = .ok pair.2 := by
    rw [hdata]
    rfl
  refine ⟨row, s₁, hscans₁, hchk₁, fun row' hmem => ?_, ?_⟩
  · rcases mem_append.mp hmem with hmem | hmem
    · exact hwidth row' hmem
    · rw [mem_singleton.mp hmem]
      exact hlength
  · rw [topNRows, hkey, Go.ok_bind, hvalue, Go.ok_bind, hcore]
    rfl

variable (hkept : ∀ row ∈ kept, Kept T b items row)
include hkept

theorem topNRows_ok (hoff : b.1.OffsetsOk) :
    ∃ s' err, b.1.topNRows T kept s = .ok (s', err) ∧
      (err = none → ∃ r, b.1.scanFinish T s' = .ok r) := by
  induction kept generalizing s rows with
  | nil => exact ⟨s, none, rfl, fun _ => scanFinish_ok (.inr hoff) hchk hwidth⟩
  | cons sortRow kept ih =>
    obtain ⟨hsortRow, hkept⟩ := forall_mem_cons.mp hkept
    obtain ⟨row, s₁, hscans₁, hchk₁, hwidth₁, heq⟩ :=
      topNRows_cons hscans hchk hwidth hsortRow kept
    rw [heq]
    split_ifs
    · -- The buffer is full.
      obtain ⟨⟨s₂, err⟩, hflush⟩ :=
        chunkToOldChunk_ok (T := T) (s := { s with scanCtx := s₁ }) (.inr hoff) hchk₁ hwidth₁
      rw [hflush, Go.ok_bind]
      cases err with
      | some err => exact ⟨s₂, some err, rfl, by simp⟩
      | none =>
        have hctx := of_chunkToOldChunk hflush
        have hscans₂ : Scans T b.1 s₂.scanCtx := by
          rw [hctx]
          exact hscans₁.withChunk _
        have hchk₂ : s₂.scanCtx.chk = Chunk.of b.1.width [] [] := by
          rw [hctx]
          exact (congrArg Chunk.reset hchk₁).trans Chunk.reset_of
        exact ih hscans₂ hchk₂ (by simp) hkept
    · exact ih hscans₁ hchk₁ hwidth₁ hkept

theorem topNRows_outOfRange (hoff : ¬ b.1.OffsetsOk) (hne : kept ≠ [] ∨ rows ≠ []) :
    b.1.topNRows T kept s = .error .indexOutOfRange ∨
      ∃ s', b.1.topNRows T kept s = .ok (s', none) ∧
        b.1.scanFinish T s' = .error .indexOutOfRange := by
  induction kept generalizing s rows with
  | nil =>
    refine .inr ⟨s, rfl, ?_⟩
    rw [scanFinish, chunkToOldChunk_outOfRange hoff (hne.resolve_left fun h => h rfl) hchk hwidth]
    rfl
  | cons sortRow kept ih =>
    obtain ⟨hsortRow, hkept⟩ := forall_mem_cons.mp hkept
    obtain ⟨row, s₁, hscans₁, hchk₁, hwidth₁, heq⟩ :=
      topNRows_cons hscans hchk hwidth hsortRow kept
    have hrows : rows ++ [row] ≠ [] := by simp
    rw [heq]
    split_ifs
    · left
      rw [chunkToOldChunk_outOfRange (s := { s with scanCtx := s₁ }) hoff hrows hchk₁ hwidth₁]
      rfl
    · exact ih hscans₁ hchk₁ hwidth₁ hkept (.inr hrows)

end

theorem KeepsRows.finish_iff (h : KeepsRows T b items total selected s)
    (hsort : TopNHeap.SortsInRange T.compareDatum T.sort) (hprocessor : b.1.processor = .topN) :
    (∃ r, b.1.finish T s = .ok r) ↔ b.1.OffsetsOk ∨ ¬ (0 < total ∧ selected) := by
  obtain ⟨ctx, n, hctx, hheap, -, -, hcount⟩ := h.ctx
  obtain ⟨heap, hsorted, hheap'⟩ := hheap.sort hsort fun r hr => hr.le_length
  rw [ClosureExecutor.finish, hprocessor]
  dsimp only
  rw [topNFinish, hctx, Go.deref_some, Go.ok_bind, hsorted, Go.ok_bind]
  dsimp only
  rw [← hcount]
  by_cases hoff : b.1.OffsetsOk
  · obtain ⟨s', err, hrows, hfinish⟩ :=
      topNRows_ok (s := { s with topNCtx := some { ctx with heap := heap } }) h.scans h.chk_eq
        (by simp) hheap'.rows hoff
    refine iff_of_true ?_ (.inl hoff)
    rw [hrows, Go.ok_bind]
    cases err with
    | some err => exact ⟨_, rfl⟩
    | none => exact hfinish rfl
  · rw [or_iff_right hoff]
    rcases Nat.eq_zero_or_pos n with rfl | hpos
    · -- There is no row.
      refine iff_of_true ?_ (lt_irrefl 0)
      rw [eq_nil_of_length_eq_zero hheap'.length_eq]
      exact scanFinish_ok (.inl rfl) h.chk_eq (by simp)
    · refine iff_of_false ?_ (not_not_intro hpos)
      have hne : heap.rows ≠ [] := ne_nil_of_length_pos (hheap'.length_eq ▸ hpos)
      rintro ⟨r, hr⟩
      rcases topNRows_outOfRange (s := { s with topNCtx := some { ctx with heap := heap } })
        h.scans h.chk_eq (by simp) hheap'.rows hoff (.inl hne) with hpanic | ⟨s', hrows, hpanic⟩
      · rw [hpanic] at hr
        cases hr
      · rw [hrows, Go.ok_bind] at hr
        dsimp only at hr
        rw [hpanic] at hr
        cases hr

theorem length_convertToExprs {fieldTps : List FieldType} {pbExprs : List PbExpr}
    (h : convertToExprs T fieldTps pbExprs = .ok exprs) : exprs.length = pbExprs.length := by
  induction pbExprs generalizing exprs with
  | nil =>
    cases h
    rfl
  | cons pbExpr pbExprs ih =>
    rw [convertToExprs, mapM_cons] at h
    cases hexpr : T.pbToExpr pbExpr fieldTps with
    | error err =>
      rw [hexpr] at h
      cases h
    | ok expr =>
      cases hexprs : convertToExprs T fieldTps pbExprs with
      | error err =>
        rw [convertToExprs] at hexprs
        rw [hexpr, hexprs] at h
        cases h
      | ok rest =>
        have hrest := ih hexprs
        rw [convertToExprs] at hexprs
        rw [hexpr, hexprs] at h
        cases h
        rw [length_cons, length_cons, hrest]

theorem outputOff_newClosureExecutor {scanExec : Executor} {outputOff : List ℕ}
    (h : newClosureExecutor T scanExec outputOff = .ok (.ok b)) : b.1.outputOff = outputOff := by
  cases scanExec with
  | tableScan columns =>
    obtain ⟨result, -, h⟩ := Go.bind_eq_ok.mp h
    cases result with
    | error err => cases h
    | ok decoder =>
      cases h
      rfl
  | indexScan columns =>
    obtain ⟨ctx, -, h⟩ := Go.bind_eq_ok.mp h
    cases h
    rfl
  | _ => cases h

theorem outputOff_buildSelection {b' : Built γ} {secondExec : Executor}
    (h : buildSelection T b secondExec = .ok b') : b'.1.outputOff = b.1.outputOff := by
  cases secondExec with
  | selection conditions =>
    rw [buildSelection] at h
    cases hconditions : convertToExprs T b.1.fieldTps conditions with
    | error err =>
      rw [hconditions] at h
      cases h
    | ok exprs =>
      rw [hconditions] at h
      cases h
      rfl
  | _ =>
    cases h
    rfl

variable {orderBy : List (PbExpr × ByItem)}

theorem of_buildTopNProcessor {b' : Built γ} {limit : ℕ}
    (h : buildTopNProcessor T b orderBy limit = .ok b') :
    b'.1.processor = .topN ∧ b'.1.orderByExprs.length = orderBy.length ∧
      b'.2.topNCtx = some { heap := TopNHeap.new (orderBy.map Prod.snd) limit
                            sortKey := b'.1.newTopNSortRow } ∧
      b'.1.outputOff = b.1.outputOff := by
  rw [buildTopNProcessor] at h
  cases hconds : convertToExprs T b.1.fieldTps (orderBy.map Prod.fst) with
  | error err =>
    rw [hconds] at h
    cases h
  | ok conds =>
    rw [hconds] at h
    cases h
    exact ⟨rfl, (length_convertToExprs hconds).trans (length_map _), rfl, rfl⟩

theorem of_buildTopN {scanExec : Executor} {between : List Executor} {limit : ℕ}
    {outputOff : List ℕ}
    (hbuild : buildClosureExecutor T (scanExec :: (between ++ [.topN orderBy limit])) outputOff =
      .ok (.ok b)) :
    b.1.processor = .topN ∧ b.1.orderByExprs.length = orderBy.length ∧
      b.2.topNCtx = some { heap := TopNHeap.new (orderBy.map Prod.snd) limit
                           sortKey := b.1.newTopNSortRow } ∧ b.1.outputOff = outputOff := by
  have hlong : ¬ (scanExec :: (between ++ [.topN orderBy limit])).length = 1 := by simp
  have hlast : (scanExec :: (between ++ [Executor.topN orderBy limit]))[
      (scanExec :: (between ++ [Executor.topN orderBy limit])).length - 1]? =
        some (.topN orderBy limit) := by simp
  obtain ⟨first, -, h⟩ := Go.bind_eq_ok.mp hbuild
  obtain ⟨result, hscan, h⟩ := Go.bind_eq_ok.mp h
  cases result with
  | error err => cases h
  | ok b₁ =>
    dsimp only at h
    rw [if_neg hlong] at h
    obtain ⟨second, -, h⟩ := Go.bind_eq_ok.mp h
    cases hsecond : buildSelection T b₁ second with
    | error err =>
      rw [hsecond] at h
      cases h
    | ok b₂ =>
      rw [hsecond] at h
      dsimp only at h
      rw [Go.index_eq_ok hlast, Go.ok_bind] at h
      have htopN : buildTopNProcessor T b₂ orderBy limit = .ok b := Except.ok.inj h
      have houtputOff :=
        (outputOff_buildSelection hsecond).trans (outputOff_newClosureExecutor hscan)
      obtain ⟨hprocessor, hexprs, hctx, houtputOff'⟩ := of_buildTopNProcessor htopN
      exact ⟨hprocessor, hexprs, hctx, houtputOff'.trans houtputOff⟩

def InRange (T : Tidb γ) (b : Built γ) (pairs : List (Bytes × Bytes)) : Prop :=
  ∃ s err, b.1.scan T pairs b.2 = .ok (s, err) ∧ (err = none → ∃ r, b.1.finish T s = .ok r)

def Finishes (T : Tidb γ) (b : Built γ) (pairs : List (Bytes × Bytes)) : Prop :=
  ∃ s, b.1.scan T pairs b.2 = .ok (s, none)

def byHandle : PbExpr × ByItem := (.mk .columnRef [0] [], ⟨false⟩)

def topNHandles (n : ℕ) : Built Unit :=
  ({ columnInfos := [handleColumn], outputOff := [0]
     orderByExprs := List.replicate n fun row => .ok (row.getD 0 .null), processor := .topN },
    { scanCtx := { chk := [[]], decoder := handleExecutor.2.scanCtx.decoder }
      topNCtx := some { heap := TopNHeap.new (List.replicate n ⟨false⟩) 1, sortKey := [.null] } })

theorem sortsInRange_insertionSort (cmp : CompareDatum) :
    TopNHeap.SortsInRange cmp (TopNHeap.insertionSort cmp) :=
  fun t _ => ⟨_, t.err, rfl, perm_insertionSort _ _⟩

end ClosureExecutor

end TinyKV
