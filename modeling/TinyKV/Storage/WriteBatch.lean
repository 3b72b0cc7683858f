import TinyKV.Go
import TinyKV.Storage.EngineUtil

/-!
# Write batches

`WriteBatch` of `kv/util/engine_util/write_batch.go`: sets and deletions that are written in one
transaction.
-/

namespace TinyKV

open List

def Badger.updateTxn (commitErr : Option BadgerErr) (db : Badger)
    (f : Badger → Except BadgerErr Badger) : Badger × Option BadgerErr :=
  match f db, commitErr with
  | .error err, _ => (db, some err)
  | .ok _, some err => (db, some err)
  | .ok txn, none => (txn, none)

structure BadgerEntry where
  key : Bytes
  value : Bytes := []
deriving DecidableEq, Repr

structure WriteBatch where
  entries : List BadgerEntry := []
  size : ℕ := 0
  safePoint : ℕ := 0
  safePointSize : ℕ := 0
  safePointUndo : ℕ := 0
deriving DecidableEq, Repr

namespace WriteBatch

def setCF (wb : WriteBatch) (cf key val : Bytes) : WriteBatch :=
  { wb with
    entries := wb.entries ++ [{ key := keyWithCF cf key, value := val }]
    size := wb.size + (key.length + val.length) }

def deleteMeta (wb : WriteBatch) (key : Bytes) : WriteBatch :=
  { wb with
    entries := wb.entries ++ [{ key := key }]
    size := wb.size + key.length }

def deleteCF (wb : WriteBatch) (cf key : Bytes) : WriteBatch :=
  { wb with
    entries := wb.entries ++ [{ key := keyWithCF cf key }]
    size := wb.size + key.length }

def setMeta {ε : Type} (wb : WriteBatch) (key : Bytes) (marshalled : Except ε Bytes) :
    WriteBatch × Option ε :=
  match marshalled with
  | .error err => (wb, some err)
  | .ok val =>
    ({ wb with
      entries := wb.entries ++ [{ key := key, value := val }]
      size := wb.size + (key.length + val.length) }, none)

def setSafePoint (wb : WriteBatch) : WriteBatch :=
  { wb with safePoint := wb.entries.length, safePointSize := wb.size }

def rollbackToSafePoint (wb : WriteBatch) : Go WriteBatch := do
  let entries ← Go.slice wb.entries 0 wb.safePoint
  return { wb with entries := entries, size := wb.safePointSize }

def writeEntry (callErr : ℕ → Option BadgerErr) (txn : Badger) (entry : BadgerEntry × ℕ) :
    Except BadgerErr Badger :=
  match callErr entry.2 with
  | some err => .error err
  | none =>
    if entry.1.value.length = 0 then .ok (txn.delete entry.1.key)
    else .ok (txn.set entry.1.key entry.1.value)

def writeEntries (callErr : ℕ → Option BadgerErr) (txn : Badger) (entries : List BadgerEntry) :
    Except BadgerErr Badger :=
  entries.zipIdx.foldlM (writeEntry callErr) txn

def writeToDB (callErr : ℕ → Option BadgerErr) (commitErr : Option BadgerErr) (db : Badger)
    (wb : WriteBatch) : Badger × Option BadgerErr :=
  if 0 < wb.entries.length then
    db.updateTxn commitErr fun txn => writeEntries callErr txn wb.entries
  else (db, none)

end WriteBatch

/-- The errors that an engine returns while a batch is written. -/
structure WriteErrs where
  call : ℕ → Option BadgerErr := fun _ => none
  commit : Option BadgerErr := none

inductive BatchCall (ε : Type)
  | setCF (cf key val : Bytes)
  | deleteCF (cf key : Bytes)
  | setMeta (key : Bytes) (marshalled : Except ε Bytes)
  | deleteMeta (key : Bytes)
  | setSafePoint
  | rollbackToSafePoint

def BatchCall.operation {ε : Type} : BatchCall ε → List (Bytes × Option Bytes)
  | setCF cf key val => [(keyWithCF cf key, some val)]
  | deleteCF cf key => [(keyWithCF cf key, none)]
  | setMeta key (.ok val) => [(key, some val)]
  | setMeta _ (.error _) => []
  | deleteMeta key => [(key, none)]
  | setSafePoint | rollbackToSafePoint => []

namespace WriteBatch

variable {ε : Type}

def call (wb : WriteBatch) : BatchCall ε → Go WriteBatch
  | .setCF cf key val => .ok (wb.setCF cf key val)
  | .deleteCF cf key => .ok (wb.deleteCF cf key)
  | .setMeta key marshalled => .ok (wb.setMeta key marshalled).1
  | .deleteMeta key => .ok (wb.deleteMeta key)
  | .setSafePoint => .ok wb.setSafePoint
  | .rollbackToSafePoint => wb.rollbackToSafePoint

def build (calls : List (BatchCall ε)) : Go WriteBatch := calls.foldlM call {}

structure Pending where
  operations : List (Bytes × Option Bytes) := []
  safe : List (Bytes × Option Bytes) := []

def Pending.call (p : Pending) : BatchCall ε → Pending
  | .setSafePoint => { p with safe := p.operations }
  | .rollbackToSafePoint => { p with operations := p.safe }
  | c => { p with operations := p.operations ++ c.operation }

def operations (calls : List (BatchCall ε)) : List (Bytes × Option Bytes) :=
  (calls.foldl Pending.call {}).operations

def entryOf (w : Bytes × Option Bytes) : BadgerEntry := { key := w.1, value := w.2.getD [] }

/-- The batch has the entries of what is pending. -/
structure Represents (wb : WriteBatch) (p : Pending) : Prop where
  entries : wb.entries = p.operations.map entryOf
  safe : p.safe <+: p.operations
  safePoint : wb.safePoint = p.safe.length

theorem Represents.call {wb : WriteBatch} {p : Pending} (h : wb.Represents p) (c : BatchCall ε) :
    ∃ wb', wb.call c = .ok wb' ∧ wb'.Represents (p.call c) := by
  have hsafe : ∀ ws, p.safe <+: p.operations ++ ws :=
    fun ws => h.safe.trans (prefix_append _ _)
  cases c with
  | setCF cf key val =>
    exact ⟨_, rfl, by simp [setCF, Pending.call, BatchCall.operation, h.entries, entryOf], hsafe _,
      h.safePoint⟩
  | deleteCF cf key =>
    exact ⟨_, rfl, by simp [deleteCF, Pending.call, BatchCall.operation, h.entries, entryOf],
      hsafe _, h.safePoint⟩
  | setMeta key marshalled =>
    cases marshalled with
    | error err => exact ⟨_, rfl, by simp [setMeta, Pending.call, BatchCall.operation, h.entries],
        hsafe _, h.safePoint⟩
    | ok val => exact ⟨_, rfl, by simp [setMeta, Pending.call, BatchCall.operation, h.entries,
        entryOf], hsafe _, h.safePoint⟩
  | deleteMeta key =>
    exact ⟨_, rfl, by simp [deleteMeta, Pending.call, BatchCall.operation, h.entries, entryOf],
      hsafe _, h.safePoint⟩
  | setSafePoint =>
    exact ⟨_, rfl, h.entries, prefix_refl _, by simp [setSafePoint, Pending.call, h.entries]⟩
  | rollbackToSafePoint =>
    -- The safe point is not beyond the end of the list.
    have hle : wb.safePoint ≤ wb.entries.length := by
      rw [h.safePoint, h.entries, length_map]
      exact h.safe.length_le
    have htake : wb.entries.take wb.safePoint = p.safe.map entryOf := by
      rw [h.entries, h.safePoint, ← map_take, prefix_iff_eq_take.mp h.safe,
        length_take, Nat.min_eq_left h.safe.length_le]
    refine ⟨{ wb with entries := p.safe.map entryOf, size := wb.safePointSize }, ?_, rfl,
      prefix_refl _, h.safePoint⟩
    simp only [WriteBatch.call, rollbackToSafePoint, Go.slice_eq_ok (Nat.zero_le _) hle, htake,
      drop_zero, Go.ok_bind, Go.pure_eq_ok]

theorem build_represents (calls : List (BatchCall ε)) :
    ∃ wb, build calls = .ok wb ∧ wb.Represents (calls.foldl Pending.call {}) := by
  have hstart : Represents {} {} := ⟨rfl, prefix_refl _, rfl⟩
  unfold build
  generalize ({} : WriteBatch) = wb at hstart ⊢
  generalize ({} : Pending) = p at hstart ⊢
  induction calls generalizing wb p with
  | nil => exact ⟨wb, rfl, hstart⟩
  | cons c calls ih =>
    obtain ⟨wb', hcall, hrep⟩ := hstart.call c
    rw [foldlM_cons, hcall]
    exact ih wb' (p.call c) hrep

variable {callErr : ℕ → Option BadgerErr} {commitErr : Option BadgerErr} {db : Badger}

def nonempty (v : Option Bytes) : Option Bytes := v.filter fun val => val ≠ []

theorem nonempty_some {val : Bytes} (h : val ≠ []) : nonempty (some val) = some val := by
  simp [nonempty, Option.filter, h]

theorem writeEntry_eq_ok {w : Bytes × Option Bytes} {i : ℕ} (h : callErr i = none) :
    writeEntry callErr db (entryOf w, i) = .ok (db.write (w.1, nonempty w.2)) := by
  obtain ⟨key, _ | val⟩ := w
  · simp [writeEntry, h, entryOf, nonempty, Badger.write]
  · by_cases hval : val = []
    · subst hval
      simp only [writeEntry, h]
      rfl
    · rw [nonempty_some hval]
      simp [writeEntry, h, entryOf, Badger.write, hval]

variable {ws : List (Bytes × Option Bytes)}

theorem writeEntries_eq_ok (h : ∀ i < ws.length, callErr i = none) :
    writeEntries callErr db (ws.map entryOf) =
      .ok (db.writeAll (ws.map fun w => (w.1, nonempty w.2))) := by
  unfold writeEntries
  -- The positions may start anywhere.
  suffices hloop : ∀ n, (∀ i < ws.length, callErr (n + i) = none) →
      ((ws.map entryOf).zipIdx n).foldlM (writeEntry callErr) db =
        .ok (db.writeAll (ws.map fun w => (w.1, nonempty w.2))) from hloop 0 (by simpa using h)
  clear h
  induction ws generalizing db with
  | nil => exact fun n _ => rfl
  | cons w ws ih =>
    intro n hn
    have hrest : ∀ i < ws.length, callErr (n + 1 + i) = none := fun i hi => by
      rw [show n + 1 + i = n + (i + 1) by omega]
      exact hn (i + 1) (by simpa using hi)
    have hfirst : callErr n = none := hn 0 (Nat.succ_pos _)
    rw [map_cons, zipIdx_cons, foldlM_cons, writeEntry_eq_ok hfirst]
    exact ih (n + 1) hrest

theorem writeEntries_eq_error {entries : List BadgerEntry}
    (h : ∃ i < entries.length, callErr i ≠ none) :
    ∃ err, writeEntries callErr db entries = .error err := by
  obtain ⟨i, hi, hcall⟩ := h
  unfold writeEntries
  suffices hloop : ∀ n i, i < entries.length → callErr (n + i) ≠ none →
      ∃ err, (entries.zipIdx n).foldlM (writeEntry callErr) db = .error err from
    hloop 0 i hi (by rwa [Nat.zero_add])
  clear hi hcall i
  induction entries generalizing db with
  | nil => exact fun n i hi => absurd hi (Nat.not_lt_zero i)
  | cons entry entries ih =>
    intro n i hi hcall
    rw [zipIdx_cons, foldlM_cons]
    cases hbody : writeEntry callErr db (entry, n) with
    | error err => exact ⟨err, rfl⟩
    | ok txn =>
      -- The call of the first entry returns no error, so that it is one of the others.
      cases i with
      | zero =>
        obtain ⟨err, herr⟩ := Option.ne_none_iff_exists'.mp hcall
        rw [Nat.add_zero] at herr
        simp [writeEntry, herr] at hbody
      | succ i =>
        exact ih (n + 1) i (by simpa using hi) (by rwa [show n + 1 + i = n + (i + 1) by omega])

theorem writeToDB_eq_ok {wb : WriteBatch} (hentries : wb.entries = ws.map entryOf)
    (hcall : ∀ i < ws.length, callErr i = none) (hcommit : commitErr = none) :
    wb.writeToDB callErr commitErr db =
      (db.writeAll (ws.map fun w => (w.1, nonempty w.2)), none) := by
  unfold writeToDB
  split_ifs with hpos
  · rw [hentries]
    simp only [Badger.updateTxn, writeEntries_eq_ok hcall, hcommit]
  · rw [hentries, length_map, Nat.not_lt, Nat.le_zero, length_eq_zero_iff] at hpos
    rw [hpos]
    rfl

theorem writeToDB_of_error {wb : WriteBatch}
    (h : (∃ i < wb.entries.length, callErr i ≠ none) ∨ commitErr ≠ none) :
    (wb.writeToDB callErr commitErr db).1 = db ∧
      ((wb.writeToDB callErr commitErr db).2 = none → wb.entries = []) := by
  unfold writeToDB
  split_ifs with hpos
  · rcases h with hcall | hcommit
    · obtain ⟨err, herr⟩ := @writeEntries_eq_error callErr db _ hcall
      simp [Badger.updateTxn, herr]
    · obtain ⟨err, rfl⟩ := Option.ne_none_iff_exists'.mp hcommit
      cases htxn : writeEntries callErr db wb.entries <;> simp [Badger.updateTxn, htxn]
  · exact ⟨rfl, fun _ => length_eq_zero_iff.mp (Nat.le_zero.mp (Nat.not_lt.mp hpos))⟩

theorem writeToDB_of_success {wb : WriteBatch} (hentries : wb.entries = ws.map entryOf)
    (h : (wb.writeToDB callErr commitErr db).2 = none) :
    (wb.writeToDB callErr commitErr db).1 = db.writeAll (ws.map fun w => (w.1, nonempty w.2)) := by
  have hlength : wb.entries.length = ws.length := by rw [hentries, length_map]
  by_cases herr : (∃ i < wb.entries.length, callErr i ≠ none) ∨ commitErr ≠ none
  · obtain ⟨hsame, hempty⟩ := @writeToDB_of_error callErr commitErr db _ herr
    -- Nothing is called, so that there is nothing to write.
    rw [hempty h, length_nil, eq_comm, length_eq_zero_iff] at hlength
    rw [hsame, hlength]
    rfl
  · simp only [not_or, not_exists, not_and, not_not, hlength] at herr
    rw [writeToDB_eq_ok hentries herr.1 herr.2]

theorem writeToDB_succeeds (wb : WriteBatch) (db : Badger) :
    (wb.writeToDB (fun _ => none) none db).2 = none := by
  have hentries : wb.entries = (wb.entries.map fun e => (e.key, some e.value)).map entryOf := by
    rw [map_map]
    exact (map_id _).symm
  rw [writeToDB_eq_ok hentries (fun _ _ => rfl) rfl]

theorem entries_foldl_deleteMeta {α : Type} (f : α → Bytes) (xs : List α) (wb : WriteBatch) :
    (xs.foldl (fun wb x => wb.deleteMeta (f x)) wb).entries =
      wb.entries ++ xs.map fun x => { key := f x } := by
  induction xs generalizing wb with
  | nil => simp
  | cons x xs ih =>
    rw [foldl_cons, ih]
    simp [deleteMeta]

theorem find_writeToDB_deletes {wb : WriteBatch} {keys : List Bytes}
    (hentries : wb.entries = keys.map fun key => { key := key })
    (h : (wb.writeToDB callErr commitErr db).2 = none) (key : Bytes) :
    (wb.writeToDB callErr commitErr db).1.find key = if key ∈ keys then none else db.find key := by
  have hws : wb.entries = (keys.map fun key => (key, (none : Option Bytes))).map entryOf := by
    rw [hentries, map_map]
    rfl
  rw [writeToDB_of_success hws h, Badger.find_writeAll, map_map]
  split_ifs with hmem
  · refine Writes.valueAfter_of_forall (by simpa using hmem) fun w hw _ => ?_
    obtain ⟨_, _, rfl⟩ := mem_map.mp hw
    rfl
  · exact Writes.valueAfter_of_notMem (by simpa using hmem)

theorem writeAll_nonempty_iff :
    db.writeAll (ws.map fun w => (w.1, nonempty w.2)) = db.writeAll ws ↔
      ∀ key, Writes.last ws key ≠ some (some []) := by
  rw [Badger.writeAll_eq_iff]
  refine forall_congr' fun key => ?_
  unfold Writes.valueAfter
  rw [Writes.last_map]
  match Writes.last ws key with
  | none => simp
  | some none => simp [nonempty]
  | some (some []) => simp [nonempty, Option.filter]
  | some (some (b :: bs)) => simp [nonempty_some]

def Correct (callErr : ℕ → Option BadgerErr) (commitErr : Option BadgerErr) (db : Badger)
    (calls : List (BatchCall ε)) : Prop :=
  ∃ wb, build calls = .ok wb ∧
    ((wb.writeToDB callErr commitErr db).2 = none →
      (wb.writeToDB callErr commitErr db).1 = db.writeAll (operations calls)) ∧
    ((wb.writeToDB callErr commitErr db).2 ≠ none → (wb.writeToDB callErr commitErr db).1 = db)

/-- A batch does what it is for exactly if badger returns an error or no key is left with an empty
value. -/
theorem writeToDB_correct_iff (callErr : ℕ → Option BadgerErr) (commitErr : Option BadgerErr)
    (db : Badger) (calls : List (BatchCall ε)) :
    Correct callErr commitErr db calls ↔
      (∃ i < (operations calls).length, callErr i ≠ none) ∨ commitErr ≠ none ∨
        ∀ key, Writes.last (operations calls) key ≠ some (some []) := by
  obtain ⟨wb, hbuild, hrep⟩ := build_represents calls
  have hentries : wb.entries = (operations calls).map entryOf := hrep.entries
  have hcorrect : Correct callErr commitErr db calls ↔
      ((wb.writeToDB callErr commitErr db).2 = none →
        (wb.writeToDB callErr commitErr db).1 = db.writeAll (operations calls)) ∧
      ((wb.writeToDB callErr commitErr db).2 ≠ none →
        (wb.writeToDB callErr commitErr db).1 = db) := by
    simp only [Correct, hbuild, Except.ok.injEq, exists_eq_left']
  rw [hcorrect, ← or_assoc]
  by_cases herr : (∃ i < (operations calls).length, callErr i ≠ none) ∨ commitErr ≠ none
  · have hlength : (operations calls).length = wb.entries.length := by
      rw [hentries, length_map]
    obtain ⟨hsame, hempty⟩ := @writeToDB_of_error callErr commitErr db _ (hlength ▸ herr)
    refine iff_of_true ⟨fun hnone => ?_, fun _ => hsame⟩ (Or.inl herr)
    -- Nothing is called, so that nothing returns an error.
    rw [hempty hnone, length_nil, length_eq_zero_iff] at hlength
    rw [hsame, hlength]
    rfl
  · rw [or_iff_right herr]
    simp only [not_or, not_exists, not_and, not_not] at herr
    rw [writeToDB_eq_ok hentries herr.1 herr.2, ← @writeAll_nonempty_iff db]
    simp

theorem writeToDB_empty_value :
    ¬ Correct (fun _ => none) none Badger.empty
      [(.setCF Cf.default.name [107] [] : BatchCall Unit)] := by
  rintro ⟨wb, hbuild, hok, -⟩
  cases hbuild
  have hpairs := congrArg Badger.pairs (hok rfl)
  revert hpairs
  decide

end WriteBatch

end TinyKV
