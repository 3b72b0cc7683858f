import TinyKV.Machine
import TinyKV.Raft.LogBase

/-!
# What `MemoryStorage` is for

A `MemoryStorage` stands for a log of which a first part has been compacted (`CompactedLog`).
-/

namespace TinyKV

open List

inductive StorageCall
  | append (entries : List Entry)
  | compact (compactIndex : ℕ)
  | createSnapshot (i : ℕ) (cs : Option ConfState) (data : List UInt8)
  | applySnapshot (snap : Snapshot)
  | setHardState (st : HardState)
deriving DecidableEq, Repr

def MemoryStorage.call (ms : MemoryStorage) : StorageCall → Go MemoryStorage
  | .append entries => ms.append entries
  | .compact compactIndex => do
    let (ms, _) ← ms.compact compactIndex
    return ms
  | .createSnapshot i cs data => do
    let (ms, _, _) ← ms.createSnapshot i cs data
    return ms
  | .applySnapshot snap => return (ms.applySnapshot snap).1
  | .setHardState st => return ms.setHardState st

def MemoryStorage.after (calls : List StorageCall) : Go MemoryStorage :=
  calls.foldlM MemoryStorage.call newMemoryStorage

/-- A log of which a first part has been compacted. -/
structure CompactedLog where
  base : ℕ := 0
  baseTerm : ℕ := 0
  entries : List Entry := []
  snapshotIndex : ℕ := 0
deriving DecidableEq, Repr

namespace CompactedLog

def lastIndex (l : CompactedLog) : ℕ := l.base + l.entries.length

def termAt (l : CompactedLog) (i : ℕ) : Option ℕ :=
  if i < l.base then none
  else if i = l.base then some l.baseTerm
  else (l.entries[i - l.base - 1]?).map Entry.term

def term (l : CompactedLog) (i : ℕ) : ℕ × Option StorageError :=
  match l.termAt i with
  | some term => (term, none)
  | none => (0, some (if i < l.base then .errCompacted else .errUnavailable))

def slice (l : CompactedLog) (lo hi : ℕ) : List Entry :=
  l.entries.filter fun e => lo ≤ e.index ∧ e.index < hi

def append (l : CompactedLog) (entries : List Entry) : CompactedLog :=
  match entries.filter fun e => l.base < e.index with
  | [] => l
  | e :: es => { l with entries := (l.entries.filter fun d => d.index < e.index) ++ e :: es }

def compact (l : CompactedLog) (i : ℕ) : CompactedLog :=
  if i ≤ l.base then l
  else { l with
    base := i
    baseTerm := (l.termAt i).getD 0
    entries := l.entries.filter fun e => i < e.index }

def applySnapshot (l : CompactedLog) (snap : Snapshot) : CompactedLog :=
  if snap.metadata.index ≤ l.snapshotIndex then l
  else
    { base := snap.metadata.index
      baseTerm := snap.metadata.term
      snapshotIndex := snap.metadata.index }

def call (l : CompactedLog) : StorageCall → CompactedLog
  | .append entries => l.append entries
  | .compact compactIndex => l.compact compactIndex
  | .createSnapshot i _ _ => { l with snapshotIndex := max l.snapshotIndex i }
  | .applySnapshot snap => l.applySnapshot snap
  | .setHardState _ => l

def Allows (l : CompactedLog) : StorageCall → Prop
  | .append [] => True
  | .append (e :: es) => ConsecutiveFrom e.index es ∧ e.index ≤ l.lastIndex + 1
  | .compact compactIndex => compactIndex ≤ l.lastIndex
  | .createSnapshot i _ _ => i ≤ l.lastIndex
  | .applySnapshot _ => True
  | .setHardState _ => True

instance decidableAllows (l : CompactedLog) : (c : StorageCall) → Decidable (l.Allows c)
  | .append [] => isTrue trivial
  | .append (_ :: _) => inferInstanceAs (Decidable (_ ∧ _))
  | .compact _ => inferInstanceAs (Decidable (_ ≤ _))
  | .createSnapshot _ _ _ => inferInstanceAs (Decidable (_ ≤ _))
  | .applySnapshot _ => isTrue trivial
  | .setHardState _ => isTrue trivial

def Fits (l : CompactedLog) : Prop := l.entries.length < maxInt ∧ l.lastIndex + 1 < 2^64

instance decidableFits (l : CompactedLog) : Decidable l.Fits := inferInstanceAs (Decidable (_ ∧ _))

def machine : Machine CompactedLog StorageCall where
  step l c := if l.Allows c ∧ (l.call c).Fits then some (l.call c) else none

def Snapshots (l : CompactedLog) : StorageCall → Prop
  | .createSnapshot i _ _ => i ≤ l.snapshotIndex ∨ l.base ≤ i
  | _ => True

instance decidableSnapshots (l : CompactedLog) : (c : StorageCall) → Decidable (l.Snapshots c)
  | .createSnapshot _ _ _ => inferInstanceAs (Decidable (_ ∨ _))
  | .append _ | .compact _ | .applySnapshot _ | .setHardState _ => isTrue trivial

end CompactedLog

section Parts

variable {p : ℕ} {es : List Entry}

theorem ConsecutiveFrom.filter_index_lt (h : ConsecutiveFrom p es) (i : ℕ) :
    (es.filter fun e => e.index < i) = es.take (i - p - 1) := by
  induction es generalizing p with
  | nil => simp
  | cons e es ih =>
    obtain ⟨he, hes⟩ := consecutiveFrom_cons.mp h
    rcases Nat.lt_or_ge (p + 1) i with hlt | hge
    · rw [filter_cons_of_pos (by simp; omega), ih hes,
        show i - p - 1 = (i - (p + 1) - 1) + 1 by omega, take_succ_cons]
    · rw [filter_cons_of_neg (by simp; omega), ih hes, show i - p - 1 = 0 by omega,
        show i - (p + 1) - 1 = 0 by omega, take_zero, take_zero]

theorem ConsecutiveFrom.filter_lt_index_cons {e : Entry} (h : ConsecutiveFrom e.index es) (i : ℕ) :
    ((e :: es).filter fun d => i < d.index) = (e :: es).drop (i + 1 - e.index) := by
  rcases Nat.lt_or_ge i e.index with hlt | hge
  · rw [filter_cons_of_pos (by simpa using hlt), h.filter_lt_index,
      show i - e.index = 0 by omega, show i + 1 - e.index = 0 by omega, drop_zero,
      drop_zero]
  · rw [filter_cons_of_neg (by simpa using hge), h.filter_lt_index,
      show i + 1 - e.index = (i - e.index) + 1 by omega, drop_succ_cons]

theorem ConsecutiveFrom.exists_drop_cons {e : Entry} (h : ConsecutiveFrom e.index es) {i : ℕ}
    (hi : i < e.index + (es.length + 1) - 1) :
    ∃ d ds, (e :: es).drop (i + 1 - e.index) = d :: ds ∧ d.index = max e.index (i + 1) ∧
      ConsecutiveFrom d.index ds := by
  rcases Nat.lt_or_ge i e.index with hlt | hge
  · refine ⟨e, es, ?_, (max_eq_left hlt).symm, h⟩
    rw [show i + 1 - e.index = 0 by omega, drop_zero]
  · have hdrop := h.drop (i - e.index)
    rw [show e.index + (i - e.index) = i by omega] at hdrop
    cases hds : es.drop (i - e.index) with
    | nil =>
      have := drop_eq_nil_iff.mp hds
      omega
    | cons d ds =>
      rw [hds, consecutiveFrom_cons] at hdrop
      refine ⟨d, ds, ?_, ?_, hdrop.1 ▸ hdrop.2⟩
      · rw [show i + 1 - e.index = (i - e.index) + 1 by omega, drop_succ_cons, hds]
      · rw [hdrop.1, max_eq_right (by omega)]

theorem CompactedLog.slice_eq (l : CompactedLog) (h : ConsecutiveFrom l.base l.entries) {lo : ℕ}
    (hlo : 0 < lo) (hi : ℕ) :
    l.slice lo hi = (l.entries.take (hi - l.base - 1)).drop (lo - l.base - 1) := by
  have hfilter := (h.take (hi - l.base - 1)).filter_lt_index (lo - 1)
  rw [show lo - 1 - l.base = lo - l.base - 1 by omega, ← h.filter_index_lt,
    filter_filter] at hfilter
  rw [← h.filter_index_lt, ← hfilter]
  refine filter_congr fun e _ => ?_
  rw [Bool.eq_iff_iff]
  simp
  omega

end Parts

namespace MemoryStorage

variable {ms : MemoryStorage} {l : CompactedLog}

structure Represents (ms : MemoryStorage) (l : CompactedLog) : Prop where
  ents : ms.ents = { index := l.base, term := l.baseTerm } :: l.entries
  snapshot : ms.snapshot.metadata.index = l.snapshotIndex
  consecutive : ConsecutiveFrom l.base l.entries
  fits : l.Fits

namespace Represents

variable (h : ms.Represents l)
include h

theorem dummy : Go.index ms.ents 0 = .ok { index := l.base, term := l.baseTerm } := by
  rw [h.ents]
  rfl

theorem length_ents : ms.ents.length = l.entries.length + 1 := by
  rw [h.ents, length_cons]

theorem firstIndex_eq : ms.firstIndex = .ok (l.base + 1) := by
  rw [firstIndex, h.dummy]
  rfl

theorem lastIndex_eq : ms.lastIndex = .ok l.lastIndex := by
  rw [lastIndex, h.dummy, Go.ok_bind, h.length_ents, sub64_of_le (by simp; omega)]
  rfl

variable {i : ℕ}

theorem term_eq (hi : i < l.base + 2^63) : ms.term i = .ok (l.term i) := by
  unfold term CompactedLog.term CompactedLog.termAt
  rw [h.dummy, Go.ok_bind, h.length_ents]
  by_cases hbelow : i < l.base
  · simp [hbelow]
  · have hint : toInt (i - l.base) = ((i - l.base : ℕ) : ℤ) := if_pos (by omega)
    simp only [hbelow, if_false]
    rw [sub64_of_le (by omega), hint]
    rcases Nat.lt_or_ge l.lastIndex i with habove | hle
    · -- The position is beyond the log.
      unfold CompactedLog.lastIndex at habove
      rw [if_pos (by omega), if_neg (by omega), getElem?_eq_none (by omega)]
      rfl
    · unfold CompactedLog.lastIndex at hle
      rw [if_neg (by omega), h.ents]
      obtain hbase | ⟨k, rfl⟩ : i = l.base ∨ ∃ k, i = l.base + k + 1 := by
        rcases Nat.eq_or_lt_of_le (Nat.not_lt.mp hbelow) with heq | hlt
        · exact Or.inl heq.symm
        · exact Or.inr ⟨i - l.base - 1, by omega⟩
      · rw [if_pos hbase, hbase, Nat.sub_self]
        rfl
      · have hk : k < l.entries.length := by omega
        rw [if_neg (by omega), show l.base + k + 1 - l.base = k + 1 by omega, Nat.add_sub_cancel,
          getElem?_eq_getElem hk, Go.index_eq_ok (x := l.entries[k]) (by simp [hk])]
        rfl

theorem term_panics (hfar : l.base + 2^63 ≤ i) (hi : i < 2^64) :
    ms.term i = .error .indexOutOfRange := by
  obtain ⟨hlength, -⟩ := h.fits
  have hint : toInt (i - l.base) = ((i - l.base : ℕ) : ℤ) - 2^64 := if_neg (by omega)
  have hindex : Go.index ms.ents (i - l.base) = .error .indexOutOfRange := by
    unfold maxInt at hlength
    rw [Go.index, getElem?_eq_none (by rw [h.length_ents]; omega)]
  unfold term
  rw [h.dummy, Go.ok_bind, if_neg (by simp; omega), sub64_of_le (by simp; omega), hint,
    if_neg (by omega), hindex]
  rfl

theorem entries_eq {lo hi : ℕ} (hlo : l.base + 1 ≤ lo) (hle : lo ≤ hi)
    (hhi : hi ≤ l.lastIndex + 1) : ms.entries lo hi = .ok (l.slice lo hi, none) := by
  have hlength := h.length_ents
  have hslice := l.slice_eq h.consecutive (show 0 < lo by omega) hi
  unfold CompactedLog.lastIndex at hhi
  have hents : (ms.ents.take (hi - l.base)).drop (lo - l.base) = l.slice lo hi := by
    rw [hslice, h.ents, show hi - l.base = (hi - l.base - 1) + 1 by omega, take_succ_cons,
      show lo - l.base = (lo - l.base - 1) + 1 by omega, drop_succ_cons]
    rfl
  unfold entries
  rw [h.dummy, Go.ok_bind, if_neg (by simp; omega), h.lastIndex_eq, Go.ok_bind,
    if_neg (by unfold CompactedLog.lastIndex; omega), sub64_of_le (by simp; omega),
    sub64_of_le (by simp; omega)]
  rw [Go.slice_eq_ok (by simp; omega) (by simp; omega), Go.ok_bind, hents, if_neg]
  · rfl
  · -- Without entries, only the empty part is asked for.
    rintro ⟨hone, hne⟩
    have hnil : l.entries = [] := length_eq_zero_iff.mp (by omega)
    exact hne (by simp [CompactedLog.slice, hnil])

theorem splice {d : Entry} {ds : List Entry} (hbase : l.base < d.index)
    (hgap : d.index ≤ l.lastIndex + 1) :
    (do
      let e ← Go.index (d :: ds) 0
      let dummy ← Go.index ms.ents 0
      let offset := sub64 e.index dummy.index
      if offset < ms.ents.length then
        let kept ← Go.slice ms.ents 0 offset
        return { ms with ents := kept ++ (d :: ds) }
      else if ms.ents.length = offset then
        return { ms with ents := ms.ents ++ (d :: ds) }
      else
        let lastIndex ← ms.lastIndex
        throw (.text s!"missing log entry [last: {lastIndex}, append at: {e.index}]")) =
      (.ok { ms with ents := { index := l.base, term := l.baseTerm } ::
        (l.entries.filter (fun e => e.index < d.index) ++ d :: ds) } : Go MemoryStorage) := by
  unfold CompactedLog.lastIndex at hgap
  have hkept := h.consecutive.filter_index_lt d.index
  have htake : ms.ents.take (d.index - l.base) =
      { index := l.base, term := l.baseTerm } ::
        l.entries.filter fun e => e.index < d.index := by
    rw [h.ents, hkept, show d.index - l.base = (d.index - l.base - 1) + 1 by omega,
      take_succ_cons]
    rfl
  have hlength := h.length_ents
  simp only [show Go.index (d :: ds) 0 = .ok d from rfl, h.dummy, Go.ok_bind,
    sub64_of_le hbase.le]
  split_ifs with hlt heq
  · rw [Go.slice_eq_ok (Nat.zero_le _) hlt.le, htake]
    rfl
  · rw [← heq, take_length] at htake
    rw [htake]
    rfl
  · omega

theorem append {es : List Entry} (hallow : l.Allows (.append es)) (hfits : (l.append es).Fits) :
    ∃ ms', ms.append es = .ok ms' ∧ ms'.Represents (l.append es) := by
  cases es with
  | nil => exact ⟨ms, rfl, h⟩
  | cons e es =>
    obtain ⟨hes, hgap⟩ := hallow
    unfold CompactedLog.append at hfits ⊢
    unfold MemoryStorage.append
    rw [hes.filter_lt_index_cons l.base] at hfits ⊢
    simp only [h.firstIndex_eq, Go.ok_bind]
    rw [sub64_of_le (by simp; omega), length_cons]
    by_cases hlast : e.index + (es.length + 1) - 1 < l.base + 1
    · -- Nothing is left of the batch.
      rw [drop_eq_nil_of_le (by simp; omega), if_pos hlast]
      exact ⟨ms, rfl, h⟩
    · obtain ⟨d, ds, hdrop, hindex, hds⟩ := hes.exists_drop_cons (i := l.base) (by omega)
      rw [hdrop] at hfits ⊢
      have hle : d.index ≤ l.lastIndex + 1 := by
        rw [hindex]
        exact max_le hgap (by unfold CompactedLog.lastIndex; omega)
      have hlt : l.base < d.index := hindex ▸ le_max_right e.index (l.base + 1)
      have hsplice := @splice ms l h d ds hlt hle
      refine ⟨{ ms with ents := { index := l.base, term := l.baseTerm } ::
        (l.entries.filter (fun e => e.index < d.index) ++ d :: ds) }, ?_, rfl, h.snapshot, ?_,
        hfits⟩
      · rw [if_neg hlast]
        split_ifs with hbelow
        · rw [sub64_of_le (by omega), Go.slice_eq_ok (by omega) (by simp),
            take_of_length_le (by simp), hdrop]
          exact hsplice
        · rw [show l.base + 1 - e.index = 0 by omega, drop_zero] at hdrop
          rw [hdrop]
          exact hsplice
      · -- The entries are numbered on from those that are kept.
        have hnumber : d.index = l.base + (l.entries.take (d.index - l.base - 1)).length + 1 := by
          unfold CompactedLog.lastIndex at hle
          rw [length_take]
          omega
        simp only [h.consecutive.filter_index_lt d.index]
        exact (h.consecutive.take _).append (consecutiveFrom_cons.mpr ⟨hnumber, hnumber ▸ hds⟩)

theorem index_ents {k : ℕ} (hk : k < l.entries.length) :
    Go.index ms.ents (k + 1) = .ok (l.entries.get ⟨k, hk⟩) := by
  refine Go.index_eq_ok ?_
  simp [h.ents, hk]

theorem compact (hi : i ≤ l.lastIndex) :
    ∃ ms' err, ms.compact i = .ok (ms', err) ∧ ms'.Represents (l.compact i) := by
  unfold MemoryStorage.compact CompactedLog.compact
  rw [h.dummy, Go.ok_bind]
  by_cases hbase : i ≤ l.base
  · rw [if_pos hbase, if_pos hbase]
    exact ⟨ms, _, rfl, h⟩
  · rw [if_neg hbase, if_neg hbase, h.lastIndex_eq, Go.ok_bind, if_neg (not_lt.mpr hi),
      sub64_of_le (by simp; omega), h.length_ents]
    obtain ⟨k, rfl⟩ : ∃ k, i = l.base + k + 1 := ⟨i - l.base - 1, by omega⟩
    unfold CompactedLog.lastIndex at hi
    have hk : k < l.entries.length := by omega
    have hindex : (l.entries.get ⟨k, hk⟩).index = l.base + k + 1 :=
      h.consecutive k _ (getElem?_eq_getElem hk)
    have hterm : l.termAt (l.base + k + 1) = some (l.entries.get ⟨k, hk⟩).term := by
      unfold CompactedLog.termAt
      rw [if_neg (by omega), if_neg (by omega), show l.base + k + 1 - l.base - 1 = k by omega,
        getElem?_eq_getElem hk]
      rfl
    have hdrop := h.consecutive.filter_lt_index (l.base + k + 1)
    rw [show l.base + k + 1 - l.base = k + 1 by omega] at hdrop ⊢
    have hrest : Go.slice ms.ents (k + 1 + 1) (l.entries.length + 1) =
        .ok (l.entries.filter fun e => l.base + k + 1 < e.index) := by
      rw [Go.slice_eq_ok (by omega) h.length_ents.ge, ← h.length_ents, take_length, h.ents,
        drop_succ_cons, hdrop]
    simp only [h.index_ents hk, Go.ok_bind, hrest, hterm]
    refine ⟨_, none, rfl, ?_, h.snapshot, ?_, ?_⟩
    · rw [hindex]
      rfl
    · simp only [hdrop]
      exact h.consecutive.drop (k + 1)
    · obtain ⟨hlength, hlast⟩ := h.fits
      unfold CompactedLog.lastIndex at hlast
      simp only [CompactedLog.Fits, CompactedLog.lastIndex, hdrop, length_drop]
      omega

theorem createSnapshot (cs : Option ConfState) (data : List UInt8)
    (hi : i ≤ l.lastIndex) (hsnap : i ≤ l.snapshotIndex ∨ l.base ≤ i) :
    ∃ ms' snap err, ms.createSnapshot i cs data = .ok (ms', snap, err) ∧
      ms'.Represents { l with snapshotIndex := max l.snapshotIndex i } := by
  unfold MemoryStorage.createSnapshot
  rw [h.snapshot]
  by_cases hold : i ≤ l.snapshotIndex
  · rw [if_pos hold, max_eq_left hold]
    exact ⟨ms, _, _, rfl, h⟩
  · have hbase : l.base ≤ i := hsnap.resolve_left hold
    rw [if_neg hold, h.dummy, Go.ok_bind, h.lastIndex_eq, Go.ok_bind, if_neg (not_lt.mpr hi),
      sub64_of_le hbase, max_eq_right (not_le.mp hold).le]
    have hlt : i - l.base < ms.ents.length := by
      unfold CompactedLog.lastIndex at hi
      rw [h.length_ents]
      omega
    rw [Go.index_eq_ok (getElem?_eq_getElem hlt), Go.ok_bind]
    exact ⟨_, _, none, rfl, h.ents, rfl, h.consecutive, h.fits⟩

theorem createSnapshot_panics (cs : Option ConfState)
    (data : List UInt8) (hsnap : l.snapshotIndex < i) (hbase : i < l.base) :
    ms.createSnapshot i cs data = .error .indexOutOfRange := by
  obtain ⟨-, hlast⟩ := h.fits
  unfold CompactedLog.lastIndex at hlast
  have hindex : Go.index ms.ents (i + 2^64 - l.base) = .error .indexOutOfRange := by
    rw [Go.index, getElem?_eq_none (by rw [h.length_ents]; omega)]
  unfold MemoryStorage.createSnapshot
  rw [h.snapshot, if_neg (not_le.mpr hsnap), h.dummy, Go.ok_bind, h.lastIndex_eq, Go.ok_bind,
    if_neg (by unfold CompactedLog.lastIndex; omega), sub64_of_lt hbase, hindex]
  rfl

theorem applySnapshot {snap : Snapshot} (hfits : (l.applySnapshot snap).Fits) :
    (ms.applySnapshot snap).1.Represents (l.applySnapshot snap) := by
  unfold MemoryStorage.applySnapshot
  unfold CompactedLog.applySnapshot at hfits ⊢
  rw [h.snapshot]
  split_ifs at hfits ⊢ with hold
  · exact h
  · exact ⟨rfl, rfl, consecutiveFrom_nil _, hfits⟩

theorem call {c : StorageCall} (hallow : l.Allows c) (hfits : (l.call c).Fits) :
    (l.Snapshots c → ∃ ms', ms.call c = .ok ms' ∧ ms'.Represents (l.call c)) ∧
      (¬ l.Snapshots c → ms.call c = .error .indexOutOfRange) := by
  cases c with
  | append es => exact ⟨fun _ => h.append hallow hfits, fun hsnap => absurd trivial hsnap⟩
  | compact i =>
    refine ⟨fun _ => ?_, fun hsnap => absurd trivial hsnap⟩
    obtain ⟨ms', err, hcompact, hms'⟩ := h.compact hallow
    exact ⟨ms', by rw [MemoryStorage.call, hcompact]; rfl, hms'⟩
  | createSnapshot i cs data =>
    constructor
    · intro hsnap
      obtain ⟨ms', snap, err, hcreate, hms'⟩ := h.createSnapshot cs data hallow hsnap
      exact ⟨ms', by rw [MemoryStorage.call, hcreate]; rfl, hms'⟩
    · intro hsnap
      obtain ⟨hnew, hbelow⟩ := not_or.mp hsnap
      rw [MemoryStorage.call, h.createSnapshot_panics cs data (not_le.mp hnew) (not_le.mp hbelow)]
      rfl
  | applySnapshot snap =>
    exact ⟨fun _ => ⟨_, rfl, h.applySnapshot hfits⟩, fun hsnap => absurd trivial hsnap⟩
  | setHardState st =>
    exact ⟨fun _ => ⟨_, rfl, h.ents, h.snapshot, h.consecutive, h.fits⟩,
      fun hsnap => absurd trivial hsnap⟩

end Represents

structure Answers (ms : MemoryStorage) (l : CompactedLog) : Prop where
  consecutive : ∀ k e, ms.ents[k]? = some e → e.index = l.base + k
  firstIndex : ms.firstIndex = .ok (l.base + 1)
  lastIndex : ms.lastIndex = .ok l.lastIndex
  term : ∀ i < l.base + 2^63, ms.term i = .ok (l.term i)
  term_far : ∀ i < 2^64, l.base + 2^63 ≤ i → ms.term i = .error .indexOutOfRange
  entries : ∀ lo hi, l.base + 1 ≤ lo → lo ≤ hi → hi ≤ l.lastIndex + 1 →
    ms.entries lo hi = .ok (l.slice lo hi, none)

theorem Represents.answers (h : ms.Represents l) : ms.Answers l where
  consecutive := by
    intro k e hk
    rw [h.ents] at hk
    cases k with
    | zero =>
      cases hk
      rfl
    | succ k => exact h.consecutive k e hk
  firstIndex := h.firstIndex_eq
  lastIndex := h.lastIndex_eq
  term _ hi := h.term_eq hi
  term_far _ hi hfar := h.term_panics hfar hi
  entries _ _ hlo hle hhi := h.entries_eq hlo hle hhi

theorem Represents.run {calls : List StorageCall} {l' : CompactedLog} (h : ms.Represents l)
    (hrun : CompactedLog.machine.run l calls = some l') :
    (CompactedLog.machine.Along (fun l c _ => l.Snapshots c) l calls →
      ∃ ms', calls.foldlM MemoryStorage.call ms = .ok ms' ∧ ms'.Represents l') ∧
    (¬ CompactedLog.machine.Along (fun l c _ => l.Snapshots c) l calls →
      calls.foldlM MemoryStorage.call ms = .error .indexOutOfRange) := by
  induction calls generalizing ms l with
  | nil =>
    obtain rfl : l = l' := Option.some.inj hrun
    exact ⟨fun _ => ⟨ms, rfl, h⟩, fun hnot => absurd Machine.along_nil hnot⟩
  | cons c calls ih =>
    obtain ⟨l₁, hstep, hrun⟩ := Machine.run_cons.mp hrun
    have halong : CompactedLog.machine.Along (fun l c _ => l.Snapshots c) l (c :: calls) ↔
        l.Snapshots c ∧ CompactedLog.machine.Along (fun l c _ => l.Snapshots c) l₁ calls := by
      rw [Machine.along_cons]
      simp [hstep]
    obtain ⟨hallow, rfl⟩ : (l.Allows c ∧ (l.call c).Fits) ∧ l.call c = l₁ := by
      simpa [CompactedLog.machine] using hstep
    obtain ⟨hreturns, hpanics⟩ := h.call hallow.1 hallow.2
    rw [halong, foldlM_cons]
    -- The first call that is not of the kind ends the run, whatever comes after it.
    by_cases hsnap : l.Snapshots c
    · obtain ⟨ms', hcall, hms'⟩ := hreturns hsnap
      rw [hcall, Go.ok_bind, and_iff_right hsnap]
      exact ih hms' hrun
    · rw [hpanics hsnap]
      exact ⟨fun hboth => absurd hboth.1 hsnap, fun _ => rfl⟩

/-- After allowed calls a storage stands for the log that the calls lead to, as long as no call
makes a snapshot at a position that has been compacted away. The first call that does so reaches
below the slice. -/
theorem refines_compactedLog (calls : List StorageCall) (l : CompactedLog)
    (hrun : CompactedLog.machine.run {} calls = some l) :
    (CompactedLog.machine.Along (fun l c _ => l.Snapshots c) {} calls →
      ∃ ms, after calls = .ok ms ∧ ms.Answers l) ∧
    (¬ CompactedLog.machine.Along (fun l c _ => l.Snapshots c) {} calls →
      after calls = .error .indexOutOfRange) := by
  have hnew : newMemoryStorage.Represents {} := ⟨rfl, rfl, consecutiveFrom_nil 0, by decide⟩
  obtain ⟨hreturns, hpanics⟩ := hnew.run hrun
  refine ⟨fun halong => ?_, hpanics⟩
  obtain ⟨ms, hafter, hms⟩ := hreturns halong
  exact ⟨ms, hafter, hms.answers⟩

def appendAndCompact : List StorageCall :=
  [.append [{ term := 1, index := 1 }, { term := 1, index := 2 }, { term := 1, index := 3 }],
    .createSnapshot 2 none [7], .compact 2,
    .append [{ term := 1, index := 2 }, { term := 2, index := 3 }, { term := 2, index := 4 }]]

theorem refines_appendAndCompact : ∃ ms, after appendAndCompact = .ok ms ∧
    ms.Answers
      { base := 2
        baseTerm := 1
        entries := [{ term := 2, index := 3 }, { term := 2, index := 4 }]
        snapshotIndex := 2 } :=
  (refines_compactedLog appendAndCompact _ (by decide)).1 (by decide)

theorem createSnapshot_after_compact :
    CompactedLog.machine.run {} [.append [{ term := 1, index := 1 }, { term := 1, index := 2 }],
        .compact 2, .createSnapshot 1 none []] =
      some { base := 2, baseTerm := 1, snapshotIndex := 1 } ∧
    after [.append [{ term := 1, index := 1 }, { term := 1, index := 2 }], .compact 2,
      .createSnapshot 1 none []] = .error .indexOutOfRange := by
  decide

end MemoryStorage

end TinyKV
