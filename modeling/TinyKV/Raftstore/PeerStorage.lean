import TinyKV.Raft.StorageSpec
import TinyKV.Raftstore.Keys
import TinyKV.Storage.RegionReader

/-!
# The storage of a peer

`PeerStorage` of `kv/raftstore/peer_storage.go`: the raft log of a region in the raft engine, which
it shares with other regions.
-/

namespace TinyKV

open List

inductive PeerStorageError
  | raft (err : StorageError)
  | errorf (msg : String)
  | badger (err : BadgerErr)
  | unmarshal
deriving DecidableEq, Repr

/-- `RaftLocalState`, of which only the end of the log is used. -/
structure RaftLocalState where
  lastIndex : UInt64 := 0
  lastTerm : ℕ := 0
deriving DecidableEq, Repr

structure RaftTruncatedState where
  index : UInt64 := 0
  term : ℕ := 0
deriving DecidableEq, Repr

structure PeerRegion extends Region where
  id : UInt64 := 0
  peers : ℕ := 0
deriving DecidableEq, Repr

structure PeerStorage where
  region : PeerRegion
  raftState : RaftLocalState
  truncatedState : RaftTruncatedState
  raft : Badger

namespace PeerStorage

def truncatedIndex (ps : PeerStorage) : UInt64 := ps.truncatedState.index

def truncatedTerm (ps : PeerStorage) : ℕ := ps.truncatedState.term

def checkRange (ps : PeerStorage) (low high : UInt64) : Option PeerStorageError :=
  if low > high then some (.errorf s!"low {low} is greater than high {high}")
  else if low ≤ ps.truncatedIndex then some (.raft .errCompacted)
  else if high > ps.raftState.lastIndex + 1 then
    some (.errorf
      s!"entries' high {high} is out of bound, lastIndex {ps.raftState.lastIndex}")
  else none

section

variable (unmarshal : Bytes → Option Entry)

def entriesLoop (endKey : Bytes) :
    List (Bytes × Bytes) → UInt64 → List Entry → Go (Except PeerStorageError (List Entry))
  | [], _, buf => return .ok buf
  | (key, val) :: items, nextIndex, buf =>
    if endKey ≤ key then return .ok buf
    else
      match unmarshal val with
      | none => return .error .unmarshal
      | some entry =>
        -- May meet gap or has been compacted.
        if entry.index ≠ nextIndex.toNat then return .ok buf
        else do
          let buf ← Go.append buf [entry]
          entriesLoop endKey items (nextIndex + 1) buf

def entries (ps : PeerStorage) (low high : UInt64) :
    Go (Except PeerStorageError (List Entry)) := do
  match ps.checkRange low high with
  | some err => return .error err
  | none =>
    if low = high then return .ok []
    else
      let buf ← Go.make (high - low).toNat
      let startKey := raftLogKey ps.region.id low
      let endKey := raftLogKey ps.region.id high
      let items := OrderedList.ascendGreaterOrEqual Prod.fst startKey ps.raft.pairs
      match ← entriesLoop unmarshal endKey items low buf with
      | .error err => return .error err
      | .ok buf =>
        if (buf.length : ℤ) = toInt (high - low).toNat then return .ok buf
        else return .error (.raft .errUnavailable)

def getMeta (engine : Badger) (key : Bytes) : Except PeerStorageError Entry :=
  match engine.get key with
  | .error err => .error (.badger err)
  | .ok val =>
    match unmarshal val with
    | none => .error .unmarshal
    | some entry => .ok entry

def term (ps : PeerStorage) (idx : UInt64) : Except PeerStorageError ℕ :=
  if idx = ps.truncatedIndex then .ok ps.truncatedTerm
  else
    match ps.checkRange idx (idx + 1) with
    | some err => .error err
    | none =>
      if ps.truncatedTerm = ps.raftState.lastTerm ∨ idx = ps.raftState.lastIndex then
        .ok ps.raftState.lastTerm
      else
        match getMeta unmarshal ps.raft (raftLogKey ps.region.id idx) with
        | .error err => .error err
        | .ok entry => .ok entry.term

end

structure Holds (unmarshal : Bytes → Option Entry) (ps : PeerStorage) (l : CompactedLog) :
    Prop where
  base : ps.truncatedIndex.toNat = l.base
  baseTerm : ps.truncatedTerm = l.baseTerm
  lastIndex : ps.raftState.lastIndex.toNat = l.lastIndex
  lastIndex_lt : l.lastIndex < 2^64 - 1
  consecutive : ConsecutiveFrom l.base l.entries
  terms : (l.baseTerm :: l.entries.map Entry.term).Pairwise (· ≤ ·)
  lastTerm : (l.baseTerm :: l.entries.map Entry.term).getLast? = some ps.raftState.lastTerm
  stored : ∀ e ∈ l.entries, ∃ val,
    ps.raft.find (raftLogKey ps.region.id (UInt64.ofNat e.index)) = some val ∧
      unmarshal val = some e
  keys : ∀ p ∈ ps.raft.pairs, makeRegionPrefix ps.region.id raftLogSuffix <+: p.1 →
    p.1.length = regionRaftLogLen

variable {unmarshal : Bytes → Option Entry} {ps : PeerStorage} {l : CompactedLog}

theorem toNat_add_one {i : UInt64} (h : i.toNat < 2^64 - 1) : (i + 1).toNat = i.toNat + 1 := by
  rw [UInt64.toNat_add, UInt64.toNat_one, Nat.mod_eq_of_lt (by omega)]

section

variable (h : Holds unmarshal ps l)
include h

variable {low high : UInt64}

theorem Holds.checkRange_eq_none :
    ps.checkRange low high = none ↔
      ps.truncatedIndex < low ∧ low ≤ high ∧ high.toNat ≤ l.lastIndex + 1 := by
  have hlast : (ps.raftState.lastIndex + 1).toNat = l.lastIndex + 1 := by
    rw [toNat_add_one (h.lastIndex ▸ h.lastIndex_lt), h.lastIndex]
  unfold checkRange
  simp only [gt_iff_lt, UInt64.lt_iff_toNat_lt, UInt64.le_iff_toNat_le, hlast]
  split_ifs <;> simp <;> omega

theorem Holds.term_bounds {e : Entry} (he : e ∈ l.entries) :
    ps.truncatedTerm ≤ e.term ∧ e.term ≤ ps.raftState.lastTerm := by
  have hmem : e.term ∈ l.entries.map Entry.term := mem_map_of_mem he
  refine ⟨h.baseTerm ▸ rel_of_pairwise_cons h.terms hmem, ?_⟩
  obtain ⟨front, hfront⟩ := getLast?_eq_some_iff.mp h.lastTerm
  have hterms := hfront ▸ h.terms
  have hmem' : e.term ∈ front ++ [ps.raftState.lastTerm] :=
    hfront ▸ mem_cons_of_mem l.baseTerm hmem
  rcases mem_append.mp hmem' with hin | hin
  · exact (pairwise_append.mp hterms).2.2 _ hin _ mem_cons_self
  · exact (mem_singleton.mp hin).le

variable {i : UInt64}

theorem Holds.find_entry {e : Entry}
    (hlow : ps.truncatedIndex < i) (he : l.entries[i.toNat - l.base - 1]? = some e) :
    e.index = i.toNat ∧ ∃ val,
      ps.raft.find (raftLogKey ps.region.id i) = some val ∧ unmarshal val = some e := by
  have hbase := h.base
  rw [UInt64.lt_iff_toNat_lt] at hlow
  have hindex : e.index = i.toNat := by
    have := h.consecutive _ e he
    omega
  obtain ⟨val, hval, hdecode⟩ := h.stored e (mem_of_getElem? he)
  rw [hindex, UInt64.ofNat_toNat] at hval
  exact ⟨hindex, val, hval, hdecode⟩

theorem Holds.lastTerm_eq {e : Entry}
    (he : l.entries[l.lastIndex - l.base - 1]? = some e) : e.term = ps.raftState.lastTerm := by
  have hlast := h.lastTerm
  have hlength : l.lastIndex - l.base = l.entries.length := by
    rw [CompactedLog.lastIndex]
    omega
  rw [hlength, ← getLast?_eq_getElem?] at he
  obtain ⟨front, hfront⟩ := getLast?_eq_some_iff.mp he
  rw [hfront, map_append, map_singleton, ← cons_append,
    getLast?_concat] at hlast
  exact Option.some.inj hlast

theorem Holds.term_eq (hlow : ps.truncatedIndex ≤ i) (hhigh : i.toNat ≤ l.lastIndex) :
    ∃ t, l.termAt i.toNat = some t ∧ ps.term unmarshal i = .ok t := by
  have hbase := h.base
  have hlast := h.lastIndex_lt
  rw [UInt64.le_iff_toNat_le] at hlow
  unfold CompactedLog.termAt term
  rw [if_neg (by omega)]
  by_cases htrunc : i = ps.truncatedIndex
  · refine ⟨l.baseTerm, ?_, ?_⟩
    · rw [if_pos (by rw [htrunc, hbase])]
    · rw [if_pos htrunc, h.baseTerm]
  · have hne : i.toNat ≠ l.base := fun heq => htrunc (UInt64.toNat_inj.mp (heq.trans hbase.symm))
    have hlt : ps.truncatedIndex < i := UInt64.lt_iff_toNat_lt.mpr (by omega)
    have hlength : i.toNat - l.base - 1 < l.entries.length := by
      unfold CompactedLog.lastIndex at hhigh
      omega
    obtain ⟨e, he⟩ : ∃ e, l.entries[i.toNat - l.base - 1]? = some e :=
      ⟨_, getElem?_eq_getElem hlength⟩
    have hsucc : (i + 1).toNat = i.toNat + 1 := toNat_add_one (by omega)
    have hcheck : ps.checkRange i (i + 1) = none := by
      rw [h.checkRange_eq_none, UInt64.le_iff_toNat_le, hsucc]
      exact ⟨hlt, by omega, by omega⟩
    refine ⟨e.term, by rw [if_neg hne, he]; rfl, ?_⟩
    rw [if_neg htrunc, hcheck]
    obtain ⟨-, val, hval, hdecode⟩ := h.find_entry hlt he
    obtain ⟨hge, hle⟩ := h.term_bounds (mem_of_getElem? he)
    by_cases hsame : ps.truncatedTerm = ps.raftState.lastTerm
    · -- All terms of the log are the same.
      simp only [hsame, true_or, if_true]
      rw [le_antisymm hle (hsame ▸ hge)]
    by_cases hend : i = ps.raftState.lastIndex
    · have hi : i.toNat = l.lastIndex := by rw [hend, h.lastIndex]
      rw [if_pos (Or.inr hend), h.lastTerm_eq (hi ▸ he)]
    · simp only [hsame, hend, or_self, if_false]
      rw [getMeta, Badger.get_eq_ok (Badger.find_eq_some.mp hval)]
      simp only [hdecode]

theorem Holds.term_eq_error (hout : ¬ (ps.truncatedIndex ≤ i ∧ i.toNat ≤ l.lastIndex)) :
    ∃ err, ps.term unmarshal i = .error err := by
  rw [UInt64.le_iff_toNat_le] at hout
  have hlastle : l.base ≤ l.lastIndex := Nat.le_add_right _ _
  have hbase := h.base
  have hne : i ≠ ps.truncatedIndex := by
    rintro rfl
    omega
  have hcheck : ps.checkRange i (i + 1) ≠ none := by
    rw [Ne, h.checkRange_eq_none, UInt64.lt_iff_toNat_lt, UInt64.le_iff_toNat_le]
    rintro ⟨hlow, hle, hhigh⟩
    -- The position is below the greatest word, since the one after it is not smaller.
    have hmax : i.toNat < 2^64 - 1 := by
      by_contra hge
      have hi := i.toNat_lt
      rw [UInt64.toNat_add, UInt64.toNat_one, show i.toNat + 1 = 2^64 by omega,
        Nat.mod_self] at hle
      omega
    rw [toNat_add_one hmax] at hhigh
    omega
  obtain ⟨err, herr⟩ := Option.ne_none_iff_exists'.mp hcheck
  exact ⟨err, by rw [term, if_neg hne, herr]⟩

theorem Holds.items_eq_cons (hi : i.toNat < 2^64 - 1)
    {val : Bytes} (hval : ps.raft.find (raftLogKey ps.region.id i) = some val) :
    OrderedList.ascendGreaterOrEqual Prod.fst (raftLogKey ps.region.id i) ps.raft.pairs =
      (raftLogKey ps.region.id i, val) ::
        OrderedList.ascendGreaterOrEqual Prod.fst (raftLogKey ps.region.id (i + 1))
          ps.raft.pairs := by
  have hsucc := toNat_add_one hi
  refine ps.raft.sorted.ascendGreaterOrEqual_eq_cons (Badger.find_eq_some.mp hval) ?_ ?_
  · rw [raftLogKey_lt_raftLogKey, UInt64.lt_iff_toNat_lt (a := i), hsucc]
    exact Or.inr ⟨rfl, Nat.lt_succ_self _⟩
  · intro p hp hlt
    by_contra hnot
    have hhi := not_le.mp hnot
    have hlength := h.keys p hp (isPrefix_of_between hlt.le hhi)
    obtain ⟨m, hm, -, hmi⟩ := exists_raftLogKey_of_between hlt.le hhi hlength
    simp only [hm, raftLogKey_lt_raftLogKey, UInt64.lt_iff_toNat_lt, hsucc, true_and] at hlt hmi
    omega

theorem Holds.entriesLoop_within {high : UInt64}
    (hhigh : high.toNat ≤ l.lastIndex + 1) (n : ℕ) {next : UInt64}
    (hlow : ps.truncatedIndex < next) (hn : next.toNat + n = high.toNat) (buf : List Entry) :
    Go.EnsuresWithin (buf.length + n)
      (entriesLoop unmarshal (raftLogKey ps.region.id high)
        (OrderedList.ascendGreaterOrEqual Prod.fst (raftLogKey ps.region.id next) ps.raft.pairs)
        next buf)
      fun res => res = .ok (buf ++ l.slice next.toNat high.toNat) := by
  have hbase := h.base
  have hlast := h.lastIndex_lt
  have hlow' := UInt64.lt_iff_toNat_lt.mp hlow
  rw [l.slice_eq h.consecutive (by omega)]
  induction n generalizing next buf with
  | zero =>
    -- The next item, if there is one, is at or after the end.
    obtain rfl : next = high := UInt64.toNat_inj.mp (by omega)
    rw [drop_take, Nat.sub_self, take_zero, append_nil]
    cases hitems : OrderedList.ascendGreaterOrEqual Prod.fst (raftLogKey ps.region.id next)
      ps.raft.pairs with
    | nil => rfl
    | cons p items =>
      have hp : p ∈ OrderedList.ascendGreaterOrEqual Prod.fst (raftLogKey ps.region.id next)
          ps.raft.pairs := by simp [hitems]
      rw [entriesLoop, if_pos (OrderedList.mem_ascendGreaterOrEqual.mp hp).2]
      rfl
  | succ n ih =>
    have hmax : next.toNat < 2^64 - 1 := by omega
    have hsucc := toNat_add_one hmax
    have hk : next.toNat - l.base - 1 < l.entries.length := by
      unfold CompactedLog.lastIndex at hhigh
      omega
    obtain ⟨hindex, val, hval, hdecode⟩ := h.find_entry hlow (getElem?_eq_getElem hk)
    have hend : ¬ raftLogKey ps.region.id high ≤ raftLogKey ps.region.id next := by
      simp only [raftLogKey_le_raftLogKey, UInt64.lt_iff_toNat_lt, UInt64.le_iff_toNat_le]
      omega
    rw [h.items_eq_cons hmax hval, entriesLoop, if_neg hend]
    simp only [hdecode, hindex, ne_eq, not_true, if_false]
    refine (Go.append_within buf _).bind (by simp) fun buf' hbuf' => ?_
    have hlow'' : ps.truncatedIndex < next + 1 := UInt64.lt_iff_toNat_lt.mpr (by omega)
    have hstep := ih hlow'' (by omega) buf' (by omega)
    refine hstep.imp (by rw [hbuf'.1]; simp; omega) fun res hres => ?_
    rw [hres, hbuf'.1, hsucc, append_assoc, drop_take, drop_take,
      drop_eq_getElem_cons hk,
      show high.toNat - l.base - 1 - (next.toNat - l.base - 1) =
        (high.toNat - l.base - 1 - (next.toNat + 1 - l.base - 1)) + 1 by omega,
      take_succ_cons, show next.toNat + 1 - l.base - 1 = next.toNat - l.base - 1 + 1 by omega]
    rfl

theorem Holds.entries_eq (hlow : ps.truncatedIndex < low) (hle : low ≤ high)
    (hhigh : high.toNat ≤ l.lastIndex + 1) :
    Go.EnsuresWithin (high.toNat - low.toNat) (ps.entries unmarshal low high)
      fun res => res = .ok (l.slice low.toNat high.toNat) := by
  have hlow' := UInt64.lt_iff_toNat_lt.mp hlow
  have hle' := UInt64.le_iff_toNat_le.mp hle
  have hbase := h.base
  have hcap : (high - low).toNat = high.toNat - low.toNat := UInt64.toNat_sub_of_le _ _ hle
  have hslice := l.slice_eq h.consecutive (show 0 < low.toNat by omega) high.toNat
  unfold entries
  rw [h.checkRange_eq_none.mpr ⟨hlow, hle, hhigh⟩, hcap]
  dsimp only
  split_ifs with heq
  · subst heq
    rw [hslice, drop_take, Nat.sub_self, Nat.sub_self, take_zero]
    rfl
  by_cases hfits : high.toNat - low.toNat ≤ maxInt
  · rw [Go.make, if_pos hfits, Go.ok_bind]
    obtain ⟨res, hloop, hres⟩ := (h.entriesLoop_within hhigh (high.toNat - low.toNat) hlow
      (by omega) []).returns (by simpa using hfits)
    have hint : toInt (high.toNat - low.toNat) = ((high.toNat - low.toNat : ℕ) : ℤ) :=
      if_pos (by unfold maxInt at hfits; omega)
    have hlength : (l.slice low.toNat high.toNat).length = high.toNat - low.toNat := by
      rw [hslice, length_drop, length_take]
      unfold CompactedLog.lastIndex at hhigh
      omega
    rw [hloop, Go.ok_bind, hres, nil_append]
    simp only [hlength, hint, if_true]
    rfl
  · rw [Go.make, if_neg hfits]
    exact ⟨rfl, not_le.mp hfits⟩

theorem Holds.entries_eq_error
    (hout : ¬ (ps.truncatedIndex < low ∧ low ≤ high ∧ high.toNat ≤ l.lastIndex + 1)) :
    ∃ err, ps.entries unmarshal low high = .ok (.error err) := by
  have hcheck : ps.checkRange low high ≠ none := fun hnone => hout (h.checkRange_eq_none.mp hnone)
  obtain ⟨err, herr⟩ := Option.ne_none_iff_exists'.mp hcheck
  exact ⟨err, by rw [entries, herr]; rfl⟩

end

/-- `Term` and `Entries` read the log, and answer with an error for what is not in it. -/
theorem reads_log (h : Holds unmarshal ps l) :
    (∀ i, ps.truncatedIndex ≤ i → i ≤ ps.raftState.lastIndex →
      ∃ t, l.termAt i.toNat = some t ∧ ps.term unmarshal i = .ok t) ∧
    (∀ i, ¬ (ps.truncatedIndex ≤ i ∧ i ≤ ps.raftState.lastIndex) →
      ∃ err, ps.term unmarshal i = .error err) ∧
    (∀ low high, ps.truncatedIndex < low → low ≤ high → high ≤ ps.raftState.lastIndex + 1 →
      Go.EnsuresWithin (high.toNat - low.toNat) (ps.entries unmarshal low high)
        fun res => res = .ok (l.slice low.toNat high.toNat)) ∧
    ∀ low high, ¬ (ps.truncatedIndex < low ∧ low ≤ high ∧ high ≤ ps.raftState.lastIndex + 1) →
      ∃ err, ps.entries unmarshal low high = .ok (.error err) := by
  have hlast := h.lastIndex
  have hsucc : (ps.raftState.lastIndex + 1).toNat = l.lastIndex + 1 := by
    rw [toNat_add_one (hlast ▸ h.lastIndex_lt), hlast]
  have hle : ∀ i, i ≤ ps.raftState.lastIndex ↔ i.toNat ≤ l.lastIndex := fun i => by
    rw [UInt64.le_iff_toNat_le, hlast]
  have hle' : ∀ i, i ≤ ps.raftState.lastIndex + 1 ↔ i.toNat ≤ l.lastIndex + 1 := fun i => by
    rw [UInt64.le_iff_toNat_le, hsucc]
  simp only [hle, hle']
  exact ⟨fun i hlow hhigh => h.term_eq hlow hhigh, fun i hout => h.term_eq_error hout,
    fun low high hlow hlohi hhigh => h.entries_eq hlow hlohi hhigh,
    fun low high hout => h.entries_eq_error hout⟩

def unmarshalPair : Bytes → Option Entry
  | [term, index] => some { term := term.toNat, index := index.toNat }
  | _ => none

def sample : PeerStorage where
  region := { id := 2 }
  raftState := { lastIndex := 7, lastTerm := 3 }
  truncatedState := { index := 5, term := 1 }
  raft := Badger.empty.writeAll
    [(raftLogKey 1 9, some [1, 9]), (raftStateKey 1, some [0]), (raftLogKey 2 5, some [1, 5]),
      (raftLogKey 2 6, some [2, 6]), (raftLogKey 2 7, some [3, 7]), (raftLogKey 2 8, some [1, 8]),
      (raftStateKey 2, some [0]), (raftLogKey 3 6, some [4, 6])]

def sampleLog : CompactedLog where
  base := 5
  baseTerm := 1
  entries := [{ term := 2, index := 6 }, { term := 3, index := 7 }]

theorem sample_holds : Holds unmarshalPair sample sampleLog where
  base := rfl
  baseTerm := rfl
  lastIndex := rfl
  lastIndex_lt := by decide
  consecutive := by decide
  terms := by decide
  lastTerm := rfl
  stored := by
    intro e he
    rcases mem_cons.mp he with rfl | he
    · exact ⟨[2, 6], by decide, by decide⟩
    · obtain rfl := mem_singleton.mp he
      exact ⟨[3, 7], by decide, by decide⟩
  keys := by decide

theorem reads_log_sample :
    (∃ t, sampleLog.termAt 6 = some t ∧ sample.term unmarshalPair 6 = .ok t) ∧
      (∃ err, sample.term unmarshalPair 18446744073709551615 = .error err) ∧
      Go.EnsuresWithin 2 (sample.entries unmarshalPair 6 8)
        (fun res => res = .ok (sampleLog.slice 6 8)) ∧
      ∃ err, sample.entries unmarshalPair 5 8 = .ok (.error err) :=
  ⟨(reads_log sample_holds).1 6 (by decide) (by decide),
    (reads_log sample_holds).2.1 _ (by decide),
    (reads_log sample_holds).2.2.1 6 8 (by decide) (by decide) (by decide),
    (reads_log sample_holds).2.2.2 5 8 (by decide)⟩

end PeerStorage

end TinyKV
