import TinyKV.Raftstore.PeerStorage
import TinyKV.Storage.DeleteRange

/-!
# Clearing the data of a peer

`clearExtraData` and `ClearMeta` of `kv/raftstore/peer_storage.go`, and `Destroy` of
`kv/raftstore/peer.go`.
-/

namespace TinyKV

open List

structure RegionTaskDestroy where
  regionId : UInt64
  startKey : Bytes
  endKey : Bytes
deriving DecidableEq, Repr

def RegionTaskDestroy.Covers (task : RegionTaskDestroy) (key : Bytes) : Prop :=
  Region.Contains ⟨task.startKey, task.endKey⟩ key

def cleanUpRange (kv : Badger) (task : RegionTaskDestroy) : Badger :=
  (deleteRange (fun _ => none) none kv task.startKey task.endKey).1

instance (task : RegionTaskDestroy) (key : Bytes) : Decidable (task.Covers key) :=
  inferInstanceAs (Decidable (Region.Contains _ _))

theorem find_cleanUpRange (kv : Badger) (task : RegionTaskDestroy) (cf : Cf) (key : Bytes) :
    (cleanUpRange kv task).find (keyWithCF cf.name key) =
      if task.Covers key then none else kv.find (keyWithCF cf.name key) := by
  have hok := deleteRange_succeeds kv task.startKey task.endKey
  split_ifs with hcovers
  · exact find_deleteRange_eq_none hok cf hcovers
  · refine find_deleteRange_of_not hok ?_
    rintro ⟨cf', key', hraw, hrange⟩
    obtain ⟨-, rfl⟩ := keyWithCF_inj.mp hraw
    exact hcovers hrange

theorem find_foldl_cleanUpRange (kv : Badger) (tasks : List RegionTaskDestroy) (cf : Cf)
    (key : Bytes) : (tasks.foldl cleanUpRange kv).find (keyWithCF cf.name key) =
      if ∃ task ∈ tasks, task.Covers key then none else kv.find (keyWithCF cf.name key) := by
  induction tasks generalizing kv with
  | nil => simp
  | cons task tasks ih =>
    rw [foldl_cons, ih, find_cleanUpRange]
    by_cases hcovers : task.Covers key <;> simp [hcovers]

namespace PeerStorage

def clearRange (regionID : UInt64) (start stop : Bytes) : RegionTaskDestroy :=
  { regionId := regionID, startKey := start, endKey := stop }

def clearExtraData (ps : PeerStorage) (newRegion : PeerRegion) : List RegionTaskDestroy :=
  let oldStartKey := ps.region.startKey
  let oldEndKey := ps.region.endKey
  let newStartKey := newRegion.startKey
  let newEndKey := newRegion.endKey
  (if oldStartKey < newStartKey then [clearRange newRegion.id oldStartKey newStartKey] else []) ++
    if newEndKey < oldEndKey ∨ oldEndKey.length = 0 ∧ newEndKey.length ≠ 0 then
      [clearRange newRegion.id newEndKey oldEndKey]
    else []

def ClearsExactly (ps : PeerStorage) (newRegion : PeerRegion) : Prop :=
  ∀ key, (∃ task ∈ ps.clearExtraData newRegion, task.Covers key) ↔
    ps.region.Contains key ∧ ¬ newRegion.Contains key

theorem ClearsExactly.find_foldl_cleanUpRange {ps : PeerStorage} {newRegion : PeerRegion}
    (h : ps.ClearsExactly newRegion) (kv : Badger) (cf : Cf) (key : Bytes) :
    ((ps.clearExtraData newRegion).foldl cleanUpRange kv).find (keyWithCF cf.name key) =
      if ps.region.Contains key ∧ ¬ newRegion.Contains key then none
      else kv.find (keyWithCF cf.name key) := by
  rw [TinyKV.find_foldl_cleanUpRange]
  simp only [h key]

theorem covers_clearExtraData {ps : PeerStorage} {newRegion : PeerRegion} {key : Bytes} :
    (∃ task ∈ ps.clearExtraData newRegion, task.Covers key) ↔
      ps.region.startKey < newRegion.startKey ∧
        Region.Contains ⟨ps.region.startKey, newRegion.startKey⟩ key ∨
      (newRegion.endKey < ps.region.endKey ∨
        ps.region.endKey = [] ∧ newRegion.endKey ≠ []) ∧
        Region.Contains ⟨newRegion.endKey, ps.region.endKey⟩ key := by
  have hite : ∀ (p : Prop) [Decidable p] (task : RegionTaskDestroy),
      (∃ t ∈ if p then [task] else [], t.Covers key) ↔ p ∧ task.Covers key := by
    intro p _ task
    split_ifs with hp <;> simp [hp]
  simp only [clearExtraData, mem_append, or_and_right, exists_or, hite,
    length_eq_zero_iff, ne_eq]
  rfl

/-- For regions that overlap, `clearExtraData` schedules exactly what the new region does not cover,
unless the new region has no end although the old one has. -/
theorem clearExtraData_exact_iff (ps : PeerStorage) (newRegion : PeerRegion)
    (hmeet : ∃ key, ps.region.Contains key ∧ newRegion.Contains key) :
    ps.ClearsExactly newRegion ↔ ¬ (newRegion.endKey = [] ∧ ps.region.endKey ≠ []) := by
  obtain ⟨x, ⟨holdlo, holdhi⟩, hnewlo, hnewhi⟩ := hmeet
  constructor
  · rintro h ⟨hnil, hne⟩
    -- The key that the regions share is scheduled.
    have hleast : ∀ key : Bytes, [] ≤ key := fun key => not_lt.mp (not_lt_nil key)
    have hlt : newRegion.endKey < ps.region.endKey := by
      rw [hnil]
      exact lt_of_le_of_ne (hleast _) (Ne.symm hne)
    have hcovers : Region.Contains ⟨newRegion.endKey, ps.region.endKey⟩ x :=
      ⟨hnil ▸ hleast x, holdhi⟩
    exact ((h x).mp (covers_clearExtraData.mpr (Or.inr ⟨Or.inl hlt, hcovers⟩))).2 ⟨hnewlo, hnewhi⟩
  · intro hends key
    rw [covers_clearExtraData]
    constructor
    · rintro (⟨hlt, hlo, hhi⟩ | ⟨hcases, hlo, hhi⟩)
      · have hkey : key < newRegion.startKey := by
          rcases hhi with hhi | hhi
          · simp only at hhi
            rw [hhi] at hlt
            exact absurd hlt (not_lt_nil _)
          · exact hhi
        refine ⟨⟨hlo, holdhi.imp_right fun hx => ?_⟩, fun hin => absurd hin.1 (not_le.mpr hkey)⟩
        exact (hkey.trans_le hnewlo).trans hx
      · have hne : newRegion.endKey ≠ [] := by
          rintro hnil
          rcases hcases with hlt | ⟨-, hne⟩
          · refine hends ⟨hnil, fun hnil' => ?_⟩
            rw [hnil'] at hlt
            exact absurd hlt (not_lt_nil _)
          · exact hne hnil
        have hx : x < newRegion.endKey := hnewhi.resolve_left hne
        refine ⟨⟨(holdlo.trans hx.le).trans hlo, hhi⟩, fun hin => ?_⟩
        exact absurd (hin.2.resolve_left hne) (not_lt.mpr hlo)
    · rintro ⟨⟨hlo, hhi⟩, hout⟩
      by_cases hkey : newRegion.startKey ≤ key
      · have hend : newRegion.endKey ≠ [] ∧ newRegion.endKey ≤ key := by
          simpa [Region.Contains, hkey] using hout
        refine Or.inr ⟨?_, hend.2, hhi⟩
        rcases hhi with hnil | hlt
        · exact Or.inr ⟨hnil, hend.1⟩
        · exact Or.inl (hend.2.trans_lt hlt)
      · have hlt := not_le.mp hkey
        exact Or.inl ⟨hlo.trans_lt hlt, hlo, Or.inr hlt⟩

theorem clearExtraData_exact_iff_split :
    let ps : PeerStorage :=
      { region := { startKey := [97], endKey := [] }, raftState := {}, truncatedState := {},
        raft := Badger.empty }
    ps.ClearsExactly { startKey := [97], endKey := [109] } ↔
      ¬ (([109] : Bytes) = [] ∧ ([] : Bytes) ≠ []) :=
  clearExtraData_exact_iff _ _ ⟨[97], by decide, by decide⟩

theorem clearExtraData_lost_end :
    ¬ PeerStorage.ClearsExactly
      { region := { startKey := [97], endKey := [109] }, raftState := {}, truncatedState := {},
        raft := Badger.empty }
      { startKey := [97], endKey := [] } := by
  intro h
  have hcovers : (clearRange 0 [] [109]).Covers [98] := by
    unfold RegionTaskDestroy.Covers
    decide
  have hkey := (h [98]).mp ⟨clearRange 0 [] [109], by decide, hcovers⟩
  exact hkey.2 (by decide)

end PeerStorage

def findFirstIndex (raft : Badger) (regionID lastIndex : UInt64) :
    Except InvalidRaftLogKey UInt64 :=
  let firstIndex := lastIndex + 1
  let beginLogKey := raftLogKey regionID 0
  let endLogKey := raftLogKey regionID firstIndex
  match OrderedList.ascendGreaterOrEqual Prod.fst beginLogKey raft.pairs with
  | (key, _) :: _ => if key < endLogKey then raftLogIndex key else .ok firstIndex
  | [] => .ok firstIndex

def deleteLogs (raftWB : WriteBatch) (regionID firstIndex lastIndex : UInt64) : WriteBatch :=
  (indexes firstIndex.toNat (lastIndex.toNat + 1)).foldl
    (fun wb i => wb.deleteMeta (raftLogKey regionID i)) raftWB

def clearMeta (raft : Badger) (kvWB raftWB : WriteBatch) (regionID lastIndex : UInt64) :
    WriteBatch × WriteBatch × Option InvalidRaftLogKey :=
  let kvWB := (kvWB.deleteMeta (regionStateKey regionID)).deleteMeta (applyStateKey regionID)
  match findFirstIndex raft regionID lastIndex with
  | .error err => (kvWB, raftWB, some err)
  | .ok firstIndex =>
    let raftWB := deleteLogs raftWB regionID firstIndex lastIndex
    (kvWB, raftWB.deleteMeta (raftStateKey regionID), none)

inductive PeerState
  | normal
  | tombstone
deriving DecidableEq, Repr

def PeerState.number : PeerState → ℕ
  | normal => 0
  | tombstone => 2

structure RegionLocalState where
  state : PeerState
  region : Option Bytes
deriving DecidableEq, Repr

def encodeVarintLoop : ℕ → ℕ → Bytes
  | n + 1, v =>
    if v ≥ 1 <<< 7 then UInt8.ofNat (v &&& 0x7f ||| 0x80) :: encodeVarintLoop n (v >>> 7)
    else [UInt8.ofNat v]
  | 0, v => [UInt8.ofNat v]

def encodeVarint (v : ℕ) : Bytes := encodeVarintLoop 9 v

def RegionLocalState.marshal (s : RegionLocalState) : Bytes :=
  (if s.state.number ≠ 0 then 0x8 :: encodeVarint s.state.number else []) ++
    match s.region with
    | none => []
    | some region => 0x12 :: encodeVarint region.length ++ region

def writeRegionState (marshalRegion : PeerRegion → Bytes) (kvWB : WriteBatch) (region : PeerRegion)
    (state : PeerState) : WriteBatch :=
  let regionState : RegionLocalState := { state := state, region := some (marshalRegion region) }
  (kvWB.setMeta (regionStateKey region.id) (.ok regionState.marshal : Except Empty Bytes)).1

inductive DestroyErr
  | clearMeta (err : InvalidRaftLogKey)
  | write (err : BadgerErr)
deriving DecidableEq, Repr

structure Destroyed where
  kv : Badger
  raft : Badger
  tasks : List RegionTaskDestroy := []
  err : Option DestroyErr := none

namespace PeerStorage

def isInitialized (ps : PeerStorage) : Bool := 0 < ps.region.peers

def clearMeta (ps : PeerStorage) (kvWB raftWB : WriteBatch) :
    WriteBatch × WriteBatch × Option InvalidRaftLogKey :=
  TinyKV.clearMeta ps.raft kvWB raftWB ps.region.id ps.raftState.lastIndex

def clearData (ps : PeerStorage) : RegionTaskDestroy :=
  clearRange ps.region.id ps.region.startKey ps.region.endKey

def destroy (marshalRegion : PeerRegion → Bytes) (kvErrs raftErrs : WriteErrs) (ps : PeerStorage)
    (kv : Badger) (keepData : Bool) : Destroyed :=
  match ps.clearMeta {} {} with
  | (_, _, some err) => { kv := kv, raft := ps.raft, err := some (.clearMeta err) }
  | (kvWB, raftWB, none) =>
    let kvWB := writeRegionState marshalRegion kvWB ps.region .tombstone
    -- The engine for the data is written first, in case of a restart between the two.
    match kvWB.writeToDB kvErrs.call kvErrs.commit kv with
    | (kv, some err) => { kv := kv, raft := ps.raft, err := some (.write err) }
    | (kv, none) =>
      match raftWB.writeToDB raftErrs.call raftErrs.commit ps.raft with
      | (raft, some err) => { kv := kv, raft := raft, err := some (.write err) }
      | (raft, none) =>
        { kv := kv, raft := raft,
          tasks := if ps.isInitialized && !keepData then [ps.clearData] else [] }

end PeerStorage

section

variable {raft kv : Badger} {r last first : UInt64} {kvWB raftWB : WriteBatch}

theorem raftLogKey_between (hlast : last.toNat < 2^64 - 1) {i : UInt64} (hi : i ≤ last) :
    raftLogKey r 0 ≤ raftLogKey r i ∧ raftLogKey r i < raftLogKey r (last + 1) := by
  rw [raftLogKey_le_raftLogKey, raftLogKey_lt_raftLogKey]
  refine ⟨Or.inr ⟨rfl, UInt64.le_iff_toNat_le.mpr (Nat.zero_le _)⟩, Or.inr ⟨rfl, ?_⟩⟩
  rw [UInt64.lt_iff_toNat_lt, PeerStorage.toNat_add_one hlast]
  exact Nat.lt_succ_of_le (UInt64.le_iff_toNat_le.mp hi)

theorem find_eq_none_of_findFirstIndex (hlast : last.toNat < 2^64 - 1)
    (h : findFirstIndex raft r last = .ok first) {i : UInt64} (hi : i < first) (hil : i ≤ last) :
    raft.find (raftLogKey r i) = none := by
  obtain ⟨hge, hlt⟩ := @raftLogKey_between r last hlast i hil
  by_contra hne
  obtain ⟨val, hval⟩ := Option.ne_none_iff_exists'.mp hne
  have hmem := Badger.find_eq_some.mp hval
  unfold findFirstIndex at h
  dsimp only at h
  split at h
  next key _ _ heq =>
    obtain ⟨-, hkey, hleast⟩ := raft.sorted.of_ascendGreaterOrEqual_eq_cons heq
    have hle : key ≤ raftLogKey r i := hleast _ hmem hge
    rw [if_pos (hle.trans_lt hlt)] at h
    have hlength : key.length = regionRaftLogLen := by
      by_contra hne
      rw [raftLogIndex_eq_error hne] at h
      cases h
    obtain ⟨m, rfl, -, -⟩ := exists_raftLogKey_of_between hkey (hle.trans_lt hlt) hlength
    rw [raftLogIndex_raftLogKey] at h
    cases h
    simp only [raftLogKey_le_raftLogKey, UInt64.lt_iff_toNat_lt, UInt64.le_iff_toNat_le,
      true_and] at hle hi
    omega
  next heq =>
    have hin : (raftLogKey r i, val) ∈
        OrderedList.ascendGreaterOrEqual Prod.fst (raftLogKey r 0) raft.pairs :=
      OrderedList.mem_ascendGreaterOrEqual.mpr ⟨hmem, hge⟩
    rw [heq] at hin
    exact absurd hin not_mem_nil

def clearedKeys (r first last : UInt64) : List Bytes :=
  (indexes first.toNat (last.toNat + 1)).map (raftLogKey r) ++ [raftStateKey r]

theorem mem_clearedKeys {key : Bytes} :
    key ∈ clearedKeys r first last ↔
      (∃ i, first ≤ i ∧ i ≤ last ∧ key = raftLogKey r i) ∨ key = raftStateKey r := by
  have hword : last.toNat + 1 ≤ 2^64 := last.toNat_lt
  simp only [clearedKeys, mem_append, mem_map, mem_singleton, mem_indexes hword,
    UInt64.le_iff_toNat_le, Nat.lt_succ_iff, and_assoc, @eq_comm _ (raftLogKey r _)]

theorem clearMeta_eq_ok (h : clearMeta raft {} {} r last = (kvWB, raftWB, none)) :
    kvWB.entries = [regionStateKey r, applyStateKey r].map (fun key => { key := key }) ∧
      ∃ first, findFirstIndex raft r last = .ok first ∧
        raftWB.entries = (clearedKeys r first last).map fun key => { key := key } := by
  unfold clearMeta at h
  cases hfirst : findFirstIndex raft r last with
  | error err => simp [hfirst] at h
  | ok first =>
    simp only [hfirst, Prod.mk.injEq, and_true] at h
    obtain ⟨rfl, rfl⟩ := h
    refine ⟨rfl, first, rfl, ?_⟩
    rw [WriteBatch.deleteMeta, deleteLogs, WriteBatch.entries_foldl_deleteMeta, clearedKeys]
    simp

/-- What the raft engine holds after the batch of `ClearMeta` is written. -/
structure ClearsRaft (r last : UInt64) (raft raft' : Badger) : Prop where
  state : raft'.find (raftStateKey r) = none
  logs : ∀ i ≤ last, raft'.find (raftLogKey r i) = none
  other : ∀ key, key ≠ raftStateKey r → (∀ i ≤ last, key ≠ raftLogKey r i) →
    raft'.find key = raft.find key

theorem clearsRaft_of_clearMeta (hlast : last.toNat < 2^64 - 1)
    (h : clearMeta raft {} {} r last = (kvWB, raftWB, none)) {errs : WriteErrs}
    (hwrite : (raftWB.writeToDB errs.call errs.commit raft).2 = none) :
    ClearsRaft r last raft (raftWB.writeToDB errs.call errs.commit raft).1 := by
  obtain ⟨-, first, hfirst, hentries⟩ := clearMeta_eq_ok h
  have hfind := WriteBatch.find_writeToDB_deletes hentries hwrite
  refine ⟨?_, fun i hi => ?_, fun key hstate hlogs => ?_⟩
  · rw [hfind, if_pos (mem_clearedKeys.mpr (Or.inr rfl))]
  · rw [hfind]
    split_ifs with hmem
    · rfl
    · -- An entry that is not deleted was not there.
      refine find_eq_none_of_findFirstIndex hlast hfirst ?_ hi
      by_contra hge
      refine hmem (mem_clearedKeys.mpr (Or.inl ⟨i, ?_, hi, rfl⟩))
      rw [UInt64.lt_iff_toNat_lt] at hge
      exact UInt64.le_iff_toNat_le.mpr (Nat.not_lt.mp hge)
  · rw [hfind, if_neg]
    rw [mem_clearedKeys]
    rintro (⟨i, -, hi, rfl⟩ | rfl)
    · exact hlogs i hi rfl
    · exact hstate rfl

theorem marshal_tombstone_ne_nil (region : Option Bytes) :
    RegionLocalState.marshal { state := .tombstone, region := region } ≠ [] := by
  simp [RegionLocalState.marshal, PeerState.number]

variable {marshalRegion : PeerRegion → Bytes} {ps : PeerStorage} {kvErrs raftErrs : WriteErrs}
  {keepData : Bool}

theorem destroy_eq_ok (h : (ps.destroy marshalRegion kvErrs raftErrs kv keepData).err = none) :
    ∃ kvWB raftWB, clearMeta ps.raft {} {} ps.region.id ps.raftState.lastIndex =
        (kvWB, raftWB, none) ∧
      ((writeRegionState marshalRegion kvWB ps.region .tombstone).writeToDB
        kvErrs.call kvErrs.commit kv).2 = none ∧
      (raftWB.writeToDB raftErrs.call raftErrs.commit ps.raft).2 = none ∧
      (ps.destroy marshalRegion kvErrs raftErrs kv keepData).kv =
        ((writeRegionState marshalRegion kvWB ps.region .tombstone).writeToDB
          kvErrs.call kvErrs.commit kv).1 ∧
      (ps.destroy marshalRegion kvErrs raftErrs kv keepData).raft =
        (raftWB.writeToDB raftErrs.call raftErrs.commit ps.raft).1 := by
  unfold PeerStorage.destroy at h ⊢
  split at h
  next => simp at h
  next kvWB raftWB hclear =>
    dsimp only at h
    split at h
    next => simp at h
    next kv' hkv =>
      split at h
      next => simp at h
      next raft' hraft =>
        simp only [hkv]
        exact ⟨kvWB, raftWB, hclear, by simp [hkv], by simp [hraft], by simp [hkv],
          by simp [hraft]⟩

/-- After `ClearMeta` has succeeded and its batches are written, the metadata of the region is gone,
and every other key is as before. After `Destroy`, there is a tombstone in place of the state of the
region. -/
theorem clearMeta_clears {r last : UInt64} (hlast : last.toNat < 2^64 - 1) (raft kv : Badger) :
    (∀ kvWB raftWB (kvErrs raftErrs : WriteErrs),
      clearMeta raft {} {} r last = (kvWB, raftWB, none) →
      (kvWB.writeToDB kvErrs.call kvErrs.commit kv).2 = none →
      (raftWB.writeToDB raftErrs.call raftErrs.commit raft).2 = none →
      ClearsRaft r last raft (raftWB.writeToDB raftErrs.call raftErrs.commit raft).1 ∧
      ∀ key, (kvWB.writeToDB kvErrs.call kvErrs.commit kv).1.find key =
        if key = regionStateKey r ∨ key = applyStateKey r then none else kv.find key) ∧
    ∀ (marshalRegion : PeerRegion → Bytes) (kvErrs raftErrs : WriteErrs) (ps : PeerStorage)
      (keepData : Bool), ps.region.id = r → ps.raftState.lastIndex = last → ps.raft = raft →
      (ps.destroy marshalRegion kvErrs raftErrs kv keepData).err = none →
      ClearsRaft r last raft (ps.destroy marshalRegion kvErrs raftErrs kv keepData).raft ∧
      ∀ key, (ps.destroy marshalRegion kvErrs raftErrs kv keepData).kv.find key =
        if key = regionStateKey r then
          some (RegionLocalState.marshal
            { state := .tombstone, region := some (marshalRegion ps.region) })
        else if key = applyStateKey r then none
        else kv.find key := by
  constructor
  · intro kvWB raftWB kvErrs raftErrs hclear hkv hraft
    refine ⟨clearsRaft_of_clearMeta hlast hclear hraft, fun key => ?_⟩
    rw [WriteBatch.find_writeToDB_deletes (clearMeta_eq_ok hclear).1 hkv]
    simp
  · rintro marshalRegion kvErrs raftErrs ps keepData rfl rfl rfl herr
    obtain ⟨kvWB, raftWB, hclear, hkv, hraft, hkv', hraft'⟩ := destroy_eq_ok herr
    rw [hkv', hraft']
    refine ⟨clearsRaft_of_clearMeta hlast hclear hraft, fun key => ?_⟩
    have htomb := marshal_tombstone_ne_nil (some (marshalRegion ps.region))
    generalize htomb' : RegionLocalState.marshal
      { state := .tombstone, region := some (marshalRegion ps.region) } = tomb at htomb ⊢
    have hentries : (writeRegionState marshalRegion kvWB ps.region .tombstone).entries =
        [(regionStateKey ps.region.id, none), (applyStateKey ps.region.id, none),
          (regionStateKey ps.region.id, some tomb)].map WriteBatch.entryOf := by
      rw [writeRegionState, WriteBatch.setMeta, (clearMeta_eq_ok hclear).1, htomb']
      rfl
    have hops : [(regionStateKey ps.region.id, none), (applyStateKey ps.region.id, none),
          (regionStateKey ps.region.id, some tomb)].map
          (fun w => (w.1, WriteBatch.nonempty w.2)) =
        [(regionStateKey ps.region.id, none), (applyStateKey ps.region.id, none),
          (regionStateKey ps.region.id, some tomb)] := by
      simp [WriteBatch.nonempty, htomb]
    rw [WriteBatch.writeToDB_of_success hentries hkv, hops]
    -- The last write to the state of the region is the tombstone.
    simp only [Badger.writeAll, foldl_cons, foldl_nil, Badger.write, Badger.find_set,
      Badger.find_delete, @eq_comm _ key]
    split_ifs <;> rfl

theorem clearMeta_clears_sample :
    let kv := Badger.empty.writeAll
      [(regionStateKey 2, some [1]), (applyStateKey 2, some [1]), (regionStateKey 3, some [1])]
    let raft := PeerStorage.sample.raft
    let batches := clearMeta raft {} {} 2 7
    (ClearsRaft 2 7 raft (batches.2.1.writeToDB (fun _ => none) none raft).1 ∧
      ∀ key, (batches.1.writeToDB (fun _ => none) none kv).1.find key =
        if key = regionStateKey 2 ∨ key = applyStateKey 2 then none else kv.find key) ∧
    ClearsRaft 2 7 raft (PeerStorage.sample.destroy (fun _ => [10]) {} {} kv false).raft :=
  ⟨(clearMeta_clears (by decide) PeerStorage.sample.raft _).1 _ _ {} {}
      (Prod.ext rfl (Prod.ext rfl (by decide))) (by decide) (by decide),
    ((clearMeta_clears (by decide) PeerStorage.sample.raft _).2 (fun _ => [10]) {} {}
      PeerStorage.sample false rfl rfl rfl (by decide)).1⟩

end

end TinyKV
