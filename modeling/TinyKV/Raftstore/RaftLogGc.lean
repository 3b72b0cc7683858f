import TinyKV.Raftstore.Keys
import TinyKV.Storage.WriteBatch

/-!
# Collecting the garbage of the raft log

`gcRaftLog` of `kv/raftstore/runner/raftlog_gc.go` deletes the entries of a region before an index.
-/

namespace TinyKV

open List

inductive GcRaftLogErr
  | invalidKey (err : InvalidRaftLogKey)
  | write (err : BadgerErr)
deriving DecidableEq, Repr

def gcFirstIdx (raftDb : Badger) (regionId startIdx endIdx : UInt64) :
    Except InvalidRaftLogKey UInt64 :=
  if startIdx = 0 then
    match OrderedList.ascendGreaterOrEqual Prod.fst (raftLogKey regionId 0) raftDb.pairs with
    | (key, _) :: _ => raftLogIndex key
    | [] => .ok endIdx
  else .ok startIdx

def gcRaftLog (errs : WriteErrs) (raftDb : Badger) (regionId startIdx endIdx : UInt64) :
    Badger × Except GcRaftLogErr UInt64 :=
  match gcFirstIdx raftDb regionId startIdx endIdx with
  | .error err => (raftDb, .error (.invalidKey err))
  | .ok firstIdx =>
    if firstIdx ≥ endIdx then (raftDb, .ok 0)
    else
      let raftWb : WriteBatch := (indexes firstIdx.toNat endIdx.toNat).foldl
        (fun wb idx => wb.deleteMeta (raftLogKey regionId idx)) {}
      if raftWb.entries.length ≠ 0 then
        match raftWb.writeToDB errs.call errs.commit raftDb with
        | (raftDb, some err) => (raftDb, .error (.write err))
        | (raftDb, none) => (raftDb, .ok (endIdx - firstIdx))
      else (raftDb, .ok (endIdx - firstIdx))

def RaftKeys (raftDb : Badger) : Prop :=
  ∀ p ∈ raftDb.pairs, (∃ r i, p.1 = raftLogKey r i) ∨ ∃ r, p.1 = raftStateKey r

/-- `gcRaftLog` does what it is for, from the start of the log on. -/
structure GcCollects (raftDb : Badger) (r endIdx : UInt64) : Prop where
  returns : ∃ n, (gcRaftLog {} raftDb r 0 endIdx).2 = .ok n
  removed : ∀ i < endIdx, (gcRaftLog {} raftDb r 0 endIdx).1.find (raftLogKey r i) = none
  kept : ∀ key, (∀ i < endIdx, key ≠ raftLogKey r i) →
    (gcRaftLog {} raftDb r 0 endIdx).1.find key = raftDb.find key
  count : ∀ f ≤ endIdx, (∀ i < endIdx, raftDb.find (raftLogKey r i) ≠ none ↔ f ≤ i) →
    (gcRaftLog {} raftDb r 0 endIdx).2 = .ok (endIdx - f)

section

variable {raftDb : Badger} {r endIdx first : UInt64}

theorem gcRaftLog_eq (hfirst : gcFirstIdx raftDb r 0 endIdx = .ok first) :
    (gcRaftLog {} raftDb r 0 endIdx).2 =
      .ok (if endIdx ≤ first then 0 else endIdx - first) ∧
    ∀ key, (gcRaftLog {} raftDb r 0 endIdx).1.find key =
      if key ∈ (indexes first.toNat endIdx.toNat).map (raftLogKey r) then none
      else raftDb.find key := by
  unfold gcRaftLog
  rw [hfirst]
  dsimp only
  by_cases hge : endIdx ≤ first
  · have hnil : indexes first.toNat endIdx.toNat = [] := by
      rw [indexes, Nat.sub_eq_zero_of_le (UInt64.le_iff_toNat_le.mp hge)]
      rfl
    simp [hge, hnil]
  · simp only [ge_iff_le, hge, if_false]
    generalize hwb : (indexes first.toNat endIdx.toNat).foldl
      (fun wb idx => wb.deleteMeta (raftLogKey r idx)) ({} : WriteBatch) = wb
    have hentries : wb.entries = ((indexes first.toNat endIdx.toNat).map (raftLogKey r)).map
        fun key => { key := key } := by
      rw [← hwb, WriteBatch.entries_foldl_deleteMeta, map_map]
      rfl
    have hsucceeds := wb.writeToDB_succeeds raftDb
    have hfind := WriteBatch.find_writeToDB_deletes hentries hsucceeds
    split_ifs with hlength
    · rcases hwrite : wb.writeToDB (fun _ => none) none raftDb with ⟨raftDb', err⟩
      rw [hwrite] at hsucceeds hfind
      obtain rfl : err = none := hsucceeds
      exact ⟨rfl, hfind⟩
    · -- Without entries there is nothing to delete.
      rw [not_not, length_eq_zero_iff, hentries, map_eq_nil_iff] at hlength
      simp [hlength]

theorem gcCollects_of_first (hfirst : gcFirstIdx raftDb r 0 endIdx = .ok first)
    (hbefore : ∀ i < endIdx, i < first → raftDb.find (raftLogKey r i) = none)
    (hat : first < endIdx → raftDb.find (raftLogKey r first) ≠ none) :
    GcCollects raftDb r endIdx := by
  obtain ⟨hres, hfind⟩ := gcRaftLog_eq hfirst
  have hword : endIdx.toNat ≤ 2^64 := endIdx.toNat_lt.le
  have hmem : ∀ i, raftLogKey r i ∈ (indexes first.toNat endIdx.toNat).map (raftLogKey r) ↔
      first ≤ i ∧ i < endIdx := by
    intro i
    simp only [mem_map, mem_indexes hword, raftLogKey_inj, true_and, exists_eq_right,
      UInt64.le_iff_toNat_le, UInt64.lt_iff_toNat_lt]
  refine ⟨⟨_, hres⟩, fun i hi => ?_, fun key hkey => ?_, fun f hf hentries => ?_⟩
  · rw [hfind]
    split_ifs with hin
    · rfl
    · refine hbefore i hi (UInt64.not_le.mp fun hle => hin ((hmem i).mpr ⟨hle, hi⟩))
  · rw [hfind, if_neg]
    intro hin
    obtain ⟨i, hi, rfl⟩ := mem_map.mp hin
    exact hkey i (UInt64.lt_iff_toNat_lt.mpr ((mem_indexes hword).mp hi).2) rfl
  · -- The first of the entries before the end is at `f`.
    rw [hres]
    by_cases hge : endIdx ≤ first
    · have hend : f = endIdx := by
        by_contra hne
        have hlt : f < endIdx := UInt64.lt_of_le_of_ne hf hne
        exact (hentries f hlt).mpr (UInt64.le_refl f)
          (hbefore f hlt (UInt64.lt_of_lt_of_le hlt hge))
      rw [if_pos hge, hend, UInt64.sub_self]
    · have hlt : first < endIdx := UInt64.not_le.mp hge
      have hle : f ≤ first := (hentries first hlt).mp (hat hlt)
      have heq : f = first := by
        by_contra hne
        have hlt' : f < first := UInt64.lt_of_le_of_ne hle hne
        have hfend := UInt64.lt_trans hlt' hlt
        exact (hentries f hfend).mpr (UInt64.le_refl f) (hbefore f hfend hlt')
      rw [if_neg hge, heq]

theorem gcFirstIdx_of_entry (hkeys : RaftKeys raftDb) {i : UInt64}
    (hi : raftDb.find (raftLogKey r i) ≠ none) :
    ∃ m, gcFirstIdx raftDb r 0 endIdx = .ok m ∧ raftDb.find (raftLogKey r m) ≠ none ∧
      ∀ j < m, raftDb.find (raftLogKey r j) = none := by
  have hzero : ∀ j, raftLogKey r 0 ≤ raftLogKey r j := fun j =>
    raftLogKey_le_raftLogKey.mpr (Or.inr ⟨rfl, UInt64.le_iff_toNat_le.mpr (Nat.zero_le _)⟩)
  obtain ⟨val, hval⟩ := Option.ne_none_iff_exists'.mp hi
  have hmem := Badger.find_eq_some.mp hval
  cases hitems : OrderedList.ascendGreaterOrEqual Prod.fst (raftLogKey r 0) raftDb.pairs with
  | nil =>
    have hin : (raftLogKey r i, val) ∈
        OrderedList.ascendGreaterOrEqual Prod.fst (raftLogKey r 0) raftDb.pairs :=
      OrderedList.mem_ascendGreaterOrEqual.mpr ⟨hmem, hzero i⟩
    rw [hitems] at hin
    exact absurd hin not_mem_nil
  | cons p items =>
    obtain ⟨hp, hge, hleast⟩ := raftDb.sorted.of_ascendGreaterOrEqual_eq_cons hitems
    have hle : p.1 ≤ raftLogKey r i := hleast _ hmem (hzero i)
    rcases hkeys p hp with ⟨r', m, hkey⟩ | ⟨r', hkey⟩
    · obtain rfl : r' = r := by
        rw [hkey, raftLogKey_le_raftLogKey] at hge hle
        simp only [UInt64.lt_iff_toNat_lt, ← UInt64.toNat_inj] at hge hle ⊢
        omega
      refine ⟨m, ?_, ?_, fun j hj => ?_⟩
      · simp [gcFirstIdx, hitems, hkey, raftLogIndex_raftLogKey]
      · rw [← hkey, Badger.find_eq_some.mpr hp]
        simp
      · by_contra hne
        obtain ⟨val', hval'⟩ := Option.ne_none_iff_exists'.mp hne
        have hle' := hleast _ (Badger.find_eq_some.mp hval') (hzero j)
        simp only [hkey, raftLogKey_le_raftLogKey, UInt64.lt_iff_toNat_lt, UInt64.le_iff_toNat_le,
          true_and] at hle' hj
        omega
    · -- The state of a region is not between two entries of one.
      have hr : r ≤ r' := raftLogKey_lt_raftStateKey.mp
        (lt_of_le_of_ne (hkey ▸ hge) raftLogKey_ne_makeRegionPrefix)
      exact absurd (raftLogKey_lt_raftStateKey.mpr hr) (not_lt.mpr (hkey ▸ hle))

/-- `gcRaftLog` does what it is for exactly if the region has an entry, or the first key after its
log is that of an entry at the end index or beyond it, or there is no such key. -/
theorem gcRaftLog_collects_iff (hkeys : RaftKeys raftDb) (r endIdx : UInt64) :
    GcCollects raftDb r endIdx ↔
      (∃ i, raftDb.find (raftLogKey r i) ≠ none) ∨
      ∀ p, (OrderedList.ascendGreaterOrEqual Prod.fst (raftLogKey r 0) raftDb.pairs).head? =
          some p →
        ∃ r' m, p.1 = raftLogKey r' m ∧ endIdx ≤ m := by
  by_cases hentry : ∃ i, raftDb.find (raftLogKey r i) ≠ none
  · obtain ⟨i, hi⟩ := hentry
    obtain ⟨m, hfirst, hat, hbefore⟩ := @gcFirstIdx_of_entry raftDb r endIdx hkeys i hi
    exact iff_of_true (gcCollects_of_first hfirst (fun j _ hj => hbefore j hj) fun _ => hat)
      (Or.inl ⟨i, hi⟩)
  rw [or_iff_right hentry]
  have hnone : ∀ i, raftDb.find (raftLogKey r i) = none := by simpa using hentry
  cases hitems : OrderedList.ascendGreaterOrEqual Prod.fst (raftLogKey r 0) raftDb.pairs with
  | nil =>
    have hfirst : gcFirstIdx raftDb r 0 endIdx = .ok endIdx := by simp [gcFirstIdx, hitems]
    refine iff_of_true (gcCollects_of_first hfirst (fun i _ _ => hnone i) fun hlt => ?_) (by simp)
    exact absurd hlt (UInt64.lt_irrefl _)
  | cons p items =>
    obtain ⟨hp, -, -⟩ := raftDb.sorted.of_ascendGreaterOrEqual_eq_cons hitems
    simp only [head?_cons, Option.some.injEq, forall_eq']
    rcases hkeys p hp with ⟨r', m, hkey⟩ | ⟨r', hkey⟩
    · have hfirst : gcFirstIdx raftDb r 0 endIdx = .ok m := by
        simp [gcFirstIdx, hitems, hkey, raftLogIndex_raftLogKey]
      constructor
      · intro h
        -- No entries are removed, so that the number is zero.
        have hcount := h.count endIdx (UInt64.le_refl _) fun i hi => by
          simp [hnone i, UInt64.not_le.mpr hi]
        rw [(gcRaftLog_eq hfirst).1, UInt64.sub_self, Except.ok.injEq] at hcount
        refine ⟨r', m, hkey, ?_⟩
        by_contra hlt
        have hsub := UInt64.toNat_sub_of_le endIdx m (UInt64.le_of_lt (UInt64.not_le.mp hlt))
        rw [if_neg hlt] at hcount
        rw [hcount, UInt64.toNat_zero] at hsub
        rw [UInt64.le_iff_toNat_le] at hlt
        omega
      · rintro ⟨r'', m', hkey', hle⟩
        obtain ⟨rfl, rfl⟩ := raftLogKey_inj.mp (hkey.symm.trans hkey')
        exact gcCollects_of_first hfirst (fun i _ _ => hnone i)
          fun hlt => absurd hlt (UInt64.not_lt.mpr hle)
    · refine iff_of_false (fun h => ?_) ?_
      · obtain ⟨n, hn⟩ := h.returns
        have herr : gcFirstIdx raftDb r 0 endIdx = .error ⟨p.1⟩ := by
          have hlength : p.1.length ≠ regionRaftLogLen := by
            rw [hkey, raftStateKey, length_makeRegionPrefix]
            decide
          simp [gcFirstIdx, hitems, raftLogIndex_eq_error hlength]
        rw [gcRaftLog, herr] at hn
        cases hn
      · rintro ⟨r'', m, hkey', -⟩
        exact raftLogKey_ne_makeRegionPrefix (hkey'.symm.trans hkey)

theorem gcRaftLog_collects_two :
    let raftDb := Badger.empty.writeAll
      [(raftLogKey 1 4, some [0]), (raftLogKey 1 5, some [0]), (raftStateKey 1, some [0]),
        (raftLogKey 2 4, some [0])]
    GcCollects raftDb 1 5 ↔
      (∃ i, raftDb.find (raftLogKey 1 i) ≠ none) ∨
      ∀ p, (OrderedList.ascendGreaterOrEqual Prod.fst (raftLogKey 1 0) raftDb.pairs).head? =
          some p →
        ∃ r' m, p.1 = raftLogKey r' m ∧ 5 ≤ m := by
  intro raftDb
  refine gcRaftLog_collects_iff (fun p hp => ?_) 1 5
  have hpairs : raftDb.pairs = [(raftLogKey 1 4, [0]), (raftLogKey 1 5, [0]),
      (raftStateKey 1, [0]), (raftLogKey 2 4, [0])] := by decide
  rw [hpairs] at hp
  simp only [mem_cons, not_mem_nil, or_false] at hp
  rcases hp with rfl | rfl | rfl | rfl
  · exact Or.inl ⟨1, 4, rfl⟩
  · exact Or.inl ⟨1, 5, rfl⟩
  · exact Or.inr ⟨1, rfl⟩
  · exact Or.inl ⟨2, 4, rfl⟩

theorem gcRaftLog_no_entries :
    ¬ GcCollects (Badger.empty.set (raftStateKey 1) [0]) 1 5 := by
  intro h
  obtain ⟨n, hn⟩ := h.returns
  revert hn
  have herr : (gcRaftLog {} (Badger.empty.set (raftStateKey 1) [0]) 1 0 5).2 =
      .error (.invalidKey ⟨raftStateKey 1⟩) := by decide
  rw [herr]
  simp

end

end TinyKV
