import TinyKV.Raft.Persistence

/-!
# The commit rule

A leader that hears that a peer has its log up to a position counts the peers again.
-/

namespace TinyKV

open List

theorem ConsecutiveFrom.filter_le_index {p n : ℕ} {es : List Entry} (h : ConsecutiveFrom p es)
    (hn : p < n) : (es.filter fun e => n ≤ e.index) = es.drop (n - (p + 1)) := by
  rw [show n - (p + 1) = n - 1 - p by omega, ← h.filter_lt_index]
  refine filter_congr fun e _ => ?_
  rw [decide_eq_decide]
  omega

namespace RaftLog

/-- The log has consecutive entries after the position `f`, and all that the storage has not
compacted. -/
structure Contiguous (f : ℕ) (l : RaftLog) : Prop where
  consecutive : ConsecutiveFrom f l.entries
  lastIndex_eq : l.lastIndex = f + l.entries.length
  lastIndex_lt : l.lastIndex + 1 < 2^64
  dummy : ∃ d, l.storage.ents[0]? = some d ∧ f ≤ d.index ∧ d.index ≤ l.lastIndex

def knownTerm (l : RaftLog) (i : ℕ) : Option ℕ :=
  match l.entryAt i, l.storage.ents[0]? with
  | some e, _ => some e.term
  | none, some d => if d.index = i then some d.term else none
  | none, none => none

def prevTerm (l : RaftLog) (next : ℕ) : Option ℕ :=
  if next = 0 then none else l.knownTerm (next - 1)

variable {f i : ℕ} {l : RaftLog}

namespace Contiguous

variable (h : l.Contiguous f)
include h

theorem knownTerm_of_getElem? {k : ℕ} {e : Entry}
    (he : l.entries[k]? = some e) : l.knownTerm (f + k + 1) = some e.term := by
  unfold knownTerm
  rw [entryAt_of_consecutive h.consecutive, he]

theorem knownTerm_above (hi : l.lastIndex < i) : l.knownTerm i = none := by
  obtain ⟨d, hd, -, hle⟩ := h.dummy
  have hlast := h.lastIndex_eq
  obtain ⟨k, rfl⟩ : ∃ k, i = f + k + 1 := ⟨i - f - 1, by omega⟩
  unfold knownTerm
  rw [entryAt_of_consecutive h.consecutive, getElem?_eq_none (by omega), hd]
  exact if_neg (by omega)

theorem knownTerm_of_le (hi : i ≤ f) {d : Entry} (hd : l.storage.ents[0]? = some d) :
    l.knownTerm i = if d.index = i then some d.term else none := by
  unfold knownTerm
  rw [entryAt_eq_none_of_le h.consecutive hi, hd]

theorem term_eq (i : ℕ) :
    ∃ err, l.term i = .ok ((l.knownTerm i).getD 0, err) ∧ (err.isSome ↔ l.knownTerm i = none) := by
  have hlast := h.lastIndex_eq
  rcases Nat.lt_or_ge l.lastIndex i with habove | hle
  · refine ⟨some .errUnavailable, ?_, by simp [h.knownTerm_above habove]⟩
    unfold term
    rw [if_pos habove, h.knownTerm_above habove]
    rfl
  · rcases Nat.lt_or_ge f i with hlt | hge
    · obtain ⟨k, rfl⟩ : ∃ k, i = f + k + 1 := ⟨i - f - 1, by omega⟩
      have hget := getElem?_eq_getElem (show k < l.entries.length by omega)
      refine ⟨none, ?_, by simp [h.knownTerm_of_getElem? hget]⟩
      rw [term_of_consecutive h.consecutive hlast hget, h.knownTerm_of_getElem? hget]
      rfl
    · -- The storage answers.
      obtain ⟨d, hd, hfd, -⟩ := h.dummy
      rw [term_of_le h.consecutive hlast hge, MemoryStorage.term_of_le_dummy hd (hge.trans hfd),
        h.knownTerm_of_le hge hd]
      split_ifs
      · exact ⟨none, rfl, by simp⟩
      · exact ⟨some .errCompacted, rfl, by simp⟩

theorem le_of_knownTerm {t : ℕ} (hknown : l.knownTerm i = some t) : f ≤ i := by
  by_contra hlt
  obtain ⟨d, hd, hfd, -⟩ := h.dummy
  rw [h.knownTerm_of_le (by omega) hd, if_neg (by omega)] at hknown
  cases hknown

theorem term_prevTerm {next : ℕ} (hnext : next ≤ 2^64) :
    ∃ err, l.term (sub64 next 1) = .ok ((l.prevTerm next).getD 0, err) ∧
      (err.isSome ↔ l.prevTerm next = none) := by
  have hprev : l.prevTerm next = l.knownTerm (sub64 next 1) := by
    unfold prevTerm
    split_ifs with hzero
    · -- The position before zero wraps around, beyond the log.
      have hlast := h.lastIndex_lt
      refine (h.knownTerm_above ?_).symm
      rw [hzero, sub64_of_lt (by omega)]
      omega
    · rw [sub64_of_le (by omega)]
  rw [hprev]
  exact h.term_eq _

end Contiguous

end RaftLog

namespace Raft

def MajorityAt (r : Raft) (i : ℕ) : Prop :=
  r.prs.keys.length < 2 * r.prs.entries.countP fun pr => decide (i ≤ pr.2.matchIdx)

instance (r : Raft) (i : ℕ) : Decidable (r.MajorityAt i) := inferInstanceAs (Decidable (_ < _))

def appendFor (r : Raft) (peer : ℕ) : List Message :=
  match if peer = r.id then none else r.prs.lookup peer with
  | none => []
  | some pr =>
    match r.raftLog.prevTerm pr.next with
    | none => []
    | some t => [{
        msgType := .msgAppend
        toId := peer
        fromId := r.id
        term := r.term
        index := pr.next - 1
        logTerm := t
        entries := (r.raftLog.entries.filter fun e => pr.next ≤ e.index).map Entry.copy
        commit := r.raftLog.committed }]

structure Leading (f : ℕ) (r : Raft) : Prop where
  state_eq : r.state = .leader
  id_mem : r.id ∈ r.prs
  log : r.raftLog.Contiguous f
  next_lt : ∀ p pr, r.prs.lookup p = some pr → pr.next < 2^64

variable {f : ℕ} {r : Raft} {m : Message} {rnd : ℕ}

theorem sendAppendOther_of_contiguous (h : r.raftLog.Contiguous f) {peer : ℕ} {pr : Progress}
    (hpr : r.prs.lookup peer = some pr) (hnext : pr.next ≤ 2^64) :
    r.sendAppendOther peer = .ok (r.sendAll (r.appendFor peer)) := by
  unfold sendAppendOther appendFor
  by_cases hid : peer = r.id
  · simp [hid]
  · rw [if_pos hid, if_neg hid, hpr]
    unfold sendAppend
    obtain ⟨err, hterm, herr⟩ := h.term_prevTerm hnext
    simp only [hpr, Go.deref_some, Go.ok_bind, hterm]
    cases hprev : r.raftLog.prevTerm pr.next with
    | none =>
      rw [if_pos (herr.mpr hprev)]
      simp
    | some t =>
      unfold RaftLog.prevTerm at hprev
      split_ifs at hprev with hzero
      have hle := h.le_of_knownTerm hprev
      rw [if_neg (by simp [herr, RaftLog.prevTerm, hzero, hprev]),
        copyEntries_of_consecutive h.consecutive h.lastIndex_eq (by omega),
        h.consecutive.filter_le_index (by omega), sub64_of_le (by omega)]
      rfl

theorem exists_isGreatest_majorityAt {p : ℕ} (hp : p ∈ r.prs) : ∃ i,
    Go.index ((r.prs.entries.map fun pr => pr.2.matchIdx).insertionSort (· ≤ ·))
      ((((r.prs.entries.map fun pr => pr.2.matchIdx).insertionSort (· ≤ ·)).length - 1) / 2) =
        .ok i ∧ IsGreatest {i | r.MajorityAt i} i := by
  have hsorted := pairwise_insertionSort (· ≤ ·) (r.prs.entries.map fun pr => pr.2.matchIdx)
  have hperm := perm_insertionSort (· ≤ ·) (r.prs.entries.map fun pr => pr.2.matchIdx)
  generalize (r.prs.entries.map fun pr => pr.2.matchIdx).insertionSort (· ≤ ·) = sorted
    at hsorted hperm ⊢
  have hlen : sorted.length = r.prs.keys.length := by
    rw [hperm.length_eq, length_map]
    exact (length_map _).symm
  have hpos : 0 < r.prs.keys.length := length_pos_of_mem (AList.mem_keys.mpr hp)
  have hi : (sorted.length - 1) / 2 < sorted.length := by omega
  refine ⟨sorted[(sorted.length - 1) / 2], Go.index_eq_ok (getElem?_eq_getElem hi), ?_⟩
  have hset : {i | r.MajorityAt i} =
      {x | sorted.length < 2 * sorted.countP fun y => decide (x ≤ y)} := by
    ext x
    simp only [Set.mem_ofPred_eq, MajorityAt, hperm.countP_eq, countP_map, hlen]
    rfl
  rw [hset]
  exact Consensus.isGreatest_median hsorted hi

theorem broadcastAppend_of_contiguous (h : r.raftLog.Contiguous f)
    (hnext : ∀ p pr, r.prs.lookup p = some pr → pr.next ≤ 2^64) :
    r.broadcastAppend = .ok (r.sendAll (r.prs.keys.flatMap r.appendFor)) := by
  refine broadcastAppend_of_sends fun ms p hp => ?_
  obtain ⟨pr, hpr⟩ := Option.isSome_iff_exists.mp (AList.lookup_isSome.mpr (AList.mem_keys.mp hp))
  rw [sendAppendOther_of_contiguous (r := r.sendAll ms) h hpr (hnext p pr hpr)]
  rfl

def commitUpTo (r : Raft) (i : ℕ) : Raft :=
  if r.raftLog.committed < i ∧ (r.raftLog.knownTerm i).getD 0 = r.term then
    (r.setCommitted i).sendAll (r.prs.keys.flatMap (r.setCommitted i).appendFor)
  else r

theorem prs_commitUpTo (r : Raft) (i : ℕ) : (r.commitUpTo i).prs = r.prs := by
  unfold commitUpTo
  split_ifs <;> rfl

theorem committed_commitUpTo (r : Raft) (i : ℕ) :
    (r.commitUpTo i).raftLog.committed = if (r.raftLog.knownTerm i).getD 0 = r.term
      then max r.raftLog.committed i else r.raftLog.committed := by
  unfold commitUpTo
  split_ifs with hboth hown hown
  · exact (max_eq_right hboth.1.le).symm
  · exact absurd hboth.2 hown
  · exact (max_eq_left (not_lt.mp fun hlt => hboth ⟨hlt, hown⟩)).symm
  · rfl

theorem msgs_commitUpTo (r : Raft) (i : ℕ) :
    (r.commitUpTo i).msgs = r.msgs ++
      if (r.commitUpTo i).raftLog.committed = r.raftLog.committed then []
      else r.prs.keys.flatMap (r.commitUpTo i).appendFor := by
  unfold commitUpTo
  split_ifs with hboth hsame hsame
  · exact absurd hsame hboth.1.ne'
  · rfl
  · rw [append_nil]
  · exact absurd rfl hsame

theorem stepLeader_accepted (h : r.Leading f) (hm : m.msgType = .msgAppendResponse)
    (hreject : m.reject = false) (hfrom : m.fromId ∈ r.prs) (rnd : ℕ) :
    ∃ i, r.stepLeader rnd m = .ok ((r.setPrs m.fromId ⟨m.index, add64 m.index 1⟩).commitUpTo i) ∧
      IsGreatest {i | (r.setPrs m.fromId ⟨m.index, add64 m.index 1⟩).MajorityAt i} i := by
  obtain ⟨pr, hpr⟩ := Option.isSome_iff_exists.mp (AList.lookup_isSome.mpr hfrom)
  obtain ⟨i, hi, hgreatest⟩ := exists_isGreatest_majorityAt
    (r := r.setPrs m.fromId ⟨m.index, add64 m.index 1⟩) ((AList.mem_insert _).mpr (.inl rfl))
  have hnext : ∀ p pr', (r.setPrs m.fromId ⟨m.index, add64 m.index 1⟩).prs.lookup p = some pr' →
      pr'.next ≤ 2^64 := by
    intro p pr' hpr'
    rw [lookup_setPrs] at hpr'
    split_ifs at hpr' with heq
    · cases hpr'
      exact (add64_lt _ _).le
    · exact (h.next_lt p pr' hpr').le
  refine ⟨i, ?_, hgreatest⟩
  unfold stepLeader
  rw [hm]
  simp only [hpr, Go.deref_some, Go.ok_bind]
  rw [if_neg (by simp [hreject])]
  -- The median is over the progress that has just been changed.
  simp only [setPrs] at hi
  obtain ⟨err, hterm, -⟩ := h.log.term_eq i
  simp only [hi, Go.ok_bind, hterm]
  have hlog : RaftLog.Contiguous f
      ((r.setPrs m.fromId ⟨m.index, add64 m.index 1⟩).setCommitted i).raftLog :=
    ⟨h.log.consecutive, h.log.lastIndex_eq, h.log.lastIndex_lt, h.log.dummy⟩
  split_ifs with hlt hown
  · -- All passes of the loop see the new committed position.
    rw [commitUpTo, if_pos ⟨hlt, hown⟩]
    exact broadcastAppend_of_contiguous hlog hnext
  · rw [commitUpTo, if_neg fun hboth => hown hboth.2]
    rfl
  · rw [commitUpTo, if_neg fun hboth => hlt hboth.1]
    rfl

/-- On an answer that accepts its log, a leader commits up to the greatest position that more than
half of the peers have reached, if the term known of it is its own. When that is more than before,
it sends a `MsgAppend` to each other peer for which the term before `Next` is known. -/
theorem commit_rule (h : r.Leading f) (hm : m.msgType = .msgAppendResponse)
    (hreject : m.reject = false) (hterm : m.term = r.term) (hfrom : m.fromId ∈ r.prs)
    (rnd : ℕ) :
    ∃ r' i, r.step rnd m = .ok r' ∧ r'.prs = r.prs.insert m.fromId ⟨m.index, add64 m.index 1⟩ ∧
      IsGreatest {i | r'.MajorityAt i} i ∧
      r'.raftLog.committed = (if (r.raftLog.knownTerm i).getD 0 = r.term
        then max r.raftLog.committed i else r.raftLog.committed) ∧
      r'.msgs = r.msgs ++ (if r'.raftLog.committed = r.raftLog.committed then []
        else r'.prs.keys.flatMap r'.appendFor) := by
  obtain ⟨i, hstep, hgreatest⟩ := stepLeader_accepted h hm hreject hfrom rnd
  refine ⟨(r.setPrs m.fromId ⟨m.index, add64 m.index 1⟩).commitUpTo i, i, ?_, prs_commitUpTo .., ?_,
    committed_commitUpTo .., ?_⟩
  · unfold step dispatch
    rw [if_pos (by simp [hm]), if_neg (by omega), if_neg (by omega), h.state_eq]
    exact hstep
  · simp only [MajorityAt, prs_commitUpTo]
    exact hgreatest
  · rw [prs_commitUpTo]
    exact msgs_commitUpTo ..

def leaderOfLaggard : Raft where
  id := 1
  term := 2
  vote := None
  heartbeatTimeout := 1
  electionTimeoutBase := 10
  state := .leader
  lead := 1
  tickFn := .tickHeartbeat
  prs := AList.insert 1 ⟨3, 4⟩ (AList.insert 2 ⟨2, 3⟩ (AList.insert 3 ⟨0, 2⟩ ∅))
  raftLog := {
    storage := { ents := [{ index := 2, term := 1 }, { index := 3, term := 2 }] }
    committed := 2
    applied := 2
    stabled := 3
    entries := [{ index := 3, term := 2 }] }

def secondHasThree : Message where
  msgType := .msgAppendResponse
  toId := 1
  fromId := 2
  term := 2
  index := 3

theorem leading_leaderOfLaggard : leaderOfLaggard.Leading 2 where
  state_eq := rfl
  id_mem := by decide
  log := ⟨by decide, rfl, by decide, _, rfl, by decide, by decide⟩
  next_lt := by
    have hall : ∀ x ∈ leaderOfLaggard.prs.entries, x.2.next < 2^64 := by decide
    exact fun p pr hpr => hall ⟨p, pr⟩ (AList.mem_lookup_iff.mp hpr)

theorem commit_rule_secondHasThree :
    leaderOfLaggard.Leading 2 ∧ ∃ r' i, leaderOfLaggard.step 0 secondHasThree = .ok r' ∧
      IsGreatest {i | r'.MajorityAt i} i ∧
      r'.raftLog.committed = if (leaderOfLaggard.raftLog.knownTerm i).getD 0 = 2 then max 2 i
        else 2 := by
  obtain ⟨r', i, hstep, -, hgreatest, hcommitted, -⟩ := commit_rule leading_leaderOfLaggard
    (m := secondHasThree) rfl rfl rfl (by decide) 0
  exact ⟨leading_leaderOfLaggard, r', i, hstep, hgreatest, hcommitted⟩

theorem commit_skips_peer :
    leaderOfLaggard.Leading 2 ∧
      leaderOfLaggard.raftLog.entries.Pairwise (fun e e' => e.term ≤ e'.term) ∧
      (∀ e ∈ leaderOfLaggard.raftLog.entries, e.term ≤ leaderOfLaggard.term) ∧
      leaderOfLaggard.raftLog.committed = 2 ∧
      ∃ r', leaderOfLaggard.step 0 secondHasThree = .ok r' ∧ r'.raftLog.committed = 3 ∧
        3 ∈ r'.prs ∧ ∀ msg ∈ r'.msgs, msg.toId ≠ 3 := by
  refine ⟨leading_leaderOfLaggard, by decide, by decide, rfl, _, rfl, ?_⟩
  decide

end Raft

end TinyKV
