import TinyKV.Raft.LogBase

/-!
# `handleAppendEntries` on its own

Over a storage that has not been compacted, one `MsgAppend` does what the protocol asks for
(`Raft.handleAppendEntries_spec`).
-/

namespace TinyKV

open List

namespace RaftLog

variable {s t : ℕ} {l l' : RaftLog}

def Matches (l : RaftLog) (i term : ℕ) : Prop :=
  i = 0 ∧ term = 0 ∨ ∃ e, l.entryAt i = some e ∧ e.term = term

namespace Based

theorem matches_iff (h : l.Based s t) {k : ℕ} {e : Entry} :
    l.Matches (s + k + 1) e.term ↔ l.HasTermAt k e := by
  unfold Matches HasTermAt
  rw [h.entryAt_eq]
  simp

theorem term_of_matches (h : l.Based 0 0) {i term : ℕ} (hm : l.Matches i term) :
    i ≤ l.entries.length ∧ l.term i = .ok (term, none) := by
  rcases hm with ⟨rfl, rfl⟩ | ⟨e, he, rfl⟩
  · exact ⟨Nat.zero_le _, h.term_base⟩
  · obtain ⟨h1, he⟩ := h.entryAt_eq_some.mp he
    have hlt := (List.getElem?_eq_some_iff.mp he).1
    have hterm := h.term_of_getElem? he
    rw [show 0 + (i - 0 - 1) + 1 = i by omega] at hterm
    exact ⟨by omega, hterm⟩

theorem exists_matches (h : l.Based 0 0) {i : ℕ} (hi : i ≤ l.entries.length) :
    ∃ term, l.Matches i term := by
  cases i with
  | zero => exact ⟨0, Or.inl ⟨rfl, rfl⟩⟩
  | succ k =>
    obtain ⟨e, he⟩ : ∃ e, l.entries[k]? = some e := ⟨_, getElem?_eq_getElem hi⟩
    have hm := (h.matches_iff (e := e)).mpr ⟨e, he, rfl⟩
    rw [Nat.zero_add] at hm
    exact ⟨e.term, hm⟩

end Based

end RaftLog

namespace Raft

variable {r r' : Raft} {m : Message}

def acceptAppend (r : Raft) (m : Message) (l : RaftLog) : Raft :=
  let lastNewIndex := m.index + m.entries.length
  let l := if l.committed < m.commit then { l with committed := min m.commit lastNewIndex } else l
  send { r with raftLog := l } {
    msgType := .msgAppendResponse
    toId := m.fromId
    fromId := r.id
    term := r.term
    reject := false
    index := lastNewIndex }

theorem acceptAppend_entries (r : Raft) (m : Message) (l : RaftLog) :
    (r.acceptAppend m l).raftLog.entries = l.entries := by
  simp only [acceptAppend, send]
  split_ifs <;> rfl

theorem acceptAppend_stabled (r : Raft) (m : Message) (l : RaftLog) :
    (r.acceptAppend m l).raftLog.stabled = l.stabled := by
  simp only [acceptAppend, send]
  split_ifs <;> rfl

theorem handleAppendEntries_of_term_eq {err : Option StorageError}
    (hlast : m.index ≤ r.raftLog.lastIndex)
    (hterm : r.raftLog.term m.index = .ok (m.logTerm, err)) :
    r.handleAppendEntries m =
      (m.entries.foldlM handleAppendEntry r.raftLog >>= fun l => .ok (r.acceptAppend m l)) := by
  unfold handleAppendEntries
  rw [if_neg (not_lt.mpr hlast), hterm]
  simp only [Go.ok_bind, Go.pure_eq_ok, ne_eq, not_true_eq_false, if_false]
  rfl

def rejection (r : Raft) (m : Message) (hint : ℕ) : Message where
  msgType := .msgAppendResponse
  toId := m.fromId
  fromId := r.id
  term := r.term
  reject := true
  index := hint

theorem handleAppendEntries_of_lt (h : r.raftLog.lastIndex < m.index) :
    r.handleAppendEntries m = .ok (r.send (r.rejection m (r.raftLog.lastIndex + 1))) := by
  unfold handleAppendEntries
  rw [if_pos h]
  rfl

theorem handleAppendEntries_of_term_ne {term : ℕ} {err : Option StorageError}
    (hlast : m.index ≤ r.raftLog.lastIndex) (hterm : r.raftLog.term m.index = .ok (term, err))
    (hne : term ≠ m.logTerm) : r.handleAppendEntries m = .ok (r.send (r.rejection m 0)) := by
  unfold handleAppendEntries
  rw [if_neg (not_lt.mpr hlast), hterm]
  simp only [Go.ok_bind, if_pos hne]
  rfl

theorem handleAppendEntries_of_not_matches (h : r.raftLog.Based 0 0)
    (hm : ¬ r.raftLog.Matches m.index m.logTerm) :
    ∃ hint, r.handleAppendEntries m = .ok (r.send (r.rejection m hint)) := by
  have hlast := h.lastIndex_eq
  rw [Nat.zero_add] at hlast
  rcases Nat.lt_or_ge r.raftLog.entries.length m.index with hlt | hle
  · exact ⟨_, handleAppendEntries_of_lt (by rwa [hlast])⟩
  · obtain ⟨term, hterm⟩ := h.exists_matches hle
    refine ⟨0, handleAppendEntries_of_term_ne (by rwa [hlast]) (h.term_of_matches hterm).2 ?_⟩
    rintro rfl
    exact hm hterm

end Raft

namespace RaftLog

variable {s t : ℕ} {l l' : RaftLog} {k : ℕ} {es : List Entry}

theorem SplicedFrom.eq_of_forall (h : l.SplicedFrom s k es l')
    (hall : ∀ j e, es[j]? = some e → l.HasTermAt (k + j) e) : l' = l := by
  cases h with
  | kept _ => rfl
  | @cut q e he hno _ _ => exact absurd (hall q e he) hno

theorem SplicedFrom.eq_of_first (h : l.SplicedFrom s k es l') {q : ℕ} {e : Entry}
    (he : es[q]? = some e) (hno : ¬ l.HasTermAt (k + q) e)
    (hall : ∀ j e, j < q → es[j]? = some e → l.HasTermAt (k + j) e) :
    k + q ≤ l.entries.length ∧ l' = l.spliceFrom s (k + q) (es.drop q) := by
  cases h with
  | kept hall' => exact absurd (hall' q e he) hno
  | @cut p d hd hno' hle hall' =>
    -- Both are the first that the log does not have.
    obtain rfl : p = q := by
      rcases Nat.lt_trichotomy p q with hlt | heq | hlt
      · exact absurd (hall p d hlt hd) hno'
      · exact heq
      · exact absurd (hall' q e hlt he) hno
    exact ⟨hle, rfl⟩

end RaftLog

namespace Raft

variable {r : Raft} {m : Message}

/-- `handleAppendEntries` over a log that is not compacted refuses a message whose start the log
does not have, and then nothing else changes. Otherwise the log is cut off in front of the first
entry of the message that it does not have, and followed by the entries from there on. -/
theorem handleAppendEntries_spec (h : r.raftLog.Based 0 0)
    (hes : ConsecutiveFrom m.index m.entries) :
    Go.EnsuresWithin (m.index + m.entries.length) (r.handleAppendEntries m) fun r' =>
      ∃ reply, r'.msgs = r.msgs ++ [reply] ∧ reply.msgType = .msgAppendResponse ∧
        reply.toId = m.fromId ∧
        (reply.reject = true ↔ ¬ r.raftLog.Matches m.index m.logTerm) ∧
        (reply.reject = true → r'.raftLog = r.raftLog) ∧
        (reply.reject = false →
          reply.index = m.index + m.entries.length ∧
          ((∀ e ∈ m.entries, r.raftLog.Matches e.index e.term) →
            r'.raftLog.entries = r.raftLog.entries ∧ r'.raftLog.stabled = r.raftLog.stabled) ∧
          ∀ q e, m.entries[q]? = some e → ¬ r.raftLog.Matches e.index e.term →
            (∀ d ∈ m.entries.take q, r.raftLog.Matches d.index d.term) →
            r'.raftLog.entries = r.raftLog.entries.take (e.index - 1) ++ m.entries.drop q ∧
            r'.raftLog.stabled =
              if r.raftLog.entryAt e.index = none then r.raftLog.stabled
              else min r.raftLog.stabled (e.index - 1)) := by
  by_cases hm : r.raftLog.Matches m.index m.logTerm
  · obtain ⟨hle, hterm⟩ := h.term_of_matches hm
    have hlast : m.index ≤ r.raftLog.lastIndex := by rw [h.lastIndex_eq]; omega
    rw [handleAppendEntries_of_term_eq hlast hterm]
    refine (h.foldlM_handleAppendEntry hle (by rwa [Nat.zero_add])).bind le_rfl fun l hl => ?_
    -- The log has an entry of the message as `Matches` says.
    have hhas : ∀ {j e}, m.entries[j]? = some e →
        (r.raftLog.Matches e.index e.term ↔ r.raftLog.HasTermAt (m.index + j) e) := by
      intro j e he
      rw [hes j e he, ← h.matches_iff, Nat.zero_add]
    refine ⟨_, rfl, rfl, rfl, by simpa using hm, fun hr => absurd hr Bool.false_ne_true, fun _ =>
      ⟨rfl, fun hall => ?_, fun q e he hno hall => ?_⟩⟩
    · rw [acceptAppend_entries, acceptAppend_stabled,
        hl.2.eq_of_forall fun j e he => (hhas he).mp (hall e (mem_of_getElem? he))]
      exact ⟨rfl, rfl⟩
    · have hindex := hes q e he
      obtain ⟨hq, rfl⟩ := hl.2.eq_of_first he ((hhas he).not.mp hno) fun j d hj hd =>
        (hhas hd).mp (hall d (mem_of_getElem? (by rw [getElem?_take_of_lt hj, hd])))
      rw [acceptAppend_entries, acceptAppend_stabled, hindex, Nat.add_sub_cancel]
      refine ⟨rfl, ?_⟩
      have hat := h.entryAt_eq (m.index + q)
      rw [Nat.zero_add] at hat
      simp only [RaftLog.spliceFrom, Nat.zero_add, hat, List.getElem?_eq_none_iff]
      -- Beyond the end of the log, nothing is persisted.
      have hstabled := h.stabled_le
      split_ifs with hend
      · omega
      · rfl
  · obtain ⟨hint, heq⟩ := handleAppendEntries_of_not_matches h hm
    rw [heq]
    exact ⟨_, rfl, rfl, rfl, by simpa [rejection] using hm, fun _ => rfl, fun hr =>
      absurd hr (by simp [rejection])⟩

def threeEntries : Raft where
  id := 2
  term := 3
  vote := None
  heartbeatTimeout := 1
  electionTimeoutBase := 10
  raftLog := {
    storage := { ents := [{}, { index := 1, term := 1 }, { index := 2, term := 1 },
      { index := 3, term := 2 }] }
    committed := 1
    applied := 0
    stabled := 3
    entries := [{ index := 1, term := 1 }, { index := 2, term := 1 }, { index := 3, term := 2 }] }

def conflictAtThree : Message where
  msgType := .msgAppend
  fromId := 1
  toId := 2
  term := 3
  index := 1
  logTerm := 1
  entries := [{ index := 2, term := 1 }, { index := 3, term := 3 }, { index := 4, term := 3 }]

theorem handleAppendEntries_conflictAtThree :
    ∃ r', threeEntries.handleAppendEntries conflictAtThree = .ok r' ∧
      r'.raftLog.entries = [{ index := 1, term := 1 }, { index := 2, term := 1 },
        { index := 3, term := 3 }, { index := 4, term := 3 }] ∧ r'.raftLog.stabled = 2 := by
  have hbased : threeEntries.raftLog.Based 0 0 :=
    ⟨by decide, by decide, rfl, ⟨{}, rfl, rfl, rfl⟩, by decide, by decide⟩
  obtain ⟨r', hr', reply, -, -, -, hreject, -, haccept⟩ :=
    (handleAppendEntries_spec (m := conflictAtThree) hbased (by decide)).returns (by decide)
  have hstart : threeEntries.raftLog.Matches conflictAtThree.index conflictAtThree.logTerm :=
    Or.inr ⟨{ index := 1, term := 1 }, rfl, rfl⟩
  have hfalse : reply.reject = false := by simpa [hstart] using hreject
  obtain ⟨hentries, hstabled⟩ := (haccept hfalse).2.2 1 { index := 3, term := 3 } rfl
    (by simp [RaftLog.Matches, RaftLog.entryAt, threeEntries])
    (by simp [RaftLog.Matches, RaftLog.entryAt, threeEntries, conflictAtThree])
  exact ⟨r', hr', hentries, hstabled⟩

end Raft

/-- The storage has been compacted up to the position `s`, where the term is `t`. -/
structure MemoryStorage.CompactedTo (s t : ℕ) (ms : MemoryStorage) : Prop where
  dummy : ∃ d, ms.ents[0]? = some d ∧ d.index = s ∧ d.term = t
  consecutive : ConsecutiveFrom s ms.ents.tail
  length_le : ms.ents.length ≤ maxInt

structure RaftLog.Leads (lead : RaftLog) : Prop where
  based : lead.Based 0 0
  term_pos : ∀ e ∈ lead.entries, 1 ≤ e.term

structure Message.SegmentOf (lead : RaftLog) (m : Message) : Prop where
  start : lead.Matches m.index m.logTerm
  consecutive : ConsecutiveFrom m.index m.entries
  entries : ∀ e ∈ m.entries, lead.Matches e.index e.term

namespace RaftLog

variable {s t : ℕ} {l l' lead : RaftLog}

structure AgreesWith (s t : ℕ) (l lead : RaftLog) : Prop where
  base : s ≤ l.committed → lead.Matches s t
  entries : ∀ i ≤ l.committed, ∀ e, l.entryAt i = some e → lead.Matches i e.term

structure KeepsCommitted (s : ℕ) (l l' : RaftLog) : Prop where
  entries : ∀ i ≤ l.committed, ∀ e, l.entryAt i = some e → l'.entryAt i = some e
  le_stabled : s ≤ l'.stabled
  persisted : ∀ i, s < i → i ≤ l'.stabled →
    ∃ e, l.storage.ents[i - s]? = some e ∧ l'.entryAt i = some e

theorem Matches.inj {i term term' : ℕ} (h : l.Matches i term) (h' : l.Matches i term')
    (hi : 1 ≤ i) : term = term' := by
  rcases h with ⟨rfl, -⟩ | ⟨e, he, rfl⟩
  · omega
  · rcases h' with ⟨rfl, -⟩ | ⟨e', he', rfl⟩
    · omega
    · rw [he] at he'
      rw [Option.some.inj he']

theorem Leads.term_pos_of_matches (h : lead.Leads) {i term : ℕ} (hm : lead.Matches i term)
    (hi : 1 ≤ i) : 1 ≤ term := by
  rcases hm with ⟨rfl, -⟩ | ⟨e, he, rfl⟩
  · omega
  · exact h.term_pos e (mem_of_find?_eq_some he)

theorem Leads.le_maxInt (h : lead.Leads) {i term : ℕ} (hm : lead.Matches i term) : i ≤ maxInt :=
  (h.based.term_of_matches hm).1.trans h.based.length_le

structure Recovered (s t : ℕ) (l : RaftLog) : Prop where
  based : l.Based s t
  entries_eq : l.entries = l.storage.ents.tail
  stabled_eq : l.stabled = s + l.entries.length

namespace Recovered

theorem keepsCommitted_self (h : l.Recovered s t) : l.KeepsCommitted s l := by
  refine ⟨fun _ _ _ he => he, h.based.le_stabled, fun i hs hi => ?_⟩
  obtain ⟨k, rfl⟩ : ∃ k, i = s + k + 1 := ⟨i - s - 1, by omega⟩
  have hlt : k < l.entries.length := by
    have := h.stabled_eq
    omega
  obtain ⟨e, hk⟩ : ∃ e, l.entries[k]? = some e := ⟨_, getElem?_eq_getElem hlt⟩
  refine ⟨e, ?_, by rw [h.based.entryAt_eq, hk]⟩
  rw [h.entries_eq, getElem?_tail] at hk
  rw [show s + k + 1 - s = k + 1 by omega, hk]

variable {es : List Entry}

theorem entryAt_spliceFrom (h : l.Recovered s t) {k : ℕ} (hl' : (l.spliceFrom s k es).Based s t)
    {i : ℕ} {e : Entry} (hi : i ≤ s + k) (he : l.entryAt i = some e) :
    (l.spliceFrom s k es).entryAt i = some e := by
  obtain ⟨hs, hget⟩ := h.based.entryAt_eq_some.mp he
  refine hl'.entryAt_eq_some.mpr ⟨hs, ?_⟩
  have hlt := (List.getElem?_eq_some_iff.mp hget).1
  have htake : i - s - 1 < (l.entries.take k).length := by
    rw [length_take]
    omega
  rw [spliceFrom, getElem?_append_left htake, getElem?_take_of_lt (by omega)]
  exact hget

theorem keepsCommitted (h : l.Recovered s t) (hagree : l.AgreesWith s t lead) {k : ℕ}
    (hes : ConsecutiveFrom (s + k) es) (hlead : ∀ e ∈ es, lead.Matches e.index e.term)
    (hl' : l'.Based s t) (hsp : l.SplicedFrom s k es l') : l.KeepsCommitted s l' := by
  cases hsp with
  | kept _ => exact h.keepsCommitted_self
  | @cut q e he hno hle _ =>
    have hindex := hes q e he
    -- The entry at which the log is cut off is not committed.
    have hcut : ∀ i ≤ l.committed, ∀ d, l.entryAt i = some d → i ≤ s + (k + q) := by
      intro i hi d hd
      by_contra hgt
      obtain ⟨-, hget⟩ := h.based.entryAt_eq_some.mp hd
      have hlt := (List.getElem?_eq_some_iff.mp hget).1
      have hthere : l.entries[k + q]? = some (l.entries.get ⟨k + q, by omega⟩) :=
        getElem?_eq_getElem _
      have hat := h.based.entryAt_eq (k + q)
      rw [hthere] at hat
      have hterm := (hagree.entries _ (by omega) _ hat).inj
        (by simpa [hindex, Nat.add_assoc] using hlead e (mem_of_getElem? he)) (by omega)
      exact hno ⟨_, hthere, hterm⟩
    refine ⟨fun i hi d hd => h.entryAt_spliceFrom hl' (hcut i hi d hd) hd, hl'.le_stabled,
      fun i hs hi => ?_⟩
    have hmin : i ≤ l.stabled ∧ i ≤ s + (k + q) := Nat.le_min.mp hi
    obtain ⟨d, hd, hat⟩ := h.keepsCommitted_self.persisted i hs hmin.1
    exact ⟨d, hd, h.entryAt_spliceFrom hl' hmin.2 hat⟩

theorem foldlM_keepsCommitted (h : l.Recovered s t) (hlead : lead.Leads)
    (hagree : l.AgreesWith s t lead) {k : ℕ} (hk : k ≤ l.entries.length)
    (hes : ConsecutiveFrom (s + k) es) (hmem : ∀ e ∈ es, lead.Matches e.index e.term) :
    ∃ l', es.foldlM Raft.handleAppendEntry l = .ok l' ∧ l.KeepsCommitted s l' := by
  -- The last of the entries is at a position of the leader's log.
  have hlen : k + es.length ≤ maxInt := by
    rcases hlast : es.getLast? with _ | e
    · obtain rfl : es = [] := by simpa using hlast
      have := h.based.length_le
      simp only [length_nil]
      omega
    · rw [getLast?_eq_getElem?] at hlast
      have hindex := hes _ e hlast
      have hlt := (List.getElem?_eq_some_iff.mp hlast).1
      have := hlead.le_maxInt (hmem e (mem_of_getElem? hlast))
      omega
  obtain ⟨l', hl', hbased, hsp⟩ := (h.based.foldlM_handleAppendEntry hk hes).returns hlen
  exact ⟨l', hl', h.keepsCommitted hagree hes hmem hbased hsp⟩

end Recovered

end RaftLog

namespace Raft

variable {s t : ℕ} {r : Raft} {m : Message} {lead l : RaftLog}

theorem keepsCommitted_acceptAppend (h : r.raftLog.KeepsCommitted s l) :
    r.raftLog.KeepsCommitted s (r.acceptAppend m l).raftLog := by
  obtain ⟨hentries, hle, hpersisted⟩ := h
  refine ⟨?_, by rwa [acceptAppend_stabled], ?_⟩
  · simpa only [RaftLog.entryAt, acceptAppend_entries] using hentries
  · simpa only [RaftLog.entryAt, acceptAppend_entries, acceptAppend_stabled] using hpersisted

theorem recovered_of_newRaft {rnd : ℕ} {c : Config} {ms : MemoryStorage} (hms : ms.CompactedTo s t)
    (hc : c.storage = some ms) (hnew : newRaft rnd c = .ok r) :
    r.raftLog.Recovered s t ∧ r.raftLog.committed = ms.hardState.commit ∧ r.state = .follower := by
  obtain ⟨d, hd, rfl, rfl⟩ := hms.dummy
  obtain ⟨es, hents⟩ := head?_eq_some_iff.mp (head?_eq_getElem?.trans hd)
  have hconsecutive := hms.consecutive
  have hlen := hms.length_le
  simp only [hents, tail_cons, length_cons] at hconsecutive hlen
  unfold newRaft at hnew
  split at hnew
  · cases hnew
  · simp only [hc, Go.deref_some, Go.ok_bind, RaftLog.newLog_of_ents hents, Go.pure_eq_ok,
      Except.ok.injEq] at hnew
    subst hnew
    simp only [becomeFollower, lt_irrefl, if_false]
    have hle : es.length ≤ maxInt := by omega
    exact ⟨⟨⟨hconsecutive, hle, rfl, ⟨d, hd, rfl, rfl⟩, Nat.le_add_right _ _, le_rfl⟩,
      by simp [hents], rfl⟩, rfl, trivial⟩

theorem step_append_eq {rnd : ℕ} (hstate : r.state = .follower) (htype : m.msgType = .msgAppend)
    (hterm : m.term = r.term) :
    r.step rnd m = handleAppendEntries { r with electionElapsed := 0, lead := m.fromId } m := by
  simp [step, dispatch, stepFollower, hstate, htype, hterm]

section

variable (h : r.raftLog.Recovered s t)
include h

theorem keepsCommitted_of_le (hlead : lead.Leads)
    (hagree : r.raftLog.AgreesWith s t lead) (hseg : m.SegmentOf lead) (hle : s ≤ m.index) :
    ∃ r', r.handleAppendEntries m = .ok r' ∧ r.raftLog.KeepsCommitted s r'.raftLog := by
  have hlast := h.based.lastIndex_eq
  rcases Nat.lt_or_ge r.raftLog.lastIndex m.index with hlt | hge
  · exact ⟨_, handleAppendEntries_of_lt hlt, h.keepsCommitted_self⟩
  · obtain ⟨k, hk⟩ : ∃ k, m.index = s + k := ⟨m.index - s, by omega⟩
    -- The term of the start is that of the storage, or that of an entry.
    obtain ⟨term, hterm⟩ : ∃ term, r.raftLog.term m.index = .ok (term, none) := by
      cases k with
      | zero => exact ⟨t, by rw [hk]; exact h.based.term_base⟩
      | succ k =>
        obtain ⟨e, he⟩ : ∃ e, r.raftLog.entries[k]? = some e :=
          ⟨_, getElem?_eq_getElem (by omega)⟩
        exact ⟨e.term, by rw [hk]; exact h.based.term_of_getElem? he⟩
    by_cases heq : term = m.logTerm
    · subst heq
      obtain ⟨l', hl', hkeeps⟩ := h.foldlM_keepsCommitted hlead hagree (k := k) (by omega)
        (hk ▸ hseg.consecutive) hseg.entries
      refine ⟨r.acceptAppend m l', ?_, keepsCommitted_acceptAppend hkeeps⟩
      rw [handleAppendEntries_of_term_eq hge hterm, hl']
      rfl
    · exact ⟨_, handleAppendEntries_of_term_ne hge hterm heq, h.keepsCommitted_self⟩

theorem keepsCommitted_of_lt (hlead : lead.Leads)
    (hseg : m.SegmentOf lead) (hlt : m.index < s) (hpos : 1 ≤ m.index) :
    ∃ r', r.handleAppendEntries m = .ok r' ∧ r.raftLog.KeepsCommitted s r'.raftLog := by
  have hlast := h.based.lastIndex_eq
  have hterm := hlead.term_pos_of_matches hseg.start hpos
  exact ⟨_, handleAppendEntries_of_term_ne (by omega) (h.based.term_below hlt) (by omega),
    h.keepsCommitted_self⟩

theorem handleAppendEntries_of_index_zero (hs : 1 ≤ s)
    (hseg : m.SegmentOf lead) (hlead : lead.Leads) (hzero : m.index = 0) :
    r.handleAppendEntries m =
      (m.entries.foldlM handleAppendEntry r.raftLog >>= fun l => .ok (r.acceptAppend m l)) := by
  have hterm : m.logTerm = 0 := by
    have := (hlead.based.term_of_matches hseg.start).2
    rw [hzero, hlead.based.term_base] at this
    simpa using this.symm
  have hbelow : r.raftLog.term m.index = .ok (m.logTerm, some .errCompacted) := by
    rw [hzero, hterm]
    exact h.based.term_below hs
  exact handleAppendEntries_of_term_eq (by omega) hbelow

theorem handleAppendEntry_base {e : Entry} (hindex : e.index = s)
    (hterm : e.term = t) : handleAppendEntry r.raftLog e = .ok r.raftLog := by
  have hlast := h.based.lastIndex_eq
  unfold handleAppendEntry
  rw [if_pos (by omega), hindex, h.based.term_base]
  simp [hterm]

theorem handleAppendEntry_below {e : Entry} (hindex : e.index < s) (hterm : 1 ≤ e.term)
    (hs : s ≤ maxInt) : ∃ p, handleAppendEntry r.raftLog e = .error p := by
  have hlast := h.based.lastIndex_eq
  have hlen := h.based.length_le
  unfold handleAppendEntry
  rw [if_pos (by omega), h.based.term_below hindex]
  simp only [Go.ok_bind, if_pos (show (0 : ℕ) ≠ e.term by omega)]
  have hentries : (if e.index ≤ r.raftLog.stabled then
      { r.raftLog with stabled := sub64 e.index 1 } else r.raftLog).entries =
      r.raftLog.entries := by
    split_ifs <;> rfl
  rw [hentries]
  cases hes : r.raftLog.entries with
  | nil => exact ⟨_, rfl⟩
  | cons first rest =>
    -- The difference of the positions wraps around, and is beyond the end of any slice.
    have hfirst := h.based.index_head hes
    have hslice : Go.slice (first :: rest) 0 (sub64 e.index first.index) =
        .error .sliceOutOfRange := by
      rw [sub64_of_lt (by omega)]
      refine if_neg ?_
      rw [hes] at hlen
      unfold maxInt at hs hlen
      omega
    refine ⟨.sliceOutOfRange, ?_⟩
    simp only [Go.index, getElem?_cons_zero, Go.ok_bind, hslice]
    rfl

end

/-- Over a compacted storage, a segment of the log of a leader that agrees on what is committed
leaves what is committed and persisted as it is, if and only if it does not bring the first entry of
the log to a follower that has compacted more than that. -/
theorem step_append_keepsCommitted_iff {rnd : ℕ} (rnd' : ℕ) {c : Config} {ms : MemoryStorage}
    (hms : ms.CompactedTo s t) (hs : 1 ≤ s) (hcommit : s ≤ ms.hardState.commit)
    (hc : c.storage = some ms) (hnew : newRaft rnd c = .ok r) (hlead : lead.Leads)
    (hagree : r.raftLog.AgreesWith s t lead) (htype : m.msgType = .msgAppend)
    (hterm : m.term = r.term) (hseg : m.SegmentOf lead) :
    (∃ r', r.step rnd' m = .ok r' ∧ r.raftLog.KeepsCommitted s r'.raftLog) ↔
      ¬ (m.index = 0 ∧ 2 ≤ s ∧ m.entries ≠ []) := by
  obtain ⟨h, hcommitted, hstate⟩ := recovered_of_newRaft hms hc hnew
  have hbase := hagree.base (by rwa [hcommitted])
  rw [step_append_eq hstate htype hterm]
  -- The heartbeat does not matter to the log.
  generalize hr₁ : ({ r with electionElapsed := 0, lead := m.fromId } : Raft) = r₁
  obtain hlog : r.raftLog = r₁.raftLog := by rw [← hr₁]
  rw [hlog] at h hagree ⊢
  rcases Nat.eq_zero_or_pos m.index with hzero | hpos
  · rw [handleAppendEntries_of_index_zero h hs hseg hlead hzero]
    cases hes : m.entries with
    | nil => exact iff_of_true ⟨_, rfl, keepsCommitted_acceptAppend h.keepsCommitted_self⟩ (by simp)
    | cons e es =>
      have hcons := hseg.consecutive
      have hmem := hseg.entries
      rw [hes, hzero, consecutiveFrom_cons] at hcons
      rw [hes] at hmem
      have he := hmem e mem_cons_self
      have hone : e.index = 1 := by omega
      rw [foldlM_cons]
      rcases Nat.lt_or_ge 1 s with hlt | hge
      · -- The first entry is taken for a conflict.
        obtain ⟨p, hp⟩ := handleAppendEntry_below h (by omega)
          (hlead.term_pos_of_matches he (by omega)) (hlead.le_maxInt hbase)
        rw [hp]
        refine iff_of_false ?_ (not_not.mpr ⟨hzero, hlt, cons_ne_nil e es⟩)
        rintro ⟨r', hr', -⟩
        cases hr'
      · -- The first entry is the one up to which the storage has been compacted.
        obtain rfl : s = 1 := by omega
        rw [handleAppendEntry_base h hone (he.inj (hone ▸ hbase) (by omega)), Go.ok_bind]
        obtain ⟨l', hl', hkeeps⟩ := h.foldlM_keepsCommitted hlead hagree (Nat.zero_le _) hcons.2
          fun d hd => hmem d (mem_cons_of_mem e hd)
        rw [hl', Go.ok_bind]
        exact iff_of_true ⟨_, rfl, keepsCommitted_acceptAppend hkeeps⟩ (by simp)
  · refine iff_of_true ?_ (by omega)
    rcases Nat.lt_or_ge m.index s with hlt | hge
    · exact keepsCommitted_of_lt h hlead hseg hlt hpos
    · exact keepsCommitted_of_le h hlead hagree hseg hge

def compactedAtTwo : MemoryStorage where
  hardState := { term := 2, commit := 2 }
  ents := [{ index := 2, term := 1 }, { index := 3, term := 1 }]

def compactedConfig : Config where
  id := 2
  peers := [1, 2, 3]
  electionTick := 10
  heartbeatTick := 1
  storage := some compactedAtTwo

def leaderOfTwo : RaftLog where
  storage := newMemoryStorage
  committed := 2
  applied := 2
  stabled := 0
  entries := [{ index := 1, term := 1 }, { index := 2, term := 1 }, { index := 3, term := 2 }]

def segmentFrom (index logTerm : ℕ) : Message where
  msgType := .msgAppend
  fromId := 1
  toId := 2
  term := 2
  index := index
  logTerm := logTerm
  entries := leaderOfTwo.entries.drop index

theorem compactedAtTwo_compactedTo : compactedAtTwo.CompactedTo 2 1 :=
  ⟨⟨_, rfl, rfl, rfl⟩, by decide, by decide⟩

theorem leaderOfTwo_leads : leaderOfTwo.Leads :=
  ⟨⟨by decide, by decide, rfl, ⟨{}, rfl, rfl, rfl⟩, by decide, by decide⟩, by decide⟩

theorem segmentFrom_segmentOf {i term : ℕ} (h : leaderOfTwo.Matches i term) :
    (segmentFrom i term).SegmentOf leaderOfTwo := by
  refine ⟨h, ?_, fun e he => ?_⟩
  · simpa [segmentFrom] using leaderOfTwo_leads.based.consecutive.drop i
  · have hall : ∀ e ∈ leaderOfTwo.entries, leaderOfTwo.entryAt e.index = some e := by decide
    exact Or.inr ⟨e, hall e (mem_of_mem_drop he), rfl⟩

theorem agreesWith_leaderOfTwo (h : newRaft 0 compactedConfig = .ok r) :
    r.raftLog.AgreesWith 2 1 leaderOfTwo := by
  obtain ⟨hr, hcommitted, -⟩ := recovered_of_newRaft compactedAtTwo_compactedTo rfl h
  refine ⟨fun _ => Or.inr ⟨{ index := 2, term := 1 }, rfl, rfl⟩, fun i hi e he => ?_⟩
  rw [hcommitted] at hi
  rw [hr.based.entryAt_of_le hi] at he
  cases he

theorem step_segmentFrom_two :
    ∃ r r', newRaft 0 compactedConfig = .ok r ∧ r.step 0 (segmentFrom 2 1) = .ok r' ∧
      r.raftLog.KeepsCommitted 2 r'.raftLog := by
  obtain ⟨r, hr⟩ : ∃ r, newRaft 0 compactedConfig = .ok r := ⟨_, rfl⟩
  have hterm : (segmentFrom 2 1).term = r.term := by
    cases hr
    rfl
  obtain ⟨r', hr'⟩ := (step_append_keepsCommitted_iff 0 compactedAtTwo_compactedTo (by decide)
    (by decide) rfl hr leaderOfTwo_leads (agreesWith_leaderOfTwo hr) rfl hterm
    (segmentFrom_segmentOf (Or.inr ⟨{ index := 2, term := 1 }, rfl, rfl⟩))).mpr (by decide)
  exact ⟨r, r', hr, hr'⟩

theorem step_segmentFrom_zero :
    compactedAtTwo.CompactedTo 2 1 ∧ leaderOfTwo.Leads ∧
      (segmentFrom 0 0).SegmentOf leaderOfTwo ∧
      ∃ r, newRaft 0 compactedConfig = .ok r ∧ r.raftLog.AgreesWith 2 1 leaderOfTwo ∧
        (segmentFrom 0 0).term = r.term ∧
        r.step 0 (segmentFrom 0 0) = .error .sliceOutOfRange := by
  refine ⟨compactedAtTwo_compactedTo, leaderOfTwo_leads,
    segmentFrom_segmentOf (Or.inl ⟨rfl, rfl⟩), _, rfl, agreesWith_leaderOfTwo rfl, rfl, ?_⟩
  decide +kernel

end Raft

end TinyKV
