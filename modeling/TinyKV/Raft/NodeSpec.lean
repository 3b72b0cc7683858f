import TinyKV.GoMap
import TinyKV.Raft.LogSpec

/-!
# What the functions of a node compute

On a node that is well formed for a set of peers (`Raft.WF`), the functions that send messages and
change roles never panic.
-/

namespace TinyKV

open List
open Consensus (Slot termAt)

namespace Raft

/-- The representation invariant of a node whose group has the peers `P`. -/
structure WF (P : Finset ℕ) (r : Raft) : Prop where
  log : r.raftLog.WF
  mem_prs : ∀ p, p ∈ r.prs ↔ p ∈ P
  id_mem : r.id ∈ P
  id_ne : r.id ≠ None
  next_lt : ∀ p pr, r.prs.lookup p = some pr → pr.next < 2^64

variable {P : Finset ℕ} {r r' : Raft}

theorem WF.congr (h : r.WF P) (hid : r'.id = r.id) (hprs : r'.prs = r.prs)
    (hlog : r'.raftLog = r.raftLog) : r'.WF P := by
  refine ⟨?_, ?_, ?_, ?_, ?_⟩
  · rw [hlog]
    exact h.log
  · rw [hprs]
    exact h.mem_prs
  · rw [hid]
    exact h.id_mem
  · rw [hid]
    exact h.id_ne
  · rw [hprs]
    exact h.next_lt

variable {l : RaftLog}

theorem WF.setLog (h : r.WF P) (hl : l.WF) : WF P { r with raftLog := l } :=
  ⟨hl, h.mem_prs, h.id_mem, h.id_ne, h.next_lt⟩

theorem WF.length_keys (h : r.WF P) : r.prs.keys.length = P.card := by
  rw [← toFinset_card_of_nodup r.prs.keys_nodup]
  congr 1
  ext p
  rw [mem_toFinset, ← AList.mem_keys, h.mem_prs]

theorem WF.lookup_prs (h : r.WF P) {p : ℕ} (hp : p ∈ P) : ∃ pr, r.prs.lookup p = some pr := by
  rw [← Option.isSome_iff_exists, AList.lookup_isSome, h.mem_prs]
  exact hp

theorem WF.mem_of_lookup (h : r.WF P) {p : ℕ} {pr : Progress} (hp : r.prs.lookup p = some pr) :
    p ∈ P := by
  rw [← h.mem_prs, ← AList.lookup_isSome, hp]
  rfl

def sendAll (r : Raft) (ms : List Message) : Raft := { r with msgs := r.msgs ++ ms }

@[simp]
theorem sendAll_nil (r : Raft) : r.sendAll [] = r := by simp [sendAll]

@[simp]
theorem sendAll_sendAll (r : Raft) (ms ms' : List Message) :
    (r.sendAll ms).sendAll ms' = r.sendAll (ms ++ ms') := by simp [sendAll]

theorem WF.sendAll (h : r.WF P) (ms : List Message) : (r.sendAll ms).WF P :=
  h.congr rfl rfl rfl

theorem WF.of_sendAll {ms : List Message} (h : (r.sendAll ms).WF P) : r.WF P :=
  h.congr rfl rfl rfl

def appendMsg (r : Raft) (peer next : ℕ) : Message where
  msgType := .msgAppend
  toId := peer
  fromId := r.id
  term := r.term
  index := next - 1
  logTerm := termAt r.raftLog.slots (next - 1)
  entries := (r.raftLog.entries.drop (next - 1)).map Entry.copy
  commit := r.raftLog.committed

def CanSend (r : Raft) (next : ℕ) : Prop := 1 ≤ next ∧ next ≤ r.raftLog.entries.length + 1

instance (r : Raft) (next : ℕ) : Decidable (r.CanSend next) :=
  inferInstanceAs (Decidable (_ ∧ _))

theorem copyEntries_of_consecutive {f : ℕ} (h : ConsecutiveFrom f l.entries)
    (hlast : l.lastIndex = f + l.entries.length) {next : ℕ} (hn : f < next) :
    copyEntries l next = .ok ((l.entries.drop (next - (f + 1))).map Entry.copy) := by
  unfold copyEntries
  rw [hlast]
  rw [Go.mapM_eq_ok (g := fun i => (l.entries[i - (f + 1)]?.map Entry.copy).getD {})]
  · -- The copies, place by place.
    congr 1
    apply ext_getElem?
    intro k
    rw [getElem?_map, getElem?_map, getElem?_drop]
    rcases Nat.lt_or_ge k (f + l.entries.length + 1 - next) with hlt | hge
    · have h1 := getElem?_eq_getElem (show next - (f + 1) + k < l.entries.length by omega)
      rw [getElem?_range' hlt, Option.map_some,
        show next + 1 * k - (f + 1) = next - (f + 1) + k by omega, h1]
      rfl
    · rw [getElem?_eq_none (by simpa using hge), getElem?_eq_none (by omega)]
      rfl
  · -- Each pass reads inside the log, whose first entry has the index `f + 1`.
    intro i hi
    rw [mem_range'_1] at hi
    have h0 := getElem?_eq_getElem (show 0 < l.entries.length by omega)
    have h1 := getElem?_eq_getElem (show i - (f + 1) < l.entries.length by omega)
    have hsub : sub64 i l.entries[0].index = i - (f + 1) := by
      rw [h 0 _ h0, sub64_of_le (by omega)]
    simp only [Go.index_eq_ok h0, Go.ok_bind, hsub, Go.index_eq_ok h1, h1]
    rfl

theorem copyEntries_eq (h : l.WF) {next : ℕ} (hn : 1 ≤ next) :
    copyEntries l next = .ok ((l.entries.drop (next - 1)).map Entry.copy) := by
  have := copyEntries_of_consecutive h.consecutive h.toBased.lastIndex_eq hn
  rwa [Nat.zero_add] at this

theorem sendAppend_eq (h : r.raftLog.WF) {peer : ℕ} {pr : Progress}
    (hpr : r.prs.lookup peer = some pr) (hlt : pr.next < 2^64) :
    r.sendAppend peer = if r.CanSend pr.next then .ok (r.sendAll [r.appendMsg peer pr.next], true)
      else .ok (r, false) := by
  have hlen := h.length_le
  unfold sendAppend
  rw [hpr, Go.deref_some]
  simp only [Go.ok_bind, h.term_eq]
  by_cases hc : r.CanSend pr.next
  · have hsub : sub64 pr.next 1 = pr.next - 1 := sub64_of_le hc.1
    have hle : pr.next - 1 ≤ r.raftLog.entries.length := by
      have := hc.2
      omega
    rw [if_pos hc, hsub, copyEntries_eq h hc.1]
    simp [hle, sendAll, send, appendMsg]
  · -- Either `Next` is beyond the log, or it is zero and the position before it wraps around.
    have hsub : ¬ sub64 pr.next 1 ≤ r.raftLog.entries.length := by
      unfold CanSend at hc
      unfold sub64
      unfold maxInt at hlen
      split_ifs <;> omega
    simp [hc, hsub]

/-- What a pass of the loop over the peers sends. -/
def appendMsgs (r : Raft) (peer : ℕ) : List Message :=
  if peer = r.id then []
  else match r.prs.lookup peer with
    | some pr => if r.CanSend pr.next then [r.appendMsg peer pr.next] else []
    | none => []

theorem sendAppendOther_eq (h : r.WF P) {peer : ℕ} (hp : peer ∈ P) :
    r.sendAppendOther peer = .ok (r.sendAll (r.appendMsgs peer)) := by
  obtain ⟨pr, hpr⟩ := h.lookup_prs hp
  unfold sendAppendOther appendMsgs
  rw [sendAppend_eq h.log hpr (h.next_lt peer pr hpr), hpr]
  split_ifs <;> simp_all

def broadcast (r : Raft) : Raft := r.sendAll (r.prs.keys.flatMap r.appendMsgs)

theorem broadcastAppend_of_sends {out : ℕ → List Message}
    (hout : ∀ ms, ∀ p ∈ r.prs.keys, (r.sendAll ms).sendAppendOther p = .ok ((r.sendAll ms).sendAll
      (out p))) : r.broadcastAppend = .ok (r.sendAll (r.prs.keys.flatMap out)) := by
  suffices hloop : ∀ (ids : List ℕ) (ms : List Message), ids ⊆ r.prs.keys →
      ids.foldlM sendAppendOther (r.sendAll ms) = .ok (r.sendAll (ms ++ ids.flatMap out)) by
    have := hloop r.prs.keys [] (List.Subset.refl _)
    simpa [broadcastAppend] using this
  intro ids
  induction ids with
  | nil =>
    intro ms _
    simp
  | cons id ids ih =>
    intro ms hids
    rw [foldlM_cons, hout ms id (hids mem_cons_self), Go.ok_bind, sendAll_sendAll,
      ih _ fun p hp => hids (mem_cons_of_mem id hp), flatMap_cons, append_assoc]

theorem broadcastAppend_eq (h : r.WF P) : r.broadcastAppend = .ok r.broadcast := by
  refine broadcastAppend_of_sends fun ms p hp => ?_
  rw [sendAppendOther_eq (h.sendAll ms) ((h.mem_prs p).mp (AList.mem_keys.mpr hp))]
  rfl

theorem foldl_sendAll {f : Raft → ℕ → Raft} {out : ℕ → List Message}
    (hf : ∀ ms id, f (r.sendAll ms) id = (r.sendAll ms).sendAll (out id)) (ids : List ℕ) :
    ids.foldl f r = r.sendAll (ids.flatMap out) := by
  suffices hloop : ∀ ms, ids.foldl f (r.sendAll ms) = r.sendAll (ms ++ ids.flatMap out) by
    simpa using hloop []
  induction ids with
  | nil => simp
  | cons id ids ih =>
    intro ms
    rw [foldl_cons, hf, sendAll_sendAll, ih]
    simp

def campaigning [TermWidth] (rnd : ℕ) (r : Raft) : Raft :=
  { r with
    state := .candidate
    term := TermWidth.wrap (r.term + 1)
    lead := None
    vote := r.id
    votes := AList.insert r.id true ∅
    electionElapsed := 0
    heartbeatElapsed := 0
    tickFn := .tickElection
    electionTimeout := int64 (r.electionTimeoutBase + randIntn rnd r.electionTimeoutBase) }

theorem WF.campaigning (h : r.WF P) (rnd : ℕ) : (r.campaigning rnd).WF P :=
  h.congr rfl rfl rfl

def requestVoteMsg (r : Raft) (peer : ℕ) : Message where
  msgType := .msgRequestVote
  toId := peer
  fromId := r.id
  term := r.term
  index := r.raftLog.entries.length
  logTerm := termAt r.raftLog.slots r.raftLog.entries.length

def setCommitted (r : Raft) (i : ℕ) : Raft :=
  { r with raftLog := { r.raftLog with committed := i } }

theorem WF.setCommitted (h : r.WF P) {i : ℕ} (hi : r.raftLog.applied ≤ i) :
    (r.setCommitted i).WF P :=
  h.setLog { h.log with applied_le := hi }

theorem WF.of_setCommitted {i : ℕ} (h : (r.setCommitted i).WF P)
    (hi : r.raftLog.applied ≤ r.raftLog.committed) : r.WF P :=
  h.setLog (l := r.raftLog) { h.log with applied_le := hi }

def announce (P : Finset ℕ) (r : Raft) : Raft :=
  if P.card = 1 then r.setCommitted r.raftLog.entries.length else r.broadcast

theorem WF.of_announce (h : (r.announce P).WF P)
    (happlied : r.raftLog.applied ≤ r.raftLog.committed) : r.WF P := by
  unfold Raft.announce at h
  split_ifs at h
  · exact h.of_setCommitted happlied
  · exact h.of_sendAll

@[simp]
theorem announce_entries (r : Raft) (P : Finset ℕ) :
    (r.announce P).raftLog.entries = r.raftLog.entries := by
  unfold announce
  split_ifs <;> rfl

@[simp]
theorem announce_state (r : Raft) (P : Finset ℕ) : (r.announce P).state = r.state := by
  unfold announce
  split_ifs <;> rfl

@[simp]
theorem announce_term (r : Raft) (P : Finset ℕ) : (r.announce P).term = r.term := by
  unfold announce
  split_ifs <;> rfl

def noop (r : Raft) : Entry := { term := r.term, index := r.raftLog.entries.length + 1 }

def elected (r : Raft) : Raft :=
  { r with
    state := .leader
    lead := r.id
    vote := None
    votes := ∅
    electionElapsed := 0
    heartbeatElapsed := 0
    tickFn := .tickHeartbeat
    prs := (r.prs.keys.foldl
      (fun prs id => prs.insert id ⟨0, r.raftLog.entries.length + 1⟩) r.prs).insert r.id
        ⟨r.raftLog.entries.length + 1, r.raftLog.entries.length + 2⟩
    raftLog := { r.raftLog with entries := r.raftLog.entries ++ [r.noop] } }

theorem WF.lookup_elected (h : r.WF P) (p : ℕ) : r.elected.prs.lookup p =
    if p = r.id then some ⟨r.raftLog.entries.length + 1, r.raftLog.entries.length + 2⟩
    else if p ∈ P then some ⟨0, r.raftLog.entries.length + 1⟩ else none := by
  unfold elected
  by_cases hp : p = r.id
  · subst hp
    simp
  · rw [if_neg hp, AList.lookup_insert_ne hp, GoMap.lookup_foldl_insert]
    simp only [← AList.mem_keys, h.mem_prs]
    split_ifs with hP
    · rfl
    · rw [AList.lookup_eq_none, h.mem_prs]
      exact hP

theorem WF.elected (h : r.WF P) (hlen : (r.raftLog.entries ++ [r.noop]).length ≤ maxInt) :
    r.elected.WF P := by
  have hid := h.id_mem
  have hmax : maxInt + 2 < 2^64 := by decide
  have hnoop : ConsecutiveFrom r.raftLog.entries.length [r.noop] :=
    consecutiveFrom_cons.mpr ⟨rfl, consecutiveFrom_nil _⟩
  refine ⟨h.log.append hnoop hlen, ?_, h.id_mem, h.id_ne, ?_⟩
  · intro p
    rw [← AList.lookup_isSome, h.lookup_elected]
    split_ifs with h1 h2
    · simpa [h1] using hid
    · simpa using h2
    · simpa using h2
  · intro p pr hpr
    rw [h.lookup_elected] at hpr
    rw [length_append, length_singleton] at hlen
    split_ifs at hpr <;> obtain rfl := Option.some.inj hpr <;> simp only <;> omega

theorem becomeLeader_ensures (h : r.WF P) : Go.Ensures r.becomeLeader fun r' =>
    r.elected.WF P ∧ r' = r.elected.announce P := by
  unfold becomeLeader
  simp only [h.log.lastIndex_eq]
  refine (Go.append_ensures _ _).bind fun es hes => ?_
  obtain ⟨rfl, hlen⟩ := hes
  have hwf := h.elected hlen
  -- The pointer to the leader's own progress is not nil.
  have hself : (r.prs.keys.foldl (fun prs id => AList.insert id
      (⟨0, r.raftLog.entries.length + 1⟩ : Progress) prs) r.prs).lookup r.id =
      some ⟨0, r.raftLog.entries.length + 1⟩ := by
    rw [GoMap.lookup_foldl_insert, if_pos]
    rw [← AList.mem_keys, h.mem_prs]
    exact h.id_mem
  rw [hself, Go.deref_some, Go.ok_bind]
  change Go.Ensures (if r.elected.prs.keys.length = 1 then _ else r.elected.broadcastAppend) _
  rw [hwf.length_keys]
  unfold announce
  split_ifs with hcard
  · refine ⟨hwf, ?_⟩
    simp [elected, setCommitted, noop]
  · rw [broadcastAppend_eq hwf]
    exact ⟨hwf, rfl⟩

theorem hup_of_peers [TermWidth] (rnd : ℕ) (r : Raft) (hlen : r.prs.keys.length ≠ 1) :
    r.hup rnd = (do
    let x ← r.raftLog.term r.raftLog.lastIndex
    return (r.campaigning rnd).sendAll (r.prs.keys.flatMap fun id =>
      if id = r.id then []
      else [{
        msgType := .msgRequestVote
        toId := id
        fromId := r.id
        term := TermWidth.wrap (r.term + 1)
        index := r.raftLog.lastIndex
        logTerm := x.1 }])) := by
  have hcand : r.becomeCandidate rnd = .ok (r.campaigning rnd) := by
    unfold becomeCandidate
    rw [if_neg hlen]
    rfl
  unfold hup
  rw [hcand, Go.ok_bind, if_neg (by simp [campaigning])]
  change (r.raftLog.term r.raftLog.lastIndex >>= _) = (r.raftLog.term r.raftLog.lastIndex >>= _)
  congr 1
  funext x
  refine congrArg Except.ok (foldl_sendAll (fun ms id => ?_) _)
  -- What is asked of a peer does not depend on what was sent to others before.
  by_cases hid : id = r.id
  · simp [hid, sendAll, campaigning]
  · simp [hid, sendAll, send, campaigning]

theorem hup_eq (h : r.WF P) (rnd : ℕ) (hcard : P.card ≠ 1) : r.hup rnd =
    .ok ((r.campaigning rnd).sendAll (r.prs.keys.flatMap fun id =>
      if id = r.id then [] else [(r.campaigning rnd).requestVoteMsg id])) := by
  rw [hup_of_peers rnd r (by rwa [h.length_keys]), h.log.lastIndex_eq, h.log.term_eq]
  rfl

theorem hup_ensures (h : r.WF P) (rnd : ℕ) (hcard : P.card = 1) : Go.Ensures (r.hup rnd) fun r' =>
    (r.campaigning rnd).elected.WF P ∧ r' = (r.campaigning rnd).elected.announce P := by
  unfold hup becomeCandidate
  rw [if_pos (by rw [h.length_keys]; exact hcard)]
  refine (becomeLeader_ensures (h.campaigning rnd)).bind fun r' hr' => ?_
  obtain ⟨hwf, rfl⟩ := hr'
  rw [announce, if_pos hcard, if_pos (by simp [elected, setCommitted])]
  exact ⟨hwf, rfl⟩

def stamp (term : ℕ) : ℕ → List Entry → List Entry
  | _, [] => []
  | p, e :: es => { e with term := term, index := p + 1 } :: stamp term (p + 1) es

theorem stamp_consecutive (term p : ℕ) (es : List Entry) : ConsecutiveFrom p (stamp term p es) := by
  induction es generalizing p with
  | nil => exact consecutiveFrom_nil p
  | cons e es ih => exact consecutiveFrom_cons.mpr ⟨rfl, ih (p + 1)⟩

theorem stamp_slots (term p : ℕ) (es : List Entry) :
    (stamp term p es).map Entry.slot = (es.map Entry.data).map (Slot.mk term) := by
  induction es generalizing p with
  | nil => rfl
  | cons e es ih => simp [stamp, ih, Entry.slot]

theorem entryType_of_mem_stamp {term p : ℕ} {es : List Entry} {e : Entry}
    (he : e ∈ stamp term p es) : e.term = term ∧ ∃ e' ∈ es, e.entryType = e'.entryType := by
  induction es generalizing p with
  | nil => simp [stamp] at he
  | cons d es ih =>
    rcases mem_cons.mp he with rfl | he
    · exact ⟨rfl, d, mem_cons_self, rfl⟩
    · obtain ⟨hterm, e', he', heq⟩ := ih he
      exact ⟨hterm, e', mem_cons_of_mem d he', heq⟩

theorem appendProposal_ensures (h : l.WF) (term : ℕ) (es : List Entry) :
    Go.Ensures (appendProposal term l l.lastIndex es) fun l' =>
      l'.1.WF ∧ l'.1 = { l with entries := l.entries ++ stamp term l.entries.length es } := by
  rw [h.lastIndex_eq]
  unfold appendProposal
  induction es generalizing l with
  | nil => exact ⟨h, by simp [stamp]⟩
  | cons e es ih =>
    rw [foldlM_cons]
    -- The first pass appends one entry, and the rest of the loop goes on from there.
    refine Go.Ensures.bind (P := fun l1 => l1.1.WF ∧ l1 = ({ l with
      entries := l.entries ++ [{ e with term := term, index := l.entries.length + 1 }] },
      l.entries.length + 1)) ?_ fun l1 h1 => ?_
    · refine (Go.append_ensures _ _).bind fun zs hzs => ?_
      obtain ⟨rfl, hlen⟩ := hzs
      exact ⟨h.append (consecutiveFrom_cons.mpr ⟨rfl, consecutiveFrom_nil _⟩) hlen, rfl⟩
    · obtain ⟨hwf, rfl⟩ := h1
      have := ih hwf
      simp only [length_append, length_singleton] at this
      refine this.imp fun l' hl' => ⟨hl'.1, ?_⟩
      rw [hl'.2]
      simp [stamp]

end Raft

end TinyKV
