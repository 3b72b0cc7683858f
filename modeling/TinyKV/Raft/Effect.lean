import TinyKV.Raft.NodeSpec

/-!
# What a step of a node can do

`Effect` lists, once and for all, what handling a message does to a well-formed node.
-/

namespace TinyKV

open List
open Consensus (termAt)

def Message.IsRemote (m : Message) : Prop :=
  m.msgType ≠ .msgHup ∧ m.msgType ≠ .msgBeat ∧ m.msgType ≠ .msgPropose

instance (m : Message) : Decidable m.IsRemote := inferInstanceAs (Decidable (_ ∧ _ ∧ _))

/-- What every message that a node of a group with the peers `P` sends satisfies. -/
structure Message.WF (P : Finset ℕ) (m : Message) : Prop where
  from_mem : m.IsRemote → m.fromId ∈ P
  consecutive : m.msgType = .msgAppend → ConsecutiveFrom m.index m.entries
  commit_le : m.msgType = .msgAppend → m.commit ≤ m.index + m.entries.length
  index_le : m.msgType = .msgAppendResponse → m.reject = false → m.index ≤ maxInt

theorem Message.isRemote_of_eq {m : Message} {t : MessageType} (hm : m.msgType = t)
    (ht : t ≠ .msgHup ∧ t ≠ .msgBeat ∧ t ≠ .msgPropose) : m.IsRemote := by
  subst hm
  exact ht

theorem Message.wf_of_not_isRemote {P : Finset ℕ} {m : Message} (h : ¬ m.IsRemote) : m.WF P :=
  ⟨fun hm => absurd hm h, fun hm => absurd (Message.isRemote_of_eq hm (by decide)) h,
    fun hm => absurd (Message.isRemote_of_eq hm (by decide)) h,
    fun hm => absurd (Message.isRemote_of_eq hm (by decide)) h⟩

namespace Raft

variable {P : Finset ℕ} {r r' : Raft} {m : Message} {rnd : ℕ}

section becomeFollower

variable (r) (rnd : ℕ) (t lead : ℕ)

@[simp]
theorem becomeFollower_id : (r.becomeFollower rnd t lead).id = r.id := by
  simp only [becomeFollower]
  split_ifs <;> rfl

@[simp]
theorem becomeFollower_raftLog : (r.becomeFollower rnd t lead).raftLog = r.raftLog := by
  simp only [becomeFollower]
  split_ifs <;> rfl

@[simp]
theorem becomeFollower_prs : (r.becomeFollower rnd t lead).prs = r.prs := by
  simp only [becomeFollower]
  split_ifs <;> rfl

@[simp]
theorem becomeFollower_msgs : (r.becomeFollower rnd t lead).msgs = r.msgs := by
  simp only [becomeFollower]
  split_ifs <;> rfl

@[simp]
theorem becomeFollower_state : (r.becomeFollower rnd t lead).state = .follower := by
  simp only [becomeFollower]
  split_ifs <;> rfl

theorem becomeFollower_term : (r.becomeFollower rnd t lead).term = max r.term t := by
  simp only [becomeFollower]
  split_ifs with h
  · exact (max_eq_right h.le).symm
  · exact (max_eq_left (not_lt.mp h)).symm

theorem becomeFollower_vote :
    (r.becomeFollower rnd t lead).vote = if r.term < t then None else r.vote := by
  simp only [becomeFollower]
  split_ifs <;> rfl

theorem becomeFollower_setVotes (votes : AList fun _ : ℕ => Bool) :
    { r with votes := votes }.becomeFollower rnd t lead = r.becomeFollower rnd t lead := by
  simp only [becomeFollower]
  split_ifs <;> rfl

end becomeFollower

theorem WF.becomeFollower (h : r.WF P) (rnd t lead : ℕ) : (r.becomeFollower rnd t lead).WF P :=
  h.congr (becomeFollower_id ..) (becomeFollower_prs ..) (becomeFollower_raftLog ..)

def setPrs (r : Raft) (p : ℕ) (pr : Progress) : Raft := { r with prs := r.prs.insert p pr }

theorem lookup_setPrs (p q : ℕ) (pr : Progress) :
    (r.setPrs p pr).prs.lookup q = if q = p then some pr else r.prs.lookup q := by
  unfold setPrs
  split_ifs with h
  · subst h
    exact AList.lookup_insert _
  · exact AList.lookup_insert_ne h

variable {pr : Progress}

theorem WF.setPrs (h : r.WF P) {p : ℕ} (hp : p ∈ P) (hpr : pr.next < 2^64) :
    (r.setPrs p pr).WF P := by
  refine ⟨h.log, ?_, h.id_mem, h.id_ne, ?_⟩
  · intro q
    rw [← AList.lookup_isSome, lookup_setPrs]
    split_ifs with hq
    · simpa [hq] using hp
    · rw [AList.lookup_isSome, h.mem_prs]
  · intro q pr' hq
    rw [lookup_setPrs] at hq
    split_ifs at hq
    · obtain rfl := Option.some.inj hq
      exact hpr
    · exact h.next_lt q pr' hq

def proposed (r : Raft) (es : List Entry) : Raft :=
  setPrs { r with raftLog := { r.raftLog with
    entries := r.raftLog.entries ++ stamp r.term r.raftLog.entries.length es } } r.id
    ⟨(r.raftLog.entries ++ stamp r.term r.raftLog.entries.length es).length,
      (r.raftLog.entries ++ stamp r.term r.raftLog.entries.length es).length + 1⟩

theorem lookup_proposed (r : Raft) (es : List Entry) (p : ℕ) : (r.proposed es).prs.lookup p =
    if p = r.id then some ⟨(r.proposed es).raftLog.entries.length,
      (r.proposed es).raftLog.entries.length + 1⟩ else r.prs.lookup p :=
  lookup_setPrs ..

theorem WF.proposed (h : r.WF P) {es : List Entry} (hlog : RaftLog.WF { r.raftLog with
    entries := r.raftLog.entries ++ stamp r.term r.raftLog.entries.length es }) :
    (r.proposed es).WF P := by
  refine (h.setLog hlog).setPrs h.id_mem ?_
  have hlen := hlog.length_le
  have hmax : maxInt + 1 < 2^64 := by decide
  simp only at hlen ⊢
  omega

structure IdleMsg (r : Raft) (x : Message) : Prop where
  from_eq : x.fromId = r.id
  to_ne : x.toId ≠ r.id
  term_eq : x.term = r.term
  entries_eq : x.entries = []
  kind : x.msgType = .msgHeartbeat ∧ r.state = .leader ∨ x.msgType = .msgHeartbeatResponse ∨
    (x.msgType = .msgRequestVoteResponse ∨ x.msgType = .msgAppendResponse) ∧ x.reject = true

def grantMsg (r : Raft) (peer : ℕ) : Message where
  msgType := .msgRequestVoteResponse
  toId := peer
  fromId := r.id
  term := r.term

def acceptMsg (r : Raft) (peer i : ℕ) : Message where
  msgType := .msgAppendResponse
  toId := peer
  fromId := r.id
  term := r.term
  index := i

def requestVoteMsgs (r : Raft) : List Message :=
  r.prs.keys.flatMap fun id => if id = r.id then [] else [r.requestVoteMsg id]

structure Keeps (r r' : Raft) : Prop where
  id_eq : r'.id = r.id
  term_eq : r'.term = r.term
  vote_eq : r'.vote = r.vote
  prs_eq : r'.prs = r.prs

inductive Effect (P : Finset ℕ) (rnd : ℕ) (r : Raft) (m : Message) : Raft → Prop
  | idle {r' : Raft} {ms : List Message} (hkeeps : r.Keeps r') (hlog : r'.raftLog = r.raftLog)
      (hstate : r'.state = r.state ∧ r'.votes = r.votes ∨ r'.state = .follower)
      (hmsgs : r'.msgs = r.msgs ++ ms) (hms : ∀ x ∈ ms, r.IdleMsg x) : Effect P rnd r m r'
  | campaign (hm : m.msgType = .msgHup) (hstate : r.state ≠ .leader) (hcard : P.card ≠ 1) :
      Effect P rnd r m ((r.campaigning rnd).sendAll (r.campaigning rnd).requestVoteMsgs)
  | win (hm : m.msgType = .msgHup) (hstate : r.state ≠ .leader) (hcard : P.card = 1) :
      Effect P rnd r m ((r.campaigning rnd).elected.announce P)
  | grant (hm : m.msgType = .msgRequestVote) (hstate : r.state = .follower)
      (hvote : r.vote = None ∨ r.vote = m.fromId)
      (hkey : termAt r.raftLog.slots r.raftLog.entries.length < m.logTerm ∨
        termAt r.raftLog.slots r.raftLog.entries.length = m.logTerm ∧
          r.raftLog.entries.length ≤ m.index) :
      Effect P rnd r m (sendAll { r with vote := m.fromId } [r.grantMsg m.fromId])
  | count (hm : m.msgType = .msgRequestVoteResponse) (hstate : r.state = .candidate) :
      Effect P rnd r m { r with votes := r.votes.insert m.fromId (!m.reject) }
  | elect {S : Finset ℕ} (hm : m.msgType = .msgRequestVoteResponse) (hstate : r.state = .candidate)
      (hcard : P.card < 2 * S.card)
      (hS : ∀ p ∈ S, (r.votes.insert m.fromId (!m.reject)).lookup p = some true) :
      Effect P rnd r m
        ((elected { r with votes := r.votes.insert m.fromId (!m.reject) }).announce P)
  | resend (hm : m.msgType = .msgHeartbeatResponse) (hstate : r.state = .leader) :
      Effect P rnd r m (r.sendAll (r.appendMsgs m.fromId))
  | propose (hm : m.msgType = .msgPropose) (hstate : r.state = .leader) :
      Effect P rnd r m ((r.proposed m.entries).announce P)
  | refused {pr : Progress} (hm : m.msgType = .msgAppendResponse) (hstate : r.state = .leader)
      (hreject : m.reject = true) (hpr : r.prs.lookup m.fromId = some pr) :
      Effect P rnd r m
        ((r.setPrs m.fromId { pr with next := sub64 pr.next 1 }).sendAll
          ((r.setPrs m.fromId { pr with next := sub64 pr.next 1 }).appendMsgs m.fromId))
  | accepted (hm : m.msgType = .msgAppendResponse) (hstate : r.state = .leader)
      (hreject : m.reject = false) : Effect P rnd r m (r.setPrs m.fromId ⟨m.index, m.index + 1⟩)
  | commit {S : Finset ℕ} {i : ℕ} (hm : m.msgType = .msgAppendResponse)
      (hstate : r.state = .leader) (hreject : m.reject = false) (hlt : r.raftLog.committed < i)
      (hterm : termAt r.raftLog.slots i = r.term) (hcard : P.card < 2 * S.card)
      (hS : ∀ p ∈ S, ∃ pr, (r.setPrs m.fromId ⟨m.index, m.index + 1⟩).prs.lookup p = some pr ∧
        i ≤ pr.matchIdx) :
      Effect P rnd r m (((r.setPrs m.fromId ⟨m.index, m.index + 1⟩).setCommitted i).broadcast)
  | accept {r' : Raft} {l : RaftLog} (hm : m.msgType = .msgAppend) (hkeeps : r.Keeps r')
      (hstate : r'.state = .follower) (hindex : m.index ≤ r.raftLog.entries.length)
      (hterm : termAt r.raftLog.slots m.index = m.logTerm)
      (hl : r.raftLog.SplicedFrom 0 m.index m.entries l)
      (hlog : r'.raftLog = { l with committed := max l.committed m.commit })
      (hmsgs : r'.msgs = r.msgs ++ [r.acceptMsg m.fromId (m.index + m.entries.length)]) :
      Effect P rnd r m r'

/-- The message `m` can come up at the node. -/
structure Ready (P : Finset ℕ) (r : Raft) (m : Message) : Prop where
  wf : r.WF P
  committed_le : r.raftLog.committed ≤ r.raftLog.entries.length
  msg : m.WF P
  from_ne : m.IsRemote → m.fromId ≠ r.id
  term_eq : m.IsRemote → m.term = r.term

/-- The node `r'` is `r` but for its timers, and may have stepped down. -/
structure Rests (r r' : Raft) : Prop extends Keeps r r' where
  log_eq : r'.raftLog = r.raftLog
  msgs_eq : r'.msgs = r.msgs
  state_eq : r'.state = r.state ∧ r'.votes = r.votes ∨ r'.state = .follower

theorem Rests.refl (r : Raft) : r.Rests r :=
  ⟨⟨rfl, rfl, rfl, rfl⟩, rfl, rfl, Or.inl ⟨rfl, rfl⟩⟩

theorem Rests.wf (h : r.Rests r') (hwf : r.WF P) : r'.WF P :=
  hwf.congr h.id_eq h.prs_eq h.log_eq

theorem Rests.hear (h : r.Rests r') (lead : ℕ) :
    r.Rests { r' with electionElapsed := 0, lead := lead } :=
  ⟨⟨h.id_eq, h.term_eq, h.vote_eq, h.prs_eq⟩, h.log_eq, h.msgs_eq, h.state_eq⟩

theorem rests_becomeFollower {t : ℕ} (ht : t = r.term) (rnd lead : ℕ) :
    r.Rests (r.becomeFollower rnd t lead) := by
  subst ht
  refine ⟨⟨by simp, ?_, ?_, by simp⟩, by simp, by simp, Or.inr (by simp)⟩
  · rw [becomeFollower_term, max_self]
  · rw [becomeFollower_vote, if_neg (lt_irrefl _)]

theorem WF.announce (h : r.WF P) (happlied : r.raftLog.applied ≤ r.raftLog.entries.length) :
    (r.announce P).WF P := by
  unfold Raft.announce
  split_ifs
  · exact h.setCommitted happlied
  · exact h.sendAll _

theorem Rests.effect (h : r.Rests r') (hwf : r.WF P) {ms : List Message}
    (hms : ∀ x ∈ ms, r.IdleMsg x) : Effect P rnd r m (r'.sendAll ms) ∧ (r'.sendAll ms).WF P := by
  refine ⟨.idle ⟨h.id_eq, h.term_eq, h.vote_eq, h.prs_eq⟩ h.log_eq h.state_eq ?_ hms,
    (h.wf hwf).sendAll ms⟩
  rw [sendAll, h.msgs_eq]

theorem Rests.effect_nil (h : r.Rests r') (hwf : r.WF P) : Effect P rnd r m r' ∧ r'.WF P := by
  have hnil : Effect P rnd r m (r'.sendAll []) ∧ (r'.sendAll []).WF P := h.effect hwf (by simp)
  rwa [sendAll_nil] at hnil

theorem Rests.effect_reply (h : r.Rests r') (hr : r.Ready P m) (hm : m.IsRemote) {x : Message}
    (hfrom : x.fromId = r'.id) (hto : x.toId = m.fromId) (hterm : x.term = r'.term)
    (hentries : x.entries = []) (hkind : x.msgType = .msgHeartbeatResponse ∨
      (x.msgType = .msgRequestVoteResponse ∨ x.msgType = .msgAppendResponse) ∧ x.reject = true) :
    Effect P rnd r m (r'.send x) ∧ (r'.send x).WF P := by
  refine h.effect hr.wf fun y hy => ?_
  obtain rfl := mem_singleton.mp hy
  refine ⟨hfrom.trans h.id_eq, ?_, hterm.trans h.term_eq, hentries, Or.inr hkind⟩
  rw [hto]
  exact hr.from_ne hm

theorem handleHeartbeat_effect (hr : r.Ready P m) (h : r.Rests r') (hm : m.IsRemote) :
    Effect P rnd r m (r'.handleHeartbeat m) ∧ (r'.handleHeartbeat m).WF P :=
  (h.hear m.fromId).effect_reply hr hm rfl rfl rfl rfl (Or.inl rfl)

theorem handleAppendEntries_effect (hr : r.Ready P m) (h : r.Rests r')
    (hm : m.msgType = .msgAppend) (hstate : r'.state = .follower) :
    Go.Ensures (r'.handleAppendEntries m) fun r'' => Effect P rnd r m r'' ∧ r''.WF P := by
  have hremote := Message.isRemote_of_eq hm (by decide)
  have hwf := h.wf hr.wf
  unfold handleAppendEntries
  rw [h.log_eq, hr.wf.log.lastIndex_eq]
  split_ifs with hlt
  · -- The log ends before the entries of the message.
    exact h.effect_reply hr hremote rfl rfl rfl rfl (Or.inr ⟨Or.inr rfl, rfl⟩)
  · simp only [hr.wf.log.term_eq, Go.ok_bind]
    split_ifs with hterm
    · -- The entry before them is of another term.
      exact h.effect_reply hr hremote rfl rfl rfl rfl (Or.inr ⟨Or.inr rfl, rfl⟩)
    · have hindex : m.index ≤ r.raftLog.entries.length := not_lt.mp hlt
      refine (RaftLog.foldlM_handleAppendEntry hr.wf.log hindex (hr.msg.consecutive hm)).bind
        fun l hl => ?_
      -- The minimum of the source is `m.commit`, which the message covers.
      have hcommit : (if l.committed < m.commit then
          { l with committed := min m.commit (m.index + m.entries.length) } else l) =
          { l with committed := max l.committed m.commit } := by
        rw [min_eq_left (hr.msg.commit_le hm)]
        split_ifs with hc
        · rw [max_eq_right hc.le]
        · rw [max_eq_left (not_lt.mp hc)]
      simp only [hcommit]
      refine ⟨.accept hm ⟨h.id_eq, h.term_eq, h.vote_eq, h.prs_eq⟩ hstate hindex
        (not_not.mp hterm) hl.2 rfl ?_, ?_⟩
      · simp [send, acceptMsg, h.msgs_eq, h.id_eq, h.term_eq]
      · refine (hwf.setLog (l := { l with committed := max l.committed m.commit }) ?_).sendAll _
        exact { hl.1 with applied_le := hl.1.applied_le.trans (le_max_left _ _) }

theorem hup_effect (hr : r.Ready P m) (hm : m.msgType = .msgHup) (hstate : r.state ≠ .leader) :
    Go.Ensures (r.hup rnd) fun r' => Effect P rnd r m r' ∧ r'.WF P := by
  by_cases hcard : P.card = 1
  · refine (hup_ensures hr.wf rnd hcard).imp fun r' hr' => ?_
    obtain ⟨hwf, rfl⟩ := hr'
    refine ⟨.win hm hstate hcard, hwf.announce ?_⟩
    exact hr.wf.log.applied_le.trans (hr.committed_le.trans (by simp [elected, campaigning]))
  · rw [hup_eq hr.wf rnd hcard]
    exact ⟨.campaign hm hstate hcard, (hr.wf.campaigning rnd).sendAll _⟩

theorem stepFollower_effect (hr : r.Ready P m) (hstate : r.state = .follower) :
    Go.Ensures (r.stepFollower rnd m) fun r' => Effect P rnd r m r' ∧ r'.WF P := by
  unfold stepFollower
  split
  case h_1 hm => exact hup_effect hr hm (by simp [hstate])
  case h_2 hm =>
    -- `MsgRequestVote`: the vote is refused in two places, with the same answer.
    have hremote := Message.isRemote_of_eq hm (by decide)
    have hrefuse : ∀ x : Message, x = {
        msgType := .msgRequestVoteResponse
        toId := m.fromId
        fromId := r.id
        term := r.term
        reject := true } → Effect P rnd r m (r.send x) ∧ (r.send x).WF P := by
      rintro x rfl
      exact (Rests.refl r).effect_reply hr hremote rfl rfl rfl rfl (Or.inr ⟨Or.inl rfl, rfl⟩)
    simp only [hr.wf.log.lastIndex_eq, hr.wf.log.term_eq, Go.ok_bind, le_refl, if_true]
    split_ifs with hvote
    · exact hrefuse _ rfl
    · by_cases hkey : m.logTerm < termAt r.raftLog.slots r.raftLog.entries.length ∨
          m.logTerm = termAt r.raftLog.slots r.raftLog.entries.length ∧
            m.index < r.raftLog.entries.length
      · simp only [hkey, decide_true, Go.pure_eq_ok, Go.ok_bind, if_true]
        exact hrefuse _ rfl
      · simp only [hkey, decide_false, Go.pure_eq_ok, Go.ok_bind, Bool.false_eq_true, if_false]
        exact ⟨.grant hm hstate (by tauto) (by omega), hr.wf.congr rfl rfl rfl⟩
  case h_3 hm =>
    exact handleHeartbeat_effect hr (Rests.refl r) (Message.isRemote_of_eq hm (by decide))
  case h_4 hm =>
    exact handleAppendEntries_effect hr ((Rests.refl r).hear m.fromId) hm hstate
  case h_5 => exact (Rests.refl r).effect_nil hr.wf

theorem exists_card_eq_countP {β : Type} (m : AList fun _ : ℕ => β) (f : (_ : ℕ) × β → Bool) :
    ∃ S : Finset ℕ, S.card = m.entries.countP f ∧ ∀ p ∈ S, ∃ v, m.lookup p = some v ∧ f ⟨p, v⟩ := by
  refine ⟨((m.entries.filter f).map Sigma.fst).toFinset, ?_, ?_⟩
  · rw [toFinset_card_of_nodup, length_map, countP_eq_length_filter]
    exact List.NodupKeys.sublist filter_sublist m.nodupKeys
  · intro p hp
    simp only [mem_toFinset, mem_map, mem_filter] at hp
    obtain ⟨⟨q, v⟩, ⟨hmem, hf⟩, rfl⟩ := hp
    exact ⟨v, AList.mem_lookup_iff.mpr hmem, hf⟩

theorem stepCandidate_effect (hr : r.Ready P m) (hstate : r.state = .candidate) :
    Go.Ensures (r.stepCandidate rnd m) fun r' => Effect P rnd r m r' ∧ r'.WF P := by
  unfold stepCandidate
  split
  case h_1 hm => exact hup_effect hr hm (by simp [hstate])
  case h_2 hm =>
    -- A candidate refuses its vote to others, and does not answer itself.
    have hremote := Message.isRemote_of_eq hm (by decide)
    split_ifs with hfrom
    · exact (Rests.refl r).effect_reply hr hremote rfl rfl rfl rfl (Or.inr ⟨Or.inl rfl, rfl⟩)
    · exact (Rests.refl r).effect_nil hr.wf
  case h_3 hm =>
    have hwf : WF P { r with votes := r.votes.insert m.fromId (!m.reject) } :=
      hr.wf.congr rfl rfl rfl
    simp only [hr.wf.length_keys]
    split_ifs with hgranted hrejected
    · -- The peers whose votes are granted are a majority.
      obtain ⟨S, hS, hmem⟩ :=
        exists_card_eq_countP (r.votes.insert m.fromId (!m.reject)) fun v => v.2
      refine (becomeLeader_ensures hwf).imp fun r' hr' => ?_
      obtain ⟨hwf', rfl⟩ := hr'
      refine ⟨.elect (S := S) hm hstate (by omega) fun p hp => ?_, hwf'.announce ?_⟩
      · obtain ⟨v, hv, rfl⟩ := hmem p hp
        exact hv
      · exact hr.wf.log.applied_le.trans (hr.committed_le.trans (by simp [elected]))
    · -- Losing the election is stepping down.
      rw [becomeFollower_setVotes]
      exact (rests_becomeFollower rfl rnd None).effect_nil hr.wf
    · exact ⟨.count hm hstate, hwf⟩
  case h_4 hm =>
    have hremote := Message.isRemote_of_eq hm (by decide)
    exact handleHeartbeat_effect hr (rests_becomeFollower (hr.term_eq hremote) rnd _) hremote
  case h_5 hm =>
    -- `MsgAppend`: a candidate steps down, but leaves the entries to the next message.
    have hremote := Message.isRemote_of_eq hm (by decide)
    exact (rests_becomeFollower (hr.term_eq hremote) rnd _).effect_nil hr.wf
  case h_6 => exact (Rests.refl r).effect_nil hr.wf

theorem sendAppend_fst (h : r.WF P) {p : ℕ} (hp : p ∈ P) (hne : p ≠ r.id) :
    (do let (r, _) ← r.sendAppend p; return r : Go Raft) = .ok (r.sendAll (r.appendMsgs p)) := by
  have := sendAppendOther_eq h hp
  rwa [sendAppendOther, if_pos hne] at this

theorem WF.exists_median (h : r.WF P) : ∃ i, ∃ S : Finset ℕ,
    Go.index ((r.prs.entries.map fun pr => pr.2.matchIdx).insertionSort (· ≤ ·))
      ((((r.prs.entries.map fun pr => pr.2.matchIdx).insertionSort (· ≤ ·)).length - 1) / 2) =
        .ok i ∧ P.card < 2 * S.card ∧
      ∀ p ∈ S, ∃ pr, r.prs.lookup p = some pr ∧ i ≤ pr.matchIdx := by
  generalize hsorted : (r.prs.entries.map fun pr => pr.2.matchIdx).insertionSort (· ≤ ·) = sorted
  have hperm : sorted.Perm (r.prs.entries.map fun pr => pr.2.matchIdx) := by
    rw [← hsorted]
    exact perm_insertionSort _ _
  have hlen : sorted.length = P.card := by
    rw [hperm.length_eq, length_map, ← h.length_keys]
    exact (length_map _).symm
  have hpos : 0 < P.card := Finset.card_pos.mpr ⟨r.id, h.id_mem⟩
  have hi : (sorted.length - 1) / 2 < sorted.length := by omega
  have hcount := Consensus.countP_le_of_sorted
    (by rw [← hsorted]; exact pairwise_insertionSort (· ≤ ·) _) hi
  rw [hperm.countP_eq, countP_map] at hcount
  -- Those of the sorted values that are not below the median belong to different peers.
  obtain ⟨S, hS, hmem⟩ := exists_card_eq_countP r.prs
    ((fun x => decide (sorted[(sorted.length - 1) / 2] ≤ x)) ∘ fun pr => pr.2.matchIdx)
  refine ⟨sorted[(sorted.length - 1) / 2], S, Go.index_eq_ok (getElem?_eq_getElem hi), ?_, ?_⟩
  · omega
  · intro p hp
    obtain ⟨pr, hpr, hle⟩ := hmem p hp
    exact ⟨pr, hpr, by simpa using hle⟩

theorem propose_effect (hr : r.Ready P m) (hstate : r.state = .leader)
    (hm : m.msgType = .msgPropose) :
    Go.Ensures (r.stepLeader rnd m) fun r' => Effect P rnd r m r' ∧ r'.WF P := by
  unfold stepLeader
  rw [hm]
  refine (appendProposal_ensures hr.wf.log r.term m.entries).bind fun l hl => ?_
  obtain ⟨l, i⟩ := l
  obtain ⟨hlog, rfl : l = _⟩ := hl
  obtain ⟨pr, hpr⟩ := hr.wf.lookup_prs hr.wf.id_mem
  have hwf := hr.wf.proposed hlog
  have happlied : (r.proposed m.entries).raftLog.applied ≤
      (r.proposed m.entries).raftLog.entries.length :=
    hr.wf.log.applied_le.trans (hr.committed_le.trans (by simp [proposed, setPrs]))
  simp only [hpr, Go.deref_some, Go.ok_bind, hlog.lastIndex_eq]
  -- What is left of the code, in the words of `proposed`.
  change Go.Ensures (if (r.proposed m.entries).prs.keys.length = 1 then
    .ok ((r.proposed m.entries).setCommitted (r.proposed m.entries).raftLog.entries.length)
    else (r.proposed m.entries).broadcastAppend) _
  have heq : (if (r.proposed m.entries).prs.keys.length = 1 then
      .ok ((r.proposed m.entries).setCommitted (r.proposed m.entries).raftLog.entries.length)
      else (r.proposed m.entries).broadcastAppend) =
      Except.ok ((r.proposed m.entries).announce P) := by
    rw [hwf.length_keys, broadcastAppend_eq hwf, announce]
    split_ifs <;> rfl
  rw [heq]
  exact ⟨.propose hm hstate, hwf.announce happlied⟩

theorem stepLeader_heartbeatResponse (hr : r.Ready P m) (hm : m.msgType = .msgHeartbeatResponse)
    (hpr : r.prs.lookup m.fromId = some pr) :
    r.stepLeader rnd m =
      if pr.next ≤ r.raftLog.entries.length then .ok (r.sendAll (r.appendMsgs m.fromId))
      else .ok r := by
  have hremote := Message.isRemote_of_eq hm (by decide)
  unfold stepLeader
  rw [hm]
  simp only [hpr, Go.deref_some, Go.ok_bind, hr.wf.log.lastIndex_eq]
  rw [← sendAppend_fst hr.wf (hr.msg.from_mem hremote) (hr.from_ne hremote)]
  rfl

theorem WF.refused (h : r.WF P) {p : ℕ} (hpr : r.prs.lookup p = some pr) :
    (r.setPrs p { pr with next := sub64 pr.next 1 }).WF P := by
  refine h.setPrs (h.mem_of_lookup hpr) ?_
  have := h.next_lt _ _ hpr
  simp only [sub64]
  split_ifs <;> omega

theorem stepLeader_refused (hr : r.Ready P m) (hm : m.msgType = .msgAppendResponse)
    (hreject : m.reject = true) (hpr : r.prs.lookup m.fromId = some pr) :
    r.stepLeader rnd m = .ok
      ((r.setPrs m.fromId { pr with next := sub64 pr.next 1 }).sendAll
        ((r.setPrs m.fromId { pr with next := sub64 pr.next 1 }).appendMsgs m.fromId)) := by
  have hremote := Message.isRemote_of_eq hm (by decide)
  unfold stepLeader
  rw [hm]
  simp only [hpr, Go.deref_some, Go.ok_bind]
  rw [if_pos hreject, ← sendAppend_fst (hr.wf.refused hpr) (hr.msg.from_mem hremote)
    (hr.from_ne hremote)]
  rfl

theorem appendResponse_effect (hr : r.Ready P m) (hstate : r.state = .leader)
    (hm : m.msgType = .msgAppendResponse) :
    Go.Ensures (r.stepLeader rnd m) fun r' => Effect P rnd r m r' ∧ r'.WF P := by
  have hremote := Message.isRemote_of_eq hm (by decide)
  have hfrom := hr.msg.from_mem hremote
  obtain ⟨pr, hpr⟩ := hr.wf.lookup_prs hfrom
  cases hreject : m.reject with
  | true =>
    rw [stepLeader_refused hr hm hreject hpr]
    exact ⟨.refused hm hstate hreject hpr, (hr.wf.refused hpr).sendAll _⟩
  | false =>
    have hindex : m.index + 1 < 2^64 := by
      have hle := hr.msg.index_le hm hreject
      have hmax : maxInt + 1 < 2^64 := by decide
      omega
    have hwf : (r.setPrs m.fromId ⟨m.index, m.index + 1⟩).WF P := hr.wf.setPrs hfrom hindex
    obtain ⟨i, S, hi, hcard, hS⟩ := hwf.exists_median
    unfold stepLeader
    rw [hm]
    simp only [hpr, Go.deref_some, Go.ok_bind]
    rw [if_neg (by simp [hreject]), add64_of_lt hindex]
    -- The median is over the progress that has just been changed.
    simp only [setPrs] at hi
    simp only [hi, Go.ok_bind, hr.wf.log.term_eq]
    split_ifs with hlt hterm
    · change Go.Ensures
        ((r.setPrs m.fromId ⟨m.index, m.index + 1⟩).setCommitted i).broadcastAppend _
      have hwf' := hwf.setCommitted (i := i) (hr.wf.log.applied_le.trans hlt.le)
      rw [broadcastAppend_eq hwf']
      exact ⟨.commit hm hstate hreject hlt hterm hcard hS, hwf'.sendAll _⟩
    · exact ⟨.accepted hm hstate hreject, hwf⟩
    · exact ⟨.accepted hm hstate hreject, hwf⟩

theorem stepLeader_beat (r : Raft) :
    r.prs.keys.foldl (fun r id => if id ≠ r.id then r.sendHeartbeat id else r) r =
      r.sendAll (r.prs.keys.flatMap fun id => if id = r.id then [] else [{
        msgType := .msgHeartbeat
        toId := id
        fromId := r.id
        term := r.term
        commit := r.raftLog.committed }]) := by
  refine foldl_sendAll (fun ms id => ?_) _
  by_cases hid : id = r.id <;> simp [hid, sendAll, sendHeartbeat, send]

theorem stepLeader_effect (hr : r.Ready P m) (hstate : r.state = .leader) :
    Go.Ensures (r.stepLeader rnd m) fun r' => Effect P rnd r m r' ∧ r'.WF P := by
  -- Three of the messages have lemmas of their own; the others leave the leader's log alone.
  by_cases hpropose : m.msgType = .msgPropose
  · exact propose_effect hr hstate hpropose
  by_cases hresponse : m.msgType = .msgAppendResponse
  · exact appendResponse_effect hr hstate hresponse
  by_cases hheartbeat : m.msgType = .msgHeartbeatResponse
  · obtain ⟨pr, hpr⟩ := hr.wf.lookup_prs
      (hr.msg.from_mem (Message.isRemote_of_eq hheartbeat (by decide)))
    rw [stepLeader_heartbeatResponse hr hheartbeat hpr]
    split_ifs with hle
    · exact ⟨.resend hheartbeat hstate, hr.wf.sendAll _⟩
    · exact (Rests.refl r).effect_nil hr.wf
  unfold stepLeader
  split
  case h_1 hm =>
    -- `MsgBeat`: a heartbeat to each of the other peers.
    rw [stepLeader_beat]
    refine (Rests.refl r).effect hr.wf fun x hx => ?_
    obtain ⟨id, -, hx⟩ := mem_flatMap.mp hx
    split_ifs at hx with hid
    · simp at hx
    · obtain rfl := mem_singleton.mp hx
      exact ⟨rfl, hid, rfl, rfl, Or.inl ⟨rfl, hstate⟩⟩
  case h_2 hm =>
    exact (Rests.refl r).effect_reply hr (Message.isRemote_of_eq hm (by decide)) rfl rfl rfl rfl
      (Or.inr ⟨Or.inl rfl, rfl⟩)
  case h_3 hm =>
    have hremote := Message.isRemote_of_eq hm (by decide)
    exact handleHeartbeat_effect hr (rests_becomeFollower (hr.term_eq hremote) rnd _) hremote
  case h_4 hm => exact absurd hm hheartbeat
  case h_5 hm => exact absurd hm hpropose
  case h_6 hm => exact absurd hm hresponse
  case h_7 hm =>
    have hremote := Message.isRemote_of_eq hm (by decide)
    exact handleAppendEntries_effect hr (rests_becomeFollower (hr.term_eq hremote) rnd _) hm
      (by simp)
  case h_8 => exact (Rests.refl r).effect_nil hr.wf

theorem dispatch_effect (hr : r.Ready P m) :
    Go.Ensures (r.dispatch rnd m) fun r' => Effect P rnd r m r' ∧ r'.WF P := by
  unfold dispatch
  cases hstate : r.state with
  | follower => exact stepFollower_effect hr hstate
  | candidate => exact stepCandidate_effect hr hstate
  | leader => exact stepLeader_effect hr hstate

end Raft

end TinyKV
