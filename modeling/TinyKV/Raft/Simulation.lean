import TinyKV.Consensus.Preservation
import TinyKV.Raft.Cluster

/-!
# The nodes follow the protocol

What each node holds (`NodeSim`), and what each message that was ever sent tells (`MsgSim`): facts
of the history, which stay true however long the message is in flight.
-/

namespace TinyKV

open List hiding merge
open Consensus (Slot State Steps Step majority merge termAt key)

abbrev Abstract := State ℕ (List UInt8)

variable {P : Finset ℕ} {a b : Abstract} {n : ℕ} {r r' : Raft} {m : Message}

def VoteSim (a : Abstract) (r : Raft) : Prop :=
  r.vote = None ∧ a.vote r.id r.term = none ∨
    r.vote ≠ None ∧ a.vote r.id r.term = some r.vote ∨
    r.vote = None ∧ a.vote r.id r.term = some r.id ∧ a.leader r.term = some r.id

/-- The node `n` is in the state that the protocol has it in. -/
structure NodeSim (P : Finset ℕ) (a : Abstract) (n : ℕ) (r : Raft) : Prop where
  wf : r.WF P
  id_eq : r.id = n
  term_eq : a.term n = r.term
  log_eq : a.log n = r.raftLog.slots
  commit_eq : a.commit n = r.raftLog.committed
  vote_sim : VoteSim a r
  candidate : r.state = .candidate → a.camp r.term n = some r.raftLog.slots ∧
    a.leader r.term ≠ some n ∧ ∀ p, r.votes.lookup p = some true → p ∈ P ∧ a.vote p r.term = some n
  leader : r.state = .leader → a.leader r.term = some n ∧
    ∀ p pr, r.prs.lookup p = some pr → pr.matchIdx ≤ a.ack p r.term

/-- What an append tells: a part of its leader's log, up to an entry of the term, and a position
that is decided. -/
structure AppendSim (P : Finset ℕ) (a : Abstract) (m : Message) : Prop where
  le : m.index + m.entries.length ≤ (a.llog m.term).length
  pos : 0 < m.index + m.entries.length
  last : termAt (a.llog m.term) (m.index + m.entries.length) = m.term
  prev : m.logTerm = termAt (a.llog m.term) m.index
  slots : m.entries.map Entry.slot =
    ((a.llog m.term).take (m.index + m.entries.length)).drop m.index
  commit : m.commit = 0 ∨ ∃ T i, T ≤ m.term ∧ m.commit ≤ i ∧ a.Decided (majority P) T i

structure MsgSim (P : Finset ℕ) (a : Abstract) (m : Message) : Prop where
  wf : m.WF P
  remote : m.IsRemote
  from_ne : m.fromId ≠ None
  to_ne : m.toId ≠ m.fromId
  camp : m.msgType = .msgRequestVote → ∃ l, a.camp m.term m.fromId = some l ∧
    m.logTerm = termAt l l.length ∧ m.index = l.length
  vote : m.msgType = .msgRequestVoteResponse → m.reject = false →
    a.vote m.fromId m.term = some m.toId
  leader : m.msgType = .msgAppend ∨ m.msgType = .msgHeartbeat → a.leader m.term = some m.fromId
  append : m.msgType = .msgAppend → AppendSim P a m
  ack : m.msgType = .msgAppendResponse → m.reject = false → m.index ≤ a.ack m.fromId m.term

def Raft.Preserves (r r' : Raft) : Prop :=
  r.raftLog.committed ≤ r'.raftLog.committed ∧
    r'.raftLog.entries.take r.raftLog.committed = r.raftLog.entries.take r.raftLog.committed

theorem AppendSim.mono (h : AppendSim P a m) (hext : a.Extends b) : AppendSim P b m := by
  have htake := Consensus.take_of_isPrefix (hext.llog m.term) h.le
  refine ⟨h.le.trans (hext.llog m.term).length_le, h.pos, ?_, ?_, ?_, ?_⟩
  · rw [Consensus.termAt_congr htake le_rfl]
    exact h.last
  · rw [Consensus.termAt_congr htake (Nat.le_add_right _ _)]
    exact h.prev
  · rw [htake]
    exact h.slots
  · rcases h.commit with h0 | ⟨T, i, hT, hi, hd⟩
    · exact Or.inl h0
    · exact Or.inr ⟨T, i, hT, hi, hd.mono hext⟩

theorem MsgSim.mono (h : MsgSim P a m) (hext : a.Extends b) : MsgSim P b m where
  wf := h.wf
  remote := h.remote
  from_ne := h.from_ne
  to_ne := h.to_ne
  camp hm := by
    obtain ⟨l, hl, hlog⟩ := h.camp hm
    exact ⟨l, hext.camp _ _ l hl, hlog⟩
  vote hm hr := hext.vote _ _ _ (h.vote hm hr)
  leader hm := hext.leader _ _ (h.leader hm)
  append hm := (h.append hm).mono hext
  ack hm hr := (h.ack hm hr).trans (hext.ack _ _)

theorem NodeSim.frame {k : ℕ} (h : NodeSim P a n r) (hne : n ≠ k) (hext : a.Extends b)
    (hframe : State.Frame k a b) : NodeSim P b n r where
  wf := h.wf
  id_eq := h.id_eq
  term_eq := (hframe.term n hne).trans h.term_eq
  log_eq := (hframe.log n hne).trans h.log_eq
  commit_eq := (hframe.commit n hne).trans h.commit_eq
  vote_sim := by
    -- The vote of the node is its own, and its election stays.
    have hv : b.vote r.id r.term = a.vote r.id r.term := by
      rw [hframe.vote r.id (by rw [h.id_eq]; exact hne)]
    unfold VoteSim
    rw [hv]
    rcases h.vote_sim with h1 | h1 | ⟨h1, h2, h3⟩
    · exact Or.inl h1
    · exact Or.inr (Or.inl h1)
    · exact Or.inr (Or.inr ⟨h1, h2, hext.leader _ _ h3⟩)
  candidate hs := by
    obtain ⟨hcamp, hlead, hvotes⟩ := h.candidate hs
    refine ⟨hext.camp _ _ _ hcamp, fun hb => hlead (hframe.leader _ n hne hb), fun p hp => ?_⟩
    exact ⟨(hvotes p hp).1, hext.vote _ _ _ (hvotes p hp).2⟩
  leader hs := by
    obtain ⟨hlead, hack⟩ := h.leader hs
    exact ⟨hext.leader _ _ hlead, fun p pr hpr => (hack p pr hpr).trans (hext.ack _ _)⟩

section

variable (h : NodeSim P a n r)
include h

theorem NodeSim.rests (hwf : r'.WF P) (hid : r'.id = r.id) (hterm : r'.term = r.term)
    (hvote : r'.vote = r.vote) (hentries : r'.raftLog.entries = r.raftLog.entries)
    (hcommit : r'.raftLog.committed = r.raftLog.committed)
    (hstate : r'.state = r.state ∧ r'.votes = r.votes ∧ r'.prs = r.prs ∨ r'.state = .follower) :
    NodeSim P a n r' := by
  have hslots : r'.raftLog.slots = r.raftLog.slots := by rw [RaftLog.slots, hentries, RaftLog.slots]
  refine ⟨hwf, hid.trans h.id_eq, by rw [hterm, h.term_eq], by rw [hslots, h.log_eq],
    by rw [hcommit, h.commit_eq], ?_, ?_, ?_⟩
  · have hv := h.vote_sim
    unfold VoteSim at hv ⊢
    rwa [hid, hterm, hvote]
  · intro hs
    rcases hstate with ⟨hst, hvotes, -⟩ | hst
    · rw [hterm, hslots, hvotes]
      exact h.candidate (hst ▸ hs)
    · simp [hst] at hs
  · intro hs
    rcases hstate with ⟨hst, -, hprs⟩ | hst
    · rw [hterm, hprs]
      exact h.leader (hst ▸ hs)
    · simp [hst] at hs

theorem NodeSim.committed_le (hinv : a.Inv (majority P)) :
    r.raftLog.committed ≤ r.raftLog.entries.length := by
  have := hinv.commit_le_length n
  rwa [h.commit_eq, h.log_eq, RaftLog.slots_length] at this

theorem NodeSim.idleMsg {x : Message} (hx : r.IdleMsg x) : MsgSim P a x := by
  have hremote : x.IsRemote := by
    rcases hx.kind with ⟨hk, -⟩ | hk | ⟨hk | hk, -⟩ <;> simp [Message.IsRemote, hk]
  have happend : x.msgType ≠ .msgAppend := by
    rcases hx.kind with ⟨hk, -⟩ | hk | ⟨hk | hk, -⟩ <;> simp [hk]
  refine ⟨⟨fun _ => hx.from_eq ▸ h.wf.id_mem, fun hm => absurd hm happend,
    fun hm => absurd hm happend, fun hm hr => ?_⟩, hremote, hx.from_eq ▸ h.wf.id_ne,
    hx.from_eq ▸ hx.to_ne, fun hm => ?_, fun hm hr => ?_, ?_, fun hm => absurd hm happend,
    fun hm hr => ?_⟩
  · rcases hx.kind with ⟨hk, -⟩ | hk | ⟨-, hk⟩ <;> simp_all
  · rcases hx.kind with ⟨hk, -⟩ | hk | ⟨hk | hk, -⟩ <;> simp_all
  · rcases hx.kind with ⟨hk, -⟩ | hk | ⟨-, hk⟩ <;> simp_all
  · rintro (hm | hm)
    · exact absurd hm happend
    · -- Only a leader sends heartbeats.
      rcases hx.kind with ⟨-, hs⟩ | hk | ⟨hk | hk, -⟩
      · rw [hx.term_eq, hx.from_eq, h.id_eq]
        exact (h.leader hs).1
      all_goals simp_all
  · rcases hx.kind with ⟨hk, -⟩ | hk | ⟨-, hk⟩ <;> simp_all

variable (hinv : a.Inv (majority P)) (hs : r.state = .leader)
include hinv hs

theorem NodeSim.llog_eq : a.llog r.term = r.raftLog.slots := by
  have hlead : a.leader (a.term n) = some n := by
    rw [h.term_eq]
    exact (h.leader hs).1
  rw [← h.term_eq, ← hinv.leading n hlead, h.log_eq]

theorem NodeSim.appendMsg {p next : ℕ} (hp : p ≠ r.id) (hnext : r.CanSend next) :
    MsgSim P a (r.appendMsg p next) := by
  obtain ⟨h1, hle⟩ := hnext
  have hlead := (h.leader hs).1
  have hllog := h.llog_eq hinv hs
  have hlen : next - 1 + (r.appendMsg p next).entries.length = r.raftLog.entries.length := by
    simp only [Raft.appendMsg, length_map, length_drop]
    omega
  have hcommit := h.committed_le hinv
  refine ⟨⟨fun _ => h.wf.id_mem, fun _ => ?_, fun _ => ?_, by simp [Raft.appendMsg]⟩, ?_,
    h.wf.id_ne, hp, by simp [Raft.appendMsg], by simp [Raft.appendMsg], fun _ => ?_, fun _ => ?_,
    by simp [Raft.appendMsg]⟩
  · have := (h.wf.log.consecutive.drop (next - 1)).map_copy
    rwa [Nat.zero_add] at this
  · change r.raftLog.committed ≤ next - 1 + _
    omega
  · simp [Message.IsRemote, Raft.appendMsg]
  · change a.leader r.term = some r.id
    rw [h.id_eq]
    exact hlead
  · -- The message ends with the leader's log, which ends with an entry of the leader's term.
    refine ⟨?_, ?_, ?_, ?_, ?_, ?_⟩
    · change next - 1 + _ ≤ (a.llog r.term).length
      rw [hlen, hllog, RaftLog.slots_length]
    · change 0 < next - 1 + _
      have := hinv.llog_length_pos hlead
      rwa [hlen, ← RaftLog.slots_length, ← hllog]
    · change termAt (a.llog r.term) (next - 1 + _) = r.term
      have := hinv.termAt_llog_length hlead
      rwa [hllog, RaftLog.slots_length, ← hlen, ← hllog] at this
    · change termAt r.raftLog.slots (next - 1) = termAt (a.llog r.term) (next - 1)
      rw [hllog]
    · change _ = ((a.llog r.term).take (next - 1 + _)).drop (next - 1)
      rw [hlen, hllog, ← RaftLog.slots_length, take_length]
      simp [Raft.appendMsg, RaftLog.slots, Function.comp_def]
    · change r.raftLog.committed = 0 ∨ ∃ T i, T ≤ r.term ∧ r.raftLog.committed ≤ i ∧ _
      rw [← h.commit_eq, ← h.term_eq]
      rcases hinv.commit_ok n with h0 | ⟨T, i, hT, hi, hd, -⟩
      · exact Or.inl h0
      · exact Or.inr ⟨T, i, hT, hi, hd⟩

theorem NodeSim.appendMsgs {p : ℕ} {x : Message} (hx : x ∈ r.appendMsgs p) : MsgSim P a x := by
  unfold Raft.appendMsgs at hx
  split_ifs at hx with hp
  · simp at hx
  · split at hx
    · split_ifs at hx with hnext
      · obtain rfl := mem_singleton.mp hx
        exact h.appendMsg hinv hs hp hnext
      · simp at hx
    · simp at hx

end

def Simulated (P : Finset ℕ) (a : Abstract) (n : ℕ) (r' : Raft) : Prop :=
  ∃ b, Steps (majority P) n a b ∧ NodeSim P b n r' ∧ ∀ x ∈ r'.msgs, MsgSim P b x

theorem NodeSim.simulated (h : NodeSim P a n r) (hmsgs : ∀ x ∈ r.msgs, MsgSim P a x) :
    Simulated P a n r :=
  ⟨a, .refl, h, hmsgs⟩

theorem Simulated.head (hstep : Step (majority P) n a b) (h : Simulated P b n r) :
    Simulated P a n r := by
  obtain ⟨c, hsteps, hc⟩ := h
  exact ⟨c, .head hstep hsteps, hc⟩

theorem msgSim_step (hinv : a.Inv (majority P)) (hstep : Step (majority P) n a b)
    {ms : List Message} (hms : ∀ x ∈ ms, MsgSim P a x) : ∀ x ∈ ms, MsgSim P b x :=
  fun x hx => (hms x hx).mono (hstep.evolves hinv).ext

variable (h : NodeSim P a n r)
include h

theorem NodeSim.sendAll {ms : List Message} (hms : ∀ x ∈ ms, MsgSim P a x)
    (hmsgs : ∀ x ∈ r.msgs, MsgSim P a x) : Simulated P a n (r.sendAll ms) := by
  refine NodeSim.simulated
    (h.rests (h.wf.sendAll ms) rfl rfl rfl rfl rfl (Or.inl ⟨rfl, rfl, rfl⟩)) fun x hx => ?_
  rcases mem_append.mp hx with hx | hx
  · exact hmsgs x hx
  · exact hms x hx

theorem NodeSim.broadcast (hinv : a.Inv (majority P)) (hs : r.state = .leader)
    (hmsgs : ∀ x ∈ r.msgs, MsgSim P a x) : Simulated P a n r.broadcast := by
  refine h.sendAll (fun x hx => ?_) hmsgs
  obtain ⟨p, -, hx⟩ := mem_flatMap.mp hx
  exact h.appendMsgs hinv hs hx

theorem NodeSim.becomeFollower (hinv : a.Inv (majority P)) {t : ℕ} (ht : r.term < t)
    (rnd lead : ℕ) : NodeSim P (a.observe n t) n (r.becomeFollower rnd t lead) := by
  refine ⟨h.wf.becomeFollower rnd t lead, by simp [h.id_eq], ?_, ?_, ?_, ?_, by simp, by simp⟩
  · simp [State.observe, Raft.becomeFollower_term, max_eq_right ht.le]
  · simp [State.observe, h.log_eq]
  · simp [State.observe, h.commit_eq]
  · refine Or.inl ⟨by rw [Raft.becomeFollower_vote, if_pos ht], ?_⟩
    rw [Raft.becomeFollower_id, Raft.becomeFollower_term, max_eq_right ht.le, h.id_eq]
    -- A node does not vote in a term that it has not reached.
    rcases hv : a.vote n t with _ | c
    · exact hv
    · have := hinv.vote_term n t c hv
      rw [h.term_eq] at this
      omega

theorem NodeSim.campaigning (hinv : a.Inv (majority P)) (rnd : ℕ) :
    NodeSim P (a.campaign n) n (r.campaigning rnd) := by
  have hcamp := hinv.camp_next n
  refine ⟨h.wf.campaigning rnd, h.id_eq, ?_, h.log_eq, h.commit_eq, ?_, fun _ => ⟨?_, ?_, ?_⟩, ?_⟩
  · simp [State.campaign, Raft.campaigning, h.term_eq]
  · refine Or.inr (Or.inl ⟨h.wf.id_ne, ?_⟩)
    change (a.campaign n).vote r.id (r.term + 1) = some r.id
    rw [State.campaign_vote, if_pos ⟨h.id_eq, by rw [h.term_eq]⟩, h.id_eq]
  · change (a.campaign n).camp (r.term + 1) n = some r.raftLog.slots
    rw [State.campaign_camp, if_pos ⟨by rw [h.term_eq], rfl⟩, h.log_eq]
  · change a.leader (r.term + 1) ≠ some n
    intro hlead
    -- A leader of the term would have campaigned in it.
    obtain ⟨l, vs, hl, -⟩ := hinv.llog_eq _ n hlead
    rw [← h.term_eq, hcamp] at hl
    exact absurd hl (by simp)
  · -- The only vote counted so far is the candidate's own.
    intro p hp
    change (AList.insert r.id true (∅ : AList fun _ : ℕ => Bool)).lookup p = some true at hp
    by_cases hpid : p = r.id
    · subst hpid
      refine ⟨h.wf.id_mem, ?_⟩
      change (a.campaign n).vote r.id (r.term + 1) = some n
      rw [State.campaign_vote, if_pos ⟨h.id_eq, by rw [h.term_eq]⟩]
    · rw [AList.lookup_insert_ne hpid, AList.lookup_empty] at hp
      simp at hp
  · simp [Raft.campaigning]

theorem NodeSim.requestVoteMsgs (hs : r.state = .candidate) {x : Message}
    (hx : x ∈ r.requestVoteMsgs) : MsgSim P a x := by
  obtain ⟨id, -, hx⟩ := mem_flatMap.mp hx
  split_ifs at hx with hid
  · simp at hx
  · obtain rfl := mem_singleton.mp hx
    refine ⟨⟨fun _ => h.wf.id_mem, by simp [Raft.requestVoteMsg], by simp [Raft.requestVoteMsg],
      by simp [Raft.requestVoteMsg]⟩, by simp [Message.IsRemote, Raft.requestVoteMsg], h.wf.id_ne,
      hid, fun _ => ?_, by simp [Raft.requestVoteMsg], by simp [Raft.requestVoteMsg],
      by simp [Raft.requestVoteMsg], by simp [Raft.requestVoteMsg]⟩
    refine ⟨r.raftLog.slots, ?_, ?_, ?_⟩
    · rw [← (h.candidate hs).1, ← h.id_eq]
      rfl
    · rw [RaftLog.slots_length]
      rfl
    · rw [RaftLog.slots_length]
      rfl

theorem NodeSim.count (hs : r.state = .candidate) (hm : MsgSim P a m)
    (htype : m.msgType = .msgRequestVoteResponse) (hto : m.toId = r.id) (hterm : m.term = r.term) :
    NodeSim P a n { r with votes := r.votes.insert m.fromId (!m.reject) } := by
  obtain ⟨hcamp, hlead, hvotes⟩ := h.candidate hs
  refine ⟨h.wf.congr rfl rfl rfl, h.id_eq, h.term_eq, h.log_eq, h.commit_eq, h.vote_sim,
    fun _ => ⟨hcamp, hlead, fun p hp => ?_⟩, by simp [hs]⟩
  by_cases hpm : p = m.fromId
  · -- The answer tells of a vote that was cast.
    subst hpm
    rw [AList.lookup_insert, Option.some.injEq, Bool.not_eq_true'] at hp
    refine ⟨hm.wf.from_mem hm.remote, ?_⟩
    rw [← h.id_eq, ← hto, ← hterm]
    exact hm.vote htype hp
  · rw [AList.lookup_insert_ne hpm] at hp
    exact hvotes p hp

theorem NodeSim.lead {vs : List (List UInt8)} (hwf : r'.WF P) (hid : r'.id = r.id)
    (hterm : r'.term = r.term)
    (hslots : r'.raftLog.slots = r.raftLog.slots ++ vs.map (Slot.mk r.term))
    (hcommit : r'.raftLog.committed = r.raftLog.committed) (hstate : r'.state = .leader)
    (hvote : VoteSim (a.lead n vs) r')
    (hprs : ∀ p pr, r'.prs.lookup p = some pr → p = n ∧ pr.matchIdx = r'.raftLog.entries.length ∨
      p ≠ n ∧ pr.matchIdx ≤ a.ack p r.term) : NodeSim P (a.lead n vs) n r' := by
  refine ⟨hwf, hid.trans h.id_eq, by rw [hterm]; exact h.term_eq, ?_,
    by rw [hcommit]; exact h.commit_eq, hvote, by simp [hstate], fun _ => ⟨?_, fun p pr hpr => ?_⟩⟩
  · simp [State.lead, hslots, h.log_eq, h.term_eq]
  · simp [State.lead, hterm, h.term_eq]
  · rw [State.lead_ack, hterm, ← h.term_eq]
    rcases hprs p pr hpr with ⟨rfl, hmatch⟩ | ⟨hp, hmatch⟩
    · rw [if_pos ⟨rfl, rfl⟩, hmatch, h.log_eq, h.term_eq, ← hslots, RaftLog.slots_length]
    · rw [if_neg fun hc => hp hc.1, h.term_eq]
      exact hmatch

section

variable (hinv : a.Inv (majority P))
include hinv

theorem NodeSim.learn (hs : r.state = .leader)
    {i : ℕ} (hle : r.raftLog.committed ≤ i) (hdec : a.Decided (majority P) r.term i) :
    Step (majority P) n a (a.learn n i) ∧ NodeSim P (a.learn n i) n (r.setCommitted i) := by
  refine ⟨.learn (T := r.term) (by rw [h.term_eq]) le_rfl hdec ?_ ?_, ?_⟩
  · rw [h.log_eq, h.llog_eq hinv hs]
  · rw [h.commit_eq]
    exact hle
  · refine ⟨h.wf.setCommitted (h.wf.log.applied_le.trans hle), h.id_eq, h.term_eq, h.log_eq, ?_,
      h.vote_sim, h.candidate, h.leader⟩
    simp [State.learn, Raft.setCommitted]

theorem NodeSim.announce (hs : r.state = .leader)
    (hself : ∃ pr, r.prs.lookup r.id = some pr ∧ pr.matchIdx = r.raftLog.entries.length)
    (hmsgs : ∀ x ∈ r.msgs, MsgSim P a x) : Simulated P a n (r.announce P) := by
  obtain ⟨hlead, hack⟩ := h.leader hs
  have hllog := h.llog_eq hinv hs
  unfold Raft.announce
  split_ifs with hcard
  · -- The only peer is a majority by itself.
    obtain ⟨pr, hpr, hmatch⟩ := hself
    have hdec : a.Decided (majority P) r.term r.raftLog.entries.length := by
      refine ⟨?_, ?_, ?_, {n}, ⟨?_, ?_⟩, ?_⟩
      · have := hinv.llog_length_pos hlead
        rwa [hllog, RaftLog.slots_length] at this
      · rw [hllog, RaftLog.slots_length]
      · have := hinv.termAt_llog_length hlead
        rwa [hllog, RaftLog.slots_length, ← hllog] at this
      · simpa [h.id_eq] using h.wf.id_mem
      · simp [hcard]
      · intro p hp
        obtain rfl := Finset.mem_singleton.mp hp
        rw [← hmatch]
        exact hack p pr (h.id_eq ▸ hpr)
    obtain ⟨hstep, hnode⟩ := h.learn hinv hs (h.committed_le hinv) hdec
    exact .head hstep (hnode.simulated (msgSim_step hinv hstep hmsgs))
  · exact h.broadcast hinv hs hmsgs

theorem NodeSim.elected (hs : r.state = .candidate) {S : Finset ℕ} (hcard : P.card < 2 * S.card)
    (hS : ∀ p ∈ S, r.votes.lookup p = some true) (hwf : r.elected.WF P)
    (hmsgs : ∀ x ∈ r.msgs, MsgSim P a x) : Simulated P a n (r.elected.announce P) := by
  obtain ⟨hcamp, hlead, hvotes⟩ := h.candidate hs
  have hstep : Step (majority P) n a (a.lead n [[]]) := by
    refine .elect (S := S) (by rw [h.term_eq, h.log_eq]; exact hcamp) (by rwa [h.term_eq])
      ⟨fun p hp => (hvotes p (hS p hp)).1, hcard⟩ fun p hp => ?_
    rw [h.term_eq]
    exact (hvotes p (hS p hp)).2
  have hself := h.wf.lookup_elected r.id
  rw [if_pos rfl] at hself
  -- Being elected clears the vote, but the leader of the term is the node itself.
  refine .head hstep (NodeSim.announce ?_ (hstep.evolves hinv).inv rfl
    ⟨_, hself, by simp [Raft.elected]⟩ (msgSim_step hinv hstep hmsgs))
  refine h.lead hwf rfl rfl ?_ rfl rfl (Or.inr (Or.inr ⟨rfl, ?_, ?_⟩)) fun p pr hpr => ?_
  · simp [Raft.elected, RaftLog.slots, Raft.noop, Entry.slot]
  · change a.vote r.id r.term = some r.id
    rw [h.id_eq]
    exact hinv.camp_vote _ n _ hcamp
  · simp [State.lead, Raft.elected, h.term_eq, h.id_eq]
  · rw [h.wf.lookup_elected] at hpr
    rw [← h.id_eq]
    split_ifs at hpr with hp
    · obtain rfl := Option.some.inj hpr
      exact Or.inl ⟨hp, by simp [Raft.elected]⟩
    · obtain rfl := Option.some.inj hpr
      exact Or.inr ⟨hp, Nat.zero_le _⟩

theorem NodeSim.proposed (hs : r.state = .leader) {es : List Entry} (hwf : (r.proposed es).WF P)
    (hmsgs : ∀ x ∈ r.msgs, MsgSim P a x) : Simulated P a n ((r.proposed es).announce P) := by
  obtain ⟨hlead, hack⟩ := h.leader hs
  have hstep : Step (majority P) n a (a.lead n (es.map Entry.data)) := by
    refine .append ?_
    rw [h.term_eq]
    exact hlead
  have hself := r.lookup_proposed es r.id
  rw [if_pos rfl] at hself
  refine .head hstep (NodeSim.announce ?_ (hstep.evolves hinv).inv hs ⟨_, hself, rfl⟩
    (msgSim_step hinv hstep hmsgs))
  refine h.lead hwf rfl rfl ?_ rfl hs ?_ fun p pr hpr => ?_
  · simp [Raft.proposed, Raft.setPrs, RaftLog.slots, Raft.stamp_slots]
  · -- Only the leader of the term is new, and it is the node.
    rcases h.vote_sim with h1 | h1 | ⟨h1, h2, -⟩
    · exact Or.inl h1
    · exact Or.inr (Or.inl h1)
    · refine Or.inr (Or.inr ⟨h1, h2, ?_⟩)
      simp [State.lead, Raft.proposed, Raft.setPrs, h.term_eq, h.id_eq]
  · rw [Raft.lookup_proposed] at hpr
    rw [← h.id_eq]
    split_ifs at hpr with hp
    · obtain rfl := Option.some.inj hpr
      exact Or.inl ⟨hp, rfl⟩
    · exact Or.inr ⟨hp, hack p pr hpr⟩

theorem NodeSim.grant (hs : r.state = .follower) (hm : MsgSim P a m)
    (htype : m.msgType = .msgRequestVote) (hto : m.toId = r.id) (hterm : m.term = r.term)
    (hvote : r.vote = None ∨ r.vote = m.fromId)
    (hkey : termAt r.raftLog.slots r.raftLog.entries.length < m.logTerm ∨ termAt r.raftLog.slots
      r.raftLog.entries.length = m.logTerm ∧ r.raftLog.entries.length ≤ m.index)
    (hmsgs : ∀ x ∈ r.msgs, MsgSim P a x) :
    Simulated P a n (Raft.sendAll { r with vote := m.fromId } [r.grantMsg m.fromId]) := by
  obtain ⟨l, hl, hlogTerm, hindex⟩ := hm.camp htype
  rw [hterm, ← h.term_eq] at hl
  -- The check of the code is the order of the keys.
  have hkey' : key (a.log n) ≤ key l := by
    rw [Consensus.key_le_key, h.log_eq, RaftLog.slots_length, ← hlogTerm, ← hindex]
    exact hkey
  have hfree : a.vote n (a.term n) = none ∨ a.vote n (a.term n) = some m.fromId := by
    rw [h.term_eq, ← h.id_eq]
    rcases h.vote_sim with ⟨-, h1⟩ | ⟨hne, h1⟩ | ⟨-, -, h1⟩
    · exact Or.inl h1
    · rcases hvote with h0 | h0
      · exact absurd h0 hne
      · exact Or.inr (h0 ▸ h1)
    · -- The leader of the term has a log that no candidate of the term comes up to.
      rw [h.id_eq, ← h.term_eq] at h1
      exact absurd hkey' (hinv.not_key_le_camp h1 hl)
  have hstep : Step (majority P) n a (a.grant n m.fromId) := .grant hl hfree hkey'
  have hcast : (a.grant n m.fromId).vote r.id r.term = some m.fromId := by
    rw [State.grant_vote, if_pos ⟨h.id_eq, h.term_eq.symm⟩]
  refine .head hstep (NodeSim.simulated ?_ fun x hx => ?_)
  · refine ⟨h.wf.congr rfl rfl rfl, h.id_eq, h.term_eq, h.log_eq, h.commit_eq,
      Or.inr (Or.inl ⟨hm.from_ne, hcast⟩), ?_, ?_⟩
    · intro hc
      exact absurd (hs.symm.trans hc) (by simp)
    · intro hc
      exact absurd (hs.symm.trans hc) (by simp)
  · rcases mem_append.mp hx with hx | hx
    · exact msgSim_step hinv hstep hmsgs x hx
    · obtain rfl := mem_singleton.mp hx
      refine ⟨⟨fun _ => h.wf.id_mem, by simp [Raft.grantMsg], by simp [Raft.grantMsg],
        by simp [Raft.grantMsg]⟩, by simp [Message.IsRemote, Raft.grantMsg], h.wf.id_ne, ?_,
        by simp [Raft.grantMsg], fun _ _ => hcast, by simp [Raft.grantMsg], by simp [Raft.grantMsg],
        by simp [Raft.grantMsg]⟩
      change m.fromId ≠ r.id
      rw [← hto]
      exact hm.to_ne.symm

end

theorem NodeSim.setPrs (hs : r.state = .leader) {p : ℕ} {pr : Progress} (hwf : (r.setPrs p pr).WF P)
    (hmatch : pr.matchIdx ≤ a.ack p r.term) : NodeSim P a n (r.setPrs p pr) := by
  obtain ⟨hlead, hack⟩ := h.leader hs
  refine ⟨hwf, h.id_eq, h.term_eq, h.log_eq, h.commit_eq, h.vote_sim, h.candidate,
    fun _ => ⟨hlead, fun q pr' hq => ?_⟩⟩
  rw [Raft.lookup_setPrs] at hq
  split_ifs at hq with hqp
  · obtain rfl := Option.some.inj hq
    rw [hqp]
    exact hmatch
  · exact hack q pr' hq

theorem NodeSim.commit (hinv : a.Inv (majority P)) (hs : r.state = .leader) {S : Finset ℕ} {i : ℕ}
    (hlt : r.raftLog.committed < i) (hterm : termAt r.raftLog.slots i = r.term)
    (hcard : P.card < 2 * S.card) (hS : ∀ p ∈ S, ∃ pr, r.prs.lookup p = some pr ∧ i ≤ pr.matchIdx)
    (hmsgs : ∀ x ∈ r.msgs, MsgSim P a x) : Simulated P a n ((r.setCommitted i).broadcast) := by
  obtain ⟨hlead, hack⟩ := h.leader hs
  have hllog := h.llog_eq hinv hs
  have hacked : ∀ p ∈ S, i ≤ a.ack p r.term := by
    intro p hp
    obtain ⟨pr, hpr, hi⟩ := hS p hp
    exact hi.trans (hack p pr hpr)
  -- What a peer has acknowledged is in the leader's log.
  have hile : i ≤ r.raftLog.slots.length := by
    obtain ⟨p, hp⟩ := Finset.card_pos.mp (show 0 < S.card by omega)
    rw [← hllog]
    exact (hacked p hp).trans (hinv.ack_le p _)
  have hdec : a.Decided (majority P) r.term i := by
    refine ⟨by omega, by rwa [hllog], by rwa [hllog], S, ⟨fun p hp => ?_, hcard⟩, hacked⟩
    obtain ⟨pr, hpr, -⟩ := hS p hp
    exact h.wf.mem_of_lookup hpr
  obtain ⟨hstep, hnode⟩ := h.learn hinv hs hlt.le hdec
  exact .head hstep (hnode.broadcast (hstep.evolves hinv).inv hs (msgSim_step hinv hstep hmsgs))

end TinyKV
