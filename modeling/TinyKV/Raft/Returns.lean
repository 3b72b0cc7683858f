import TinyKV.Machine
import TinyKV.Raft.Cluster

/-!
# What a step that returns does

Here nothing is assumed of a node, its peers or the message, so that a step may panic.
-/

namespace TinyKV

/-- The part of a node that decides when it campaigns. -/
structure Clock where
  state : StateType
  term : ℕ
  tickFn : TickFn
  base : ℤ
  timeout : ℤ
  elapsed : ℤ
deriving DecidableEq

def Raft.clock (r : Raft) : Clock :=
  ⟨r.state, r.term, r.tickFn, r.electionTimeoutBase, r.electionTimeout, r.electionElapsed⟩

namespace Clock

def follow (rnd : ℕ) (c : Clock) (term : ℕ) : Clock :=
  { c with
    state := .follower
    term := max c.term term
    tickFn := .tickElection
    timeout := int64 (c.base + randIntn rnd c.base)
    elapsed := 0 }

def hear (c : Clock) : Clock := { c with elapsed := 0 }

def campaign [TermWidth] (rnd : ℕ) (c : Clock) : Clock :=
  { c with
    state := .candidate
    term := TermWidth.wrap (c.term + 1)
    tickFn := .tickElection
    timeout := int64 (c.base + randIntn rnd c.base)
    elapsed := 0 }

def lead (c : Clock) : Clock := { c with state := .leader, tickFn := .tickHeartbeat, elapsed := 0 }

end Clock

def Message.IsFromLeader (m : Message) : Prop := m.msgType = .msgHeartbeat ∨ m.msgType = .msgAppend

instance (m : Message) : Decidable m.IsFromLeader := inferInstanceAs (Decidable (_ ∨ _))

section

variable [TermWidth]

/-- What handling a message does to the clock. -/
inductive Clock.Handles (rnd : ℕ) (m : Message) (c : Clock) : Clock → Prop
  | rest (hleader : ¬ m.IsFromLeader) (hhup : m.msgType = .msgHup → c.state = .leader) :
      Handles rnd m c c
  | hear (hleader : m.IsFromLeader) (hstate : c.state = .follower) : Handles rnd m c c.hear
  | follow (hleader : m.IsFromLeader) (hstate : c.state ≠ .follower) :
      Handles rnd m c (c.follow rnd m.term)
  | lose (hm : m.msgType = .msgRequestVoteResponse) (hstate : c.state = .candidate) :
      Handles rnd m c (c.follow rnd c.term)
  | win (hm : m.msgType = .msgRequestVoteResponse) (hstate : c.state = .candidate) :
      Handles rnd m c c.lead
  | campaign (hm : m.msgType = .msgHup) (hstate : c.state ≠ .leader) :
      Handles rnd m c (c.campaign rnd)
  | alone (hm : m.msgType = .msgHup) (hstate : c.state ≠ .leader) :
      Handles rnd m c (c.campaign rnd).lead

inductive Clock.Steps (rnd : ℕ) (m : Message) (c : Clock) : Clock → Prop
  | earlier (hremote : m.IsRemote) (hlt : m.term < c.term) : Steps rnd m c c
  | later {c' : Clock} (hremote : m.IsRemote) (hlt : c.term < m.term)
      (h : Handles rnd m (c.follow rnd m.term) c') : Steps rnd m c c'
  | same {c' : Clock} (hterm : m.IsRemote → m.term = c.term) (h : Handles rnd m c c') :
      Steps rnd m c c'

theorem Clock.Steps.handles {rnd : ℕ} {m : Message} {c c' : Clock} (h : c.Steps rnd m c')
    (hm : ¬ m.IsRemote) : c.Handles rnd m c' := by
  cases h with
  | earlier hremote => exact absurd hremote hm
  | later hremote => exact absurd hremote hm
  | same _ h => exact h

theorem Clock.Handles.eq_of_msgBeat {rnd : ℕ} {m : Message} {c c' : Clock}
    (h : c.Handles rnd m c') (hm : m.msgType = .msgBeat) : c' = c := by
  cases h with
  | rest => rfl
  | hear hleader | follow hleader => simp [Message.IsFromLeader, hm] at hleader
  | lose hm' | win hm' | campaign hm' | alone hm' => simp [hm] at hm'

inductive Clock.Ticks (rnd : ℕ) (c : Clock) : Clock → Prop
  | wait (hfn : c.tickFn = .tickElection) (hlt : c.elapsed + 1 < c.timeout) :
      Ticks rnd c { c with elapsed := c.elapsed + 1 }
  | expire {c' : Clock} (hfn : c.tickFn = .tickElection) (hle : c.timeout ≤ c.elapsed + 1)
      {m : Message} (hm : m.msgType = .msgHup) (h : Handles rnd m c.hear c') : Ticks rnd c c'
  | beat (hfn : c.tickFn = .tickHeartbeat) : Ticks rnd c c

end

/-- What handling a message does to the log. -/
inductive LogMoves (m : Message) (l : RaftLog) : RaftLog → Prop
  | commit (i : ℕ) : LogMoves m l { l with committed := i }
  | append (i : ℕ) {es : List Entry} (hes : ConsecutiveFrom l.lastIndex es)
      (hlen : l.entries.length ≤ maxInt → (l.entries ++ es).length ≤ maxInt) :
      LogMoves m l { l with entries := l.entries ++ es, committed := i }
  | receive (i : ℕ) {l' : RaftLog} (hm : m.msgType = .msgAppend) (hle : m.index ≤ l.lastIndex)
      (hl' : m.entries.foldlM Raft.handleAppendEntry l = .ok l') :
      LogMoves m l { l' with committed := i }

theorem LogMoves.refl (m : Message) (l : RaftLog) : LogMoves m l l := .commit l.committed

theorem LogMoves.of_ne_append {m : Message} {l l' : RaftLog} (h : LogMoves m l l')
    (hm : m.msgType ≠ .msgAppend) (m' : Message) : LogMoves m' l l' := by
  cases h with
  | commit i => exact .commit i
  | append i hes hlen => exact .append i hes hlen
  | receive i hm' => exact absurd hm' hm

namespace Raft

variable {r r' : Raft} {m : Message} {rnd : ℕ}

@[simp]
theorem clock_becomeFollower (r : Raft) (rnd term lead : ℕ) :
    (r.becomeFollower rnd term lead).clock = r.clock.follow rnd term := by
  have hterm := becomeFollower_term r rnd term lead
  unfold clock Clock.follow
  rw [hterm, becomeFollower_state]
  simp only [becomeFollower]
  split_ifs <;> rfl

@[simp]
theorem clock_handleHeartbeat (r : Raft) (m : Message) :
    (r.handleHeartbeat m).clock = r.clock.hear := rfl

@[simp]
theorem handleHeartbeat_raftLog (r : Raft) (m : Message) :
    (r.handleHeartbeat m).raftLog = r.raftLog := rfl

theorem sendAppend_ifReturns (r : Raft) (peer : ℕ) :
    Go.IfReturns (r.sendAppend peer) fun x => ∃ ms, x.1 = r.sendAll ms := by
  unfold sendAppend
  refine Go.ifReturns_bind fun pr => Go.ifReturns_bind fun x => ?_
  dsimp only
  split_ifs
  · exact (Go.ifReturns_ok _ _).mpr ⟨[], by simp⟩
  · refine Go.ifReturns_bind fun entries => (Go.ifReturns_ok _ _).mpr ⟨[_], rfl⟩

theorem broadcastAppend_ifReturns (r : Raft) :
    Go.IfReturns r.broadcastAppend fun r' => ∃ ms, r' = r.sendAll ms := by
  unfold broadcastAppend
  refine Go.ifReturns_foldlM ?_ ⟨[], by simp⟩
  rintro r₁ id ⟨ms, rfl⟩
  unfold sendAppendOther
  split_ifs
  · refine (sendAppend_ifReturns _ id).bind fun x hx => ?_
    obtain ⟨ms', hms'⟩ := hx
    exact (Go.ifReturns_ok _ _).mpr ⟨ms ++ ms', by rw [hms', sendAll_sendAll]⟩
  · exact (Go.ifReturns_ok _ _).mpr ⟨ms, rfl⟩

theorem becomeLeader_ifReturns (r : Raft) (m : Message) :
    Go.IfReturns r.becomeLeader fun r' =>
      r'.clock = r.clock.lead ∧ LogMoves m r.raftLog r'.raftLog := by
  unfold becomeLeader
  dsimp only
  refine (Go.append_ifReturns _ _).bind fun es hes => ?_
  obtain ⟨rfl, hlen⟩ := hes
  have hnoop : ConsecutiveFrom r.raftLog.lastIndex
      [{ term := r.term, index := r.raftLog.lastIndex + 1 }] :=
    consecutiveFrom_cons.mpr ⟨rfl, consecutiveFrom_nil _⟩
  refine Go.ifReturns_bind fun _ => ?_
  split_ifs
  · exact (Go.ifReturns_ok _ _).mpr ⟨rfl, .append _ hnoop fun _ => hlen⟩
  · refine (broadcastAppend_ifReturns _).imp fun r' hr' => ?_
    obtain ⟨ms, rfl⟩ := hr'
    exact ⟨rfl, .append r.raftLog.committed hnoop fun _ => hlen⟩

theorem exists_foldl_eq_sendAll {f : Raft → ℕ → Raft} (hf : ∀ r id, ∃ ms, f r id = r.sendAll ms)
    (r : Raft) (ids : List ℕ) : ∃ ms, ids.foldl f r = r.sendAll ms := by
  induction ids generalizing r with
  | nil => exact ⟨[], by simp⟩
  | cons id ids ih =>
    obtain ⟨ms, hms⟩ := hf r id
    obtain ⟨ms', hms'⟩ := ih (r.sendAll ms)
    exact ⟨ms ++ ms', by rw [List.foldl_cons, hms, hms', sendAll_sendAll]⟩

theorem hup_ifReturns [TermWidth] (rnd : ℕ) (r : Raft) (m : Message) :
    Go.IfReturns (r.hup rnd) fun r' =>
      (r'.clock = r.clock.campaign rnd ∨ r'.clock = (r.clock.campaign rnd).lead) ∧
        LogMoves m r.raftLog r'.raftLog := by
  by_cases hlen : r.prs.keys.length = 1
  · unfold hup becomeCandidate
    dsimp only
    rw [if_pos hlen]
    refine (becomeLeader_ifReturns (r.campaigning rnd) m).bind fun r' hr' => ?_
    obtain ⟨hclock, hlog⟩ := hr'
    have hstate : r'.state = .leader := congrArg Clock.state hclock
    rw [if_pos (by simp [hstate])]
    exact (Go.ifReturns_ok _ _).mpr ⟨Or.inr hclock, hlog⟩
  · rw [hup_of_peers rnd r hlen]
    exact Go.ifReturns_bind fun _ => (Go.ifReturns_ok _ _).mpr ⟨Or.inl rfl, .refl m _⟩

theorem handleAppendEntries_ifReturns (r : Raft) (hm : m.msgType = .msgAppend) :
    Go.IfReturns (r.handleAppendEntries m) fun r' =>
      r'.clock = r.clock ∧ LogMoves m r.raftLog r'.raftLog := by
  unfold handleAppendEntries
  split_ifs with hlast
  · exact (Go.ifReturns_ok _ _).mpr ⟨rfl, .refl m _⟩
  · refine Go.ifReturns_bind fun x => ?_
    dsimp only
    split_ifs
    · exact (Go.ifReturns_ok _ _).mpr ⟨rfl, .refl m _⟩
    · intro r' hr'
      cases hl : m.entries.foldlM handleAppendEntry r.raftLog with
      | error e =>
        rw [hl] at hr'
        cases hr'
      | ok l =>
        rw [hl] at hr'
        cases hr'
        refine ⟨rfl, ?_⟩
        simp only [send]
        split_ifs
        · exact .receive _ hm (not_lt.mp hlast) hl
        · exact .receive l.committed hm (not_lt.mp hlast) hl

theorem appendProposal_ifReturns (term : ℕ) (l : RaftLog) (p : ℕ) (es : List Entry) :
    Go.IfReturns (appendProposal term l p es) fun x =>
      x.1 = { l with entries := l.entries ++ stamp term p es } ∧
        (l.entries.length ≤ maxInt → (l.entries ++ stamp term p es).length ≤ maxInt) := by
  unfold appendProposal
  induction es generalizing l p with
  | nil => exact (Go.ifReturns_ok _ _).mpr ⟨by simp [stamp], by simp [stamp]⟩
  | cons e es ih =>
    rw [List.foldlM_cons]
    refine Go.IfReturns.bind (P := fun x => x = ({ l with
      entries := l.entries ++ [{ e with term := term, index := p + 1 }] }, p + 1) ∧
      (l.entries ++ [{ e with term := term, index := p + 1 }]).length ≤ maxInt) ?_ fun x hx => ?_
    · refine (Go.append_ifReturns _ _).bind fun zs hzs => ?_
      obtain ⟨rfl, hlen⟩ := hzs
      exact (Go.ifReturns_ok _ _).mpr ⟨rfl, hlen⟩
    · obtain ⟨rfl, hlen⟩ := hx
      refine (ih _ _).imp fun x hx => ⟨?_, fun _ => ?_⟩
      · rw [hx.1]
        simp [stamp]
      · simpa [stamp] using hx.2 hlen

variable [TermWidth]

def Moves (rnd : ℕ) (m : Message) (r r' : Raft) : Prop :=
  r.clock.Handles rnd m r'.clock ∧ LogMoves m r.raftLog r'.raftLog

theorem Moves.of_eq (hleader : ¬ m.IsFromLeader) (hhup : m.msgType = .msgHup → r.state = .leader)
    (hclock : r'.clock = r.clock) (hlog : LogMoves m r.raftLog r'.raftLog) : r.Moves rnd m r' := by
  refine ⟨?_, hlog⟩
  rw [hclock]
  exact .rest hleader hhup

theorem hup_moves (r : Raft) (hm : m.msgType = .msgHup) (hstate : r.state ≠ .leader) :
    Go.IfReturns (r.hup rnd) (r.Moves rnd m) := by
  refine (hup_ifReturns rnd r m).imp fun r' hr' => ⟨?_, hr'.2⟩
  rcases hr'.1 with hclock | hclock
  · rw [hclock]
    exact .campaign hm hstate
  · rw [hclock]
    exact .alone hm hstate

theorem becomeFollower_handleHeartbeat_moves (r : Raft) (hm : m.msgType = .msgHeartbeat)
    (hstate : r.state ≠ .follower) :
    r.Moves rnd m ((r.becomeFollower rnd m.term m.fromId).handleHeartbeat m) := by
  refine ⟨?_, ?_⟩
  · rw [clock_handleHeartbeat, clock_becomeFollower]
    exact .follow (Or.inl hm) hstate
  · rw [handleHeartbeat_raftLog, becomeFollower_raftLog]
    exact .refl m _

theorem stepFollower_moves (r : Raft) (hstate : r.state = .follower) :
    Go.IfReturns (r.stepFollower rnd m) (r.Moves rnd m) := by
  unfold stepFollower
  cases hm : m.msgType with
  | msgHup => exact hup_moves r hm (by simp [hstate])
  | msgRequestVote =>
    have hvote : ∀ reject, r.Moves rnd m ((if reject = true then r
        else { r with vote := m.fromId }).send {
          msgType := .msgRequestVoteResponse
          toId := m.fromId
          fromId := (if reject = true then r else { r with vote := m.fromId }).id
          term := (if reject = true then r else { r with vote := m.fromId }).term
          reject := reject }) := by
      rintro (_ | _) <;>
        exact .of_eq (by simp [Message.IsFromLeader, hm]) (by simp [hm]) rfl (.refl m _)
    dsimp only
    split_ifs
    · exact (Go.ifReturns_ok _ _).mpr (hvote true)
    · exact Go.ifReturns_bind fun _ => (Go.ifReturns_ok _ _).mpr (hvote _)
  | msgHeartbeat =>
    exact (Go.ifReturns_ok _ _).mpr ⟨.hear (Or.inl hm) hstate, .refl m _⟩
  | msgAppend =>
    refine (handleAppendEntries_ifReturns _ hm).imp fun r' hr' => ⟨?_, hr'.2⟩
    rw [hr'.1]
    exact .hear (Or.inr hm) hstate
  | _ =>
    exact (Go.ifReturns_ok _ _).mpr
      (.of_eq (by simp [Message.IsFromLeader, hm]) (by simp [hm]) rfl (.refl m _))

theorem stepCandidate_moves (r : Raft) (hstate : r.state = .candidate) :
    Go.IfReturns (r.stepCandidate rnd m) (r.Moves rnd m) := by
  have hne : r.clock.state ≠ .follower := by simp [clock, hstate]
  unfold stepCandidate
  cases hm : m.msgType with
  | msgHup => exact hup_moves r hm (by simp [hstate])
  | msgRequestVote =>
    dsimp only
    split_ifs <;> exact (Go.ifReturns_ok _ _).mpr
      (.of_eq (by simp [Message.IsFromLeader, hm]) (by simp [hm]) rfl (.refl m _))
  | msgRequestVoteResponse =>
    dsimp only
    split_ifs
    · refine (becomeLeader_ifReturns _ m).imp fun r' hr' => ⟨?_, hr'.2⟩
      rw [hr'.1]
      exact .win hm hstate
    · refine (Go.ifReturns_ok _ _).mpr ⟨?_, ?_⟩
      · rw [clock_becomeFollower]
        exact .lose hm hstate
      · rw [becomeFollower_raftLog]
        exact .refl m _
    · exact (Go.ifReturns_ok _ _).mpr
        (.of_eq (by simp [Message.IsFromLeader, hm]) (by simp [hm]) rfl (.refl m _))
  | msgHeartbeat =>
    exact (Go.ifReturns_ok _ _).mpr (becomeFollower_handleHeartbeat_moves r hm hne)
  | msgAppend =>
    refine (Go.ifReturns_ok _ _).mpr ⟨?_, ?_⟩
    · rw [clock_becomeFollower]
      exact .follow (Or.inr hm) hne
    · rw [becomeFollower_raftLog]
      exact .refl m _
  | _ =>
    exact (Go.ifReturns_ok _ _).mpr
      (.of_eq (by simp [Message.IsFromLeader, hm]) (by simp [hm]) rfl (.refl m _))

theorem stepLeader_moves (r : Raft) (hstate : r.state = .leader) :
    Go.IfReturns (r.stepLeader rnd m) (r.Moves rnd m) := by
  have hne : r.clock.state ≠ .follower := by simp [clock, hstate]
  have hrest : ∀ {r'}, ¬ m.IsFromLeader → r'.clock = r.clock →
      LogMoves m r.raftLog r'.raftLog → r.Moves rnd m r' :=
    fun hleader hclock hlog => .of_eq hleader (fun _ => hstate) hclock hlog
  unfold stepLeader
  cases hm : m.msgType with
  | msgBeat =>
    obtain ⟨ms, hms⟩ := exists_foldl_eq_sendAll (f := fun (r : Raft) id =>
      if id ≠ r.id then r.sendHeartbeat id else r) (fun r id => by
        split_ifs
        · exact ⟨[_], rfl⟩
        · exact ⟨[], by simp⟩) r r.prs.keys
    dsimp only
    rw [hms]
    exact (Go.ifReturns_ok _ _).mpr (hrest (by simp [Message.IsFromLeader, hm]) rfl (.refl m _))
  | msgRequestVote =>
    exact (Go.ifReturns_ok _ _).mpr (hrest (by simp [Message.IsFromLeader, hm]) rfl (.refl m _))
  | msgHeartbeat =>
    exact (Go.ifReturns_ok _ _).mpr (becomeFollower_handleHeartbeat_moves r hm hne)
  | msgHeartbeatResponse =>
    refine Go.ifReturns_bind fun pr => ?_
    split_ifs
    · refine (sendAppend_ifReturns r m.fromId).bind fun x hx => ?_
      obtain ⟨ms, hms⟩ := hx
      refine (Go.ifReturns_ok _ _).mpr ?_
      rw [hms]
      exact hrest (by simp [Message.IsFromLeader, hm]) rfl (.refl m _)
    · exact (Go.ifReturns_ok _ _).mpr (hrest (by simp [Message.IsFromLeader, hm]) rfl (.refl m _))
  | msgPropose =>
    refine (appendProposal_ifReturns r.term r.raftLog r.raftLog.lastIndex m.entries).bind
      fun x hx => ?_
    obtain ⟨hx, hlen⟩ := hx
    have hes := stamp_consecutive r.term r.raftLog.lastIndex m.entries
    dsimp only
    rw [hx]
    refine Go.ifReturns_bind fun _ => ?_
    split_ifs
    · exact (Go.ifReturns_ok _ _).mpr
        (hrest (by simp [Message.IsFromLeader, hm]) rfl (.append _ hes hlen))
    · refine (broadcastAppend_ifReturns _).imp fun r' hr' => ?_
      obtain ⟨ms, rfl⟩ := hr'
      exact hrest (by simp [Message.IsFromLeader, hm]) rfl (.append r.raftLog.committed hes hlen)
  | msgAppendResponse =>
    refine Go.ifReturns_bind fun pr => ?_
    split_ifs
    · refine (sendAppend_ifReturns _ m.fromId).bind fun x hx => ?_
      obtain ⟨ms, hms⟩ := hx
      refine (Go.ifReturns_ok _ _).mpr ?_
      rw [hms]
      exact hrest (by simp [Message.IsFromLeader, hm]) rfl (.refl m _)
    · refine Go.ifReturns_bind fun newCommit => ?_
      split_ifs
      · refine Go.ifReturns_bind fun x => ?_
        dsimp only
        split_ifs
        · refine (broadcastAppend_ifReturns _).imp fun r' hr' => ?_
          obtain ⟨ms, rfl⟩ := hr'
          exact hrest (by simp [Message.IsFromLeader, hm]) rfl (.commit newCommit)
        · exact (Go.ifReturns_ok _ _).mpr
            (hrest (by simp [Message.IsFromLeader, hm]) rfl (.refl m _))
      · exact (Go.ifReturns_ok _ _).mpr
          (hrest (by simp [Message.IsFromLeader, hm]) rfl (.refl m _))
  | msgAppend =>
    refine (handleAppendEntries_ifReturns _ hm).imp fun r' hr' => ⟨?_, ?_⟩
    · rw [hr'.1, clock_becomeFollower]
      exact .follow (Or.inr hm) hne
    · have hlog := hr'.2
      rwa [becomeFollower_raftLog] at hlog
  | _ =>
    exact (Go.ifReturns_ok _ _).mpr (hrest (by simp [Message.IsFromLeader, hm]) rfl (.refl m _))

theorem dispatch_moves (r : Raft) : Go.IfReturns (r.dispatch rnd m) (r.Moves rnd m) := by
  unfold dispatch
  cases hstate : r.state with
  | follower => exact stepFollower_moves r hstate
  | candidate => exact stepCandidate_moves r hstate
  | leader => exact stepLeader_moves r hstate

theorem step_ifReturns (rnd : ℕ) (r : Raft) (m : Message) :
    Go.IfReturns (r.step rnd m) fun r' =>
      r.clock.Steps rnd m r'.clock ∧ LogMoves m r.raftLog r'.raftLog := by
  have hsame : (m.IsRemote → m.term = r.term) → Go.IfReturns (r.dispatch rnd m) fun r' =>
      r.clock.Steps rnd m r'.clock ∧ LogMoves m r.raftLog r'.raftLog :=
    fun hterm => (dispatch_moves r).imp fun r' hr' => ⟨.same hterm hr'.1, hr'.2⟩
  unfold step
  split_ifs with hremote hlt hgt
  · refine (dispatch_moves _).imp fun r' hr' => ⟨.later hremote hlt ?_, ?_⟩
    · rw [← clock_becomeFollower r rnd m.term None]
      exact hr'.1
    · have hlog := hr'.2
      rwa [becomeFollower_raftLog] at hlog
  · exact (Go.ifReturns_ok _ _).mpr ⟨.earlier hremote hgt, .refl m _⟩
  · exact hsame fun _ => by omega
  · exact hsame fun h => absurd h hremote

theorem tick_ifReturns (rnd : ℕ) (r : Raft) (m : Message) :
    Go.IfReturns (r.tick rnd) fun r' =>
      r.clock.Ticks rnd r'.clock ∧ LogMoves m r.raftLog r'.raftLog := by
  unfold tick
  cases hfn : r.tickFn with
  | tickElection =>
    dsimp only [tickElection]
    split_ifs with hle
    · refine (step_ifReturns rnd _ _).imp fun r' hr' => ⟨?_, hr'.2.of_ne_append (by simp) m⟩
      exact .expire hfn hle rfl (hr'.1.handles (by simp [Message.IsRemote]))
    · exact (Go.ifReturns_ok _ _).mpr ⟨.wait hfn (not_le.mp hle), .refl m _⟩
  | tickHeartbeat =>
    dsimp only [tickHeartbeat]
    split_ifs
    · refine (step_ifReturns rnd _ _).imp fun r' hr' => ⟨?_, hr'.2.of_ne_append (by simp) m⟩
      have hclock : r'.clock = r.clock :=
        (hr'.1.handles (by simp [Message.IsRemote])).eq_of_msgBeat rfl
      rw [hclock]
      exact .beat hfn
    · exact (Go.ifReturns_ok _ _).mpr ⟨.beat hfn, .refl m _⟩

end Raft

inductive NodeEvent
  | step (rnd : ℕ) (m : Message)
  | tick (rnd : ℕ)
  | persist

def node [TermWidth] : Machine Raft NodeEvent where
  step r
    | .step rnd m => (r.step rnd m).toOption
    | .tick rnd => (r.tick rnd).toOption
    | .persist => r.persist.toOption

def Message.IsOrdered (m : Message) : Prop :=
  m.msgType = .msgAppend → ConsecutiveFrom m.index m.entries

instance (m : Message) : Decidable m.IsOrdered := inferInstanceAs (Decidable (_ → _))

def Ordered (es : List NodeEvent) : Prop := ∀ rnd m, .step rnd m ∈ es → m.IsOrdered

end TinyKV
