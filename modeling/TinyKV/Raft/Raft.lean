import Mathlib.Data.List.AList
import Mathlib.Data.List.Sort
import TinyKV.Raft.Log

/-!
# The state machine of `raft/raft.go`

A function that changes the node takes it and returns the changed node.
-/

namespace TinyKV

inductive StateType
  | follower
  | candidate
  | leader
deriving DecidableEq, Repr

inductive TickFn
  | tickElection
  | tickHeartbeat
deriving DecidableEq, Repr

structure Config where
  id : ℕ
  peers : List ℕ
  electionTick : ℤ
  heartbeatTick : ℤ
  storage : Option MemoryStorage
  applied : ℕ := 0

def Config.validate (c : Config) : Option String :=
  if c.id = None then some "cannot use none as id"
  else if c.heartbeatTick ≤ 0 then some "heartbeat tick must be greater than 0"
  else if c.electionTick ≤ c.heartbeatTick then
    some "election tick must be greater than heartbeat tick"
  else if c.storage = none then some "storage cannot be nil"
  else none

/-- `Progress`: how far a follower is, as the leader sees it. -/
structure Progress where
  matchIdx : ℕ
  next : ℕ
deriving DecidableEq, Repr

structure Raft where
  id : ℕ
  term : ℕ
  vote : ℕ
  raftLog : RaftLog
  prs : AList fun _ : ℕ => Progress := ∅
  state : StateType := .follower
  votes : AList fun _ : ℕ => Bool := ∅
  msgs : List Message := []
  lead : ℕ := None
  heartbeatTimeout : ℤ
  electionTimeoutBase : ℤ
  electionTimeout : ℤ := 0
  heartbeatElapsed : ℤ := 0
  electionElapsed : ℤ := 0
  tickFn : TickFn := .tickElection
deriving DecidableEq

class TermWidth where
  wrap : ℕ → ℕ

instance unboundedTerm : TermWidth := ⟨id⟩

/-- Terms of 64 bits, as in the source. -/
@[reducible]
def uint64Term : TermWidth := ⟨fun term => term % 2^64⟩

@[simp]
theorem wrap_unbounded (term : ℕ) : @TermWidth.wrap unboundedTerm term = term := rfl

def randIntn (rnd : ℕ) (n : ℤ) : ℤ := (rnd : ℤ) % n

namespace Raft

def send (r : Raft) (m : Message) : Raft := { r with msgs := r.msgs ++ [m] }

def becomeFollower (rnd : ℕ) (r : Raft) (term lead : ℕ) : Raft :=
  let r := { r with state := .follower }
  -- Within a term, the vote is kept.
  let r := if r.term < term then { r with term := term, vote := None } else r
  { r with
    lead := lead
    votes := ∅
    electionElapsed := 0
    heartbeatElapsed := 0
    tickFn := .tickElection
    electionTimeout := int64 (r.electionTimeoutBase + randIntn rnd r.electionTimeoutBase) }

def copyEntries (l : RaftLog) (next : ℕ) : Go (List Entry) :=
  (List.range' next (l.lastIndex + 1 - next)).mapM fun i => do
    let first ← Go.index l.entries 0
    let idx := sub64 i first.index
    let e ← Go.index l.entries idx
    return { index := e.index, term := e.term, data := e.data }

def sendAppend (r : Raft) (peer : ℕ) : Go (Raft × Bool) := do
  let pr ← Go.deref (r.prs.lookup peer)
  let prevLogIndex := sub64 pr.next 1
  let (prevLogTerm, err) ← r.raftLog.term prevLogIndex
  if err.isSome then
    -- The source takes the entry to be compacted, and sends nothing.
    return (r, false)
  else
    let entries ← copyEntries r.raftLog pr.next
    return (r.send {
      msgType := .msgAppend
      toId := peer
      fromId := r.id
      term := r.term
      index := prevLogIndex
      logTerm := prevLogTerm
      entries := entries
      commit := r.raftLog.committed }, true)

def sendAppendOther (r : Raft) (id : ℕ) : Go Raft := do
  if id ≠ r.id then
    let (r, _) ← r.sendAppend id
    return r
  else return r

def broadcastAppend (r : Raft) : Go Raft := r.prs.keys.foldlM sendAppendOther r

def sendHeartbeat (r : Raft) (peer : ℕ) : Raft :=
  r.send {
    msgType := .msgHeartbeat
    toId := peer
    fromId := r.id
    term := r.term
    commit := r.raftLog.committed }

def becomeLeader (r : Raft) : Go Raft := do
  let r := { r with
    state := .leader
    lead := r.id
    vote := None
    votes := ∅
    electionElapsed := 0
    heartbeatElapsed := 0
    tickFn := .tickHeartbeat }
  -- What was known of the peers is forgotten.
  let r := { r with
    prs := r.prs.keys.foldl (fun prs id => prs.insert id ⟨0, r.raftLog.lastIndex + 1⟩) r.prs }
  let noop : Entry := { term := r.term, index := r.raftLog.lastIndex + 1 }
  let entries ← Go.append r.raftLog.entries [noop]
  let r := { r with raftLog := { r.raftLog with entries := entries } }
  let _ ← Go.deref (r.prs.lookup r.id)
  let r := { r with prs := r.prs.insert r.id ⟨noop.index, noop.index + 1⟩ }
  if r.prs.keys.length = 1 then
    -- A single node commits on its own.
    return { r with raftLog := { r.raftLog with committed := noop.index } }
  else
    r.broadcastAppend

variable [TermWidth]

def becomeCandidate (rnd : ℕ) (r : Raft) : Go Raft := do
  let r := { r with
    state := .candidate
    term := TermWidth.wrap (r.term + 1)
    lead := None
    vote := r.id
    votes := AList.insert r.id true ∅
    electionElapsed := 0
    heartbeatElapsed := 0
    tickFn := .tickElection
    electionTimeout := int64 (r.electionTimeoutBase + randIntn rnd r.electionTimeoutBase) }
  -- A single node needs no votes.
  if r.prs.keys.length = 1 then r.becomeLeader else return r

def hup (rnd : ℕ) (r : Raft) : Go Raft := do
  let r ← r.becomeCandidate rnd
  if r.state ≠ .candidate then
    return r
  else
    let lastIndex := r.raftLog.lastIndex
    let (lastTerm, _) ← r.raftLog.term lastIndex
    return r.prs.keys.foldl (fun r id =>
      if id = r.id then r
      else r.send {
        msgType := .msgRequestVote
        toId := id
        fromId := r.id
        term := r.term
        index := lastIndex
        logTerm := lastTerm }) r

def handleHeartbeat (r : Raft) (m : Message) : Raft :=
  let r := { r with electionElapsed := 0, lead := m.fromId }
  r.send {
    msgType := .msgHeartbeatResponse
    toId := m.fromId
    fromId := r.id
    term := r.term }

def handleAppendEntry (l : RaftLog) (e : Entry) : Go RaftLog := do
  if e.index ≤ l.lastIndex then
    let (localTerm, _) ← l.term e.index
    if localTerm ≠ e.term then
      -- What was persisted from here on no longer counts as such.
      let l := if e.index ≤ l.stabled then { l with stabled := sub64 e.index 1 } else l
      let first ← Go.index l.entries 0
      let entries ← Go.slice l.entries 0 (sub64 e.index first.index)
      let entries ← Go.append entries [e]
      return { l with entries := entries }
    else return l
  else
    let entries ← Go.append l.entries [e]
    return { l with entries := entries }

def handleAppendEntries (r : Raft) (m : Message) : Go Raft := do
  if r.raftLog.lastIndex < m.index then
    return r.send {
      msgType := .msgAppendResponse
      toId := m.fromId
      fromId := r.id
      term := r.term
      reject := true
      index := r.raftLog.lastIndex + 1 }
  else
    let (term, _) ← r.raftLog.term m.index
    if term ≠ m.logTerm then
      return r.send {
        msgType := .msgAppendResponse
        toId := m.fromId
        fromId := r.id
        term := r.term
        reject := true }
    else
      let l ← m.entries.foldlM handleAppendEntry r.raftLog
      let lastNewIndex := m.index + m.entries.length
      -- The bound is the last entry of the message, not that of the log.
      let l :=
        if l.committed < m.commit then { l with committed := min m.commit lastNewIndex } else l
      let r := { r with raftLog := l }
      return r.send {
        msgType := .msgAppendResponse
        toId := m.fromId
        fromId := r.id
        term := r.term
        reject := false
        index := lastNewIndex }

def stepFollower (rnd : ℕ) (r : Raft) (m : Message) : Go Raft :=
  match m.msgType with
  | .msgHup => r.hup rnd
  | .msgRequestVote => do
    let lastIndex := r.raftLog.lastIndex
    -- The logs are compared only when the vote is free.
    let reject ← if r.vote ≠ None ∧ r.vote ≠ m.fromId then pure true
      else do
        let (lastTerm, _) ← r.raftLog.term lastIndex
        pure (decide (m.logTerm < lastTerm ∨ m.logTerm = lastTerm ∧ m.index < lastIndex))
    let r := if reject then r else { r with vote := m.fromId }
    return r.send {
      msgType := .msgRequestVoteResponse
      toId := m.fromId
      fromId := r.id
      term := r.term
      reject := reject }
  | .msgHeartbeat => .ok (r.handleHeartbeat m)
  | .msgAppend => handleAppendEntries { r with electionElapsed := 0, lead := m.fromId } m
  | _ => .ok r

def stepCandidate (rnd : ℕ) (r : Raft) (m : Message) : Go Raft :=
  match m.msgType with
  | .msgHup => r.hup rnd
  | .msgRequestVote =>
    if m.fromId ≠ r.id then
      .ok (r.send {
        msgType := .msgRequestVoteResponse
        toId := m.fromId
        fromId := r.id
        term := r.term
        reject := true })
    else .ok r
  | .msgRequestVoteResponse =>
    -- A later answer of the same peer replaces the one before.
    let r := { r with votes := r.votes.insert m.fromId (!m.reject) }
    let granted : ℕ := r.votes.entries.countP fun v => v.2
    let rejected : ℕ := r.votes.entries.countP fun v => !v.2
    if r.prs.keys.length / 2 < granted then r.becomeLeader
    else if r.prs.keys.length / 2 < rejected then .ok (r.becomeFollower rnd r.term None)
    else .ok r
  | .msgHeartbeat => .ok ((r.becomeFollower rnd m.term m.fromId).handleHeartbeat m)
  -- The candidate steps down and drops the message.
  | .msgAppend => .ok (r.becomeFollower rnd m.term m.fromId)
  | _ => .ok r

def appendProposal (term : ℕ) (l : RaftLog) (lastIndex : ℕ) (entries : List Entry) :
    Go (RaftLog × ℕ) :=
  entries.foldlM (fun (l, lastIndex) e => do
    let e := { e with term := term, index := lastIndex + 1 }
    let entries ← Go.append l.entries [e]
    return ({ l with entries := entries }, e.index)) (l, lastIndex)

def stepLeader (rnd : ℕ) (r : Raft) (m : Message) : Go Raft :=
  match m.msgType with
  | .msgBeat =>
    .ok (r.prs.keys.foldl (fun r id => if id ≠ r.id then r.sendHeartbeat id else r) r)
  | .msgRequestVote =>
    .ok (r.send {
      msgType := .msgRequestVoteResponse
      toId := m.fromId
      fromId := r.id
      term := r.term
      reject := true })
  | .msgHeartbeat => .ok ((r.becomeFollower rnd m.term m.fromId).handleHeartbeat m)
  | .msgHeartbeatResponse => do
    let pr ← Go.deref (r.prs.lookup m.fromId)
    if pr.next ≤ r.raftLog.lastIndex then
      let (r, _) ← r.sendAppend m.fromId
      return r
    else return r
  | .msgPropose => do
    let (l, _) ← appendProposal r.term r.raftLog r.raftLog.lastIndex m.entries
    let r := { r with raftLog := l }
    let _ ← Go.deref (r.prs.lookup r.id)
    let r := { r with prs := r.prs.insert r.id ⟨r.raftLog.lastIndex, r.raftLog.lastIndex + 1⟩ }
    if r.prs.keys.length = 1 then
      return { r with raftLog := { r.raftLog with committed := r.raftLog.lastIndex } }
    else
      r.broadcastAppend
  | .msgAppendResponse => do
    let pr ← Go.deref (r.prs.lookup m.fromId)
    if m.reject then
      -- `Next` moves back whatever it is, and wraps around at zero.
      let r := { r with prs := r.prs.insert m.fromId { pr with next := sub64 pr.next 1 } }
      let (r, _) ← r.sendAppend m.fromId
      return r
    else
      -- `Match` is what the answer says, also when it was more before.
      let r := { r with prs := r.prs.insert m.fromId ⟨m.index, add64 m.index 1⟩ }
      let sorted := (r.prs.entries.map fun pr => pr.2.matchIdx).insertionSort (· ≤ ·)
      let newCommit ← Go.index sorted ((sorted.length - 1) / 2)
      if r.raftLog.committed < newCommit then
        let (term, _) ← r.raftLog.term newCommit
        -- Only an entry of the leader's own term is committed by counting.
        if term = r.term then
          broadcastAppend { r with raftLog := { r.raftLog with committed := newCommit } }
        else return r
      else return r
  | .msgAppend => (r.becomeFollower rnd m.term m.fromId).handleAppendEntries m
  | _ => .ok r

def dispatch (rnd : ℕ) (r : Raft) (m : Message) : Go Raft :=
  match r.state with
  | .follower => r.stepFollower rnd m
  | .candidate => r.stepCandidate rnd m
  | .leader => r.stepLeader rnd m

def step (rnd : ℕ) (r : Raft) (m : Message) : Go Raft :=
  if m.msgType ≠ .msgHup ∧ m.msgType ≠ .msgBeat ∧ m.msgType ≠ .msgPropose then
    if r.term < m.term then (r.becomeFollower rnd m.term None).dispatch rnd m
    else if m.term < r.term then .ok r
    else r.dispatch rnd m
  else r.dispatch rnd m

def tickElection (rnd : ℕ) (r : Raft) : Go Raft :=
  let r := { r with electionElapsed := r.electionElapsed + 1 }
  if r.electionTimeout ≤ r.electionElapsed then
    step rnd { r with electionElapsed := 0 } { msgType := .msgHup, fromId := r.id, toId := r.id }
  else .ok r

def tickHeartbeat (rnd : ℕ) (r : Raft) : Go Raft :=
  let r := { r with heartbeatElapsed := r.heartbeatElapsed + 1 }
  if r.heartbeatTimeout ≤ r.heartbeatElapsed then
    step rnd { r with heartbeatElapsed := 0 } { msgType := .msgBeat, fromId := r.id, toId := r.id }
  else .ok r

def tick (rnd : ℕ) (r : Raft) : Go Raft :=
  match r.tickFn with
  | .tickElection => r.tickElection rnd
  | .tickHeartbeat => r.tickHeartbeat rnd

end Raft

def newRaft (rnd : ℕ) (c : Config) : Go Raft := do
  match c.validate with
  | some err => throw (.text err)
  | none =>
    let storage ← Go.deref c.storage
    let hardstate := storage.initialState.1
    let raftlog ← newLog storage
    let raftlog := { raftlog with committed := hardstate.commit }
    let r : Raft := {
      id := c.id
      term := hardstate.term
      vote := hardstate.vote
      raftLog := raftlog
      electionTimeoutBase := c.electionTick
      heartbeatTimeout := c.heartbeatTick }
    let r := { r with prs := c.peers.foldl (fun prs peer => prs.insert peer ⟨0, 1⟩) ∅ }
    return r.becomeFollower rnd r.term None

end TinyKV
