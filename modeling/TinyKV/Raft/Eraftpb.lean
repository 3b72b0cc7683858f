import Mathlib.Data.Nat.Notation

/-!
# The messages of `eraftpb.proto`

The data types that the raft module sends and stores.
-/

namespace TinyKV

inductive EntryType
  | entryNormal
  | entryConfChange
deriving DecidableEq, Repr

structure Entry where
  entryType : EntryType := .entryNormal
  term : ℕ := 0
  index : ℕ := 0
  data : List UInt8 := []
deriving DecidableEq, Repr

inductive MessageType
  | msgHup | msgBeat | msgPropose | msgAppend | msgAppendResponse | msgRequestVote
  | msgRequestVoteResponse | msgSnapshot | msgHeartbeat | msgHeartbeatResponse | msgTransferLeader
  | msgTimeoutNow
deriving DecidableEq, Repr

structure Message where
  msgType : MessageType := .msgHup
  toId : ℕ := 0
  fromId : ℕ := 0
  term : ℕ := 0
  logTerm : ℕ := 0
  index : ℕ := 0
  entries : List Entry := []
  commit : ℕ := 0
  reject : Bool := false
deriving DecidableEq, Repr

structure HardState where
  term : ℕ := 0
  vote : ℕ := 0
  commit : ℕ := 0
deriving DecidableEq, Repr

structure ConfState where
  nodes : List ℕ := []
deriving DecidableEq, Repr

/-- What is known of the log at the point of a snapshot. -/
structure SnapshotMetadata where
  confState : ConfState := {}
  index : ℕ := 0
  term : ℕ := 0
deriving DecidableEq, Repr

structure Snapshot where
  data : List UInt8 := []
  metadata : SnapshotMetadata := {}
deriving DecidableEq, Repr

end TinyKV
