import TinyKV.Raft.Storage

/-!
# `RaftLog` of `raft/log.go`

A node's log in memory: the entries that have not been compacted, and how far they are committed,
applied and persisted.
-/

namespace TinyKV

abbrev None : ℕ := 0

structure RaftLog where
  storage : MemoryStorage
  committed : ℕ
  applied : ℕ
  stabled : ℕ
  entries : List Entry
  pendingSnapshot : Option Snapshot := none
deriving DecidableEq, Repr

/-- `newLog`: the log that a storage holds. The errors of the storage are dropped, as the source
drops them. -/
def newLog (storage : MemoryStorage) : Go RaftLog := do
  let firstindex ← storage.firstIndex
  let lastindex ← storage.lastIndex
  let (entries, _) ← storage.entries firstindex (lastindex + 1)
  return {
    storage := storage
    committed := sub64 firstindex 1
    applied := sub64 firstindex 1
    stabled := lastindex
    entries := entries }

namespace RaftLog

def unstableEntries (l : RaftLog) : Go (List Entry) :=
  match l.entries.head?, l.entries.getLast? with
  | some first, some last =>
    if last.index ≤ l.stabled then .ok []
    else if l.stabled < first.index then .ok l.entries
    else Go.slice l.entries (sub64 l.stabled first.index + 1) l.entries.length
  | _, _ => .ok []

def nextEnts (l : RaftLog) : Go (List Entry) :=
  match l.entries.head? with
  | some first =>
    let start := l.applied + 1
    let last := l.committed
    let start := if start ≤ first.index then first.index else start
    if last < start then .ok []
    else Go.slice l.entries (sub64 start first.index) (sub64 last first.index + 1)
  | none => .ok []

def lastIndex (l : RaftLog) : ℕ :=
  match l.entries.getLast?, l.pendingSnapshot with
  | some e, _ => e.index
  | none, some snap => snap.metadata.index
  | none, none => l.stabled

def term (l : RaftLog) (i : ℕ) : Go (ℕ × Option StorageError) :=
  if l.lastIndex < i then .ok (None, some .errUnavailable)
  else match l.entries.head? with
    | some first =>
      if first.index ≤ i then do
        let e ← Go.index l.entries (sub64 i first.index)
        return (e.term, none)
      else l.storage.term i
    | none => l.storage.term i

end RaftLog

end TinyKV
