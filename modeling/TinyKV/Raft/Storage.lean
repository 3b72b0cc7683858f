import TinyKV.Go
import TinyKV.Raft.Eraftpb

/-!
# `MemoryStorage` of `raft/storage.go`

The first entry of the storage is a dummy, at the position up to which the log has been compacted.
-/

namespace TinyKV

/-- The errors of `storage.go` that reading the log returns. -/
inductive StorageError
  | errCompacted
  | errUnavailable
deriving DecidableEq, Repr

inductive SnapshotError
  | errSnapOutOfDate
deriving DecidableEq, Repr

structure MemoryStorage where
  hardState : HardState := {}
  snapshot : Snapshot := {}
  ents : List Entry
deriving DecidableEq, Repr

def newMemoryStorage : MemoryStorage := { ents := [{}] }

namespace MemoryStorage

def initialState (ms : MemoryStorage) : HardState × ConfState :=
  (ms.hardState, ms.snapshot.metadata.confState)

def setHardState (ms : MemoryStorage) (st : HardState) : MemoryStorage :=
  { ms with hardState := st }

def lastIndex (ms : MemoryStorage) : Go ℕ := do
  let dummy ← Go.index ms.ents 0
  return sub64 (dummy.index + ms.ents.length) 1

def firstIndex (ms : MemoryStorage) : Go ℕ := do
  let dummy ← Go.index ms.ents 0
  return dummy.index + 1

def entries (ms : MemoryStorage) (lo hi : ℕ) : Go (List Entry × Option StorageError) := do
  let offset ← Go.index ms.ents 0
  if lo ≤ offset.index then
    return ([], some .errCompacted)
  else
    -- The source logs and panics when more is asked for than there is.
    let lastIndex ← ms.lastIndex
    if lastIndex + 1 < hi then
      throw (.text s!"entries' hi({hi}) is out of bound lastindex({lastIndex})")
    else
      let ents ← Go.slice ms.ents (sub64 lo offset.index) (sub64 hi offset.index)
      if ms.ents.length = 1 ∧ ents.length ≠ 0 then
        return ([], some .errUnavailable)
      else
        return (ents, none)

def term (ms : MemoryStorage) (i : ℕ) : Go (ℕ × Option StorageError) := do
  let offset ← Go.index ms.ents 0
  if i < offset.index then
    return (0, some .errCompacted)
  -- The comparison is one of `int`s.
  else if (ms.ents.length : ℤ) ≤ toInt (sub64 i offset.index) then
    return (0, some .errUnavailable)
  else
    let e ← Go.index ms.ents (sub64 i offset.index)
    return (e.term, none)

def applySnapshot (ms : MemoryStorage) (snap : Snapshot) : MemoryStorage × Option SnapshotError :=
  if snap.metadata.index ≤ ms.snapshot.metadata.index then
    (ms, some .errSnapOutOfDate)
  else
    ({ ms with
      snapshot := snap
      ents := [{ term := snap.metadata.term, index := snap.metadata.index }] }, none)

def createSnapshot (ms : MemoryStorage) (i : ℕ) (cs : Option ConfState) (data : List UInt8) :
    Go (MemoryStorage × Snapshot × Option SnapshotError) := do
  if i ≤ ms.snapshot.metadata.index then
    return (ms, {}, some .errSnapOutOfDate)
  else
    let offset ← Go.index ms.ents 0
    let lastIndex ← ms.lastIndex
    if lastIndex < i then
      throw (.text s!"snapshot {i} is out of bound lastindex({lastIndex})")
    else
      -- Unlike the other methods, this one does not ask whether `i` has been compacted.
      let e ← Go.index ms.ents (sub64 i offset.index)
      let snapshot : Snapshot :=
        { data := data
          metadata :=
            { index := i
              term := e.term
              confState := cs.getD ms.snapshot.metadata.confState } }
      return ({ ms with snapshot := snapshot }, snapshot, none)

def compact (ms : MemoryStorage) (compactIndex : ℕ) : Go (MemoryStorage × Option StorageError) := do
  let offset ← Go.index ms.ents 0
  if compactIndex ≤ offset.index then
    return (ms, some .errCompacted)
  else
    let lastIndex ← ms.lastIndex
    if lastIndex < compactIndex then
      throw (.text s!"compact {compactIndex} is out of bound lastindex({lastIndex})")
    else
      let i := sub64 compactIndex offset.index
      let e ← Go.index ms.ents i
      let rest ← Go.slice ms.ents (i + 1) ms.ents.length
      return ({ ms with ents := { index := e.index, term := e.term } :: rest }, none)

def append (ms : MemoryStorage) (entries : List Entry) : Go MemoryStorage := do
  match entries with
  | [] => return ms
  | e :: _ =>
    let first ← ms.firstIndex
    let last := sub64 (e.index + entries.length) 1
    if last < first then
      -- All of them have been compacted.
      return ms
    else
      -- Those that have been compacted are dropped.
      let entries ← if e.index < first then
          Go.slice entries (sub64 first e.index) entries.length
        else pure entries
      let e ← Go.index entries 0
      let dummy ← Go.index ms.ents 0
      let offset := sub64 e.index dummy.index
      if offset < ms.ents.length then
        -- The source copies the slice before it appends.
        let kept ← Go.slice ms.ents 0 offset
        return { ms with ents := kept ++ entries }
      else if ms.ents.length = offset then
        return { ms with ents := ms.ents ++ entries }
      else
        let lastIndex ← ms.lastIndex
        throw (.text s!"missing log entry [last: {lastIndex}, append at: {e.index}]")

end MemoryStorage

end TinyKV
