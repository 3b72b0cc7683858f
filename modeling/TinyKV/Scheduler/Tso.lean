import Mathlib.Logic.Function.Basic
import TinyKV.Machine
import TinyKV.Scheduler.Etcd

/-!
# The timestamp oracle

`TimestampOracle` of `scheduler/server/tso/tso.go`, and the loop of `campaignLeader` in
`scheduler/server/server.go`.
-/

namespace TinyKV

inductive Time
  | zero
  | unix (nano : Int64)
deriving DecidableEq, Repr

namespace Time

def unixNano : Time → Int64
  | zero => -6795364578871345152
  | unix nano => nano

def subTimeByWallClock (after before : Time) : Int64 := after.unixNano - before.unixNano

end Time

def millisecond : Int64 := 1000000

def updateTimestampGuard : Int64 := millisecond

def maxLogical : Int64 := 262144

def maxRetryCount : ℕ := 100

structure AtomicObject where
  physical : Int64
  leadership : ℕ
deriving DecidableEq, Repr

/-- What `ts` points to. -/
inductive TsPointer
  | nil
  | zero
  | object (ptr : ℕ)
deriving DecidableEq, Repr

inductive TsoPhase
  | idle
  | campaigned
  | syncing (next : Int64)
  | leading (k : ℕ)
  | updating (k : ℕ) (next : Int64)
deriving DecidableEq, Repr

structure TimestampOracle where
  ts : TsPointer := .nil
  lastSavedTime : Time := .zero
  phase : TsoPhase := .idle
deriving DecidableEq, Repr

/-- The objects that have been made, and what each leadership has saved last. -/
structure TsoHistory where
  objects : List AtomicObject := []
  saved : List Int64 := []

structure TsoCluster (μ : Type) extends TsoHistory where
  timestamp : Option Int64
  leader : Option μ := none
  members : μ → TimestampOracle := fun _ => {}

inductive OracleEvent (μ : Type)
  | campaign (m : μ)
  | expire
  | syncLoad (m : μ) (now : Int64) (err : Bool)
  | syncCommit (m : μ) (outcome : CommitOutcome)
  | update (m : μ) (now : Int64)
  | updateCommit (m : μ) (outcome : CommitOutcome)
  | resign (m : μ)
  | restart (m : μ)

namespace TsoCluster

variable {μ : Type}

def loadTimestamp (s : TsoCluster μ) : Time :=
  match s.timestamp with
  | none => .zero
  | some nano => .unix nano

def syncNext (last : Time) (now : Int64) : Int64 :=
  if Time.subTimeByWallClock (.unix now) last < updateTimestampGuard then
    last.unixNano + updateTimestampGuard
  else now

def updateNext (prev prevLogical now : Int64) : Option Int64 :=
  let jetLag := Time.subTimeByWallClock (.unix now) (.unix prev)
  if updateTimestampGuard < jetLag then some now
  else if maxLogical / 2 < prevLogical then some (prev + millisecond)
  else none

def current (s : TsoCluster μ) (m : μ) : Option (ℕ × AtomicObject) :=
  match (s.members m).ts with
  | .object ptr => s.objects[ptr]?.map (ptr, ·)
  | _ => none

variable [DecidableEq μ]

def setMember (s : TsoCluster μ) (m : μ) (o : TimestampOracle) : TsoCluster μ :=
  { s with members := Function.update s.members m o }

def setPhase (s : TsoCluster μ) (m : μ) (phase : TsoPhase) : TsoCluster μ :=
  s.setMember m { s.members m with phase := phase }

def store (s : TsoCluster μ) (m : μ) (physical : Int64) (k : ℕ) : TsoCluster μ :=
  let o := { s.members m with ts := .object s.objects.length, phase := .leading k }
  { s.setMember m o with objects := s.objects ++ [⟨physical, k⟩] }

def saveTimestamp (s : TsoCluster μ) (m : μ) (save : Int64) (outcome : CommitOutcome) :
    TsoCluster μ × Bool :=
  if s.leader = some m ∧ outcome.Applies then
    let s := { s with timestamp := some save }
    if outcome = .answered then
      (s.setMember m { s.members m with lastSavedTime := .unix save }, true)
    else (s, false)
  else (s, false)

def syncCommit (saveInterval : Int64) (s : TsoCluster μ) (m : μ) (next : Int64)
    (outcome : CommitOutcome) : TsoCluster μ :=
  let save := next + saveInterval
  match s.saveTimestamp m save outcome with
  | (s, true) => { s with saved := s.saved ++ [save] }.store m next s.saved.length
  | (s, false) => s.setPhase m .idle

def updateCommit (saveInterval : Int64) (s : TsoCluster μ) (m : μ) (k : ℕ) (next : Int64)
    (outcome : CommitOutcome) : TsoCluster μ :=
  let save := next + saveInterval
  match s.saveTimestamp m save outcome with
  | (s, true) => { s with saved := s.saved.set k save }.store m next k
  | (s, false) => s.setPhase m (.leading k)

def update (s : TsoCluster μ) (m : μ) (k : ℕ) (prev prevLogical now : Int64) : TsoCluster μ :=
  match updateNext prev prevLogical now with
  | none => s
  | some next =>
    -- The window that was saved may not be enough.
    if Time.subTimeByWallClock (s.members m).lastSavedTime (.unix next) ≤ updateTimestampGuard then
      s.setPhase m (.updating k next)
    else s.store m next k

def step (saveInterval : Int64) (logical : ℕ → Int64) (s : TsoCluster μ) :
    OracleEvent μ → Option (TsoCluster μ)
  | .campaign m =>
    if s.leader = none ∧ (s.members m).phase = .idle then
      some ({ s with leader := some m }.setPhase m .campaigned)
    else none
  | .expire => some { s with leader := none }
  | .syncLoad m now err =>
    if (s.members m).phase = .campaigned then
      if err then some (s.setPhase m .idle)
      else some (s.setPhase m (.syncing (syncNext s.loadTimestamp now)))
    else none
  | .syncCommit m outcome =>
    match (s.members m).phase with
    | .syncing next => some (s.syncCommit saveInterval m next outcome)
    | _ => none
  | .update m now =>
    match (s.members m).phase with
    | .leading k => do
      let (ptr, prev) ← s.current m
      some (s.update m k prev.physical (logical ptr) now)
    | _ => none
  | .updateCommit m outcome =>
    match (s.members m).phase with
    | .updating k next => some (s.updateCommit saveInterval m k next outcome)
    | _ => none
  | .resign m =>
    match (s.members m).phase with
    | .leading _ => some (s.setMember m { s.members m with ts := .zero, phase := .idle })
    | _ => none
  | .restart m => some (s.setMember m {})

end TsoCluster

inductive TsoRequest (μ : Type)
  | idle
  | looping (m : μ) (count : UInt32) (i : ℕ)
  | loaded (m : μ) (count : UInt32) (i : ℕ) (ptr : ℕ)

structure TsoResponse where
  physical : Int64
  logical : Int64
  count : UInt32
  ptr : ℕ
deriving DecidableEq, Repr

structure TsoSystem (μ ρ : Type) where
  oracles : TsoCluster μ
  logical : ℕ → Int64 := fun _ => 0
  requests : ρ → TsoRequest μ := fun _ => .idle
  responses : List TsoResponse := []

inductive TsoEvent (μ ρ : Type)
  | oracle (e : OracleEvent μ)
  | call (r : ρ) (m : μ) (count : UInt32)
  | load (r : ρ)
  | add (r : ρ) (expired : Bool)

namespace TsoSystem

variable {μ ρ : Type} [DecidableEq μ] [DecidableEq ρ]

def setRequest (s : TsoSystem μ ρ) (r : ρ) (request : TsoRequest μ) : TsoSystem μ ρ :=
  { s with requests := Function.update s.requests r request }

def retry (s : TsoSystem μ ρ) (r : ρ) (m : μ) (count : UInt32) (i : ℕ) : TsoSystem μ ρ :=
  s.setRequest r (if i + 1 < maxRetryCount then .looping m count (i + 1) else .idle)

def load (s : TsoSystem μ ρ) (r : ρ) (m : μ) (count : UInt32) (i : ℕ) : TsoSystem μ ρ :=
  match (s.oracles.members m).ts with
  | .nil => s.setRequest r .idle
  | .zero => s.retry r m count i
  | .object ptr => s.setRequest r (.loaded m count i ptr)

def add (s : TsoSystem μ ρ) (r : ρ) (m : μ) (count : UInt32) (i ptr : ℕ) (physical : Int64)
    (expired : Bool) : TsoSystem μ ρ :=
  let respPhysical := physical / millisecond
  let respLogical := s.logical ptr + Int64.ofNat count.toNat
  let s := { s with logical := Function.update s.logical ptr respLogical }
  if maxLogical ≤ respLogical then s.retry r m count i
  else if expired then s.setRequest r .idle
  else
    { s.setRequest r .idle with
      responses := s.responses ++ [⟨respPhysical, respLogical, count, ptr⟩] }

def machine (saveInterval : Int64) (μ ρ : Type) [DecidableEq μ] [DecidableEq ρ] :
    Machine (TsoSystem μ ρ) (TsoEvent μ ρ) where
  step s
    | .oracle e => do
      let oracles ← s.oracles.step saveInterval s.logical e
      some { s with oracles := oracles }
    | .call r m count =>
      match s.requests r with
      | .idle => some (if count = 0 then s else s.setRequest r (.looping m count 0))
      | _ => none
    | .load r =>
      match s.requests r with
      | .looping m count i => some (s.load r m count i)
      | _ => none
    | .add r expired =>
      match s.requests r with
      | .loaded m count i ptr => do
        let current ← s.oracles.objects[ptr]?
        some (s.add r m count i ptr current.physical expired)
      | _ => none

end TsoSystem

end TinyKV
