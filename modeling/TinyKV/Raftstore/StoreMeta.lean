import TinyKV.Btree
import TinyKV.Raft.Eraftpb
import TinyKV.Raftstore.SnapManager
import TinyKV.Scheduler.Region

/-!
# The regions of a store

`storeMeta` of `kv/raftstore/raftstore.go` has the regions of a store in a B-tree by their start
keys.
-/

namespace TinyKV

open List

structure RegionEpoch where
  confVer : UInt64 := 0
  version : UInt64 := 0
deriving DecidableEq, Repr

structure MetaRegion extends Region where
  id : UInt64 := 0
  regionEpoch : RegionEpoch := {}
  peers : List Peer := []
deriving DecidableEq, Repr

structure RaftMessage where
  regionId : UInt64
  toPeer : Peer
  message : Message := {}
  snapshot : Option Snapshot := none
  startKey : Bytes := []
  endKey : Bytes := []
deriving DecidableEq, Repr

def raftInvalidIndex : ℕ := 0

def invalidID : ℕ := 0

def raftInitLogTerm : ℕ := 5

def isInitialMsg (msg : Message) : Bool :=
  msg.msgType = .msgRequestVote || (msg.msgType = .msgHeartbeat && msg.commit = raftInvalidIndex)

def isVoteMessage (msg : Message) : Bool := msg.msgType = .msgRequestVote

def isFirstVoteMessage (msg : Message) : Bool :=
  isVoteMessage msg && msg.term = raftInitLogTerm + 1

def regionEqual (l : Option MetaRegion) (r : MetaRegion) : Bool :=
  match l with
  | none => false
  | some l => l.id = r.id && l.regionEpoch.version = r.regionEpoch.version &&
    l.regionEpoch.confVer = r.regionEpoch.confVer

structure StoreMeta where
  regionRanges : BTree fun region : MetaRegion => region.startKey
  regions : AList fun _ : UInt64 => MetaRegion
  pendingVotes : List RaftMessage

namespace StoreMeta

def getOverlapRegions (m : StoreMeta) (region : MetaRegion) : List MetaRegion :=
  let result := m.regionRanges.descendLessOrEqual region (fun i _ => (some i, false)) none
  let result :=
    match result with
    | none => region
    | some result => if exceedEndKey region.startKey result.endKey then region else result
  m.regionRanges.ascendGreaterOrEqual result
    (fun i overlaps =>
      if exceedEndKey i.startKey region.endKey then (overlaps, false) else (overlaps ++ [i], true))
    []

def findSiblingRegion (m : StoreMeta) (region : MetaRegion) : Option MetaRegion :=
  m.regionRanges.ascendGreaterOrEqual region (fun i _ => (some i, true)) none

structure MaybeCreated where
  storeMeta : StoreMeta
  registered : Option MetaRegion
  result : Except String Bool

def replicatePeer (failure : Option String) (regionID : UInt64) (metaPeer : Peer) :
    Except String MetaRegion :=
  if metaPeer.id = invalidID then .error "invalid peer id"
  else
    match failure with
    | some err => .error err
    | none => .ok { id := regionID }

def maybeCreatePeer (m : StoreMeta) (failure : Option String) (regionID : UInt64)
    (msg : RaftMessage) : MaybeCreated :=
  if (m.regions.lookup regionID).isSome then ⟨m, none, .ok true⟩
  else if !isInitialMsg msg.message then ⟨m, none, .ok false⟩
  else
    match m.getOverlapRegions { startKey := msg.startKey, endKey := msg.endKey } with
    | _ :: _ =>
      if isFirstVoteMessage msg.message then
        ⟨{ m with pendingVotes := m.pendingVotes ++ [msg] }, none, .ok false⟩
      else ⟨m, none, .ok false⟩
    | [] =>
      match replicatePeer failure regionID msg.toPeer with
      | .error err => ⟨m, none, .error err⟩
      | .ok region =>
        ⟨{ m with regions := m.regions.insert regionID region }, some region, .ok true⟩

end StoreMeta

structure PeerMsgHandler where
  regionId : UInt64
  region : MetaRegion
  peerMeta : Peer
  isLeader : Bool
  leader : Option Peer
  term : UInt64
  storeMeta : StoreMeta
  snapMgr : SnapManager

inductive CheckSnapshotErr
  | unmarshal
  | snap (err : SnapErr)
deriving DecidableEq, Repr

inductive AdminCmdType
  | invalidAdmin | changePeer | compactLog | transferLeader | split
deriving DecidableEq, Repr

structure RaftRequestHeader where
  peer : Option Peer := none
  regionEpoch : Option RegionEpoch := none
  term : UInt64 := 0
deriving DecidableEq, Repr

structure RaftCmdRequest where
  header : Option RaftRequestHeader := none
  adminRequest : Option AdminCmdType := none
deriving DecidableEq, Repr

inductive ProposeErr
  | storeNotMatch (requested storeID : ℕ)
  | notLeader (regionId : UInt64) (leader : Option Peer)
  | peerIdMismatch (requested peerID : ℕ)
  | staleCommand
  | missingHeader
  | missingEpoch
  | epochNotMatch (regionId : UInt64) (currentEpoch fromEpoch : RegionEpoch)
    (regions : List MetaRegion)
deriving DecidableEq, Repr

def checkStoreID (req : RaftCmdRequest) (storeID : ℕ) : Go (Option ProposeErr) := do
  let header ← Go.deref req.header
  let peer ← Go.deref header.peer
  return if peer.storeId = storeID then none else some (.storeNotMatch peer.storeId storeID)

def checkPeerID (req : RaftCmdRequest) (peerID : ℕ) : Go (Option ProposeErr) := do
  let header ← Go.deref req.header
  let peer ← Go.deref header.peer
  return if peer.id = peerID then none else some (.peerIdMismatch peer.id peerID)

def checkTerm (req : RaftCmdRequest) (term : UInt64) : Go (Option ProposeErr) := do
  let header ← Go.deref req.header
  return if header.term = 0 ∨ term ≤ header.term + 1 then none else some .staleCommand

def epochChecks (req : RaftCmdRequest) : Bool × Bool :=
  match req.adminRequest with
  | none => (true, false)
  | some .compactLog | some .invalidAdmin => (false, false)
  | some .changePeer => (false, true)
  | some .split | some .transferLeader => (true, true)

def checkRegionEpoch (req : RaftCmdRequest) (region : MetaRegion) (includeRegion : Bool) :
    Option ProposeErr :=
  let (checkVer, checkConfVer) := epochChecks req
  if !checkVer && !checkConfVer then none
  else
    match req.header with
    | none => some .missingHeader
    | some header =>
      match header.regionEpoch with
      | none => some .missingEpoch
      | some fromEpoch =>
        let currentEpoch := region.regionEpoch
        if (checkConfVer && fromEpoch.confVer ≠ currentEpoch.confVer) ||
            (checkVer && fromEpoch.version ≠ currentEpoch.version) then
          some (.epochNotMatch region.id currentEpoch fromEpoch
            (if includeRegion then [region] else []))
        else none

namespace PeerMsgHandler

def preProposeRaftCommand (d : PeerMsgHandler) (req : RaftCmdRequest) :
    Go (Option ProposeErr) := do
  if let some err ← checkStoreID req d.peerMeta.storeId then return some err
  if !d.isLeader then return some (.notLeader d.regionId d.leader)
  if let some err ← checkPeerID req d.peerMeta.id then return some err
  if let some err ← checkTerm req d.term then return some err
  match checkRegionEpoch req d.region true with
  | some (.epochNotMatch id currentEpoch fromEpoch regions) =>
    match d.storeMeta.findSiblingRegion d.region with
    | some sibling =>
      return some (.epochNotMatch id currentEpoch fromEpoch (regions ++ [sibling]))
    | none => return some (.epochNotMatch id currentEpoch fromEpoch regions)
  | err => return err

def snapKeyFromRegionSnap (regionID : UInt64) (snap : Snapshot) : SnapKey where
  regionID := regionID
  term := UInt64.ofNat snap.metadata.term
  index := UInt64.ofNat snap.metadata.index

def checkSnapshot (F : Formats) (unmarshal : Bytes → Option (Option MetaRegion))
    (d : PeerMsgHandler) (msg : RaftMessage) : Go (Except CheckSnapshotErr (Option SnapKey)) := do
  match msg.snapshot with
  | none => return .ok none
  | some snapshot =>
    let key := snapKeyFromRegionSnap msg.regionId snapshot
    match unmarshal snapshot.data with
    | none => return .error .unmarshal
    | some snapRegion =>
      let snapRegion ← Go.deref snapRegion
      if !snapRegion.peers.any fun peer => peer.id = msg.toPeer.id then return .ok (some key)
      if !regionEqual (d.storeMeta.regions.lookup d.regionId) d.region then
        if d.region.peers.length = 0 then return .ok (some key)
        else .error (.text "meta corrupted")
      else
        let existRegions := d.storeMeta.getOverlapRegions snapRegion
        if existRegions.any fun existRegion => existRegion.id ≠ snapRegion.id then
          return .ok (some key)
        else
          match d.snapMgr.getSnapshotForApplying F key with
          | .error err => return .error (.snap err)
          | .ok _ => return .ok none

end PeerMsgHandler

namespace MetaRegion

def WellFormed (region : MetaRegion) : Prop :=
  region.endKey = [] ∨ region.startKey < region.endKey

def Meets (x y : MetaRegion) : Prop := ∃ key, x.Contains key ∧ y.Contains key

def stop (region : MetaRegion) : WithTop Bytes :=
  if region.endKey = [] then ⊤ else region.endKey

variable {x y region : MetaRegion} {key : Bytes}

theorem lt_stop_iff : (key : WithTop Bytes) < region.stop ↔
    exceedEndKey key region.endKey = false := by
  unfold stop exceedEndKey
  by_cases hend : region.endKey = []
  · simp [hend]
  · simp [hend, WithTop.coe_lt_coe]

theorem covers_iff : RangeList.Covers (fun r : MetaRegion => r.startKey) stop region key ↔
    region.Contains key := by
  rw [RangeList.Covers, lt_stop_iff, Region.contains_iff]

theorem meets_iff : RangeList.Meets (fun r : MetaRegion => r.startKey) stop x y ↔ x.Meets y := by
  simp only [RangeList.Meets, Meets, covers_iff]

theorem WellFormed.nonempty (h : region.WellFormed) :
    (region.startKey : WithTop Bytes) < region.stop := by
  rw [stop]
  split_ifs with hend
  · exact WithTop.coe_lt_top _
  · exact WithTop.coe_lt_coe.mpr (h.resolve_left hend)

theorem WellFormed.of_contains (h : region.Contains key) : region.WellFormed :=
  h.2.imp_right fun hlt => h.1.trans_lt hlt

instance : Decidable region.WellFormed := inferInstanceAs (Decidable (_ ∨ _))

theorem Meets.symm (h : x.Meets y) : y.Meets x :=
  let ⟨key, hx, hy⟩ := h
  ⟨key, hy, hx⟩

theorem Meets.not_exceed (h : x.Meets y) : exceedEndKey x.startKey y.endKey = false := by
  obtain ⟨key, hx, hy⟩ := h
  exact exceedEndKey_of_le hx.1 (Region.contains_iff.mp hy).2

end MetaRegion

namespace StoreMeta

/-- The regions in the tree have ranges that are well formed, and no key is in two of them. -/
structure Disjoint (m : StoreMeta) : Prop where
  wellFormed : ∀ x ∈ m.regionRanges.items, x.WellFormed
  eq_of_meets : ∀ x ∈ m.regionRanges.items, ∀ y ∈ m.regionRanges.items, x.Meets y → x = y

variable {m : StoreMeta} {region x : MetaRegion}

theorem Disjoint.apart (h : m.Disjoint) :
    RangeList.Apart (fun r : MetaRegion => r.startKey) MetaRegion.stop m.regionRanges.items where
  sorted := m.regionRanges.sorted
  nonempty x hx := (h.wellFormed x hx).nonempty
  eq_of_meets x hx y hy hmeets := h.eq_of_meets x hx y hy (MetaRegion.meets_iff.mp hmeets)

theorem visit_first (items : List MetaRegion) :
    (Btree.visit (fun i _ => (some i, false)) items none).1 = items.head? := by
  cases items with
  | nil => rfl
  | cons x items => simp [Btree.visit]

theorem visit_last (items : List MetaRegion) (last : Option MetaRegion) :
    (Btree.visit (fun i _ => (some i, true)) items last).1 = items.getLast?.or last := by
  induction items generalizing last with
  | nil => rfl
  | cons x items ih =>
    rw [Btree.visit, if_pos rfl, ih, getLast?_cons]
    cases items.getLast? <;> rfl

theorem visit_overlaps (endKey : Bytes) (items overlaps : List MetaRegion) :
    (Btree.visit (fun (i : MetaRegion) overlaps =>
        if exceedEndKey i.startKey endKey then (overlaps, false) else (overlaps ++ [i], true))
      items overlaps).1 =
      overlaps ++ items.takeWhile fun i => !exceedEndKey i.startKey endKey := by
  induction items generalizing overlaps with
  | nil => simp [Btree.visit]
  | cons x items ih =>
    rw [Btree.visit]
    cases hexceed : exceedEndKey x.startKey endKey with
    | true => simp [hexceed]
    | false =>
      simp only [Bool.false_eq_true, if_false, if_true, ih]
      rw [takeWhile_cons_of_pos (by simp [hexceed]), append_assoc, singleton_append]

theorem start_getOverlapRegions :
    (match m.regionRanges.descendLessOrEqual region (fun i _ => (some i, false)) none with
      | none => region
      | some result =>
        if exceedEndKey region.startKey result.endKey then region else result).startKey =
      (RangeList.find (fun r : MetaRegion => r.startKey) MetaRegion.stop region.startKey
        m.regionRanges.items).elim region.startKey fun r => r.startKey := by
  rw [BTree.descendLessOrEqual_eq, visit_first, RangeList.find]
  cases hfirst : (OrderedList.descendLessOrEqual (fun r : MetaRegion => r.startKey) region.startKey
      m.regionRanges.items).head? with
  | none => rfl
  | some result =>
    have hle : result.startKey ≤ region.startKey :=
      (m.regionRanges.sorted.head?_descendLessOrEqual.mp hfirst).2.1
    have hcovers : RangeList.Covers (fun r : MetaRegion => r.startKey) MetaRegion.stop result
        region.startKey ↔ exceedEndKey region.startKey result.endKey = false := by
      rw [RangeList.Covers, MetaRegion.lt_stop_iff]
      exact and_iff_right hle
    rw [Option.filter_some]
    cases hexceed : exceedEndKey region.startKey result.endKey with
    | true => simp [hcovers, hexceed]
    | false => simp [hcovers, hexceed]

theorem getOverlapRegions_eq : m.getOverlapRegions region =
    RangeList.overlaps (fun r : MetaRegion => r.startKey) MetaRegion.stop region
      m.regionRanges.items := by
  rw [getOverlapRegions, BTree.ascendGreaterOrEqual_eq, visit_overlaps, nil_append,
    start_getOverlapRegions]
  refine RangeList.takeWhile_eq_overlaps fun i => ?_
  rw [MetaRegion.lt_stop_iff, Bool.not_eq_true']

theorem Disjoint.mem_getOverlapRegions (h : m.Disjoint) (hregion : region.WellFormed) :
    x ∈ m.getOverlapRegions region ↔ x ∈ m.regionRanges.items ∧ region.Meets x := by
  rw [getOverlapRegions_eq, h.apart.mem_overlaps hregion.nonempty, MetaRegion.meets_iff]

theorem sorted_getOverlapRegions :
    OrderedList.Sorted (fun r : MetaRegion => r.startKey) (m.getOverlapRegions region) := by
  rw [getOverlapRegions_eq]
  exact RangeList.sorted_overlaps m.regionRanges.sorted

theorem Disjoint.mem_of_meets (h : m.Disjoint) (hx : x ∈ m.regionRanges.items)
    (hmeets : region.Meets x) : x ∈ m.getOverlapRegions region := by
  obtain ⟨key, hkey, hkey'⟩ := hmeets
  have hregion : region.WellFormed := MetaRegion.WellFormed.of_contains hkey
  exact (h.mem_getOverlapRegions hregion).mpr ⟨hx, key, hkey, hkey'⟩

theorem getOverlapRegions_of_registered {failure : Option String} {regionID : UInt64}
    {msg : RaftMessage} {peer : MetaRegion}
    (h : (m.maybeCreatePeer failure regionID msg).registered = some peer) :
    m.getOverlapRegions { startKey := msg.startKey, endKey := msg.endKey } = [] := by
  cases hoverlaps : m.getOverlapRegions { startKey := msg.startKey, endKey := msg.endKey } with
  | nil => rfl
  | cons y ys =>
    simp only [maybeCreatePeer, hoverlaps] at h
    split_ifs at h

theorem getOverlapRegions_of_accepted {F : Formats}
    {unmarshal : Bytes → Option (Option MetaRegion)} {d : PeerMsgHandler} {msg : RaftMessage}
    {snapshot : Snapshot} (hsnapshot : msg.snapshot = some snapshot)
    (h : d.checkSnapshot F unmarshal msg = .ok (.ok none)) :
    ∃ snapRegion, unmarshal snapshot.data = some (some snapRegion) ∧
      ∀ x ∈ d.storeMeta.getOverlapRegions snapRegion, x.id = snapRegion.id := by
  simp only [PeerMsgHandler.checkSnapshot, hsnapshot] at h
  cases hdata : unmarshal snapshot.data with
  | none => simp [hdata] at h
  | some snapRegion =>
    simp only [hdata, Go.bind_eq_ok] at h
    obtain ⟨snapRegion, hderef, h⟩ := h
    have heq := Go.deref_eq_ok.mp hderef
    refine ⟨snapRegion, by rw [heq], ?_⟩
    split_ifs at h with hpeer hregion hinit hoverlaps
    · simp at h
    · simp at h
    · simp at h
    · simpa using hoverlaps

/-- The overlaps are found exactly, so that neither a peer is created nor a snapshot let through for
a range that meets that of another region. -/
theorem overlaps_guard (h : m.Disjoint) :
    (∀ region : MetaRegion, region.WellFormed →
      (m.getOverlapRegions region).Pairwise (fun x y => x.startKey < y.startKey) ∧
        ∀ x, x ∈ m.getOverlapRegions region ↔ x ∈ m.regionRanges.items ∧ region.Meets x) ∧
    (∀ failure regionID (msg : RaftMessage) peer,
      (m.maybeCreatePeer failure regionID msg).registered = some peer →
        ∀ x ∈ m.regionRanges.items,
          ¬ MetaRegion.Meets { startKey := msg.startKey, endKey := msg.endKey } x) ∧
    ∀ F unmarshal (d : PeerMsgHandler) (msg : RaftMessage) snapshot, d.storeMeta = m →
      msg.snapshot = some snapshot → d.checkSnapshot F unmarshal msg = .ok (.ok none) →
        ∃ snapRegion, unmarshal snapshot.data = some (some snapRegion) ∧
          ∀ x ∈ m.regionRanges.items, x.id ≠ snapRegion.id → ¬ snapRegion.Meets x := by
  refine ⟨?_, ?_, ?_⟩
  · intro region hregion
    exact ⟨sorted_getOverlapRegions, fun x => h.mem_getOverlapRegions hregion⟩
  · intro failure regionID msg peer hpeer x hx hmeets
    have hmem := h.mem_of_meets hx hmeets
    rw [getOverlapRegions_of_registered hpeer] at hmem
    cases hmem
  · rintro F unmarshal d msg snapshot rfl hsnapshot haccept
    obtain ⟨snapRegion, hdata, hid⟩ := getOverlapRegions_of_accepted hsnapshot haccept
    refine ⟨snapRegion, hdata, fun x hx hne hmeets => hne ?_⟩
    exact hid x (h.mem_of_meets hx hmeets)

def sample : StoreMeta where
  regionRanges :=
    { root := some (.inner (.snoc (.first (.leaf [{ id := 1, startKey := [], endKey := [97] }]))
        { id := 2, startKey := [97], endKey := [98] }
        (.leaf [{ id := 3, startKey := [98], endKey := [] }])))
      sorted := by unfold OrderedList.Sorted; decide }
  regions := ∅
  pendingVotes := []

theorem sample_disjoint : sample.Disjoint where
  wellFormed := by decide
  eq_of_meets x hx y hy hmeets := by
    have hdecide : ∀ x ∈ sample.regionRanges.items, ∀ y ∈ sample.regionRanges.items,
        exceedEndKey x.startKey y.endKey = false ∧ exceedEndKey y.startKey x.endKey = false →
          x = y := by decide
    exact hdecide x hx y hy ⟨hmeets.not_exceed, hmeets.symm.not_exceed⟩

theorem overlaps_sample :
    { id := 3, startKey := [98], endKey := [] } ∈
      sample.getOverlapRegions { startKey := [97, 1], endKey := [99] } :=
  (((overlaps_guard sample_disjoint).1 _ (by decide)).2 _).mpr
    ⟨by decide, [98], by decide, by decide⟩

theorem findSiblingRegion_eq : m.findSiblingRegion region =
    (OrderedList.ascendGreaterOrEqual (fun r : MetaRegion => r.startKey) region.startKey
      m.regionRanges.items).getLast? := by
  rw [findSiblingRegion, BTree.ascendGreaterOrEqual_eq, visit_last, Option.or_none]

def SiblingIsNext (m : StoreMeta) (region : MetaRegion) : Prop :=
  match m.findSiblingRegion region with
  | some sibling => sibling ∈ m.regionRanges.items ∧ region.startKey < sibling.startKey ∧
      ∀ y ∈ m.regionRanges.items, region.startKey < y.startKey → sibling.startKey ≤ y.startKey
  | none => ∀ y ∈ m.regionRanges.items, ¬ region.startKey < y.startKey

theorem ascendGreaterOrEqual_self (hx : x ∈ m.regionRanges.items) :
    OrderedList.ascendGreaterOrEqual (fun r : MetaRegion => r.startKey) x.startKey
        m.regionRanges.items =
      x :: m.regionRanges.items.filter fun y => x.startKey < y.startKey := by
  have hsorted : OrderedList.Sorted (fun r : MetaRegion => r.startKey) m.regionRanges.items :=
    m.regionRanges.sorted
  refine hsorted.ascendGreaterOrEqual.ext
    (pairwise_cons.mpr ⟨fun y hy => ?_, hsorted.filter _⟩) fun y => ?_
  · simpa using (mem_filter.mp hy).2
  · rw [OrderedList.mem_ascendGreaterOrEqual, mem_cons, mem_filter, decide_eq_true_eq]
    constructor
    · rintro ⟨hy, hle⟩
      rcases hle.eq_or_lt with heq | hlt
      · exact Or.inl (hsorted.eq_of_key_eq hy hx heq.symm)
      · exact Or.inr ⟨hy, hlt⟩
    · rintro (rfl | ⟨hy, hlt⟩)
      · exact ⟨hx, le_rfl⟩
      · exact ⟨hy, hlt.le⟩

/-- The sibling of a region in the tree is the next region exactly if there is one region after
it. -/
theorem siblingIsNext_iff (hregion : region ∈ m.regionRanges.items) :
    m.SiblingIsNext region ↔
      (m.regionRanges.items.filter fun y => region.startKey < y.startKey).length = 1 := by
  have hsorted : OrderedList.Sorted (fun r : MetaRegion => r.startKey)
      (m.regionRanges.items.filter fun y => region.startKey < y.startKey) :=
    List.Pairwise.filter _ m.regionRanges.sorted
  have hmem : ∀ y, y ∈ m.regionRanges.items.filter (fun y => region.startKey < y.startKey) ↔
      y ∈ m.regionRanges.items ∧ region.startKey < y.startKey := by simp
  have hlast : m.findSiblingRegion region = _ := findSiblingRegion_eq
  rw [ascendGreaterOrEqual_self hregion] at hlast
  rw [SiblingIsNext, hlast]
  generalize m.regionRanges.items.filter (fun y => region.startKey < y.startKey) = later
    at hsorted hmem ⊢
  match later with
  | [] => simp
  | [next] =>
    obtain ⟨hnext, hlt⟩ := (hmem next).mp (by simp)
    simp only [getLast?_cons_cons, getLast?_singleton, length_singleton, iff_true]
    refine ⟨hnext, hlt, fun y hy hylt => ?_⟩
    rw [mem_singleton.mp ((hmem y).mpr ⟨hy, hylt⟩)]
  | next :: second :: later =>
    -- The last region is after the next one.
    have hend : (region :: next :: second :: later).getLast? =
        some ((second :: later).getLast (by simp)) := by
      simp [getLast?_eq_some_getLast]
    have hlt : next.startKey < ((second :: later).getLast (by simp)).startKey :=
      rel_of_pairwise_cons hsorted (getLast_mem _)
    obtain ⟨hnext, hafter⟩ := (hmem next).mp (by simp)
    rw [hend]
    refine ⟨fun h => absurd (h.2.2 next hnext hafter) (not_le.mpr hlt), fun h => ?_⟩
    simp at h

variable {currentEpoch fromEpoch : RegionEpoch}

theorem regions_of_checkRegionEpoch {req : RaftCmdRequest} {id : UInt64} {regions : List MetaRegion}
    (h : checkRegionEpoch req region true =
      some (.epochNotMatch id currentEpoch fromEpoch regions)) : regions = [region] := by
  simp only [checkRegionEpoch, if_true] at h
  split_ifs at h
  split at h
  · cases h
  · split at h
    · cases h
    · split_ifs at h
      cases h
      rfl

theorem regions_of_epochNotMatch {d : PeerMsgHandler} {req : RaftCmdRequest} {id : UInt64}
    {regions : List MetaRegion}
    (h : d.preProposeRaftCommand req = .ok (some (.epochNotMatch id currentEpoch fromEpoch
      regions))) : regions = d.region :: (d.storeMeta.findSiblingRegion d.region).toList := by
  obtain ⟨store, hstore, h⟩ := Go.bind_eq_ok.mp h
  cases store with
  | some err =>
    cases h
    simp [checkStoreID, Go.bind_eq_ok] at hstore
  | none =>
    dsimp only at h
    split_ifs at h
    · cases h
    obtain ⟨peer, hpeer, h⟩ := Go.bind_eq_ok.mp h
    cases peer with
    | some err =>
      cases h
      simp [checkPeerID, Go.bind_eq_ok] at hpeer
    | none =>
      obtain ⟨term, hterm, h⟩ := Go.bind_eq_ok.mp h
      cases term with
      | some err =>
        cases h
        simp [checkTerm, Go.bind_eq_ok] at hterm
      | none =>
        dsimp only at h
        split at h
        · rename_i id' current from' regions' hepoch
          obtain rfl := regions_of_checkRegionEpoch hepoch
          cases hsibling : d.storeMeta.findSiblingRegion d.region with
          | some sibling =>
            rw [hsibling] at h
            cases h
            rfl
          | none =>
            rw [hsibling] at h
            cases h
            rfl
        · rename_i hother
          exact absurd (Except.ok.inj h) (hother _ _ _ _)

theorem siblingIsNext_sample :
    sample.SiblingIsNext { id := 2, startKey := [97], endKey := [98] } :=
  (siblingIsNext_iff (by decide)).mpr (by decide)

theorem not_siblingIsNext_first :
    ¬ sample.SiblingIsNext { id := 1, startKey := [], endKey := [97] } := by
  have hsibling : sample.findSiblingRegion { id := 1, startKey := [], endKey := [97] } =
      some { id := 3, startKey := [98], endKey := [] } := by decide
  rw [SiblingIsNext, hsibling]
  rintro ⟨-, -, hleast⟩
  have hle := hleast { id := 2, startKey := [97], endKey := [98] } (by decide) (by decide)
  exact absurd hle (by decide)

end StoreMeta

end TinyKV
