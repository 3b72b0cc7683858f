import TinyKV.Raft.Persistence

/-!
# Restarting a node

When `newRaft` builds a node again over the storage that it left, `Config.peers` is empty, the peers
are those of the storage's `ConfState`, and `Config.Applied` says what the application has applied.
-/

namespace TinyKV

open List

structure Restarts (s t : ℕ) (ms : MemoryStorage) (c : Config) : Prop where
  compacted : ms.CompactedTo s t
  nodes_ne_nil : ms.snapshot.metadata.confState.nodes ≠ []
  le_commit : s ≤ ms.hardState.commit
  commit_le : ms.hardState.commit ≤ s + ms.ents.tail.length
  valid : c.validate = none
  peers_eq : c.peers = []
  id_mem : c.id ∈ ms.snapshot.metadata.confState.nodes
  storage_eq : c.storage = some ms
  le_applied : s ≤ c.applied
  applied_le : c.applied ≤ ms.hardState.commit

def Raft.HandsOutAfter (a : ℕ) (r : Raft) : Prop :=
  ∀ (msgs : List (ℕ × Message)) r' es, msgs.foldlM (fun r m => r.step m.1 m.2) r = .ok r' →
    r'.raftLog.nextEnts = .ok es → ∀ e ∈ es, a < e.index

/-- What a restart is for: the node that was there before. -/
structure Raft.Restored (ms : MemoryStorage) (c : Config) (r : Raft) : Prop where
  state_eq : r.state = .follower
  term_eq : r.term = ms.hardState.term
  vote_eq : r.vote = ms.hardState.vote
  committed_eq : r.raftLog.committed = ms.hardState.commit
  entries_eq : r.raftLog.entries = ms.ents.tail
  mem_prs : ∀ p, p ∈ r.prs ↔ p ∈ ms.snapshot.metadata.confState.nodes
  handsOut : r.HandsOutAfter c.applied

namespace Raft

variable {s t : ℕ} {ms : MemoryStorage} {c : Config} {r : Raft}

theorem newRaft_of_restarts (h : Restarts s t ms c) (rnd : ℕ) :
    ∃ r, newRaft rnd c = .ok r ∧ r.state = .follower ∧ r.term = ms.hardState.term ∧
      r.vote = ms.hardState.vote ∧ r.raftLog.committed = ms.hardState.commit ∧
      r.raftLog.entries = ms.ents.tail ∧ r.raftLog.applied = s ∧ r.prs = ∅ := by
  obtain ⟨d, hd, hindex, -⟩ := h.compacted.dummy
  obtain ⟨es, hents⟩ := head?_eq_some_iff.mp (head?_eq_getElem?.trans hd)
  unfold newRaft
  simp only [h.valid, h.storage_eq, Go.deref_some, Go.ok_bind, RaftLog.newLog_of_ents hents,
    Go.pure_eq_ok, h.peers_eq, foldl_nil]
  refine ⟨_, rfl, becomeFollower_state .., ?_, ?_, ?_, ?_, ?_, ?_⟩
  · rw [becomeFollower_term, max_self]
    rfl
  · rw [becomeFollower_vote, if_neg (lt_irrefl _)]
    rfl
  · rw [becomeFollower_raftLog]
    rfl
  · rw [becomeFollower_raftLog, hents]
    rfl
  · rw [becomeFollower_raftLog]
    exact hindex
  · rw [becomeFollower_prs]

theorem nextEnts_of_recovered (h : r.raftLog.Recovered s t) (happlied : r.raftLog.applied = s)
    (hs : s ≤ r.raftLog.committed) (hc : r.raftLog.committed ≤ s + r.raftLog.entries.length) {a : ℕ}
    (ha : s ≤ a) (hac : a ≤ r.raftLog.committed) :
    (∀ es, r.raftLog.nextEnts = .ok es → ∀ e ∈ es, a < e.index) ↔ a = s := by
  have hnext := h.based.nextEnts_eq happlied.ge (happlied ▸ hs) hc
  rw [happlied, Nat.sub_self, drop_zero] at hnext
  constructor
  · intro hall
    by_contra hne
    -- The first entry is among them.
    have hpos : 0 < r.raftLog.entries.length := by omega
    have hget : (r.raftLog.entries.take (r.raftLog.committed - s))[0]? =
        some (r.raftLog.entries.get ⟨0, hpos⟩) := by
      rw [getElem?_take_of_lt (by omega), getElem?_eq_getElem hpos]
      rfl
    have hlt := hall _ hnext _ (mem_of_getElem? hget)
    have hindex := h.based.index_eq (getElem?_eq_getElem hpos)
    simp only [get_eq_getElem] at hlt
    omega
  · rintro rfl es hes e he
    exact h.based.lt_index_of_nextEnts hes he

/-- A restarted node is a follower with the term, the vote, the committed position and the entries
of the storage. It has no peers, and it hands out again what has been applied, unless it has been
compacted. -/
theorem newRaft_restart (h : Restarts s t ms c) (rnd : ℕ) :
    ∃ r, newRaft rnd c = .ok r ∧ r.state = .follower ∧ r.term = ms.hardState.term ∧
      r.vote = ms.hardState.vote ∧ r.raftLog.committed = ms.hardState.commit ∧
      r.raftLog.entries = ms.ents.tail ∧ r.prs = ∅ ∧
      ((∀ es, r.raftLog.nextEnts = .ok es → ∀ e ∈ es, c.applied < e.index) ↔ c.applied = s) ∧
      (s ≤ maxInt → ∀ evs r', Ordered evs → node.run r evs = some r' →
        ∀ es, r'.raftLog.nextEnts = .ok es → ∀ e ∈ es, s < e.index) ∧
      ¬ r.Restored ms c := by
  obtain ⟨r, hnew, hstate, hterm, hvote, hcommitted, hentries, happlied, hprs⟩ :=
    newRaft_of_restarts h rnd
  obtain ⟨hrecovered, -⟩ := recovered_of_newRaft h.compacted h.storage_eq hnew
  refine ⟨r, hnew, hstate, hterm, hvote, hcommitted, hentries, hprs,
    nextEnts_of_recovered hrecovered happlied ?_ ?_ h.le_applied ?_,
    fun hs evs r' hevs hrun es hes e he => ?_, fun hrestored => ?_⟩
  · rw [hcommitted]
    exact h.le_commit
  · rw [hcommitted, hentries]
    exact h.commit_le
  · rw [hcommitted]
    exact h.applied_le
  · exact (persisted_of_run hs hevs hrecovered.persisted hrun).toBased.lt_index_of_nextEnts hes he
  · -- The peers of the storage are not there.
    have hmem := (hrestored.mem_prs c.id).mpr h.id_mem
    rw [hprs] at hmem
    exact AList.notMem_empty _ hmem

def storageOfOne : MemoryStorage where
  hardState := { term := 1, vote := 2, commit := 1 }
  snapshot := { metadata := { confState := { nodes := [1, 2] } } }
  ents := [{}, { index := 1, term := 1 }]

def configOfOne : Config where
  id := 1
  peers := []
  electionTick := 10
  heartbeatTick := 1
  storage := some storageOfOne
  applied := 1

theorem restarts_configOfOne : Restarts 0 0 storageOfOne configOfOne :=
  ⟨⟨⟨{}, rfl, rfl, rfl⟩, by decide, by decide⟩, by decide, by decide, by decide, by decide, rfl,
    by decide, rfl, by decide, by decide⟩

theorem newRaft_configOfOne :
    Restarts 0 0 storageOfOne configOfOne ∧
      ∃ r, newRaft 0 configOfOne = .ok r ∧ ¬ r.Restored storageOfOne configOfOne := by
  obtain ⟨r, hnew, -, -, -, -, -, -, -, -, hnot⟩ := newRaft_restart restarts_configOfOne 0
  exact ⟨restarts_configOfOne, r, hnew, hnot⟩

theorem newRaft_forgets_peers :
    ∃ r, newRaft 0 configOfOne = .ok r ∧ r.prs = ∅ ∧
      r.raftLog.nextEnts = .ok [{ index := 1, term := 1 }] ∧
      ¬ r.Restored storageOfOne configOfOne := by
  refine ⟨_, rfl, rfl, rfl, fun hrestored => ?_⟩
  exact AList.notMem_empty 1 ((hrestored.mem_prs 1).mpr (by decide))

end Raft

end TinyKV
