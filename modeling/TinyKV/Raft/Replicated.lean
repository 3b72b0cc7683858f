import TinyKV.Raft.Returns
import TinyKV.Raft.Safety

/-!
# What replication gives to applications

Three facts about every run of a cluster, with messages lost, delayed, reordered and duplicated, and
nodes that restart.
-/

namespace TinyKV

open List
open Consensus (majority)

variable {G : RaftGroup}

/-- Leader append-only: while a node is the leader of a term, the entries of its log keep their
terms and data, and each entry of the term that any node has is at the same place in its log, with
all that is before it. -/
theorem Run.leader_appendOnly (R : Run G) {j k : ℕ} (hjk : j ≤ k) (hk : k ≤ R.len) {c : ℕ}
    (hc : c ∈ G.ids) (hs : (R.node k c).state = .leader) :
    ((R.node j c).state = .leader → (R.node j c).term = (R.node k c).term →
      (R.node j c).raftLog.slots <+: (R.node k c).raftLog.slots) ∧
    ∀ p ∈ G.ids, ∀ i e, (R.node j p).raftLog.entryAt i = some e → e.term = (R.node k c).term →
      (R.node j p).raftLog.slots.take i = (R.node k c).raftLog.slots.take i := by
  obtain ⟨H⟩ := R.nonempty_history
  have hj : j ≤ R.len := hjk.trans hk
  have hllog := (H.nodeSim hk hc).llog_eq (H.sim k hk).inv hs
  have hgrows := (H.extends_of_le hjk hk).llog (R.node k c).term
  rw [hllog] at hgrows
  refine ⟨fun hsj hterm => ?_, fun p hp i e he hterm => ?_⟩
  · rw [← hterm, (H.nodeSim hj hc).llog_eq (H.sim j hj).inv hsj] at hgrows
    exact hgrows
  · -- The entry is in the log that the leader of its term built.
    have hsim := H.nodeSim hj hp
    obtain ⟨hi, htermAt⟩ := hsim.wf.log.termAt_of_entryAt he
    have h1 : 1 ≤ i := (hsim.wf.log.entryAt_eq_some.mp he).1
    have htraced := (H.sim j hj).inv.log_traced p
    rw [hsim.log_eq] at htraced
    have htake := (htraced i h1 hi).2
    rw [htermAt, hterm] at htake
    rw [htake, Consensus.take_of_isPrefix hgrows (Consensus.le_length_of_take_eq htake.symm hi)]

theorem Run.leader_appendOnly_electionRun :
    (electionRun.node 3 1).raftLog.slots <+: (electionRun.node 6 1).raftLog.slots ∧
      (electionRun.node 5 2).raftLog.slots.take 1 = (electionRun.node 6 1).raftLog.slots.take 1 :=
  have hs : (electionRun.node 6 1).state = .leader := by decide +kernel
  have he : (electionRun.node 5 2).raftLog.entryAt 1 = some { term := 1, index := 1 } := by
    decide +kernel
  ⟨(electionRun.leader_appendOnly (j := 3) (by decide) le_rfl (by decide) hs).1 (by decide +kernel)
      (by decide +kernel),
    (electionRun.leader_appendOnly (j := 5) (by decide) le_rfl (by decide) hs).2 2 (by decide) 1 _
      he (by decide +kernel)⟩

/-- Durability: an entry that a node has committed is in the logs of one majority of the peers, then
and for ever after. -/
theorem Run.committed_durable (R : Run G) (hall : ∀ p ∈ G.peers, p ∈ G.ids) {j : ℕ}
    (hj : j ≤ R.len) {n : ℕ} (hn : n ∈ G.ids) {i : ℕ} (hi : i ≤ (R.node j n).raftLog.committed)
    {e : Entry} (he : (R.node j n).raftLog.entryAt i = some e) :
    ∃ S ⊆ G.peers.toFinset, G.peers.toFinset.card < 2 * S.card ∧
      ∀ k, j ≤ k → k ≤ R.len → ∀ p ∈ S, ∃ e', (R.node k p).raftLog.entryAt i = some e' ∧
        e.term = e'.term ∧ e.data = e'.data := by
  obtain ⟨H⟩ := R.nonempty_history
  have hsim := H.nodeSim hj hn
  have h1 : 1 ≤ i := (hsim.wf.log.entryAt_eq_some.mp he).1
  have hok := (H.sim j hj).inv.commit_ok n
  rw [hsim.commit_eq, hsim.log_eq] at hok
  rcases hok with h0 | ⟨T, l, -, hl, ⟨hpos, hlen, hterm, S, hS, hack⟩, htake⟩
  · omega
  refine ⟨S, hS.1, hS.2, fun k hjk hk p hp => ?_⟩
  -- The members of the quorum have not fallen behind what they acknowledged.
  have hext := H.extends_of_le hjk hk
  have hinv := (H.sim k hk).inv
  have hdk : (H.state k).Decided (majority G.peers.toFinset) T l :=
    Consensus.State.Decided.mono hext ⟨hpos, hlen, hterm, S, hS, hack⟩
  have hsp := H.nodeSim hk (hall p (mem_toFinset.mp (hS.1 hp)))
  have hkey := hinv.ack_key p T l hpos ((hack p hp).trans (hext.ack p T))
  obtain ⟨-, hheld⟩ := hinv.decided_in_traced hdk (hinv.log_traced p) hkey
  rw [hsp.log_eq] at hheld
  have hagree : (R.node j n).raftLog.slots.take i = (R.node k p).raftLog.slots.take i := by
    calc (R.node j n).raftLog.slots.take i
        = ((H.state j).llog T).take i := Consensus.take_eq_of_take_eq htake hi
      _ = ((H.state k).llog T).take i :=
          (Consensus.take_of_isPrefix (hext.llog T) ((hi.trans hl).trans hlen)).symm
      _ = (R.node k p).raftLog.slots.take i :=
          (Consensus.take_eq_of_take_eq hheld (hi.trans hl)).symm
  exact hsim.wf.log.exists_entryAt_of_take_eq hsp.wf.log hagree le_rfl he

theorem Run.committed_durable_restartRun :
    ∃ S ⊆ pair.peers.toFinset, pair.peers.toFinset.card < 2 * S.card ∧
      ∀ k, 5 ≤ k → k ≤ 7 → ∀ p ∈ S, ∃ e', (restartRun.node k p).raftLog.entryAt 1 = some e' ∧
        1 = e'.term ∧ [] = e'.data :=
  have he : (restartRun.node 5 1).raftLog.entryAt 1 = some { term := 1, index := 1 } := by
    decide +kernel
  restartRun.committed_durable (j := 5) (by decide) (by decide) (by decide) (by decide +kernel) he

theorem LogMoves.applied_eq {m : Message} {l l' : RaftLog} (h : LogMoves m l l') :
    l'.applied = l.applied := by
  cases h with
  | commit | append => rfl
  | receive i hm hle hl' =>
    refine Go.ifReturns_foldlM (I := fun x => x.applied = l.applied) (fun x e hx => ?_) rfl _ hl'
    unfold Raft.handleAppendEntry
    by_cases hlast : e.index ≤ x.lastIndex
    · rw [if_pos hlast]
      refine Go.ifReturns_bind fun t => ?_
      dsimp only
      by_cases hterm : t.1 ≠ e.term
      · rw [if_pos hterm]
        refine Go.ifReturns_bind fun _ => Go.ifReturns_bind fun _ => Go.ifReturns_bind fun _ => ?_
        refine (Go.ifReturns_ok _ _).mpr ?_
        split_ifs <;> exact hx
      · rw [if_neg hterm]
        exact (Go.ifReturns_ok _ _).mpr hx
    · rw [if_neg hlast]
      exact Go.ifReturns_bind fun _ => (Go.ifReturns_ok _ _).mpr hx

def Run.handed (R : Run G) (n : ℕ) : ℕ → List Entry
  | 0 => []
  | k + 1 =>
    if (R.event k).node = n then
      match R.event k with
      | .applyNext _ => R.handed n k ++ ((R.node k n).raftLog.nextEnts.toOption.getD [])
      | .restart .. => []
      | _ => R.handed n k
    else R.handed n k

theorem Run.act_eq (R : Run G) {k : ℕ} (hk : k < R.len) :
    (R.event k).act G (R.node k (R.event k).node) = .ok (R.node (k + 1) (R.event k).node) := by
  obtain ⟨r, hr, hstate⟩ := Go.bind_eq_ok.mp (R.exec k hk)
  have hnode : R.node (k + 1) (R.event k).node = r := by
    rw [Run.node, ← Except.ok.inj hstate]
    exact Function.update_self ..
  rw [hnode]
  exact hr

theorem Raft.applied_of_restart {r r' : Raft} {n rnd : ℕ} (h : r.raftLog.WF) (hvalid : G.Valid)
    (hn : n ∈ G.ids) (hr' : (Event.restart n rnd).act G r = .ok r') : r'.raftLog.applied = 0 := by
  simp only [Event.act, Raft.saved_eq h, Go.ok_bind] at hr'
  unfold newRaft at hr'
  rw [hvalid n hn] at hr'
  simp only [RaftGroup.config, Go.deref_some, Go.ok_bind] at hr'
  rw [RaftLog.newLog_eq rfl, Go.ok_bind] at hr'
  rw [← Except.ok.inj hr', Raft.becomeFollower_raftLog]

theorem Run.History.handed_eq {R : Run G} (H : R.History) {n : ℕ} (hn : n ∈ G.ids) {k : ℕ}
    (hk : k ≤ R.len) :
    R.handed n k = (R.node k n).raftLog.entries.take (R.node k n).raftLog.applied := by
  induction k with
  | zero =>
    have hentries := (R.init.recovered hn).entries_eq
    rw [Run.node, hentries, take_nil, Run.handed]
  | succ k ih =>
    have hprev := ih (by omega)
    have hact := R.act_eq hk
    have htrans := H.trans k hk
    have hsim := H.nodeSim (Nat.le_of_lt hk) hn
    rw [Run.handed]
    by_cases hnode : (R.event k).node = n
    · rw [if_pos hnode]
      rw [hnode] at hact
      -- The entries that have been applied stay, for they are committed.
      have hkeeps (happlied : (R.node (k + 1) n).raftLog.applied = (R.node k n).raftLog.applied) :
          R.handed n k =
            (R.node (k + 1) n).raftLog.entries.take (R.node (k + 1) n).raftLog.applied := by
        have hpreserves := htrans.preserves.2
        rw [hnode] at hpreserves
        rw [hprev, happlied]
        exact (Consensus.take_eq_of_take_eq hpreserves hsim.wf.log.applied_le).symm
      cases hevent : R.event k with
      | input _ rnd m =>
        rw [hevent] at hact
        exact hkeeps (Raft.step_ifReturns rnd _ m _ hact).2.applied_eq
      | deliver _ rnd m =>
        rw [hevent] at hact
        exact hkeeps (Raft.step_ifReturns rnd _ m _ hact).2.applied_eq
      | tick _ rnd =>
        rw [hevent] at hact
        exact hkeeps (Raft.tick_ifReturns rnd _ {} _ hact).2.applied_eq
      | readMessages =>
        rw [hevent] at hact
        exact hkeeps (by rw [← Except.ok.inj hact]; rfl)
      | persist =>
        rw [hevent] at hact
        obtain ⟨ents, -, hact⟩ := Go.bind_eq_ok.mp hact
        obtain ⟨storage, -, hact⟩ := Go.bind_eq_ok.mp hact
        exact hkeeps (by rw [← Except.ok.inj hact])
      | applyNext =>
        rw [hevent] at hact
        have hents := hsim.wf.log.nextEnts_eq (hsim.committed_le (H.sim k (Nat.le_of_lt hk)).inv)
        obtain ⟨ents, -, hact⟩ := Go.bind_eq_ok.mp hact
        have hsplit := take_append_drop (R.node k n).raftLog.applied
          ((R.node k n).raftLog.entries.take (R.node k n).raftLog.committed)
        rw [take_take, min_eq_left hsim.wf.log.applied_le] at hsplit
        rw [← Except.ok.inj hact, hprev, hents]
        exact hsplit
      | restart m rnd =>
        rw [hevent] at hact hnode
        obtain rfl : m = n := hnode
        rw [Raft.applied_of_restart hsim.wf.log R.init.valid hn hact, take_zero]
    · rw [if_neg hnode, hprev, Run.node, Run.node, htrans.others n (Ne.symm hnode)]

theorem Run.History.handed_prefix {R : Run G} (H : R.History) {j k a b : ℕ} (hj : j ≤ R.len)
    (hk : k ≤ R.len) (ha : a ∈ G.ids) (hb : b ∈ G.ids)
    (hle : (R.node j a).raftLog.applied ≤ (R.node k b).raftLog.applied) :
    (R.handed a j).map Entry.slot <+: (R.handed b k).map Entry.slot := by
  rw [H.handed_eq ha hj, H.handed_eq hb hk, map_take, map_take]
  change (R.node j a).raftLog.slots.take _ <+: (R.node k b).raftLog.slots.take _
  rcases Nat.eq_zero_or_pos (R.node j a).raftLog.applied with h0 | hpos
  · rw [h0, take_zero]
    exact List.nil_prefix
  -- What either has applied is decided, and so the same.
  obtain ⟨T, l, -, hl, hd, htake⟩ := H.decided hj ha hpos (H.nodeSim hj ha).wf.log.applied_le
  obtain ⟨T', l', -, hl', hd', htake'⟩ :=
    H.decided hk hb (hpos.trans_le hle) (H.nodeSim hk hb).wf.log.applied_le
  have hagree := (H.sim R.len le_rfl).inv.decided_take_eq hd hd' hl (hle.trans hl')
  rw [htake, hagree, htake']
  exact take_prefix_take_left hle

/-- State machine replication: whenever an application is looked at, it has been handed the entries
that its node has applied, one after the other from the first on, and of any two applications, at
any two times, what the one has been handed is where the sequence of the other begins. -/
theorem Run.handed_agree (R : Run G) {j k : ℕ} (hj : j ≤ R.len) (hk : k ≤ R.len) {a b : ℕ}
    (ha : a ∈ G.ids) (hb : b ∈ G.ids) :
    (R.handed a j).length = (R.node j a).raftLog.applied ∧
    (∀ i e, (R.handed a j)[i]? = some e → e.index = i + 1) ∧
    ((R.handed a j).map Entry.slot <+: (R.handed b k).map Entry.slot ∨
      (R.handed b k).map Entry.slot <+: (R.handed a j).map Entry.slot) := by
  obtain ⟨H⟩ := R.nonempty_history
  have hsim := H.nodeSim hj ha
  refine ⟨?_, fun i e he => ?_, ?_⟩
  · rw [H.handed_eq ha hj, length_take]
    exact min_eq_left (hsim.wf.log.applied_le.trans (hsim.committed_le (H.sim j hj).inv))
  · rw [H.handed_eq ha hj, getElem?_take] at he
    split_ifs at he
    exact hsim.wf.log.index_eq he
  · rcases le_total (R.node j a).raftLog.applied (R.node k b).raftLog.applied with hle | hle
    · exact Or.inl (H.handed_prefix hj hk ha hb hle)
    · exact Or.inr (H.handed_prefix hk hj hb ha hle)

def appliedRun : Run pair :=
  Run.ofEvents pair (Cluster.start pair)
    (electionEvents ++ [.applyNext 1, .applyNext 2, .restart 1 0]) pair_init (by decide +kernel)

theorem Run.handed_agree_appliedRun :
    appliedRun.handed 1 8 = [{ term := 1, index := 1 }] ∧ appliedRun.handed 1 9 = [] ∧
      ((appliedRun.handed 1 8).map Entry.slot <+: (appliedRun.handed 2 9).map Entry.slot ∨
        (appliedRun.handed 2 9).map Entry.slot <+: (appliedRun.handed 1 8).map Entry.slot) :=
  ⟨by decide +kernel, by decide +kernel,
    (appliedRun.handed_agree (by decide) le_rfl (by decide) (by decide)).2.2⟩

end TinyKV
