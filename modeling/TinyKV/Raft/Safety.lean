import TinyKV.Raft.Refinement

/-!
# Safety of clusters

What holds in every state of every run of a cluster, with messages lost, delayed, reordered and
duplicated, nodes that restart, and logs that are persisted and applied at any time.
-/

namespace TinyKV

open Consensus (State majority)

def Run.node {G : RaftGroup} (R : Run G) (k n : ℕ) : Raft := (R.state k).nodes n

def Cluster.start (G : RaftGroup) : Cluster where
  nodes n := match newRaft 0 (G.config n newMemoryStorage) with
    | .ok r => r
    | .error _ => {
      id := n
      term := 0
      vote := None
      raftLog := {
        storage := newMemoryStorage
        committed := 0
        applied := 0
        stabled := 0
        entries := [] }
      heartbeatTimeout := 0
      electionTimeoutBase := 0 }
  sent := []

def pair : RaftGroup where
  ids := {1, 2}
  peers := [1, 2]
  electionTick _ := 10
  heartbeatTick _ := 1
  mem_peers := by decide

theorem pair_init : (Cluster.start pair).Init pair := by
  refine ⟨rfl, fun n hn => ⟨0, ?_⟩⟩
  have hn' : n = 1 ∨ n = 2 := by simpa [pair] using hn
  rcases hn' with rfl | rfl <;> rfl

def Event.hup (n : ℕ) : Event := .input n 0 { msgType := .msgHup }

def Event.arrive (m : Message) : Event := .deliver m.toId 0 m

def electionEvents : List Event := [
  .hup 1,
  .arrive { msgType := .msgRequestVote, fromId := 1, toId := 2, term := 1 },
  .arrive { msgType := .msgRequestVoteResponse, fromId := 2, toId := 1, term := 1 },
  .arrive { msgType := .msgAppend, fromId := 1, toId := 2, term := 1,
            entries := [{ term := 1, index := 1 }] },
  .arrive { msgType := .msgAppendResponse, fromId := 2, toId := 1, term := 1, index := 1 },
  .arrive { msgType := .msgAppend, fromId := 1, toId := 2, term := 1, index := 1, logTerm := 1,
            commit := 1 }]

def electionRun : Run pair :=
  Run.ofEvents pair (Cluster.start pair) electionEvents pair_init (by decide +kernel)

namespace Run.History

variable {G : RaftGroup} {R : Run G} (H : R.History) {j k n : ℕ}

theorem nodeSim (hk : k ≤ R.len) (hn : n ∈ G.ids) :
    NodeSim G.peers.toFinset (H.state k) n (R.node k n) :=
  (H.sim k hk).node n hn

theorem leader_eq (hjk : j ≤ k) (hk : k ≤ R.len) (hn : n ∈ G.ids)
    (hs : (R.node j n).state = .leader) : (H.state k).leader (R.node j n).term = some n :=
  (H.extends_of_le hjk hk).leader _ _ ((H.nodeSim (hjk.trans hk) hn).leader hs).1

theorem decided {i : ℕ} (hk : k ≤ R.len) (hn : n ∈ G.ids) (h1 : 1 ≤ i)
    (hi : i ≤ (R.node k n).raftLog.committed) :
    ∃ T l, T ≤ (R.node k n).term ∧ i ≤ l ∧
      (H.state R.len).Decided (majority G.peers.toFinset) T l ∧
      (R.node k n).raftLog.slots.take i = ((H.state R.len).llog T).take i := by
  have hsim := H.nodeSim hk hn
  have hext := H.extends_of_le hk le_rfl
  have hok := (H.sim k hk).inv.commit_ok n
  rw [hsim.commit_eq, hsim.term_eq, hsim.log_eq] at hok
  rcases hok with h0 | ⟨T, l, hT, hl, hd, htake⟩
  · omega
  · refine ⟨T, l, hT, hi.trans hl, hd.mono hext, ?_⟩
    rw [Consensus.take_eq_of_take_eq htake hi]
    exact (Consensus.take_of_isPrefix (hext.llog T) ((hi.trans hl).trans hd.2.1)).symm

theorem take_eq_of_decided {i T l : ℕ} (hk : k ≤ R.len) (hn : n ∈ G.ids)
    (hs : (R.node k n).state = .leader)
    (hd : (H.state R.len).Decided (majority G.peers.toFinset) T l) (hT : T < (R.node k n).term)
    (hi : i ≤ l) : (R.node k n).raftLog.slots.take i = ((H.state R.len).llog T).take i := by
  have hsim := H.nodeSim hk hn
  obtain ⟨l₀, vs, hcamp, -, heq⟩ := (H.sim k hk).inv.llog_eq _ n (hsim.leader hs).1
  obtain ⟨hle, htake⟩ := (H.sim R.len le_rfl).inv.decided_in_campaign hd _ n l₀ hT
    (H.leader_eq hk le_rfl hn hs) ((H.extends_of_le hk le_rfl).camp _ _ _ hcamp)
  calc (R.node k n).raftLog.slots.take i
      = (l₀ ++ vs.map (Consensus.Slot.mk (R.node k n).term)).take i := by
        rw [← heq, hsim.llog_eq (H.sim k hk).inv hs]
    _ = l₀.take i := List.take_append_of_le_length (hi.trans hle)
    _ = ((H.state R.len).llog T).take i := Consensus.take_eq_of_take_eq htake hi

end Run.History

variable {G : RaftGroup}

theorem Run.leader_unique (R : Run G) {j k : ℕ} (hj : j ≤ R.len) (hk : k ≤ R.len) {a b : ℕ}
    (ha : a ∈ G.ids) (hb : b ∈ G.ids) (hsa : (R.node j a).state = .leader)
    (hsb : (R.node k b).state = .leader) (hterm : (R.node j a).term = (R.node k b).term) :
    a = b := by
  obtain ⟨H⟩ := R.nonempty_history
  have hla := H.leader_eq hj le_rfl ha hsa
  have hlb := H.leader_eq hk le_rfl hb hsb
  rw [hterm] at hla
  exact Option.some.inj (hla.symm.trans hlb)

/-- State machine safety: two nodes have entries of the same term and data at every position that
both have committed. -/
theorem Run.committed_agree (R : Run G) {k : ℕ} (hk : k ≤ R.len) {a b : ℕ} (ha : a ∈ G.ids)
    (hb : b ∈ G.ids) {i : ℕ} (h1 : 1 ≤ i)
    (hi : i ≤ min (R.node k a).raftLog.committed (R.node k b).raftLog.committed) :
    ∃ e e', (R.node k a).raftLog.entryAt i = some e ∧ (R.node k b).raftLog.entryAt i = some e' ∧
      e.term = e'.term ∧ e.data = e'.data := by
  obtain ⟨H⟩ := R.nonempty_history
  have hinv := (H.sim k hk).inv
  have hsa := H.nodeSim hk ha
  have hsb := H.nodeSim hk hb
  rw [le_min_iff] at hi
  have htake := hinv.commit_take_eq (p := a) (q := b) (k := i) (by rw [hsa.commit_eq]; exact hi.1)
    (by rw [hsb.commit_eq]; exact hi.2)
  rw [hsa.log_eq, hsb.log_eq] at htake
  obtain ⟨e, he⟩ := hsa.wf.log.exists_entryAt h1 (hi.1.trans (hsa.committed_le hinv))
  obtain ⟨e', he', hsame⟩ := hsa.wf.log.exists_entryAt_of_take_eq hsb.wf.log htake le_rfl he
  exact ⟨e, e', he, he', hsame⟩

theorem Run.committed_agree_electionRun :
    ∃ e e', (electionRun.node 6 1).raftLog.entryAt 1 = some e ∧
      (electionRun.node 6 2).raftLog.entryAt 1 = some e' ∧ e.term = e'.term ∧ e.data = e'.data :=
  electionRun.committed_agree (k := 6) (by decide) (by decide) (by decide) le_rfl
    (by decide +kernel)

/-- Election safety: at most one node is ever the leader of a term, whenever it is, and no append or
heartbeat of a leader's own term is ever addressed to it. -/
theorem Run.election_safety (R : Run G) :
    (∀ j ≤ R.len, ∀ k ≤ R.len, ∀ a ∈ G.ids, ∀ b ∈ G.ids, (R.node j a).state = .leader →
      (R.node k b).state = .leader → (R.node j a).term = (R.node k b).term → a = b) ∧
    ∀ k ≤ R.len, ∀ n ∈ G.ids, (R.node k n).state = .leader → ∀ m ∈ (R.state k).sent, m.toId = n →
      m.msgType = .msgAppend ∨ m.msgType = .msgHeartbeat → m.term ≠ (R.node k n).term := by
  obtain ⟨H⟩ := R.nonempty_history
  refine ⟨fun j hj k hk a ha b hb hsa hsb hterm => ?_, fun k hk n hn hs m hm hto htype hterm => ?_⟩
  · exact R.leader_unique hj hk ha hb hsa hsb hterm
  · -- The sender would be the leader of the term as well.
    have hsim := (H.sim k hk).sent m hm
    have hlead := hsim.leader htype
    rw [hterm, H.leader_eq le_rfl hk hn hs, Option.some.injEq] at hlead
    exact hsim.to_ne (hto.trans hlead)

theorem Run.election_safety_electionRun :
    (electionRun.node 3 1).state = .leader ∧ (electionRun.node 6 2).state ≠ .leader :=
  ⟨by decide +kernel, fun h => absurd (electionRun.election_safety.1 6 (by decide) 3 (by decide) 2
    (by decide) 1 (by decide) h (by decide +kernel) (by decide +kernel)) (by decide)⟩

def Cluster.Supports (s : Cluster) (n c T : ℕ) : Prop :=
  c = n ∧ (s.nodes n).term = T ∧ (s.nodes n).state ≠ .follower ∨
    ∃ m ∈ s.sent, m.msgType = .msgRequestVoteResponse ∧ m.reject = false ∧ m.fromId = n ∧
      m.toId = c ∧ m.term = T

theorem Sim.vote_of_supports {a : State ℕ (List UInt8)} {s : Cluster} (h : Sim G a s) {n c T : ℕ}
    (hn : n ∈ G.ids) (hs : s.Supports n c T) : a.vote n T = some c := by
  rcases hs with ⟨rfl, hterm, hstate⟩ | ⟨m, hm, htype, hreject, rfl, rfl, rfl⟩
  · have hnode := h.node c hn
    have hcamp : ∃ l, a.camp T c = some l := by
      rw [← hterm]
      cases hst : (s.nodes c).state with
      | follower => exact absurd hst hstate
      | candidate => exact ⟨_, (hnode.candidate hst).1⟩
      | leader =>
        -- A leader has campaigned.
        obtain ⟨l, vs, hl, -⟩ := h.inv.llog_eq _ c (hnode.leader hst).1
        exact ⟨l, hl⟩
    obtain ⟨l, hl⟩ := hcamp
    exact h.inv.camp_vote T c l hl
  · exact (h.sent m hm).vote htype hreject

/-- Votes survive restarts: a node never supports two candidates in a term, and so at most one node
is elected in it. -/
theorem Run.vote_durable (R : Run G) :
    (∀ j ≤ R.len, ∀ k ≤ R.len, ∀ n ∈ G.ids, ∀ c d T, (R.state j).Supports n c T →
      (R.state k).Supports n d T → c = d) ∧
    ∀ j ≤ R.len, ∀ k ≤ R.len, ∀ a ∈ G.ids, ∀ b ∈ G.ids, (R.node j a).state = .leader →
      (R.node k b).state = .leader → (R.node j a).term = (R.node k b).term → a = b := by
  obtain ⟨H⟩ := R.nonempty_history
  refine ⟨fun j hj k hk n hn c d T hc hd => ?_, fun j hj k hk a ha b hb hsa hsb hterm => ?_⟩
  · have hc' := (H.extends_of_le hj le_rfl).vote _ _ _ ((H.sim j hj).vote_of_supports hn hc)
    have hd' := (H.extends_of_le hk le_rfl).vote _ _ _ ((H.sim k hk).vote_of_supports hn hd)
    exact Option.some.inj (hc'.symm.trans hd')
  · exact R.leader_unique hj hk ha hb hsa hsb hterm

def restartRun : Run pair :=
  Run.ofEvents pair (Cluster.start pair) (electionEvents ++ [.restart 1 0]) pair_init
    (by decide +kernel)

theorem Run.vote_durable_restartRun :
    (restartRun.node 7 1).vote = None ∧ ¬ (restartRun.state 7).Supports 1 2 1 :=
  ⟨by decide +kernel, fun h => absurd (restartRun.vote_durable.1 6 (by decide) 7 (by decide) 1
    (by decide) 1 2 1 (Or.inl ⟨rfl, by decide +kernel, by decide +kernel⟩) h) (by decide)⟩

/-- Log matching: when two nodes have entries of the same term at a position, they have entries of
the same term and data at every position up to it that both have. -/
theorem Run.log_matching (R : Run G) {k : ℕ} (hk : k ≤ R.len) {a b : ℕ} (ha : a ∈ G.ids)
    (hb : b ∈ G.ids) {i : ℕ} {e e' : Entry} (he : (R.node k a).raftLog.entryAt i = some e)
    (he' : (R.node k b).raftLog.entryAt i = some e') (hterm : e.term = e'.term) :
    ∀ j ≤ i, ∀ d d', (R.node k a).raftLog.entryAt j = some d →
      (R.node k b).raftLog.entryAt j = some d' → d.term = d'.term ∧ d.data = d'.data := by
  intro j hj d d' hd hd'
  obtain ⟨H⟩ := R.nonempty_history
  have hinv := (H.sim k hk).inv
  have hsa := H.nodeSim hk ha
  have hsb := H.nodeSim hk hb
  have hta := hinv.log_traced a
  have htb := hinv.log_traced b
  rw [hsa.log_eq] at hta
  rw [hsb.log_eq] at htb
  obtain ⟨hia, hterma⟩ := hsa.wf.log.termAt_of_entryAt he
  obtain ⟨hib, htermb⟩ := hsb.wf.log.termAt_of_entryAt he'
  have htake := hta.take_eq htb hia hib (by rw [hterma, htermb, hterm])
  obtain ⟨d'', hd'', hsame⟩ := hsa.wf.log.exists_entryAt_of_take_eq hsb.wf.log htake hj hd
  rw [hd', Option.some.injEq] at hd''
  rw [hd'']
  exact hsame

theorem Run.log_matching_electionRun :
    (electionRun.node 4 1).raftLog.entryAt 1 = some { term := 1, index := 1 } ∧
      ∀ j ≤ 1, ∀ d d', (electionRun.node 4 1).raftLog.entryAt j = some d →
        (electionRun.node 4 2).raftLog.entryAt j = some d' → d.term = d'.term ∧ d.data = d'.data :=
  have he : (electionRun.node 4 1).raftLog.entryAt 1 = some { term := 1, index := 1 } := by
    decide +kernel
  have he' : (electionRun.node 4 2).raftLog.entryAt 1 = some { term := 1, index := 1 } := by
    decide +kernel
  ⟨he, electionRun.log_matching (by decide) (by decide) (by decide) he he' rfl⟩

/-- Leader completeness: when a node has committed a position in some term, every leader of a later
term has an entry there of the same term and data as any node that ever commits the position. -/
theorem Run.leader_completeness (R : Run G) {k₀ : ℕ} (hk₀ : k₀ ≤ R.len) {n₀ : ℕ} (hn₀ : n₀ ∈ G.ids)
    {i : ℕ} (hi₀ : i ≤ (R.node k₀ n₀).raftLog.committed) {j : ℕ} (hj : j ≤ R.len) {p : ℕ}
    (hp : p ∈ G.ids) (hi : i ≤ (R.node j p).raftLog.committed) {e : Entry}
    (he : (R.node j p).raftLog.entryAt i = some e) {k : ℕ} (hk : k ≤ R.len) {c : ℕ} (hc : c ∈ G.ids)
    (hs : (R.node k c).state = .leader) (hterm : (R.node k₀ n₀).term < (R.node k c).term) :
    ∃ e', (R.node k c).raftLog.entryAt i = some e' ∧ e.term = e'.term ∧ e.data = e'.data := by
  obtain ⟨H⟩ := R.nonempty_history
  have hsp := H.nodeSim hj hp
  have hsc := H.nodeSim hk hc
  have h1 : 1 ≤ i := (hsp.wf.log.entryAt_eq_some.mp he).1
  -- What the nodes know to be committed was decided, and still is at the end of the run.
  obtain ⟨T, l, hT, hl, hd, -⟩ := H.decided hk₀ hn₀ h1 hi₀
  obtain ⟨T', l', -, hl', hd', htake'⟩ := H.decided hj hp h1 hi
  have hagree : (R.node j p).raftLog.slots.take i = (R.node k c).raftLog.slots.take i := by
    rw [htake', H.take_eq_of_decided hk hc hs hd (by omega) hl]
    exact (H.sim R.len le_rfl).inv.decided_take_eq hd' hd hl' hl
  exact hsp.wf.log.exists_entryAt_of_take_eq hsc.wf.log hagree le_rfl he

def successionRun : Run pair :=
  Run.ofEvents pair (Cluster.start pair) (electionEvents ++ [
    .hup 2,
    .arrive { msgType := .msgRequestVote, fromId := 2, toId := 1, term := 2, index := 1,
              logTerm := 1 },
    .arrive { msgType := .msgRequestVoteResponse, fromId := 1, toId := 2, term := 2 }]) pair_init
    (by decide +kernel)

theorem Run.leader_completeness_successionRun :
    (successionRun.node 5 1).term < (successionRun.node 9 2).term ∧
      ∃ e', (successionRun.node 9 2).raftLog.entryAt 1 = some e' ∧ 1 = e'.term ∧ [] = e'.data :=
  have hfirst : 1 ≤ (successionRun.node 5 1).raftLog.committed := by decide +kernel
  have he : (successionRun.node 6 2).raftLog.entryAt 1 = some { term := 1, index := 1 } := by
    decide +kernel
  have hterm : (successionRun.node 5 1).term < (successionRun.node 9 2).term := by decide +kernel
  ⟨hterm, successionRun.leader_completeness (by decide) (by decide) hfirst (by decide) (by decide)
    (by decide +kernel) he (by decide) (by decide) (by decide +kernel) hterm⟩

theorem Raft.Preserves.refl (r : Raft) : r.Preserves r := ⟨le_rfl, rfl⟩

theorem Raft.Preserves.trans {r r' r'' : Raft} (h : r.Preserves r') (h' : r'.Preserves r'') :
    r.Preserves r'' :=
  ⟨h.1.trans h'.1, (Consensus.take_eq_of_take_eq h'.2 h.1).trans h.2⟩

theorem Run.preserves (R : Run G) {j k : ℕ} (hjk : j ≤ k) (hk : k ≤ R.len) (n : ℕ) :
    (R.node j n).Preserves (R.node k n) := by
  obtain ⟨H⟩ := R.nonempty_history
  induction k, hjk using Nat.le_induction with
  | base => exact .refl _
  | succ k hjk ih =>
    refine (ih (by omega)).trans ?_
    have htrans := H.trans k hk
    by_cases hn : n = (R.event k).node
    · subst hn
      exact htrans.preserves
    · unfold Run.node
      rw [htrans.others n hn]
      exact .refl _

/-- The committed prefix is permanent: along a run, the committed position of a node never
decreases, and the entries up to it stay as they are. -/
theorem Run.committed_permanent (R : Run G) {j k : ℕ} (hjk : j ≤ k) (hk : k ≤ R.len) {n : ℕ}
    (hn : n ∈ G.ids) :
    (R.node j n).raftLog.committed ≤ (R.node k n).raftLog.committed ∧
      ∀ i ≤ (R.node j n).raftLog.committed, ∀ e, (R.node j n).raftLog.entryAt i = some e →
        (R.node k n).raftLog.entryAt i = some e := by
  obtain ⟨H⟩ := R.nonempty_history
  have hj := H.nodeSim (hjk.trans hk) hn
  have hk' := H.nodeSim hk hn
  obtain ⟨hle, htake⟩ := R.preserves hjk hk n
  refine ⟨hle, fun i hi e he => ?_⟩
  obtain ⟨h1, he⟩ := hj.wf.log.entryAt_eq_some.mp he
  refine hk'.wf.log.entryAt_eq_some.mpr ⟨h1, ?_⟩
  -- The place of the entry is inside the prefix that is preserved.
  have hget := congrArg (fun es => es[i - 1]?) htake
  simp only [List.getElem?_take, if_pos (show i - 1 < (R.node j n).raftLog.committed by omega)]
    at hget
  rw [hget, he]

theorem Run.committed_permanent_electionRun :
    1 ≤ (electionRun.node 5 1).raftLog.committed ∧
      (electionRun.node 5 1).raftLog.committed ≤ (electionRun.node 6 1).raftLog.committed ∧
      ∀ i ≤ (electionRun.node 5 1).raftLog.committed, ∀ e,
        (electionRun.node 5 1).raftLog.entryAt i = some e →
          (electionRun.node 6 1).raftLog.entryAt i = some e :=
  ⟨by decide +kernel, electionRun.committed_permanent (j := 5) (k := 6) (by decide) (by decide)
    (by decide)⟩

/-- Match soundness: `Match` is a position of the leader's log, and a peer in the leader's term has
entries of the same term and data as the leader up to it. -/
theorem Run.match_sound (R : Run G) {k : ℕ} (hk : k ≤ R.len) {c : ℕ} (hc : c ∈ G.ids)
    (hs : (R.node k c).state = .leader) {p : ℕ} {pr : Progress}
    (hpr : (R.node k c).prs.lookup p = some pr) :
    pr.matchIdx ≤ (R.node k c).raftLog.lastIndex ∧
      (p ∈ G.ids → (R.node k p).term = (R.node k c).term → ∀ i, 1 ≤ i → i ≤ pr.matchIdx →
        ∃ e e', (R.node k p).raftLog.entryAt i = some e ∧
          (R.node k c).raftLog.entryAt i = some e' ∧ e.term = e'.term ∧ e.data = e'.data) := by
  obtain ⟨H⟩ := R.nonempty_history
  have hinv := (H.sim k hk).inv
  have hsc := H.nodeSim hk hc
  have hack := (hsc.leader hs).2 p pr hpr
  have hllog := hsc.llog_eq hinv hs
  -- Acknowledgements are of what is in the leader's log.
  have hle : pr.matchIdx ≤ (R.node k c).raftLog.entries.length := by
    rw [← RaftLog.slots_length, ← hllog]
    exact hack.trans (hinv.ack_le p _)
  refine ⟨by rwa [hsc.wf.log.lastIndex_eq], fun hp hterm i h1 hi => ?_⟩
  have hsp := H.nodeSim hk hp
  have htake := hinv.acked_take_eq (p := p) (i := pr.matchIdx) (by
    rw [hsp.term_eq, hterm]
    exact hack)
  rw [hsp.term_eq, hsp.log_eq, hterm, hllog] at htake
  obtain ⟨e', he'⟩ := hsc.wf.log.exists_entryAt h1 (hi.trans hle)
  obtain ⟨e, he, hsame⟩ := hsc.wf.log.exists_entryAt_of_take_eq hsp.wf.log htake.symm hi he'
  exact ⟨e, e', he, he', hsame.1.symm, hsame.2.symm⟩

theorem Run.match_sound_electionRun :
    1 ≤ (electionRun.node 5 1).raftLog.lastIndex ∧
      ∃ e e', (electionRun.node 5 2).raftLog.entryAt 1 = some e ∧
        (electionRun.node 5 1).raftLog.entryAt 1 = some e' ∧ e.term = e'.term ∧ e.data = e'.data :=
  have hpr : (electionRun.node 5 1).prs.lookup 2 = some ⟨1, 2⟩ := by decide +kernel
  have h := electionRun.match_sound (by decide) (by decide) (by decide +kernel) hpr
  ⟨h.1, h.2 (by decide) (by decide +kernel) 1 le_rfl le_rfl⟩

/-- In every state of a run the logs are well formed, reading them and sending them returns, and
every event that can happen returns or fails because a slice cannot grow beyond the largest
length. -/
theorem Run.representation (R : Run G) {k : ℕ} (hk : k ≤ R.len) {n : ℕ} (hn : n ∈ G.ids) :
    (∀ j e, (R.node k n).raftLog.entries[j]? = some e → e.index = j + 1) ∧
    (R.node k n).raftLog.applied ≤ (R.node k n).raftLog.committed ∧
    (R.node k n).raftLog.committed ≤ (R.node k n).raftLog.lastIndex ∧
    (R.node k n).raftLog.stabled ≤ (R.node k n).raftLog.lastIndex ∧
    (∀ i, ∃ t, (R.node k n).raftLog.term i = .ok t) ∧
    (∃ ents, (R.node k n).raftLog.unstableEntries = .ok ents) ∧
    (∃ ents, (R.node k n).raftLog.nextEnts = .ok ents) ∧
    (∀ p ∈ G.peers, ∃ r, (R.node k n).sendAppend p = .ok r) ∧
    ∀ e : Event, e.Enabled G (R.state k) → ∀ err, (R.state k).exec G e = .error err →
      err = .growslice := by
  obtain ⟨H⟩ := R.nonempty_history
  have hsim := H.nodeSim hk hn
  have hwf := hsim.wf.log
  have hle := hsim.committed_le (H.sim k hk).inv
  refine ⟨fun j e he => hwf.index_eq he, hwf.applied_le, by rwa [hwf.lastIndex_eq],
    by rw [hwf.lastIndex_eq]; exact hwf.stabled_le_length, fun i => ⟨_, hwf.term_eq i⟩,
    ⟨_, hwf.unstableEntries_eq⟩, ⟨_, hwf.nextEnts_eq hle⟩, fun p hp => ?_, fun e hen err herr => ?_⟩
  · obtain ⟨pr, hpr⟩ := hsim.wf.lookup_prs (List.mem_toFinset.mpr hp)
    rw [Raft.sendAppend_eq hwf hpr (hsim.wf.next_lt p pr hpr)]
    split_ifs <;> exact ⟨_, rfl⟩
  · have := Cluster.exec_simulates (H.sim k hk) R.init.valid hen
    rw [herr] at this
    exact this

theorem Run.representation_electionRun :
    (electionRun.node 6 2).raftLog.applied ≤ (electionRun.node 6 2).raftLog.committed ∧
      (electionRun.node 6 2).raftLog.committed ≤ (electionRun.node 6 2).raftLog.lastIndex ∧
      ∃ ents, (electionRun.node 6 2).raftLog.nextEnts = .ok ents :=
  have h := electionRun.representation (k := 6) (by decide) (n := 2) (by decide)
  ⟨h.2.1, h.2.2.1, h.2.2.2.2.2.2.1⟩

end TinyKV
