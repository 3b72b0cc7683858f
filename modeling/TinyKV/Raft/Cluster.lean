import TinyKV.Raft.Effect

/-!
# Clusters and their runs

A cluster is a set of nodes that `newRaft` has built with the same peers, and every message that a
node has ever put into its `msgs`.
-/

namespace TinyKV

open List

structure RaftGroup where
  ids : Finset ℕ
  peers : List ℕ
  electionTick : ℕ → ℤ
  heartbeatTick : ℕ → ℤ
  mem_peers : ∀ n ∈ ids, n ∈ peers

def RaftGroup.config (G : RaftGroup) (n : ℕ) (storage : MemoryStorage) : Config where
  id := n
  peers := G.peers
  electionTick := G.electionTick n
  heartbeatTick := G.heartbeatTick n
  storage := some storage

namespace Raft

def readMessages (r : Raft) : Raft := { r with msgs := [] }

def persist (r : Raft) : Go Raft := do
  let ents ← r.raftLog.unstableEntries
  let storage ← r.raftLog.storage.append ents
  return { r with raftLog := { r.raftLog with storage := storage, stabled := r.raftLog.lastIndex } }

def applyNext (r : Raft) : Go Raft := do
  let _ ← r.raftLog.nextEnts
  return { r with raftLog := { r.raftLog with applied := r.raftLog.committed } }

def saved (r : Raft) : Go MemoryStorage := do
  let storage ← newMemoryStorage.append r.raftLog.entries
  return storage.setHardState ⟨r.term, r.vote, r.raftLog.committed⟩

end Raft

structure Cluster where
  nodes : ℕ → Raft
  sent : List Message

inductive Event
  | input (n rnd : ℕ) (m : Message)
  | tick (n rnd : ℕ)
  | deliver (n rnd : ℕ) (m : Message)
  | readMessages (n : ℕ)
  | persist (n : ℕ)
  | applyNext (n : ℕ)
  | restart (n rnd : ℕ)
deriving DecidableEq

namespace Event

def node : Event → ℕ
  | input n _ _ | tick n _ | deliver n _ _ | readMessages n | persist n | applyNext n
  | restart n _ => n

def act (G : RaftGroup) (e : Event) (r : Raft) : Go Raft :=
  match e with
  | input _ rnd m => r.step rnd m
  | tick _ rnd => r.tick rnd
  | deliver _ rnd m => r.step rnd m
  | readMessages _ => .ok r.readMessages
  | persist _ => r.persist
  | applyNext _ => r.applyNext
  -- The old node is gone, with its timers, its messages and what it knew of the others.
  | restart n rnd => do
    let storage ← r.saved
    newRaft rnd (G.config n storage)

def Enabled (G : RaftGroup) (s : Cluster) (e : Event) : Prop :=
  e.node ∈ G.ids ∧ match e with
    | input _ _ m => ¬ m.IsRemote
    | deliver n _ m => m ∈ s.sent ∧ m.toId = n
    | _ => True

instance (G : RaftGroup) (s : Cluster) : (e : Event) → Decidable (e.Enabled G s)
  | input .. | tick .. | deliver .. | readMessages _ | persist _ | applyNext _ | restart .. =>
    inferInstanceAs (Decidable (_ ∧ _))

end Event

namespace Cluster

def exec (G : RaftGroup) (s : Cluster) (e : Event) : Go Cluster := do
  let r ← e.act G (s.nodes e.node)
  return { nodes := Function.update s.nodes e.node r, sent := s.sent ++ r.msgs }

def Init (G : RaftGroup) (s : Cluster) : Prop :=
  s.sent = [] ∧
    ∀ n ∈ G.ids, ∃ rnd, newRaft rnd (G.config n newMemoryStorage) = .ok (s.nodes n)

end Cluster

structure Run (G : RaftGroup) where
  len : ℕ
  state : ℕ → Cluster
  event : ℕ → Event
  init : (state 0).Init G
  enabled : ∀ k < len, (event k).Enabled G (state k)
  exec : ∀ k < len, (state k).exec G (event k) = .ok (state (k + 1))

def Cluster.play (G : RaftGroup) (s : Cluster) : List Event → Option Cluster
  | [] => some s
  | e :: es =>
    if e.Enabled G s then
      match s.exec G e with
      | .ok s' => s'.play G es
      | .error _ => none
    else none

theorem Cluster.play_append {G : RaftGroup} {s s' : Cluster} {es : List Event} {e : Event}
    (h : s.play G (es ++ [e]) = some s') :
    ∃ t, s.play G es = some t ∧ e.Enabled G t ∧ t.exec G e = .ok s' := by
  induction es generalizing s with
  | nil =>
    simp only [nil_append, play] at h
    split_ifs at h with hen
    split at h
    · rename_i t ht
      exact ⟨s, rfl, hen, by simpa [play] using ht.trans (congrArg Except.ok (Option.some.inj h))⟩
    · simp at h
  | cons d es ih =>
    simp only [cons_append, play] at h
    split_ifs at h with hen
    split at h
    · rename_i t ht
      obtain ⟨u, hu, hrest⟩ := ih h
      exact ⟨u, by simp [play, hen, ht, hu], hrest⟩
    · simp at h

def Run.ofEvents (G : RaftGroup) (s : Cluster) (es : List Event) (hinit : s.Init G)
    (hplay : ∀ k ≤ es.length, (s.play G (es.take k)).isSome) : Run G where
  len := es.length
  state k := (s.play G (es.take k)).getD s
  event k := es.getD k (.readMessages 0)
  init := hinit
  enabled k hk := by
    obtain ⟨s', hs'⟩ := Option.isSome_iff_exists.mp (hplay (k + 1) hk)
    rw [take_succ_eq_append_getElem hk] at hs'
    obtain ⟨t, ht, hen, -⟩ := Cluster.play_append hs'
    simpa [ht, getElem?_eq_getElem hk] using hen
  exec k hk := by
    obtain ⟨s', hs'⟩ := Option.isSome_iff_exists.mp (hplay (k + 1) hk)
    have hs'' := hs'
    rw [take_succ_eq_append_getElem hk] at hs'
    obtain ⟨t, ht, -, hexec⟩ := Cluster.play_append hs'
    simpa [ht, hs'', getElem?_eq_getElem hk] using hexec

def RaftGroup.Valid (G : RaftGroup) : Prop :=
  ∀ n ∈ G.ids, ∀ ms, (G.config n ms).validate = none

/-- The node has the id `n` and is what `newRaft` recovers from a term, a vote, a committed position
and a log. -/
structure Raft.Recovered (P : Finset ℕ) (n : ℕ) (hs : HardState) (es : List Entry) (r : Raft) :
    Prop where
  wf : r.WF P
  id_eq : r.id = n
  term_eq : r.term = hs.term
  vote_eq : r.vote = hs.vote
  entries_eq : r.raftLog.entries = es
  committed_eq : r.raftLog.committed = hs.commit
  state_eq : r.state = .follower
  msgs_eq : r.msgs = []

theorem RaftGroup.ne_none_of_validate {G : RaftGroup} {n : ℕ} {ms : MemoryStorage}
    (h : (G.config n ms).validate = none) : n ≠ None := by
  rintro rfl
  simp [Config.validate, RaftGroup.config] at h

theorem newRaft_ensures {G : RaftGroup} {n rnd : ℕ} {ms : MemoryStorage} {es : List Entry}
    (hn : n ∈ G.peers) (hvalid : (G.config n ms).validate = none)
    (hents : ms.ents = ({} : Entry) :: es) (hes : ConsecutiveFrom 0 es)
    (hlen : es.length ≤ maxInt) :
    Go.Ensures (newRaft rnd (G.config n ms))
      (Raft.Recovered G.peers.toFinset n ms.hardState es) := by
  unfold newRaft
  rw [hvalid]
  simp only [RaftGroup.config, Go.deref_some, Go.ok_bind, RaftLog.newLog_eq hents, Go.pure_eq_ok,
    Go.ensures_ok]
  -- The loop over the peers gives each the same progress, however often it is listed.
  have hlookup : ∀ p, (G.peers.foldl (fun prs peer => AList.insert peer (⟨0, 1⟩ : Progress) prs)
      ∅).lookup p = if p ∈ G.peers then some ⟨0, 1⟩ else none := by
    intro p
    rw [GoMap.lookup_foldl_insert, AList.lookup_empty]
  refine ⟨Raft.WF.becomeFollower ⟨?_, ?_, ?_, ?_, ?_⟩ rnd _ _, ?_, ?_, ?_, ?_, ?_, ?_, ?_⟩
  · have hdummy : ms.ents[0]? = some ({} : Entry) := by simp [hents]
    exact ⟨⟨hes, hlen, rfl, ⟨_, hdummy, rfl, rfl⟩, Nat.zero_le _, (Nat.zero_add _).ge⟩, hdummy,
      by simp [hents], Nat.zero_le _⟩
  · intro p
    rw [← AList.lookup_isSome, hlookup]
    split_ifs with hp <;> simp [hp]
  · simpa using hn
  · exact RaftGroup.ne_none_of_validate hvalid
  · intro p pr hpr
    rw [hlookup] at hpr
    split_ifs at hpr
    obtain rfl := Option.some.inj hpr
    decide
  all_goals simp [Raft.becomeFollower_term, Raft.becomeFollower_vote, MemoryStorage.initialState]

theorem Raft.saved_eq {r : Raft} (h : r.raftLog.WF) : r.saved =
    .ok { hardState := ⟨r.term, r.vote, r.raftLog.committed⟩
          ents := ({} : Entry) :: r.raftLog.entries } := by
  unfold Raft.saved
  rcases Nat.eq_zero_or_pos r.raftLog.entries.length with h0 | hpos
  · rw [length_eq_zero_iff] at h0
    rw [h0]
    rfl
  · -- The log over a fresh storage, of which nothing is persisted yet.
    have hfresh : RaftLog.WF
        { r.raftLog with storage := newMemoryStorage, stabled := 0 } :=
      ⟨⟨h.consecutive, h.length_le, h.no_snapshot, ⟨_, rfl, rfl, rfl⟩, le_rfl, Nat.zero_le _⟩, rfl,
        Nat.zero_lt_one, h.applied_le⟩
    have happend := hfresh.storage_append_eq hpos
    simp only [drop_zero] at happend
    rw [happend]
    rfl

namespace Raft

variable {P : Finset ℕ} {r r' : Raft} {m : Message} {rnd : ℕ}

/-- What an event leaves alone that does not hand a message to the node. A node that restarts is a
follower again. -/
structure Quiet (r r' : Raft) : Prop where
  id_eq : r'.id = r.id
  term_eq : r'.term = r.term
  vote_eq : r'.vote = r.vote
  entries_eq : r'.raftLog.entries = r.raftLog.entries
  committed_eq : r'.raftLog.committed = r.raftLog.committed
  state_eq : r'.state = r.state ∧ r'.votes = r.votes ∧ r'.prs = r.prs ∨ r'.state = .follower
  msgs_sub : ∀ m ∈ r'.msgs, m ∈ r.msgs

theorem Quiet.refl (r : Raft) : r.Quiet r :=
  ⟨rfl, rfl, rfl, rfl, rfl, Or.inl ⟨rfl, rfl, rfl⟩, fun _ h => h⟩

theorem Quiet.setElapsed (r : Raft) (x y : ℤ) :
    r.Quiet { r with electionElapsed := x, heartbeatElapsed := y } :=
  ⟨rfl, rfl, rfl, rfl, rfl, Or.inl ⟨rfl, rfl, rfl⟩, fun _ h => h⟩

theorem Quiet.setLog {l : RaftLog} (hentries : l.entries = r.raftLog.entries)
    (hcommitted : l.committed = r.raftLog.committed) : r.Quiet { r with raftLog := l } :=
  ⟨rfl, rfl, rfl, hentries, hcommitted, Or.inl ⟨rfl, rfl, rfl⟩, fun _ h => h⟩

inductive Receives (rnd : ℕ) (r : Raft) (m : Message) : Raft → Prop
  | same (x y : ℤ) (hterm : m.IsRemote → m.term = r.term) :
      Receives rnd r m { r with electionElapsed := x, heartbeatElapsed := y }
  | later (hremote : m.IsRemote) (hlt : r.term < m.term) :
      Receives rnd r m (r.becomeFollower rnd m.term None)

theorem step_ensures (h : r.WF P) (hle : r.raftLog.committed ≤ r.raftLog.entries.length)
    (hm : m.IsRemote → m.WF P ∧ m.fromId ≠ r.id) :
    Go.Ensures (r.step rnd m) fun r' =>
      (r' = r ∨ ∃ r₀, r.Receives rnd m r₀ ∧ r₀.Effect P rnd m r') ∧ r'.WF P := by
  have hwf : m.WF P := by
    by_cases hremote : m.IsRemote
    · exact (hm hremote).1
    · exact Message.wf_of_not_isRemote hremote
  -- Two of the branches of `Step` hand on the message to the node as it is.
  have hsame : (m.IsRemote → m.term = r.term) → Go.Ensures (r.dispatch rnd m) fun r' =>
      (r' = r ∨ ∃ r₀, r.Receives rnd m r₀ ∧ r₀.Effect P rnd m r') ∧ r'.WF P := by
    intro hterm
    refine (dispatch_effect ⟨h, hle, hwf, fun hr => (hm hr).2, hterm⟩).imp fun r' hr' => ?_
    exact ⟨Or.inr ⟨r, .same r.electionElapsed r.heartbeatElapsed hterm, hr'.1⟩, hr'.2⟩
  unfold step
  split_ifs with hremote hlt hgt
  · -- The message is of a later term.
    have hready : Ready P (r.becomeFollower rnd m.term None) m := by
      refine ⟨h.becomeFollower rnd _ _, by simpa using hle, hwf, fun hr => ?_, fun _ => ?_⟩
      · rw [becomeFollower_id]
        exact (hm hr).2
      · rw [becomeFollower_term, max_eq_right hlt.le]
    refine (dispatch_effect hready).imp fun r' hr' => ?_
    exact ⟨Or.inr ⟨_, .later hremote hlt, hr'.1⟩, hr'.2⟩
  · exact ⟨Or.inl rfl, h⟩
  · exact hsame fun _ => by omega
  · exact hsame fun hr => absurd hr hremote

theorem tick_ensures (h : r.WF P) (hle : r.raftLog.committed ≤ r.raftLog.entries.length) :
    Go.Ensures (r.tick rnd) fun r' =>
      (r.Quiet r' ∨ ∃ m r₀, (m.msgType = .msgHup ∨ m.msgType = .msgBeat) ∧ r.Receives rnd m r₀ ∧
        r₀.Effect P rnd m r') ∧ r'.WF P := by
  have htimed : ∀ x y, WF P { r with electionElapsed := x, heartbeatElapsed := y } := fun _ _ =>
    h.congr rfl rfl rfl
  -- A timer that runs out makes the node step a local message.
  have hlocal : ∀ x y (m : Message), m.msgType = .msgHup ∨ m.msgType = .msgBeat →
      Go.Ensures (step rnd { r with electionElapsed := x, heartbeatElapsed := y } m) fun r' =>
        (r.Quiet r' ∨ ∃ m r₀, (m.msgType = .msgHup ∨ m.msgType = .msgBeat) ∧ r.Receives rnd m r₀ ∧
          r₀.Effect P rnd m r') ∧ r'.WF P := by
    intro x y m hm
    have hremote : ¬ m.IsRemote := by
      rcases hm with hm | hm <;> simp [Message.IsRemote, hm]
    refine (step_ensures (htimed x y) hle fun hr => absurd hr hremote).imp fun r' hr' => ?_
    obtain ⟨rfl | ⟨r₀, hr₀, heff⟩, hwf⟩ := hr'
    · exact ⟨Or.inl (.setElapsed r x y), hwf⟩
    · refine ⟨Or.inr ⟨m, r₀, hm, ?_, heff⟩, hwf⟩
      rcases hr₀ with ⟨x', y', hterm⟩ | ⟨hr, -⟩
      · exact .same x' y' hterm
      · exact absurd hr hremote
  unfold tick
  cases r.tickFn with
  | tickElection =>
    simp only [tickElection]
    split_ifs
    · exact hlocal 0 r.heartbeatElapsed _ (Or.inl rfl)
    · exact ⟨Or.inl (.setElapsed r _ r.heartbeatElapsed), htimed _ r.heartbeatElapsed⟩
  | tickHeartbeat =>
    simp only [tickHeartbeat]
    split_ifs
    · exact hlocal r.electionElapsed 0 _ (Or.inr rfl)
    · exact ⟨Or.inl (.setElapsed r r.electionElapsed _), htimed r.electionElapsed _⟩

theorem persist_ensures (h : r.WF P) : Go.Ensures r.persist fun r' => r.Quiet r' ∧ r'.WF P := by
  have hlog := h.log
  have hp := hlog.persisted
  unfold persist
  rw [hlog.unstableEntries_eq, Go.ok_bind, hlog.lastIndex_eq]
  rcases hlog.stabled_le_length.lt_or_eq with hlt | heq
  · rw [hlog.storage_append_eq hlt]
    refine ⟨.setLog rfl rfl, h.setLog (hlog.setStorage ?_ ?_)⟩
    · -- The dummy entry counts as persisted.
      rw [getElem?_append_left (by simp; omega), getElem?_take, if_pos (by omega)]
      exact hlog.dummy_eq
    · simp only [length_append, length_take, length_drop]
      omega
  · -- There is nothing to persist.
    rw [heq, drop_length]
    exact ⟨.setLog rfl rfl, h.setLog (hlog.setStorage hlog.dummy_eq (by omega))⟩

theorem applyNext_ensures (h : r.WF P) (hle : r.raftLog.committed ≤ r.raftLog.entries.length) :
    Go.Ensures r.applyNext fun r' => r.Quiet r' ∧ r'.WF P := by
  unfold applyNext
  rw [h.log.nextEnts_eq hle]
  exact ⟨.setLog rfl rfl, h.setLog { h.log with applied_le := le_rfl }⟩

end Raft

namespace Event

variable {G : RaftGroup} {P : Finset ℕ} {s : Cluster} {e : Event} {r r' : Raft}

def Carries : Event → Message → Prop
  | input _ _ m, m' => m' = m
  | tick _ _, m' => m'.msgType = .msgHup ∨ m'.msgType = .msgBeat
  | deliver _ _ m, m' => m' = m
  | _, _ => False

theorem Carries.eq_deliver {m : Message} (hm : e.Carries m) (hen : e.Enabled G s)
    (hr : m.IsRemote) : ∃ n rnd, e = deliver n rnd m ∧ m ∈ s.sent ∧ m.toId = n := by
  cases e with
  | input n rnd x =>
    obtain rfl := hm
    exact absurd hr hen.2
  | tick n rnd =>
    rcases hm with hm | hm <;> simp [Message.IsRemote, hm] at hr
  | deliver n rnd x =>
    obtain rfl := hm
    exact ⟨n, rnd, rfl, hen.2⟩
  | readMessages | persist | applyNext | restart => exact hm.elim

inductive Outcome (P : Finset ℕ) (e : Event) (r r' : Raft) : Prop
  | quiet (h : r.Quiet r')
  | handled {rnd : ℕ} {m : Message} {r₀ : Raft} (hm : e.Carries m) (hr₀ : r.Receives rnd m r₀)
      (heff : r₀.Effect P rnd m r')

theorem restart_ensures {n rnd : ℕ} (h : r.WF G.peers.toFinset) (hid : r.id = n) (hn : n ∈ G.ids)
    (hvalid : G.Valid) :
    Go.Ensures ((restart n rnd).act G r) fun r' => r.Quiet r' ∧ r'.WF G.peers.toFinset := by
  simp only [act, Raft.saved_eq h.log, Go.ok_bind]
  refine (newRaft_ensures (G.mem_peers n hn) (hvalid n hn _) rfl h.log.consecutive
    h.log.length_le).imp fun r' hr' => ⟨?_, hr'.wf⟩
  refine ⟨hr'.id_eq.trans hid.symm, hr'.term_eq, hr'.vote_eq, hr'.entries_eq, hr'.committed_eq,
    Or.inr hr'.state_eq, ?_⟩
  simp [hr'.msgs_eq]

theorem act_outcome (h : r.WF G.peers.toFinset) (hid : r.id = e.node)
    (hle : r.raftLog.committed ≤ r.raftLog.entries.length) (hvalid : G.Valid) (hen : e.Enabled G s)
    (hsent : ∀ m ∈ s.sent, m.toId = r.id → m.WF G.peers.toFinset ∧ m.fromId ≠ r.id) :
    Go.Ensures (e.act G r) fun r' => e.Outcome G.peers.toFinset r r' ∧ r'.WF G.peers.toFinset := by
  obtain ⟨hn, hen⟩ := hen
  cases e with
  | input n rnd m =>
    refine (Raft.step_ensures h hle fun hr => absurd hr hen).imp fun r' hr' => ⟨?_, hr'.2⟩
    rcases hr'.1 with rfl | ⟨r₀, hr₀, heff⟩
    · exact .quiet (.refl _)
    · exact .handled rfl hr₀ heff
  | tick n rnd =>
    refine (Raft.tick_ensures h hle).imp fun r' hr' => ⟨?_, hr'.2⟩
    rcases hr'.1 with hq | ⟨m, r₀, hm, hr₀, heff⟩
    · exact .quiet hq
    · exact .handled hm hr₀ heff
  | deliver n rnd m =>
    refine (Raft.step_ensures h hle fun _ => hsent m hen.1 (hen.2.trans hid.symm)).imp
      fun r' hr' => ⟨?_, hr'.2⟩
    rcases hr'.1 with rfl | ⟨r₀, hr₀, heff⟩
    · exact .quiet (.refl _)
    · exact .handled rfl hr₀ heff
  | readMessages n =>
    refine ⟨.quiet ⟨rfl, rfl, rfl, rfl, rfl, Or.inl ⟨rfl, rfl, rfl⟩, ?_⟩, h.congr rfl rfl rfl⟩
    simp [Raft.readMessages]
  | persist n => exact (Raft.persist_ensures h).imp fun r' hr' => ⟨.quiet hr'.1, hr'.2⟩
  | applyNext n => exact (Raft.applyNext_ensures h hle).imp fun r' hr' => ⟨.quiet hr'.1, hr'.2⟩
  | restart n rnd =>
    exact (restart_ensures h hid hn hvalid).imp fun r' hr' => ⟨.quiet hr'.1, hr'.2⟩

end Event

end TinyKV
