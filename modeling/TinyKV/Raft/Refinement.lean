import TinyKV.Raft.Simulation

/-!
# Clusters refine the protocol

The loop of `handleAppendEntries` computes the protocol's `merge`, and never touches what is
committed.
-/

namespace TinyKV

open List hiding merge
open Consensus (Slot State Steps Step majority merge termAt)

variable {P : Finset ℕ} {a b : Abstract} {n : ℕ} {r r' : Raft} {m : Message}

structure Overlaps (l : RaftLog) (L : List (Slot (List UInt8))) (p : ℕ) (es : List Entry) :
    Prop where
  le : p + es.length ≤ L.length
  slots : es.map Entry.slot = (L.take (p + es.length)).drop p
  pos_le : p ≤ l.entries.length
  prev : termAt l.slots p = termAt L p
  agree : ∀ i, i ≤ l.slots.length → i ≤ L.length → termAt l.slots i = termAt L i →
    l.slots.take i = L.take i

section Overlaps

variable {l l' : RaftLog} {L : List (Slot (List UInt8))} {p : ℕ} {es : List Entry}

theorem Overlaps.term_eq (h : Overlaps l L p es) {j : ℕ} {e : Entry} (he : es[j]? = some e) :
    e.term = termAt L (p + j + 1) := by
  have hj : j < es.length := (List.getElem?_eq_some_iff.mp he).1
  have hslot : ((L.take (p + es.length)).drop p)[j]? = some e.slot := by
    rw [← h.slots, getElem?_map, he]
    rfl
  rw [getElem?_drop, getElem?_take, if_pos (by omega)] at hslot
  simp [termAt, hslot, Entry.slot]

theorem Overlaps.take_eq (h : Overlaps l L p es) {q : ℕ} (hq : q ≤ es.length)
    (hall : ∀ j e, j < q → es[j]? = some e → l.HasTermAt (p + j) e) :
    l.slots.take (p + q) = L.take (p + q) := by
  have hle := h.le
  have hp := h.pos_le
  cases q with
  | zero => exact h.agree p (by rwa [RaftLog.slots_length]) (by omega) h.prev
  | succ q =>
    have he := getElem?_eq_getElem (show q < es.length by omega)
    obtain ⟨hlt, hterm⟩ := RaftLog.hasTermAt_iff.mp (hall q _ (Nat.lt_succ_self q) he)
    rw [h.term_eq he] at hterm
    exact h.agree (p + q + 1) (by rw [RaftLog.slots_length]; omega) (by omega) hterm

theorem Overlaps.hasTerm (h : Overlaps l L p es) {q c : ℕ} {e : Entry} (he : es[q]? = some e)
    (hc : l.slots.take c = L.take c) (hqc : p + q < c) : l.HasTermAt (p + q) e := by
  have hq : q < es.length := (List.getElem?_eq_some_iff.mp he).1
  have hle := h.le
  have htake := Consensus.take_eq_of_take_eq hc (show p + q + 1 ≤ c by omega)
  refine RaftLog.hasTermAt_iff.mpr ⟨?_, ?_⟩
  · have := Consensus.le_length_of_take_eq htake (by omega)
    rw [RaftLog.slots_length] at this
    omega
  · rw [h.term_eq he]
    exact Consensus.termAt_congr htake le_rfl

theorem RaftLog.SplicedFrom.slots_eq (hl : l.SplicedFrom 0 p es l') (h : Overlaps l L p es) :
    l'.slots = merge l.slots L (p + es.length) := by
  unfold merge
  cases hl with
  | kept hall => rw [if_pos (h.take_eq le_rfl fun j e _ he => hall j e he)]
  | @cut q e he hno hle hall =>
    have hq : q < es.length := (List.getElem?_eq_some_iff.mp he).1
    rw [if_neg fun hc => hno (h.hasTerm he hc (by omega))]
    -- What the log keeps and what follows it are two parts of the leader's log.
    calc (l.spliceFrom 0 (p + q) (es.drop q)).slots
        = l.slots.take (p + q) ++ (es.map Entry.slot).drop q := by
          simp [RaftLog.spliceFrom, RaftLog.slots]
      _ = (L.take (p + es.length)).take (p + q) ++ (L.take (p + es.length)).drop (p + q) := by
          rw [h.take_eq hq.le hall, h.slots, drop_drop, take_take,
            Nat.min_eq_left (by omega)]
      _ = L.take (p + es.length) := take_append_drop _ _

theorem RaftLog.SplicedFrom.entries_take_eq (hl : l.SplicedFrom 0 p es l')
    (h : Overlaps l L p es) {c : ℕ} (hc : l.slots.take c = L.take c) :
    l'.entries.take c = l.entries.take c := by
  cases hl with
  | kept hall => rfl
  | @cut q e he hno hle hall =>
    -- The log is cut off at an entry that the leader's log does not have.
    have hcq : c ≤ p + q := by
      by_contra hcon
      exact hno (h.hasTerm he hc (by omega))
    simp only [RaftLog.spliceFrom]
    rw [take_append_of_le_length (by rw [length_take]; omega), take_take,
      Nat.min_eq_left hcq]

theorem RaftLog.SplicedFrom.committed_eq (hl : l.SplicedFrom 0 p es l') :
    l'.committed = l.committed := by
  cases hl <;> rfl

end Overlaps

theorem NodeSim.overlaps (h : NodeSim P a n r) (hinv : a.Inv (majority P)) (hm : AppendSim P a m)
    (hterm : m.term = r.term) (hindex : m.index ≤ r.raftLog.entries.length)
    (hprev : termAt r.raftLog.slots m.index = m.logTerm) :
    Overlaps r.raftLog (a.llog r.term) m.index m.entries := by
  rw [← hterm]
  refine ⟨hm.le, hm.slots, hindex, hprev.trans hm.prev, fun i hi hi' heq => ?_⟩
  have htraced := hinv.log_traced n
  rw [h.log_eq] at htraced
  exact htraced.take_eq (hinv.llog_traced m.term) hi hi' heq

theorem NodeSim.committed_take_eq (h : NodeSim P a n r) (hinv : a.Inv (majority P)) {c : ℕ}
    (hlead : a.leader r.term = some c) :
    r.raftLog.slots.take r.raftLog.committed = (a.llog r.term).take r.raftLog.committed := by
  have := hinv.commit_in_llog (p := n) (c := c) (by rwa [h.term_eq])
  rwa [h.log_eq, h.commit_eq, h.term_eq] at this

theorem NodeSim.keeps (h : NodeSim P a n r) (hkeeps : r.Keeps r') (hstate : r'.state = .follower)
    (hwf : r'.WF P) (hterm : b.term n = a.term n) (hlog : b.log n = r'.raftLog.slots)
    (hcommit : b.commit n = r'.raftLog.committed) (hvote : b.vote = a.vote)
    (hleader : b.leader = a.leader) : NodeSim P b n r' := by
  refine ⟨hwf, hkeeps.id_eq.trans h.id_eq, ?_, hlog, hcommit, ?_, by simp [hstate],
    by simp [hstate]⟩
  · rw [hterm, hkeeps.term_eq, h.term_eq]
  · unfold VoteSim
    rw [hkeeps.id_eq, hkeeps.term_eq, hkeeps.vote_eq, hvote, hleader]
    exact h.vote_sim

theorem NodeSim.acceptMsg (h : NodeSim P a n r) {p k : ℕ} (hp : p ≠ r.id) (hk : k ≤ maxInt)
    (hack : k ≤ b.ack n r.term) : MsgSim P b (r.acceptMsg p k) := by
  refine ⟨⟨fun _ => h.wf.id_mem, by simp [Raft.acceptMsg], by simp [Raft.acceptMsg],
    fun _ _ => hk⟩, by simp [Message.IsRemote, Raft.acceptMsg], h.wf.id_ne, hp,
    by simp [Raft.acceptMsg], by simp [Raft.acceptMsg], by simp [Raft.acceptMsg],
    by simp [Raft.acceptMsg], fun _ _ => ?_⟩
  change k ≤ State.ack b r.id r.term
  rw [h.id_eq]
  exact hack

theorem NodeSim.accept (h : NodeSim P a n r) (hinv : a.Inv (majority P)) (hm : MsgSim P a m)
    (htype : m.msgType = .msgAppend) (hto : m.toId = r.id) (hterm : m.term = r.term)
    (hkeeps : r.Keeps r') (hstate : r'.state = .follower)
    (hindex : m.index ≤ r.raftLog.entries.length)
    (hprev : termAt r.raftLog.slots m.index = m.logTerm) {l : RaftLog}
    (hl : r.raftLog.SplicedFrom 0 m.index m.entries l)
    (hlog : r'.raftLog = { l with committed := max l.committed m.commit }) (hwf : r'.WF P)
    (hmsgs : r'.msgs = r.msgs ++ [r.acceptMsg m.fromId (m.index + m.entries.length)])
    (hsent : ∀ x ∈ r.msgs, MsgSim P a x) : Simulated P a n r' := by
  obtain ⟨hk, hpos, hlast, -, -, hcommit⟩ := hm.append htype
  have hlead := hm.leader (Or.inl htype)
  have hover := h.overlaps hinv (hm.append htype) hterm hindex hprev
  rw [hterm] at hk hlead hlast hcommit
  -- The code's log is the protocol's.
  have hslots : r'.raftLog.slots = merge r.raftLog.slots (a.llog r.term)
      (m.index + m.entries.length) := by
    rw [← hl.slots_eq hover, hlog]
    rfl
  have hcommitted : r'.raftLog.committed = max r.raftLog.committed m.commit := by
    rw [hlog, ← hl.committed_eq]
  generalize hend : m.index + m.entries.length = k at hk hpos hlast hslots hmsgs
  have hstep : Step (majority P) n a (a.accept n k) := by
    refine .accept (c := m.fromId) ?_ ?_ ?_ hpos <;> rwa [h.term_eq]
  have hev := hstep.evolves hinv
  have hlog' : (a.accept n k).log n = r'.raftLog.slots := by
    rw [State.accept_log, if_pos rfl, hslots, h.log_eq, h.term_eq]
  -- The answer tells what the node has and has acknowledged.
  have hlen : k ≤ maxInt := by
    have hle := Consensus.le_length_of_take_eq (State.merge_take r.raftLog.slots _ _) hk
    rw [← hslots, RaftLog.slots_length] at hle
    exact hle.trans hwf.log.length_le
  have hack : k ≤ (a.accept n k).ack n r.term := by
    rw [State.accept_ack, if_pos ⟨rfl, h.term_eq.symm⟩]
    exact le_max_right _ _
  have hmsgs' : ∀ x ∈ r'.msgs, MsgSim P (a.accept n k) x := by
    intro x hx
    rw [hmsgs] at hx
    rcases mem_append.mp hx with hx | hx
    · exact msgSim_step hinv hstep hsent x hx
    · obtain rfl := mem_singleton.mp hx
      exact h.acceptMsg (hto ▸ hm.to_ne.symm) hlen hack
  refine .head hstep ?_
  rcases Nat.lt_or_ge r.raftLog.committed m.commit with hlt | hge
  · -- The leader knows more to be decided than the node, and the node has all of it now.
    rcases hcommit with h0 | ⟨T, i, hT, hi, hd⟩
    · omega
    have hlearn : Step (majority P) n (a.accept n k) ((a.accept n k).learn n m.commit) := by
      refine .learn (T := T) ?_ hi (hd.mono hev.ext) ?_ ?_
      · change T ≤ a.term n
        rwa [h.term_eq]
      · rw [hlog', hslots, Consensus.take_eq_of_take_eq (State.merge_take _ _ _)
          (hend ▸ hm.wf.commit_le htype)]
        exact Consensus.take_eq_of_take_eq (hinv.decided_in_llog hd hT hlead) hi
      · change a.commit n ≤ m.commit
        rw [h.commit_eq]
        exact hlt.le
    refine .head hlearn (NodeSim.simulated (h.keeps hkeeps hstate hwf rfl hlog' ?_ rfl rfl)
      (msgSim_step hev.inv hlearn hmsgs'))
    simp [State.learn, hcommitted, max_eq_right hlt.le]
  · refine NodeSim.simulated (h.keeps hkeeps hstate hwf rfl hlog' ?_ rfl rfl) hmsgs'
    rw [hcommitted, max_eq_left hge]
    exact h.commit_eq

structure Handles (P : Finset ℕ) (a : Abstract) (n : ℕ) (r : Raft) (m : Message) : Prop where
  inv : a.Inv (majority P)
  node : NodeSim P a n r
  msg : m.IsRemote → MsgSim P a m
  to_eq : m.IsRemote → m.toId = r.id
  term_eq : m.IsRemote → m.term = r.term

variable {rnd : ℕ}

theorem Raft.Effect.simulates (heff : r.Effect P rnd m r') (h : Handles P a n r m)
    (hwf : r'.WF P) (hmsgs : ∀ x ∈ r.msgs, MsgSim P a x) : Simulated P a n r' := by
  have hinv := h.inv
  have hnode := h.node
  cases heff with
  | idle hkeeps hlog hstate hout hms =>
    refine NodeSim.simulated (hnode.rests hwf hkeeps.id_eq hkeeps.term_eq hkeeps.vote_eq
      (by rw [hlog]) (by rw [hlog]) ?_) fun x hx => ?_
    · exact hstate.imp (fun hst => ⟨hst.1, hst.2, hkeeps.prs_eq⟩) fun hst => hst
    · rw [hout] at hx
      rcases mem_append.mp hx with hx | hx
      · exact hmsgs x hx
      · exact hnode.idleMsg (hms x hx)
  | campaign hm hstate hcard =>
    have hstep : Step (majority P) n a (a.campaign n) := .campaign
    have hcamp := hnode.campaigning hinv rnd
    exact .head hstep (hcamp.sendAll (fun x hx => hcamp.requestVoteMsgs rfl hx)
      (msgSim_step hinv hstep hmsgs))
  | win hm hstate hcard =>
    have hstep : Step (majority P) n a (a.campaign n) := .campaign
    refine .head hstep ((hnode.campaigning hinv rnd).elected (hstep.evolves hinv).inv rfl
      (S := {r.id}) (by simp [hcard]) ?_ (hwf.of_announce hnode.wf.log.applied_le)
      (msgSim_step hinv hstep hmsgs))
    intro p hp
    obtain rfl := Finset.mem_singleton.mp hp
    exact AList.lookup_insert _
  | grant hm hstate hvote hkey =>
    have hr := Message.isRemote_of_eq hm (by decide)
    exact hnode.grant hinv hstate (h.msg hr) hm (h.to_eq hr) (h.term_eq hr) hvote hkey hmsgs
  | count hm hstate =>
    have hr := Message.isRemote_of_eq hm (by decide)
    exact (hnode.count hstate (h.msg hr) hm (h.to_eq hr) (h.term_eq hr)).simulated hmsgs
  | elect hm hstate hcard hS =>
    have hr := Message.isRemote_of_eq hm (by decide)
    have hcount := hnode.count hstate (h.msg hr) hm (h.to_eq hr) (h.term_eq hr)
    exact hcount.elected hinv hstate hcard hS (hwf.of_announce hnode.wf.log.applied_le) hmsgs
  | resend hm hstate =>
    exact hnode.sendAll (fun x hx => hnode.appendMsgs hinv hstate hx) hmsgs
  | propose hm hstate =>
    exact hnode.proposed hinv hstate (hwf.of_announce hnode.wf.log.applied_le) hmsgs
  | @refused pr hm hstate hreject hpr =>
    have hset := hnode.setPrs hstate hwf.of_sendAll ((hnode.leader hstate).2 m.fromId pr hpr)
    exact hset.sendAll (fun x hx => hset.appendMsgs hinv hstate hx) hmsgs
  | accepted hm hstate hreject =>
    have hr := Message.isRemote_of_eq hm (by decide)
    refine (hnode.setPrs hstate hwf ?_).simulated hmsgs
    rw [← h.term_eq hr]
    exact (h.msg hr).ack hm hreject
  | commit hm hstate hreject hlt hterm hcard hS =>
    have hr := Message.isRemote_of_eq hm (by decide)
    have hset := hnode.setPrs hstate (hwf.of_sendAll.of_setCommitted hnode.wf.log.applied_le) (by
      rw [← h.term_eq hr]
      exact (h.msg hr).ack hm hreject)
    exact hset.commit hinv hstate hlt hterm hcard hS hmsgs
  | accept hm hkeeps hstate hindex hterm hl hlog hout =>
    have hr := Message.isRemote_of_eq hm (by decide)
    exact hnode.accept hinv (h.msg hr) hm (h.to_eq hr) (h.term_eq hr) hkeeps hstate hindex hterm hl
      hlog hwf hout hmsgs

theorem Raft.preserves_announce {es : List Entry}
    (hle : r.raftLog.committed ≤ r.raftLog.entries.length)
    (hentries : r'.raftLog.entries = r.raftLog.entries ++ es)
    (hcommit : r'.raftLog.committed = r.raftLog.committed) : r.Preserves (r'.announce P) := by
  have htake : r'.raftLog.entries.take r.raftLog.committed =
      r.raftLog.entries.take r.raftLog.committed := by
    rw [hentries, take_append_of_le_length hle]
  unfold Raft.announce
  split_ifs
  · refine ⟨?_, htake⟩
    change r.raftLog.committed ≤ r'.raftLog.entries.length
    rw [hentries, length_append]
    omega
  · exact ⟨hcommit.ge, htake⟩

theorem Raft.Effect.preserves (heff : r.Effect P rnd m r') (h : Handles P a n r m) :
    r.Preserves r' := by
  have hle := h.node.committed_le h.inv
  cases heff with
  | idle hkeeps hlog => exact ⟨by rw [hlog], by rw [hlog]⟩
  | campaign | grant | count | resend | refused | accepted => exact ⟨le_rfl, rfl⟩
  | win | elect => exact Raft.preserves_announce hle rfl rfl
  | propose => exact Raft.preserves_announce hle rfl rfl
  | commit hm hstate hreject hlt => exact ⟨hlt.le, rfl⟩
  | accept hm hkeeps hstate hindex hterm hl hlog =>
    -- The leader's log has what the node knows to be committed.
    have hr := Message.isRemote_of_eq hm (by decide)
    have hover := h.node.overlaps h.inv ((h.msg hr).append hm) (h.term_eq hr) hindex hterm
    have hlead := (h.msg hr).leader (Or.inl hm)
    rw [h.term_eq hr] at hlead
    rw [Raft.Preserves, hlog]
    refine ⟨?_, hl.entries_take_eq hover (h.node.committed_take_eq h.inv hlead)⟩
    rw [← hl.committed_eq]
    exact le_max_left _ _

variable {r₀ : Raft}

theorem Raft.Receives.handles (hr₀ : r.Receives rnd m r₀) (hinv : a.Inv (majority P))
    (h : NodeSim P a n r) (hm : m.IsRemote → MsgSim P a m) (hto : m.IsRemote → m.toId = r.id) :
    ∃ a₀, Steps (majority P) n a a₀ ∧ Handles P a₀ n r₀ m := by
  cases hr₀ with
  | same x y hterm =>
    refine ⟨a, .refl, hinv, ?_, hm, hto, hterm⟩
    exact h.rests (h.wf.congr rfl rfl rfl) rfl rfl rfl rfl rfl (Or.inl ⟨rfl, rfl, rfl⟩)
  | later hremote hlt =>
    have hstep : Step (majority P) n a (a.observe n m.term) := by
      refine .observe ?_
      rw [h.term_eq]
      exact hlt.le
    have hev := hstep.evolves hinv
    refine ⟨_, .single hstep, hev.inv, h.becomeFollower hinv hlt rnd None,
      fun hr => (hm hr).mono hev.ext, fun hr => ?_, fun _ => ?_⟩
    · rw [Raft.becomeFollower_id]
      exact hto hr
    · rw [Raft.becomeFollower_term, max_eq_right hlt.le]

theorem Raft.Receives.msgs_eq (hr₀ : r.Receives rnd m r₀) : r₀.msgs = r.msgs := by
  cases hr₀ with
  | same => rfl
  | later => exact Raft.becomeFollower_msgs r rnd _ _

theorem Raft.Receives.raftLog_eq (hr₀ : r.Receives rnd m r₀) : r₀.raftLog = r.raftLog := by
  cases hr₀ with
  | same => rfl
  | later => exact Raft.becomeFollower_raftLog r rnd _ _

theorem Event.Outcome.simulates {e : Event} (hout : e.Outcome P r r') (hinv : a.Inv (majority P))
    (h : NodeSim P a n r) (hwf : r'.WF P) (hmsgs : ∀ x ∈ r.msgs, MsgSim P a x)
    (hm : ∀ m, e.Carries m → m.IsRemote → MsgSim P a m ∧ m.toId = r.id) :
    Simulated P a n r' ∧ r.Preserves r' := by
  cases hout with
  | quiet hq =>
    refine ⟨NodeSim.simulated ?_ fun x hx => hmsgs x (hq.msgs_sub x hx), hq.committed_eq.ge, ?_⟩
    · exact h.rests hwf hq.id_eq hq.term_eq hq.vote_eq hq.entries_eq hq.committed_eq hq.state_eq
    · rw [hq.entries_eq]
  | @handled rnd m r₀ hcarries hr₀ heff =>
    obtain ⟨a₀, hsteps, hhandles⟩ :=
      hr₀.handles hinv h (fun hr => (hm m hcarries hr).1) fun hr => (hm m hcarries hr).2
    have hext := (hsteps.evolves hinv).ext
    refine ⟨?_, ?_⟩
    · obtain ⟨b, hsteps', hb⟩ := heff.simulates hhandles hwf fun x hx =>
        (hmsgs x (hr₀.msgs_eq ▸ hx)).mono hext
      exact ⟨b, hsteps.trans hsteps', hb⟩
    · have := heff.preserves hhandles
      rwa [Raft.Preserves, hr₀.raftLog_eq] at this

/-- The cluster is in the state that the protocol has it in. -/
structure Sim (G : RaftGroup) (a : Abstract) (s : Cluster) : Prop where
  inv : a.Inv (majority G.peers.toFinset)
  node : ∀ n ∈ G.ids, NodeSim G.peers.toFinset a n (s.nodes n)
  sent : ∀ x ∈ s.sent, MsgSim G.peers.toFinset a x
  msgs_sub : ∀ n ∈ G.ids, ∀ x ∈ (s.nodes n).msgs, x ∈ s.sent

structure Cluster.Transition (G : RaftGroup) (s : Cluster) (e : Event) (s' : Cluster) : Prop where
  node : e.Outcome G.peers.toFinset (s.nodes e.node) (s'.nodes e.node)
  others : ∀ p, p ≠ e.node → s'.nodes p = s.nodes p
  sent : s'.sent = s.sent ++ (s'.nodes e.node).msgs
  preserves : (s.nodes e.node).Preserves (s'.nodes e.node)

variable {G : RaftGroup} {s : Cluster} {e : Event}

theorem Sim.carries (hsim : Sim G a s) (hen : e.Enabled G s) (hm : e.Carries m) (hr : m.IsRemote) :
    MsgSim G.peers.toFinset a m ∧ m.toId = (s.nodes e.node).id := by
  obtain ⟨n, rnd, rfl, hsent, hto⟩ := hm.eq_deliver hen hr
  exact ⟨hsim.sent m hsent, hto.trans (hsim.node n hen.1).id_eq.symm⟩

theorem Sim.eq_input (hsim : Sim G a s) (hen : e.Enabled G s) (hm : e.Carries m)
    (htype : m.msgType = .msgPropose) : ∃ n rnd, e = .input n rnd m := by
  cases e with
  | input n rnd x =>
    obtain rfl := hm
    exact ⟨n, rnd, rfl⟩
  | tick n rnd =>
    rcases hm with hm | hm <;> simp [hm] at htype
  | deliver n rnd x =>
    obtain rfl := hm
    exact absurd htype (hsim.sent _ hen.2.1).remote.2.2
  | readMessages | persist | applyNext | restart => exact hm.elim

theorem Cluster.exec_simulates (hsim : Sim G a s) (hvalid : G.Valid) (hen : e.Enabled G s) :
    Go.Ensures (s.exec G e) fun s' => ∃ b, Sim G b s' ∧ a.Extends b ∧ s.Transition G e s' := by
  have hn : e.node ∈ G.ids := hen.1
  have hnode := hsim.node e.node hn
  have hact := Event.act_outcome hnode.wf hnode.id_eq (hnode.committed_le hsim.inv) hvalid hen
    fun m hm hto => ⟨(hsim.sent m hm).wf, hto ▸ (hsim.sent m hm).to_ne.symm⟩
  unfold Cluster.exec
  refine hact.bind fun r' hr' => ?_
  obtain ⟨hout, hwf⟩ := hr'
  obtain ⟨⟨b, hsteps, hb, hbmsgs⟩, hpres⟩ := hout.simulates hsim.inv hnode hwf
    (fun x hx => hsim.sent x (hsim.msgs_sub _ hn x hx)) fun m hm hr => hsim.carries hen hm hr
  have hev := hsteps.evolves hsim.inv
  -- The other nodes are framed, and the old messages stay true.
  refine ⟨b, ⟨hev.inv, fun p hp => ?_, fun x hx => ?_, fun p hp x hx => ?_⟩, hev.ext, ?_⟩
  · by_cases hpn : p = e.node
    · subst hpn
      simpa using hb
    · simpa [hpn] using (hsim.node p hp).frame hpn hev.ext hev.frame
  · rcases mem_append.mp hx with hx | hx
    · exact (hsim.sent x hx).mono hev.ext
    · exact hbmsgs x hx
  · by_cases hpn : p = e.node
    · subst hpn
      exact mem_append_right _ (by simpa using hx)
    · exact mem_append_left _ (hsim.msgs_sub p hp x (by simpa [hpn] using hx))
  · refine ⟨by simpa using hout, fun p hp => by simp [hp], by simp, by simpa using hpres⟩

theorem Sim.handles (hsim : Sim G a s) (hen : e.Enabled G s) (hm : e.Carries m)
    (hr₀ : (s.nodes e.node).Receives rnd m r₀) :
    ∃ a₀, Steps (majority G.peers.toFinset) e.node a a₀ ∧ Handles G.peers.toFinset a₀ e.node r₀ m :=
  hr₀.handles hsim.inv (hsim.node e.node hen.1) (fun hr => (hsim.carries hen hm hr).1) fun hr =>
    (hsim.carries hen hm hr).2

theorem Cluster.Init.valid (h : s.Init G) : G.Valid := by
  intro n hn ms
  obtain ⟨rnd, hr⟩ := h.2 n hn
  unfold newRaft at hr
  cases hv : (G.config n newMemoryStorage).validate with
  | some err => simp [hv, throw, throwThe, MonadExceptOf.throw] at hr
  | none => simpa [Config.validate, RaftGroup.config] using hv

theorem Cluster.Init.recovered (h : s.Init G) (hn : n ∈ G.ids) :
    (s.nodes n).Recovered G.peers.toFinset n {} [] := by
  obtain ⟨rnd, hr⟩ := h.2 n hn
  exact (newRaft_ensures (G.mem_peers n hn) (h.valid n hn _) rfl (consecutiveFrom_nil 0)
    (Nat.zero_le _)).of_eq_ok hr

theorem Cluster.Init.sim (h : s.Init G) : Sim G State.initial s := by
  refine ⟨State.inv_initial, fun n hn => ?_, by simp [h.1], fun n hn x hx => ?_⟩
  · have hr := h.recovered hn
    refine ⟨hr.wf, hr.id_eq, hr.term_eq.symm, ?_, hr.committed_eq.symm, Or.inl ⟨hr.vote_eq, rfl⟩,
      by simp [hr.state_eq], by simp [hr.state_eq]⟩
    simp [State.initial, RaftLog.slots, hr.entries_eq]
  · rw [(h.recovered hn).msgs_eq] at hx
    simp at hx

/-- A run of the protocol beside a run of a cluster. -/
structure Run.History (R : Run G) where
  state : ℕ → Abstract
  sim : ∀ k ≤ R.len, Sim G (state k) (R.state k)
  ext : ∀ k < R.len, (state k).Extends (state (k + 1))
  trans : ∀ k < R.len, (R.state k).Transition G (R.event k) (R.state (k + 1))

theorem Run.History.extends_of_le {R : Run G} (H : R.History) {j k : ℕ} (hjk : j ≤ k)
    (hk : k ≤ R.len) : (H.state j).Extends (H.state k) := by
  induction k, hjk using Nat.le_induction with
  | base => exact State.Extends.refl _
  | succ k hjk ih => exact (ih (by omega)).trans (H.ext k hk)

theorem Run.nonempty_history (R : Run G) : Nonempty R.History := by
  -- The history is built event by event.
  suffices hprefix : ∀ l ≤ R.len, ∃ α : ℕ → Abstract, (∀ k ≤ l, Sim G (α k) (R.state k)) ∧
      ∀ k < l, (α k).Extends (α (k + 1)) ∧
        (R.state k).Transition G (R.event k) (R.state (k + 1)) by
    obtain ⟨α, hsim, hstep⟩ := hprefix R.len le_rfl
    exact ⟨⟨α, hsim, fun k hk => (hstep k hk).1, fun k hk => (hstep k hk).2⟩⟩
  intro l
  induction l with
  | zero =>
    intro _
    refine ⟨fun _ => State.initial, fun k hk => ?_, by simp⟩
    obtain rfl := Nat.le_zero.mp hk
    exact R.init.sim
  | succ l ih =>
    intro hl
    obtain ⟨α, hsim, hstep⟩ := ih (by omega)
    obtain ⟨b, hb, hext, htrans⟩ := (Cluster.exec_simulates (hsim l le_rfl) R.init.valid
      (R.enabled l hl)).of_eq_ok (R.exec l hl)
    refine ⟨Function.update α (l + 1) b, fun k hk => ?_, fun k hk => ?_⟩
    · rcases hk.eq_or_lt with rfl | hlt
      · simpa using hb
      · simpa [hlt.ne] using hsim k (by omega)
    · rw [Function.update_of_ne (show k ≠ l + 1 by omega)]
      rcases (Nat.lt_succ_iff.mp hk).eq_or_lt with rfl | hlt
      · simpa using ⟨hext, htrans⟩
      · rw [Function.update_of_ne (show k + 1 ≠ l + 1 by omega)]
        exact hstep k hlt

end TinyKV
