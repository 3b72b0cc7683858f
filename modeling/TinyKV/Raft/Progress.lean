import TinyKV.Raft.Safety

/-!
# What a leader knows of how far to send its log

A leader moves the `Next` of a peer back by one each time the peer refuses its log, without looking
at `Match` and whichever message was refused.
-/

namespace TinyKV

structure Progress.Ok (len : ℕ) (pr : Progress) : Prop where
  match_lt : pr.matchIdx < pr.next
  next_le : pr.next ≤ len + 1
  lagging : pr.matchIdx < len → pr.next ≤ len

theorem Progress.Ok.mono {len len' : ℕ} {pr : Progress} (h : pr.Ok len) (hle : len ≤ len') :
    pr.Ok len' := by
  have h1 := h.match_lt
  have h2 := h.next_le
  have h3 := h.lagging
  refine ⟨h1, by omega, fun hlt => ?_⟩
  by_cases hm : pr.matchIdx < len
  · have := h3 hm
    omega
  · omega

theorem Progress.ok_accepted {len i : ℕ} (hi : i ≤ len) : Progress.Ok len ⟨i, i + 1⟩ :=
  ⟨Nat.lt_succ_self i, by simpa using hi, fun h => h⟩

def Raft.ProgressOk (r : Raft) : Prop :=
  r.state = .leader → ∀ p pr, r.prs.lookup p = some pr → pr.Ok r.raftLog.entries.length

def Event.Overshoots (s : Cluster) : Event → Prop
  | .deliver n _ m => m.msgType = .msgAppendResponse ∧ m.reject = true ∧
      (s.nodes n).state = .leader ∧ m.term = (s.nodes n).term ∧
      ∃ pr, (s.nodes n).prs.lookup m.fromId = some pr ∧ pr.next ≤ pr.matchIdx + 1
  | _ => False

variable {P : Finset ℕ} {a : Abstract} {n : ℕ} {r r' : Raft} {m : Message} {G : RaftGroup}

theorem Raft.ProgressOk.announce (h : r.ProgressOk) : (r.announce P).ProgressOk := by
  unfold Raft.announce
  split_ifs <;> exact h

theorem Raft.ProgressOk.setPrs (h : r.ProgressOk) {p : ℕ} {pr : Progress}
    (hpr : pr.Ok r.raftLog.entries.length) : (r.setPrs p pr).ProgressOk := by
  intro hs q pr' hq
  rw [Raft.lookup_setPrs] at hq
  split_ifs at hq
  · obtain rfl := Option.some.inj hq
    exact hpr
  · exact h hs q pr' hq

theorem Raft.WF.progressOk_elected (h : r.WF P) : r.elected.ProgressOk := by
  intro _ p pr hpr
  have hlen : r.elected.raftLog.entries.length = r.raftLog.entries.length + 1 := by
    simp [Raft.elected]
  rw [h.lookup_elected] at hpr
  rw [hlen]
  split_ifs at hpr
  · obtain rfl := Option.some.inj hpr
    exact Progress.ok_accepted le_rfl
  · obtain rfl := Option.some.inj hpr
    exact ⟨Nat.succ_pos _, by simp, fun _ => le_rfl⟩

theorem Raft.ProgressOk.proposed (h : r.ProgressOk) (es : List Entry) :
    (r.proposed es).ProgressOk := by
  refine Raft.ProgressOk.setPrs (fun hs p pr hpr => ?_) (Progress.ok_accepted le_rfl)
  exact (h hs p pr hpr).mono (by simp)

theorem Raft.Effect.progressOk {rnd : ℕ} (heff : r.Effect P rnd m r') (h : Handles P a n r m)
    (hok : r.ProgressOk)
    (hrefused : m.msgType = .msgAppendResponse → m.reject = true → r.state = .leader →
      ∀ pr, r.prs.lookup m.fromId = some pr → pr.matchIdx + 1 < pr.next) : r'.ProgressOk := by
  have haccepted : m.msgType = .msgAppendResponse → m.reject = false → r.state = .leader →
      m.index ≤ r.raftLog.entries.length := by
    -- What the peer has acknowledged is in the leader's log.
    intro hm hreject hs
    have hr := Message.isRemote_of_eq hm (by decide)
    have hack := (h.msg hr).ack hm hreject
    have hle := hack.trans (h.inv.ack_le _ _)
    rwa [h.term_eq hr, h.node.llog_eq h.inv hs, RaftLog.slots_length] at hle
  cases heff with
  | idle hkeeps hlog hstate =>
    intro hs
    rcases hstate with ⟨hst, -⟩ | hst
    · rw [hkeeps.prs_eq, hlog]
      exact hok (hst ▸ hs)
    · simp [hst] at hs
  | campaign => exact fun hs => absurd hs (by simp [Raft.sendAll, Raft.campaigning])
  | win => exact (h.node.wf.campaigning rnd).progressOk_elected.announce
  | grant hm hstate => exact fun hs => absurd (hstate.symm.trans hs) (by simp)
  | count hm hstate => exact fun hs => absurd (hstate.symm.trans hs) (by simp)
  | elect =>
    have hwf : Raft.WF P { r with votes := r.votes.insert m.fromId (!m.reject) } :=
      h.node.wf.congr rfl rfl rfl
    exact hwf.progressOk_elected.announce
  | resend => exact hok
  | propose => exact (hok.proposed m.entries).announce
  | @refused pr hm hstate hreject hpr =>
    -- There is room between `Match` and `Next`.
    have hlt := hrefused hm hreject hstate pr hpr
    have hpr' := hok hstate _ pr hpr
    have hsub : sub64 pr.next 1 = pr.next - 1 := sub64_of_le (by omega)
    have hback : Progress.Ok r.raftLog.entries.length { pr with next := sub64 pr.next 1 } := by
      have h1 := hpr'.next_le
      have h2 := hpr'.lagging
      refine ⟨?_, ?_, fun hl => ?_⟩
      all_goals
        simp only [hsub] at *
        omega
    exact hok.setPrs hback
  | accepted hm hstate hreject =>
    exact hok.setPrs (Progress.ok_accepted (haccepted hm hreject hstate))
  | commit hm hstate hreject =>
    exact hok.setPrs (Progress.ok_accepted (haccepted hm hreject hstate))
  | accept hm hkeeps hstate => exact fun hs => absurd (hstate.symm.trans hs) (by simp)

theorem Cluster.Transition.progressOk {s s' : Cluster} {e : Event} (ht : s.Transition G e s')
    (hsim : Sim G a s) (hen : e.Enabled G s) (hover : ¬ e.Overshoots s)
    (hok : ∀ n ∈ G.ids, (s.nodes n).ProgressOk) : ∀ n ∈ G.ids, (s'.nodes n).ProgressOk := by
  intro n hn
  by_cases hne : n = e.node
  swap
  · rw [ht.others n hne]
    exact hok n hn
  subst hne
  have hokn := hok e.node hn
  cases ht.node with
  | quiet hq =>
    intro hs
    rcases hq.state_eq with ⟨hst, -, hprs⟩ | hst
    · rw [hprs, hq.entries_eq]
      exact hokn (hst ▸ hs)
    · simp [hst] at hs
  | @handled rnd m r₀ hm hr₀ heff =>
    obtain ⟨a₀, -, hhandles⟩ := hsim.handles hen hm hr₀
    refine heff.progressOk hhandles ?_ fun htype hreject hs pr hpr => ?_
    · cases hr₀ with
      | same => exact hokn
      | later => exact fun hs => absurd hs (by simp)
    · -- The leader has not just stepped down, and the message is from another node.
      by_contra hle
      cases hr₀ with
      | later => simp at hs
      | same x y hterm =>
        have hr := Message.isRemote_of_eq htype (by decide)
        obtain ⟨n, rnd', rfl, -⟩ := hm.eq_deliver hen hr
        exact hover ⟨htype, hreject, hs, hterm hr, pr, hpr, by omega⟩

theorem Raft.step_eq_stepLeader (rnd : ℕ) (hs : r.state = .leader) (hterm : m.term = r.term) :
    r.step rnd m = r.stepLeader rnd m := by
  unfold Raft.step Raft.dispatch
  simp [hterm, hs]

theorem Run.next_of_overshoots (R : Run G) {k : ℕ} (hk : k < R.len)
    (hover : (R.event k).Overshoots (R.state k)) :
    ∃ n ∈ G.ids, (R.node (k + 1) n).state = .leader ∧ ∃ p pr, (R.node k n).prs.lookup p = some pr ∧
      (R.node k n).state = .leader ∧ pr.next ≤ pr.matchIdx + 1 ∧
      (R.node (k + 1) n).prs.lookup p = some { pr with next := sub64 pr.next 1 } := by
  obtain ⟨H⟩ := R.nonempty_history
  have hen := R.enabled k hk
  have hexec := R.exec k hk
  generalize R.event k = e at hover hen hexec
  cases e with
  | input | tick | readMessages | persist | applyNext | restart => exact hover.elim
  | deliver n rnd m =>
    obtain ⟨htype, hreject, hs, hterm, pr, hpr, hle⟩ := hover
    have hsim := H.sim k hk.le
    have hnode := hsim.node n hen.1
    have hmsg := hsim.sent m hen.2.1
    have hready : ((R.state k).nodes n).Ready G.peers.toFinset m := by
      refine ⟨hnode.wf, hnode.committed_le hsim.inv, hmsg.wf, fun _ => ?_, fun _ => hterm⟩
      rw [hnode.id_eq, ← hen.2.2]
      exact hmsg.to_ne.symm
    -- The event is one step of the leader, whose result is known.
    simp only [Cluster.exec, Event.node, Event.act, Raft.step_eq_stepLeader rnd hs hterm,
      Raft.stepLeader_refused hready htype hreject hpr, Go.ok_bind, Go.pure_eq_ok,
      Except.ok.injEq] at hexec
    refine ⟨n, hen.1, ?_, m.fromId, pr, hpr, hs, hle, ?_⟩
    · rw [Run.node, ← hexec]
      simp only [Function.update_self]
      exact hs
    · rw [Run.node, ← hexec]
      simp only [Function.update_self]
      change (Raft.setPrs _ _ _).prs.lookup _ = _
      rw [Raft.lookup_setPrs, if_pos rfl]

theorem Run.progressOk (R : Run G) (hover : ∀ k < R.len, ¬ (R.event k).Overshoots (R.state k)) :
    ∀ k ≤ R.len, ∀ n ∈ G.ids, (R.node k n).ProgressOk := by
  obtain ⟨H⟩ := R.nonempty_history
  intro k
  induction k with
  | zero =>
    -- No node starts as a leader.
    intro _ n hn hs
    rw [Run.node, (R.init.recovered hn).state_eq] at hs
    simp at hs
  | succ k ih =>
    intro hk
    exact (H.trans k hk).progressOk (H.sim k (by omega)) (R.enabled k hk) (hover k hk)
      (ih (by omega))

theorem Raft.ProgressOk.sends (hok : r.ProgressOk) (hwf : r.WF P) (hs : r.state = .leader) {p : ℕ}
    {pr : Progress} (hpr : r.prs.lookup p = some pr) :
    r.sendAppend p = .ok (r.sendAll [r.appendMsg p pr.next], true) := by
  have h := hok hs p pr hpr
  have h1 := h.match_lt
  rw [Raft.sendAppend_eq hwf.log hpr (hwf.next_lt p pr hpr), if_pos ⟨by omega, h.next_le⟩]

/-- In a run, the progress of every peer is well formed at every leader at all times, if and only if
no leader ever handles a refusal of a peer whose `Next` is at most one after its `Match`. -/
theorem Run.progress_ok_iff (R : Run G) :
    (∀ k < R.len, ¬ (R.event k).Overshoots (R.state k)) ↔
      ∀ k ≤ R.len, ∀ n ∈ G.ids, (R.node k n).state = .leader →
        ∀ p pr, (R.node k n).prs.lookup p = some pr →
          pr.matchIdx < pr.next ∧ 1 ≤ pr.next ∧ pr.next ≤ (R.node k n).raftLog.lastIndex + 1 ∧
          (R.node k n).sendAppend p =
            .ok ((R.node k n).sendAll [(R.node k n).appendMsg p pr.next], true) ∧
          (p ≠ n → pr.matchIdx < (R.node k n).raftLog.lastIndex → ∀ rnd m,
            m.msgType = .msgHeartbeatResponse → m.fromId = p → m.term = (R.node k n).term →
            (R.node k n).step rnd m =
              .ok ((R.node k n).sendAll [(R.node k n).appendMsg p pr.next])) := by
  obtain ⟨H⟩ := R.nonempty_history
  constructor
  · intro hover k hk n hn hs p pr hpr
    have hsim := H.nodeSim hk hn
    have hok := R.progressOk hover k hk n hn
    have h := hok hs p pr hpr
    have h1 := h.match_lt
    have hlast := hsim.wf.log.lastIndex_eq
    refine ⟨h1, by omega, by rw [hlast]; exact h.next_le, hok.sends hsim.wf hs hpr, ?_⟩
    rintro hne hlag rnd m hm rfl hterm
    rw [hlast] at hlag
    have hready : (R.node k n).Ready G.peers.toFinset m := by
      refine ⟨hsim.wf, hsim.committed_le (H.sim k hk).inv, ⟨fun _ => hsim.wf.mem_of_lookup hpr,
        by simp [hm], by simp [hm], by simp [hm]⟩, fun _ => by rwa [hsim.id_eq], fun _ => hterm⟩
    have hmsgs : (R.node k n).appendMsgs m.fromId = [(R.node k n).appendMsg m.fromId pr.next] := by
      unfold Raft.appendMsgs
      rw [if_neg (by rwa [hsim.id_eq]), hpr]
      exact if_pos ⟨by omega, h.next_le⟩
    rw [Raft.step_eq_stepLeader rnd hs hterm, Raft.stepLeader_heartbeatResponse hready hm hpr,
      if_pos (h.lagging hlag), hmsgs]
  · -- An event that overshoots leaves `Next` at `Match` or below.
    intro hok k hk hover
    obtain ⟨n, hn, hs', p, pr, hpr, hs, hle, hpr'⟩ := R.next_of_overshoots hk hover
    have hbefore := (hok k hk.le n hn hs p pr hpr).1
    have hafter := (hok (k + 1) hk n hn hs' p _ hpr').1
    simp only [sub64_of_le (show 1 ≤ pr.next by omega)] at hafter
    omega

/-- The second of two nodes refuses the first's log. -/
def refusal : Message where
  msgType := .msgAppendResponse
  fromId := 2
  toId := 1
  term := 3
  index := 1
  reject := true

def overshootRun : Run pair :=
  Run.ofEvents pair (Cluster.start pair) ([
    .hup 1,
    .arrive { msgType := .msgRequestVote, fromId := 1, toId := 2, term := 1 },
    .arrive { msgType := .msgRequestVoteResponse, fromId := 2, toId := 1, term := 1 },
    .hup 2,
    .arrive { msgType := .msgRequestVote, fromId := 2, toId := 1, term := 2 },
    .hup 1,
    .arrive { msgType := .msgRequestVote, fromId := 1, toId := 2, term := 3, index := 1,
              logTerm := 1 },
    .arrive { msgType := .msgRequestVoteResponse, fromId := 2, toId := 1, term := 3 },
    .arrive { msgType := .msgAppend, fromId := 1, toId := 2, term := 3, index := 1, logTerm := 1,
              entries := [{ term := 3, index := 2 }] }] ++
    List.replicate 3 (.arrive refusal)) pair_init (by decide +kernel)

theorem overshootRun_next : (overshootRun.node 11 1).state = .leader ∧
    (∃ pr, (overshootRun.node 11 1).prs.lookup 2 = some pr ∧ ¬ pr.matchIdx < pr.next ∧
      ¬ 1 ≤ pr.next) ∧
    (overshootRun.node 11 1).sendAppend 2 = .ok (overshootRun.node 11 1, false) ∧
    (overshootRun.node 12 1).state = .leader ∧
    (∃ pr, (overshootRun.node 12 1).prs.lookup 2 = some pr ∧
      ¬ pr.next ≤ (overshootRun.node 12 1).raftLog.lastIndex + 1) ∧
    (overshootRun.node 12 1).step 0
      { msgType := .msgHeartbeatResponse, fromId := 2, toId := 1, term := 3 } =
        .ok (overshootRun.node 12 1) :=
  ⟨by decide +kernel, ⟨⟨0, 0⟩, by decide +kernel, by decide, by decide⟩, rfl, by decide +kernel,
    ⟨⟨0, 2^64 - 1⟩, by decide +kernel, by decide +kernel⟩, rfl⟩

end TinyKV
