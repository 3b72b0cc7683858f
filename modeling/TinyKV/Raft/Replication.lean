import TinyKV.Raft.Safety

/-!
# What is replicated

The leader of their term appended the entries of a log, and nodes copy them from one another.
-/

namespace TinyKV

open List

variable {P : Finset ℕ} {a : Abstract} {n : ℕ} {r r' : Raft} {m : Message} {G : RaftGroup}

structure NewEntry (r : Raft) (m : Message) (r' : Raft) (e : Entry) : Prop where
  leads : r'.state = .leader
  term_eq : r'.term = e.term
  index_lt : r.raftLog.entries.length < e.index
  type_eq : e.entryType = .entryNormal ∨
    m.msgType = .msgPropose ∧ r.state = .leader ∧ ∃ d ∈ m.entries, e.entryType = d.entryType

variable {e : Entry}

theorem Raft.mem_entries_elected {c : Raft}
    (he : e ∈ (c.elected.announce P).raftLog.entries) (hlog : c.raftLog = r.raftLog) :
    e ∈ r.raftLog.entries ∨ NewEntry r m (c.elected.announce P) e := by
  rw [Raft.announce_entries] at he
  rcases mem_append.mp he with he | he
  · exact Or.inl (hlog ▸ he)
  · obtain rfl := mem_singleton.mp he
    refine Or.inr ⟨by simp [Raft.elected], by simp [Raft.elected, Raft.noop], ?_, Or.inl rfl⟩
    simp [Raft.noop, hlog]

theorem Raft.Effect.mem_entries {rnd : ℕ} (heff : r.Effect P rnd m r')
    (he : e ∈ r'.raftLog.entries) :
    e ∈ r.raftLog.entries ∨ m.msgType = .msgAppend ∧ e ∈ m.entries ∨ NewEntry r m r' e := by
  cases heff with
  | idle hkeeps hlog => exact Or.inl (hlog ▸ he)
  | campaign | grant | count | resend | refused | accepted | commit => exact Or.inl he
  | win | elect => exact (Raft.mem_entries_elected (r := r) he rfl).imp_right Or.inr
  | propose hm hstate =>
    rw [Raft.announce_entries] at he
    rcases mem_append.mp he with he | he
    · exact Or.inl he
    · -- An entry of the proposal, with the leader's term and the next free index.
      obtain ⟨hterm, d, hd, htype⟩ := Raft.entryType_of_mem_stamp he
      obtain ⟨j, hj⟩ := mem_iff_getElem?.mp he
      have hindex := Raft.stamp_consecutive r.term r.raftLog.entries.length m.entries j e hj
      refine Or.inr (Or.inr ⟨?_, ?_, by omega, Or.inr ⟨hm, hstate, d, hd, htype⟩⟩)
      · rw [Raft.announce_state]
        exact hstate
      · rw [Raft.announce_term]
        exact hterm.symm
  | accept hm hkeeps hstate hindex hterm hl hlog =>
    rw [hlog] at he
    cases hl with
    | kept => exact Or.inl he
    | cut =>
      rcases mem_append.mp he with he | he
      · exact Or.inl (mem_of_mem_take he)
      · exact Or.inr (Or.inl ⟨hm, mem_of_mem_drop he⟩)

def CopiesFrom (P : Finset ℕ) (r : Raft) (x : Message) : Prop :=
  ∀ e ∈ x.entries, 1 < P.card ∧ ∃ d ∈ r.raftLog.entries, e = d.copy

theorem Raft.WF.copiesFrom_appendMsgs (h : r.WF P) {p : ℕ} {x : Message}
    (hx : x ∈ r.appendMsgs p) : CopiesFrom P r x := by
  unfold Raft.appendMsgs at hx
  split_ifs at hx with hp
  · simp at hx
  · split at hx
    · rename_i pr hpr
      split_ifs at hx
      · obtain rfl := mem_singleton.mp hx
        intro e he
        refine ⟨Finset.one_lt_card.mpr ⟨p, h.mem_of_lookup hpr, r.id, h.id_mem, hp⟩, ?_⟩
        obtain ⟨d, hd, rfl⟩ := mem_map.mp he
        exact ⟨d, mem_of_mem_drop hd, rfl⟩
      · simp at hx
    · simp at hx

theorem Raft.WF.copiesFrom_broadcast (h : r.WF P) {x : Message} (hx : x ∈ r.broadcast.msgs) :
    x ∈ r.msgs ∨ CopiesFrom P r x := by
  rcases mem_append.mp hx with hx | hx
  · exact Or.inl hx
  · obtain ⟨p, -, hx⟩ := mem_flatMap.mp hx
    exact Or.inr (h.copiesFrom_appendMsgs hx)

theorem Raft.copiesFrom_announce (h : (r.announce P).WF P)
    (happlied : r.raftLog.applied ≤ r.raftLog.committed) {x : Message}
    (hx : x ∈ (r.announce P).msgs) : x ∈ r.msgs ∨ CopiesFrom P (r.announce P) x := by
  have hwf := h.of_announce happlied
  unfold CopiesFrom
  rw [Raft.announce_entries]
  unfold Raft.announce at hx
  split_ifs at hx
  · exact Or.inl hx
  · exact hwf.copiesFrom_broadcast hx

theorem Raft.Effect.mem_msgs {rnd : ℕ} (heff : r.Effect P rnd m r') (hr : r.WF P) (hwf : r'.WF P)
    {x : Message} (hx : x ∈ r'.msgs) : x ∈ r.msgs ∨ CopiesFrom P r' x := by
  -- Most messages have no entries.
  have hnone : x.entries = [] → CopiesFrom P r' x := by
    intro h e he
    simp [h] at he
  cases heff with
  | idle hkeeps hlog hstate hout hms =>
    rw [hout] at hx
    exact (mem_append.mp hx).imp_right fun hx => hnone (hms x hx).entries_eq
  | campaign =>
    refine (mem_append.mp hx).imp_right fun hx => hnone ?_
    obtain ⟨id, -, hx⟩ := mem_flatMap.mp hx
    split_ifs at hx
    · simp at hx
    · rw [mem_singleton.mp hx]
      rfl
  | win | elect => exact Raft.copiesFrom_announce hwf hr.log.applied_le hx
  | propose => exact Raft.copiesFrom_announce hwf hr.log.applied_le hx
  | grant =>
    refine (mem_append.mp hx).imp_right fun hx => hnone ?_
    rw [mem_singleton.mp hx]
    rfl
  | count | accepted => exact Or.inl hx
  | resend => exact (mem_append.mp hx).imp_right fun hx => hr.copiesFrom_appendMsgs hx
  | refused =>
    exact (mem_append.mp hx).imp_right fun hx => hwf.of_sendAll.copiesFrom_appendMsgs hx
  | commit => exact Raft.WF.copiesFrom_broadcast (Raft.WF.of_sendAll hwf) hx
  | accept hm hkeeps hstate hindex hterm hl hlog hout =>
    rw [hout] at hx
    refine (mem_append.mp hx).imp_right fun hx => hnone ?_
    rw [mem_singleton.mp hx]
    rfl

def Run.Appends (R : Run G) (j c : ℕ) (e : Entry) : Prop :=
  (R.node (j + 1) c).state = .leader ∧ (R.node (j + 1) c).term = e.term ∧
    (R.node j c).raftLog.lastIndex < e.index ∧
    (R.node (j + 1) c).raftLog.entryAt e.index = some e

theorem Raft.Effect.leader_cases {rnd : ℕ} (heff : r.Effect P rnd m r') (h : Handles P a n r m)
    (hs : r'.state = .leader) :
    r.state = .leader ∧ r'.term = r.term ∨ a.leader r'.term ≠ some n := by
  cases heff with
  | idle hkeeps hlog hstate =>
    rcases hstate with ⟨hst, -⟩ | hst
    · exact Or.inl ⟨hst ▸ hs, hkeeps.term_eq⟩
    · simp [hst] at hs
  | campaign => simp [Raft.sendAll, Raft.campaigning] at hs
  | win =>
    -- The node was not in the term before.
    refine Or.inr fun hlead => ?_
    have hle := h.inv.leader_term hlead
    rw [h.node.term_eq, Raft.announce_term] at hle
    exact absurd hle (Nat.not_succ_le_self r.term)
  | grant hm hstate => exact absurd (hstate.symm.trans hs) (by simp)
  | count hm hstate => exact absurd (hstate.symm.trans hs) (by simp)
  | elect hm hstate =>
    rw [Raft.announce_term]
    exact Or.inr (h.node.candidate hstate).2.1
  | propose hm hstate =>
    rw [Raft.announce_term]
    exact Or.inl ⟨hstate, rfl⟩
  | resend hm hstate | refused hm hstate | accepted hm hstate | commit hm hstate =>
    exact Or.inl ⟨hstate, rfl⟩
  | accept hm hkeeps hstate => exact absurd (hstate.symm.trans hs) (by simp)

theorem Cluster.Transition.leader_cases {s s' : Cluster} {e : Event} (ht : s.Transition G e s')
    (hsim : Sim G a s) (hen : e.Enabled G s) {c : ℕ} (hs : (s'.nodes c).state = .leader) :
    (s.nodes c).state = .leader ∧ (s'.nodes c).term = (s.nodes c).term ∨
      a.leader (s'.nodes c).term ≠ some c := by
  by_cases hne : c = e.node
  swap
  · rw [ht.others c hne] at hs ⊢
    exact Or.inl ⟨hs, rfl⟩
  subst hne
  cases ht.node with
  | quiet hq =>
    rcases hq.state_eq with ⟨hst, -⟩ | hst
    · exact Or.inl ⟨hst ▸ hs, hq.term_eq⟩
    · simp [hst] at hs
  | handled hm hr₀ heff =>
    obtain ⟨a₀, hsteps, hhandles⟩ := hsim.handles hen hm hr₀
    rcases heff.leader_cases hhandles hs with ⟨hst, hterm⟩ | hlead
    · cases hr₀ with
      | same => exact Or.inl ⟨hst, hterm⟩
      | later => simp at hst
    · exact Or.inr fun hc => hlead ((hsteps.evolves hsim.inv).ext.leader _ _ hc)

namespace Run

variable (R : Run G) {j c : ℕ}

theorem Appends.le_llog {R : Run G} (h : R.Appends j c e) (H : R.History) (hj : j < R.len)
    (hc : c ∈ G.ids) : e.index ≤ ((H.state (j + 1)).llog e.term).length := by
  obtain ⟨hs, hterm, -, he⟩ := h
  have hsim := H.nodeSim hj hc
  rw [← hterm, hsim.llog_eq (H.sim _ hj).inv hs]
  exact (hsim.wf.log.termAt_of_entryAt he).1

theorem Appends.llog_lt {R : Run G} (h : R.Appends j c e) (H : R.History) (hj : j < R.len)
    (hc : c ∈ G.ids) : ((H.state j).llog e.term).length < e.index := by
  obtain ⟨hs, hterm, hlt, -⟩ := h
  have hsim := H.nodeSim hj.le hc
  have hinv := (H.sim j hj.le).inv
  rcases (H.trans j hj).leader_cases (H.sim j hj.le) (R.enabled j hj) hs with
    ⟨hs₀, hterm₀⟩ | hnew
  · rw [← hterm, Run.node, hterm₀]
    change ((H.state j).llog (R.node j c).term).length < e.index
    rw [hsim.llog_eq hinv hs₀, RaftLog.slots_length]
    rwa [hsim.wf.log.lastIndex_eq] at hlt
  · -- The term has no other leader either, and so no log yet.
    have hnone : (H.state j).leader e.term = none := by
      rcases hl : (H.state j).leader e.term with _ | d
      · rfl
      · have hd := (H.ext j hj).leader _ _ hl
        have hc' := H.leader_eq le_rfl hj hc hs
        rw [hterm, hd] at hc'
        rw [show ((R.state (j + 1)).nodes c).term = e.term from hterm, hl] at hnew
        exact absurd hc' hnew
    rw [hinv.llog_none _ hnone]
    exact Nat.zero_lt_of_lt hlt

theorem appends_unique {j' c' : ℕ} {e' : Entry} (hj : j < R.len) (hj' : j' < R.len) (hc : c ∈ G.ids)
    (hc' : c' ∈ G.ids) (h : R.Appends j c e) (h' : R.Appends j' c' e') (hterm : e.term = e'.term)
    (hindex : e.index = e'.index) : e = e' := by
  obtain ⟨H⟩ := R.nonempty_history
  -- Of two events, the second would append at a position that the leader's log has already.
  have hlt : ∀ {i k d d' : ℕ} {x x' : Entry}, i < R.len → k < R.len → d ∈ G.ids → d' ∈ G.ids →
      R.Appends i d x → R.Appends k d' x' → x.term = x'.term → x.index = x'.index → ¬ i < k := by
    intro i k d d' x x' hi hk hd hd' hx hx' hxterm hxindex hik
    have h1 := hx.le_llog H hi hd
    have h2 := hx'.llog_lt H hk hd'
    have h3 := ((H.extends_of_le (show i + 1 ≤ k from hik) hk.le).llog x.term).length_le
    rw [← hxterm, ← hxindex] at h2
    omega
  obtain rfl : j = j' := by
    have h1 := hlt hj hj' hc hc' h h' hterm hindex
    have h2 := hlt hj' hj hc' hc h' h hterm.symm hindex.symm
    omega
  obtain rfl : c = c' := by
    refine R.leader_unique hj hj hc hc' h.1 h'.1 ?_
    rw [h.2.1, h'.2.1, hterm]
  have he := h.2.2.2
  rw [hindex, h'.2.2.2] at he
  exact (Option.some.inj he).symm

end Run

def Event.ProposesConfChange (s : Cluster) : Event → Prop
  | .input n _ m => m.msgType = .msgPropose ∧ (s.nodes n).state = .leader ∧
      1 < (s.nodes n).prs.keys.length ∧ ∃ x ∈ m.entries, x.entryType = .entryConfChange
  | _ => False

instance (s : Cluster) : (e : Event) → Decidable (e.ProposesConfChange s)
  | .input .. => inferInstanceAs (Decidable (_ ∧ _))
  | .tick .. | .deliver .. | .readMessages _ | .persist _ | .applyNext _ | .restart .. =>
    inferInstanceAs (Decidable False)

def Run.Appended (R : Run G) (k : ℕ) (e : Entry) : Prop :=
  ∃ j < k, ∃ c ∈ G.ids, R.Appends j c e

/-- Where the entries of the logs and of the messages come from, in a run without configuration
changes. -/
structure Run.Verbatim (R : Run G) (k : ℕ) : Prop where
  log : ∀ n ∈ G.ids, ∀ e ∈ (R.node k n).raftLog.entries, R.Appended k e
  msg : ∀ x ∈ (R.state k).sent, ∀ e ∈ x.entries, R.Appended k e
  log_normal : 1 < G.peers.toFinset.card → ∀ n ∈ G.ids, ∀ e ∈ (R.node k n).raftLog.entries,
    e.entryType = .entryNormal
  msg_normal : ∀ x ∈ (R.state k).sent, ∀ e ∈ x.entries, e.entryType = .entryNormal

theorem Run.Appended.mono {R : Run G} {j k : ℕ} (h : R.Appended j e) (hjk : j ≤ k) :
    R.Appended k e := by
  obtain ⟨i, hi, hc⟩ := h
  exact ⟨i, by omega, hc⟩

theorem Entry.copy_eq (h : e.entryType = .entryNormal) : e.copy = e := by
  cases e
  simp_all [Entry.copy]

theorem Cluster.Transition.mem_entries {s s' : Cluster} {e : Event} (ht : s.Transition G e s')
    (hsim : Sim G a s) (hen : e.Enabled G s) {n : ℕ} (hn : n ∈ G.ids) {d : Entry}
    (hd : d ∈ (s'.nodes n).raftLog.entries) :
    d ∈ (s.nodes n).raftLog.entries ∨ (∃ x ∈ s.sent, d ∈ x.entries) ∨
      (s'.nodes n).state = .leader ∧ (s'.nodes n).term = d.term ∧
        (s.nodes n).raftLog.lastIndex < d.index ∧
        (d.entryType = .entryNormal ∨ G.peers.toFinset.card ≤ 1 ∨ e.ProposesConfChange s) := by
  by_cases hne : n = e.node
  swap
  · rw [ht.others n hne] at hd
    exact Or.inl hd
  subst hne
  have hwf := (hsim.node e.node hn).wf
  cases ht.node with
  | quiet hq =>
    rw [hq.entries_eq] at hd
    exact Or.inl hd
  | @handled rnd m r₀ hm hr₀ heff =>
    have hlog := hr₀.raftLog_eq
    rcases heff.mem_entries hd with hmem | ⟨htype, hmem⟩ | hnew
    · exact Or.inl (hlog ▸ hmem)
    · have hr := Message.isRemote_of_eq htype (by decide)
      obtain ⟨n, rnd', -, hsent, -⟩ := hm.eq_deliver hen hr
      exact Or.inr (Or.inl ⟨m, hsent, hmem⟩)
    · refine Or.inr (Or.inr ⟨hnew.leads, hnew.term_eq, ?_, ?_⟩)
      · have hlt := hnew.index_lt
        rwa [hlog, ← hwf.log.lastIndex_eq] at hlt
      rcases hnew.type_eq with hnormal | ⟨htype, hs, x, hx, hxtype⟩
      · exact Or.inl hnormal
      cases hconf : x.entryType with
      | entryNormal => exact Or.inl (hxtype.trans hconf)
      | entryConfChange =>
        -- The proposal comes from the application of a leader.
        right
        rcases Nat.lt_or_ge 1 G.peers.toFinset.card with hcard | hcard
        · obtain ⟨n, rnd', rfl⟩ := hsim.eq_input hen hm htype
          cases hr₀ with
          | later => simp at hs
          | same =>
            refine Or.inr ⟨htype, hs, ?_, x, hx, hconf⟩
            rwa [← hwf.length_keys] at hcard
        · exact Or.inl hcard

theorem Cluster.Transition.mem_sent {s s' : Cluster} {e : Event} (ht : s.Transition G e s')
    (hsim : Sim G a s) (hwf : (s'.nodes e.node).WF G.peers.toFinset) (hen : e.Enabled G s)
    {x : Message} (hx : x ∈ s'.sent) :
    x ∈ s.sent ∨ CopiesFrom G.peers.toFinset (s'.nodes e.node) x := by
  have hold : ∀ y ∈ (s.nodes e.node).msgs, y ∈ s.sent := hsim.msgs_sub e.node hen.1
  rw [ht.sent] at hx
  rcases mem_append.mp hx with hx | hx
  · exact Or.inl hx
  cases ht.node with
  | quiet hq => exact Or.inl (hold x (hq.msgs_sub x hx))
  | handled hm hr₀ heff =>
    obtain ⟨a₀, -, hhandles⟩ := hsim.handles hen hm hr₀
    exact (heff.mem_msgs hhandles.node.wf hwf hx).imp_left fun hx => hold x (hr₀.msgs_eq ▸ hx)

theorem Run.verbatim_of_normal (R : Run G)
    (hcond : ∀ k < R.len, ¬ (R.event k).ProposesConfChange (R.state k)) :
    ∀ k ≤ R.len, R.Verbatim k := by
  obtain ⟨H⟩ := R.nonempty_history
  intro k
  induction k with
  | zero =>
    intro _
    have hempty : ∀ n ∈ G.ids, (R.node 0 n).raftLog.entries = [] := fun n hn =>
      (R.init.recovered hn).entries_eq
    refine ⟨fun n hn e he => ?_, by simp [R.init.1], fun _ n hn e he => ?_, by simp [R.init.1]⟩
    · simp [hempty n hn] at he
    · simp [hempty n hn] at he
  | succ k ih =>
    intro hk
    have h := ih (by omega)
    have hsim := H.sim k (by omega)
    have hen := R.enabled k hk
    -- The logs first: the messages have copies of what is in them afterwards.
    have hlog : ∀ n ∈ G.ids, ∀ e ∈ (R.node (k + 1) n).raftLog.entries, R.Appended (k + 1) e ∧
        (1 < G.peers.toFinset.card → e.entryType = .entryNormal) := by
      intro n hn e he
      rcases (H.trans k hk).mem_entries hsim hen hn he with
        hold | ⟨x, hx, hex⟩ | ⟨hs, hterm, hlt, htype⟩
      · exact ⟨(h.log n hn e hold).mono (by omega), fun hcard => h.log_normal hcard n hn e hold⟩
      · exact ⟨(h.msg x hx e hex).mono (by omega), fun _ => h.msg_normal x hx e hex⟩
      · refine ⟨⟨k, Nat.lt_succ_self k, n, hn, hs, hterm, hlt, ?_⟩, fun hcard => ?_⟩
        · exact (H.nodeSim hk hn).wf.log.entryAt_index he
        · rcases htype with hnormal | hcard' | hconf
          · exact hnormal
          · omega
          · exact absurd hconf (hcond k hk)
    have hmsg : ∀ x ∈ (R.state (k + 1)).sent, ∀ e ∈ x.entries, R.Appended (k + 1) e ∧
        e.entryType = .entryNormal := by
      intro x hx e he
      rcases (H.trans k hk).mem_sent hsim ((H.nodeSim hk hen.1).wf) hen hx with hold | hcopies
      · exact ⟨(h.msg x hold e he).mono (by omega), h.msg_normal x hold e he⟩
      · -- Of a normal entry, the copy is the entry.
        obtain ⟨hcard, d, hd, rfl⟩ := hcopies e he
        obtain ⟨happ, hnormal⟩ := hlog _ hen.1 d hd
        rw [Entry.copy_eq (hnormal hcard)]
        exact ⟨happ, hnormal hcard⟩
    exact ⟨fun n hn e he => (hlog n hn e he).1, fun x hx e he => (hmsg x hx e he).1,
      fun hcard n hn e he => (hlog n hn e he).2 hcard, fun x hx e he => (hmsg x hx e he).2⟩

/-- Verbatim replication: as long as no leader of more than one peer is handed a configuration
change to propose, every entry of every log is equal in all fields to the only entry that the leader
of its term appended at its index. -/
theorem Run.verbatim (R : Run G)
    (hcond : ∀ k < R.len, ¬ (R.event k).ProposesConfChange (R.state k)) :
    (∀ k ≤ R.len, ∀ n ∈ G.ids, ∀ e ∈ (R.node k n).raftLog.entries,
      (∃ j < k, ∃ c ∈ G.ids, R.Appends j c e) ∧
        ∀ j < R.len, ∀ c ∈ G.ids, ∀ d, R.Appends j c d → d.term = e.term → d.index = e.index →
          e = d) ∧
    ∀ k ≤ R.len, ∀ n ∈ G.ids, ∀ n' ∈ G.ids, ∀ e ∈ (R.node k n).raftLog.entries,
      ∀ e' ∈ (R.node k n').raftLog.entries, e.term = e'.term → e.index = e'.index →
        e.entryType = e'.entryType := by
  have hverb := R.verbatim_of_normal hcond
  have hsource : ∀ k ≤ R.len, ∀ n ∈ G.ids, ∀ e ∈ (R.node k n).raftLog.entries, ∀ j < R.len,
      ∀ c ∈ G.ids, ∀ d, R.Appends j c d → d.term = e.term → d.index = e.index → e = d := by
    intro k hk n hn e he j hj c hc d hd hterm hindex
    obtain ⟨j', hj', c', hc', happ⟩ := (hverb k hk).log n hn e he
    exact R.appends_unique (by omega) hj hc' hc happ hd hterm.symm hindex.symm
  refine ⟨fun k hk n hn e he => ⟨(hverb k hk).log n hn e he, hsource k hk n hn e he⟩, ?_⟩
  intro k hk n hn n' hn' e he e' he' hterm hindex
  obtain ⟨j, hj, c, hc, happ⟩ := (hverb k hk).log n hn e he
  rw [hsource k hk n' hn' e' he' j (by omega) c hc e happ hterm hindex]

def proposalEvents (entryType : EntryType) : List Event :=
  electionEvents.take 3 ++ [
    .input 1 0 { msgType := .msgPropose, entries := [{ entryType := entryType, data := [7] }] },
    .arrive { msgType := .msgAppend, fromId := 1, toId := 2, term := 1,
              entries := [{ term := 1, index := 1 }, { term := 1, index := 2, data := [7] }] }]

def normalRun : Run pair :=
  Run.ofEvents pair (Cluster.start pair) (proposalEvents .entryNormal) pair_init (by decide +kernel)

theorem Run.verbatim_normalRun :
    ({ term := 1, index := 2, data := [7] } : Entry) ∈ (normalRun.node 5 2).raftLog.entries ∧
      ∃ j < 5, ∃ c ∈ pair.ids, normalRun.Appends j c { term := 1, index := 2, data := [7] } :=
  have he : ({ term := 1, index := 2, data := [7] } : Entry) ∈
      (normalRun.node 5 2).raftLog.entries := by decide +kernel
  ⟨he, ((normalRun.verbatim (by decide +kernel)).1 5 (by decide) 2 (by decide) _ he).1⟩

def confChangeRun : Run pair :=
  Run.ofEvents pair (Cluster.start pair) (proposalEvents .entryConfChange) pair_init
    (by decide +kernel)

theorem confChangeRun_entryType : ∃ e e' : Entry, confChangeRun.Appends 3 1 e ∧
    e ∈ (confChangeRun.node 5 1).raftLog.entries ∧ e' ∈ (confChangeRun.node 5 2).raftLog.entries ∧
    e.term = e'.term ∧ e.index = e'.index ∧ e.entryType ≠ e'.entryType :=
  ⟨{ entryType := .entryConfChange, term := 1, index := 2, data := [7] },
    { term := 1, index := 2, data := [7] },
    ⟨by decide +kernel, by decide +kernel, by decide +kernel, by decide +kernel⟩,
    by decide +kernel, by decide +kernel, rfl, rfl, by decide⟩

end TinyKV
