import TinyKV.Raft.Persistence

/-!
# The election timer

A node that does not lead campaigns when it has not heard from a leader for as many ticks as its
timeout, which is drawn anew at each change of role, between the base and twice the base
(`Clock.Timed`).
-/

namespace TinyKV

open List

theorem randIntn_bounds (rnd : ℕ) {b : ℤ} (hb : 0 < b) : 0 ≤ randIntn rnd b ∧ randIntn rnd b < b :=
  ⟨Int.emod_nonneg _ hb.ne', Int.emod_lt_of_pos _ hb⟩

/-- A base of the timer: positive, and so small that every timeout is an `int`. -/
structure IsBase (b : ℤ) : Prop where
  pos : 0 < b
  le : 2 * b ≤ 2^63

namespace Clock

variable {b : ℤ} {c c' : Clock} {rnd : ℕ} {m : Message}

structure Timed (b : ℤ) (c : Clock) : Prop where
  base_eq : c.base = b
  leads : c.state = .leader → c.tickFn = .tickHeartbeat
  waits : c.state ≠ .leader → c.tickFn = .tickElection
  le_timeout : b ≤ c.timeout
  timeout_lt : c.timeout < 2 * b
  elapsed_nonneg : 0 ≤ c.elapsed
  elapsed_lt : c.state ≠ .leader → c.elapsed < c.timeout

namespace Timed

theorem draw (hbase : c.base = b) (hb : IsBase b) (rnd : ℕ) :
    b ≤ int64 (c.base + randIntn rnd c.base) ∧ int64 (c.base + randIntn rnd c.base) < 2 * b := by
  obtain ⟨hnonneg, hlt⟩ := randIntn_bounds rnd hb.pos
  have hle := hb.le
  rw [hbase, int64_of_lt (by omega) (by omega)]
  omega

theorem follow (hbase : c.base = b) (hb : IsBase b) (rnd term : ℕ) :
    (c.follow rnd term).Timed b := by
  obtain ⟨hle, hlt⟩ := draw hbase hb rnd
  exact ⟨hbase, nofun, fun _ => rfl, hle, hlt, le_rfl, fun _ => hb.pos.trans_le hle⟩

theorem hear (h : c.Timed b) (hb : IsBase b) : c.hear.Timed b :=
  ⟨h.base_eq, h.leads, h.waits, h.le_timeout, h.timeout_lt, le_rfl,
    fun _ => hb.pos.trans_le h.le_timeout⟩

theorem campaign [TermWidth] (h : c.Timed b) (hb : IsBase b) (rnd : ℕ) :
    (c.campaign rnd).Timed b := by
  obtain ⟨hle, hlt⟩ := draw h.base_eq hb rnd
  exact ⟨h.base_eq, nofun, fun _ => rfl, hle, hlt, le_rfl, fun _ => hb.pos.trans_le hle⟩

theorem lead (h : c.Timed b) : c.lead.Timed b :=
  ⟨h.base_eq, fun _ => rfl, fun hne => absurd rfl hne, h.le_timeout, h.timeout_lt, le_rfl,
    fun hne => absurd rfl hne⟩

theorem handles [TermWidth] (h : c.Timed b) (hb : IsBase b) (hstep : c.Handles rnd m c') :
    c'.Timed b := by
  cases hstep with
  | rest => exact h
  | hear => exact h.hear hb
  | follow => exact follow h.base_eq hb rnd _
  | lose => exact follow h.base_eq hb rnd _
  | win => exact h.lead
  | campaign => exact h.campaign hb rnd
  | alone => exact (h.campaign hb rnd).lead

theorem steps [TermWidth] (h : c.Timed b) (hb : IsBase b) (hstep : c.Steps rnd m c') :
    c'.Timed b := by
  cases hstep with
  | earlier => exact h
  | later _ _ hhandles => exact (follow h.base_eq hb rnd _).handles hb hhandles
  | same _ hhandles => exact h.handles hb hhandles

theorem ticks [TermWidth] (h : c.Timed b) (hb : IsBase b) (htick : c.Ticks rnd c') :
    c'.Timed b := by
  cases htick with
  | wait hfn hlt =>
    have hnonneg := h.elapsed_nonneg
    exact ⟨h.base_eq, h.leads, h.waits, h.le_timeout, h.timeout_lt, by simp only; omega,
      fun _ => hlt⟩
  | expire _ _ _ hhandles => exact (h.hear hb).handles hb hhandles
  | beat => exact h

end Timed

structure Hears (b : ℤ) (T n : ℕ) (c : Clock) : Prop extends c.Timed b where
  state_eq : c.state = .follower
  term_eq : c.term = T
  elapsed_le : c.elapsed ≤ n

theorem Timed.hears [TermWidth] (h : c.Timed b) (hb : IsBase b) (hm : m.IsFromLeader)
    (hterm : m.term = c.term) (hstep : c.Steps rnd m c') : c'.Hears b c.term 0 := by
  have htype : m.msgType ≠ .msgRequestVoteResponse ∧ m.msgType ≠ .msgHup := by
    rcases hm with hm | hm <;> simp [hm]
  have htimed := h.steps hb hstep
  cases hstep with
  | earlier _ hlt => omega
  | later _ hlt => omega
  | same _ hhandles =>
    cases hhandles with
    | rest hleader => exact absurd hm hleader
    | hear _ hstate => exact ⟨htimed, hstate, rfl, le_rfl⟩
    | follow => exact ⟨htimed, rfl, by simp [Clock.follow, hterm], le_rfl⟩
    | lose hm' => exact absurd hm' htype.1
    | win hm' => exact absurd hm' htype.1
    | campaign hm' => exact absurd hm' htype.2
    | alone hm' => exact absurd hm' htype.2

namespace Hears

variable [TermWidth] {T n : ℕ}

theorem steps (h : c.Hears b T n) (hb : IsBase b) (hhup : m.msgType ≠ .msgHup)
    (hterm : m.IsRemote → m.term ≤ T) (hstep : c.Steps rnd m c') : c'.Hears b T n := by
  cases hstep with
  | earlier => exact h
  | later hremote hlt =>
    have := hterm hremote
    have := h.term_eq
    omega
  | same _ hhandles =>
    cases hhandles with
    | rest => exact h
    | hear => exact ⟨h.hear hb, h.state_eq, h.term_eq, Int.natCast_nonneg n⟩
    | follow _ hstate => exact absurd h.state_eq hstate
    | lose _ hstate => simp [h.state_eq] at hstate
    | win _ hstate => simp [h.state_eq] at hstate
    | campaign hm => exact absurd hm hhup
    | alone hm => exact absurd hm hhup

theorem ticks (h : c.Hears b T n) (hb : IsBase b) (hn : (n : ℤ) + 1 ≤ b - 1)
    (htick : c.Ticks rnd c') : c'.Hears b T (n + 1) := by
  have htimed := h.toTimed.ticks hb htick
  have hle := h.le_timeout
  have hel := h.elapsed_le
  cases htick with
  | wait => exact ⟨htimed, h.state_eq, h.term_eq, by simp only; omega⟩
  | expire _ hexp => omega
  | beat hfn => simp [h.waits (by simp [h.state_eq])] at hfn

end Hears

end Clock

def ticksSince (L T : ℕ) (n : ℕ) : NodeEvent → ℕ
  | .step _ m => if m.IsFromLeader ∧ m.term = T ∧ m.fromId = L then 0 else n
  | .tick _ => n + 1
  | .persist => n

structure InTouch (b : ℤ) (L T : ℕ) (es : List NodeEvent) : Prop where
  no_hup : ∀ rnd m, .step rnd m ∈ es → m.msgType ≠ .msgHup
  no_later : ∀ rnd m, .step rnd m ∈ es → m.IsRemote → m.term ≤ T
  ticks : ∀ fs, fs <+: es → ((fs.foldl (ticksSince L T) 0 : ℕ) : ℤ) ≤ b - 1

namespace Raft

variable {b : ℤ} {r r' : Raft}

theorem clock_of_persist (h : r.persist = .ok r') : r'.clock = r.clock := by
  have hreturns : Go.IfReturns r.persist fun r' => r'.clock = r.clock := by
    unfold persist
    exact Go.ifReturns_bind fun _ => Go.ifReturns_bind fun _ => (Go.ifReturns_ok _ _).mpr rfl
  exact hreturns r' h

theorem timed_of_step [TermWidth] (hb : IsBase b) {e : NodeEvent} (h : r.clock.Timed b)
    (hstep : node.step r e = some r') : r'.clock.Timed b := by
  cases e with
  | step rnd m => exact h.steps hb (step_ifReturns rnd r m r' (Go.eq_ok_of_toOption hstep)).1
  | tick rnd => exact h.ticks hb (tick_ifReturns rnd r {} r' (Go.eq_ok_of_toOption hstep)).1
  | persist =>
    rw [clock_of_persist (Go.eq_ok_of_toOption hstep)]
    exact h

theorem timed_of_newRaft {rnd : ℕ} {c : Config} (hc : 2 * c.electionTick ≤ 2^63)
    (hnew : newRaft rnd c = .ok r) :
    IsBase c.electionTick ∧ r.clock.Timed c.electionTick := by
  have hreturns : Go.IfReturns (newRaft rnd c) fun r =>
      IsBase c.electionTick ∧ r.clock.Timed c.electionTick := by
    unfold newRaft
    split
    · exact Go.ifReturns_error _ _
    · rename_i hvalid
      have hpos : IsBase c.electionTick := by
        unfold Config.validate at hvalid
        split_ifs at hvalid
        exact ⟨by omega, hc⟩
      refine Go.ifReturns_bind fun storage => Go.ifReturns_bind fun l => ?_
      refine (Go.ifReturns_ok _ _).mpr ⟨hpos, ?_⟩
      rw [clock_becomeFollower]
      exact Clock.Timed.follow (show _ = c.electionTick from rfl) hpos rnd _
  exact hreturns r hnew

theorem throughout_of_hears [TermWidth] (hb : IsBase b) {L T n : ℕ} {es : List NodeEvent}
    (h : r.clock.Hears b T n) (hhup : ∀ rnd m, .step rnd m ∈ es → m.msgType ≠ .msgHup)
    (hlater : ∀ rnd m, .step rnd m ∈ es → m.IsRemote → m.term ≤ T)
    (hticks : ∀ fs, fs <+: es → ((fs.foldl (ticksSince L T) n : ℕ) : ℤ) ≤ b - 1) :
    node.Throughout (fun r' => r'.state = .follower ∧ r'.term = T) r es := by
  -- Along the events, `n` is the number of ticks since the last message of the leader.
  induction es generalizing r n with
  | nil => exact Machine.throughout_nil.mpr ⟨h.state_eq, h.term_eq⟩
  | cons e es ih =>
    refine Machine.throughout_cons.mpr ⟨⟨h.state_eq, h.term_eq⟩, fun r' hstep => ?_⟩
    refine ih (n := ticksSince L T n e) ?_ (fun rnd m hm => hhup rnd m (mem_cons_of_mem e hm))
      (fun rnd m hm => hlater rnd m (mem_cons_of_mem e hm)) fun fs hfs => ?_
    · have hnow := hticks [e] (by simp)
      cases e with
      | step rnd m =>
        have hsteps := (step_ifReturns rnd r m r' (Go.eq_ok_of_toOption hstep)).1
        simp only [ticksSince]
        split_ifs with hm
        · obtain ⟨hm, hterm, -⟩ := hm
          have hheard := h.toTimed.hears hb hm (hterm.trans h.term_eq.symm) hsteps
          rwa [h.term_eq] at hheard
        · exact h.steps hb (hhup rnd m mem_cons_self) (hlater rnd m mem_cons_self) hsteps
      | tick rnd =>
        refine h.ticks hb ?_ (tick_ifReturns rnd r {} r' (Go.eq_ok_of_toOption hstep)).1
        simpa [ticksSince] using hnow
      | persist =>
        rw [clock_of_persist (Go.eq_ok_of_toOption hstep)]
        exact h
    · exact hticks (e :: fs) (cons_prefix_cons.mpr ⟨rfl, hfs⟩)

section

variable [TermWidth]

theorem tick_eq {rnd : ℕ} (hfn : r.tickFn = .tickElection) (hstate : r.state ≠ .leader) :
    r.tick rnd =
      if r.electionTimeout ≤ r.electionElapsed + 1 then hup rnd { r with electionElapsed := 0 }
      else .ok { r with electionElapsed := r.electionElapsed + 1 } := by
  have htick : r.tick rnd = r.tickElection rnd := by
    unfold tick
    rw [hfn]
  rw [htick]
  unfold tickElection
  dsimp only
  split_ifs
  · cases hrole : r.state with
    | follower => simp [step, dispatch, stepFollower]
    | candidate => simp [step, dispatch, stepCandidate]
    | leader => exact absurd hrole hstate
  · rfl

/-- A node that does not lead, and is not the only peer. -/
structure Waits (b : ℤ) (r : Raft) : Prop where
  timed : r.clock.Timed b
  not_leader : r.state ≠ .leader
  peers : 2 ≤ r.prs.keys.length

structure Campaigns (r r' : Raft) : Prop where
  state_eq : r'.state = .candidate
  term_eq : r'.term = TermWidth.wrap (r.term + 1)
  elapsed_eq : r'.electionElapsed = 0

theorem Waits.tick (h : r.Waits b) (hb : IsBase b) (rnd : ℕ) :
    Go.IfReturns (r.tick rnd) fun r' => r'.Waits b ∧
      (r'.term = r.term ∧ r'.electionTimeout = r.electionTimeout ∧
        r'.electionElapsed = r.electionElapsed + 1 ∨
      r.electionTimeout ≤ r.electionElapsed + 1 ∧ r.Campaigns r') := by
  have hfn : r.tickFn = .tickElection := h.timed.waits h.not_leader
  rw [tick_eq hfn h.not_leader]
  split_ifs with hup
  · rw [hup_of_peers _ _ (by simpa using (Nat.lt_of_succ_le h.peers).ne')]
    refine Go.ifReturns_bind fun _ => (Go.ifReturns_ok _ _).mpr
      ⟨⟨?_, nofun, h.peers⟩, Or.inr ⟨hup, rfl, rfl, rfl⟩⟩
    exact (h.timed.hear hb).campaign hb rnd
  · refine (Go.ifReturns_ok _ _).mpr ⟨⟨?_, h.not_leader, h.peers⟩, Or.inl ⟨rfl, rfl, rfl⟩⟩
    exact h.timed.ticks hb (@Clock.Ticks.wait _ rnd r.clock hfn (not_le.mp hup))

theorem Waits.run_ticks_term (hb : IsBase b) {rnds : List ℕ} (h : r.Waits b)
    (hrun : node.run r (rnds.map .tick) = some r') (hlt : r.electionElapsed + rnds.length < b) :
    r'.term = r.term := by
  induction rnds generalizing r with
  | nil =>
    obtain rfl : r = r' := Option.some.inj hrun
    rfl
  | cons rnd rnds ih =>
    obtain ⟨r₁, hstep, hrun⟩ := Machine.run_cons.mp hrun
    obtain ⟨h₁, hmove⟩ := h.tick hb rnd r₁ (Go.eq_ok_of_toOption hstep)
    have hle : b ≤ r.electionTimeout := h.timed.le_timeout
    rw [length_cons, Nat.cast_succ] at hlt
    rcases hmove with ⟨hsame, -, helapsed⟩ | ⟨hup, -⟩
    · rw [← hsame]
      exact ih h₁ hrun (by rw [helapsed]; omega)
    · omega

theorem Waits.term_le_of_run_ticks (hb : IsBase b) {rnds : List ℕ} (h : r.Waits b)
    (hterm : TermWidth.wrap (r.term + 1) = r.term + 1)
    (hrun : node.run r (rnds.map .tick) = some r')
    (hlt : r.electionElapsed + rnds.length < 2 * b) : r.term ≤ r'.term := by
  induction rnds generalizing r with
  | nil =>
    obtain rfl : r = r' := Option.some.inj hrun
    exact le_rfl
  | cons rnd rnds ih =>
    obtain ⟨r₁, hstep, hrun⟩ := Machine.run_cons.mp hrun
    obtain ⟨h₁, hmove⟩ := h.tick hb rnd r₁ (Go.eq_ok_of_toOption hstep)
    have hle : b ≤ r.electionTimeout := h.timed.le_timeout
    rw [length_cons, Nat.cast_succ] at hlt
    rcases hmove with ⟨hsame, -, helapsed⟩ | ⟨hup, hcampaign⟩
    · rw [← hsame] at hterm ⊢
      exact ih h₁ hterm hrun (by rw [helapsed]; omega)
    · -- The time that is left is too short for another one.
      have hrest := h₁.run_ticks_term hb hrun (by rw [hcampaign.elapsed_eq]; omega)
      rw [hrest, hcampaign.term_eq, hterm]
      exact Nat.le_succ _

theorem Waits.exists_campaign (hb : IsBase b) {rnds : List ℕ} (h : r.Waits b)
    (hrun : node.run r (rnds.map .tick) = some r')
    (hle : r.electionTimeout ≤ r.electionElapsed + rnds.length) :
    ∃ rnds₁ rnd rnds₂ r₁ r₂, rnds = rnds₁ ++ rnd :: rnds₂ ∧
      node.run r (rnds₁.map .tick) = some r₁ ∧ node.step r₁ (.tick rnd) = some r₂ ∧
      r₁.term = r.term ∧ r₁.Campaigns r₂ ∧ r₂.Waits b ∧
      node.run r₂ (rnds₂.map .tick) = some r' := by
  induction rnds generalizing r with
  | nil =>
    have hlt : r.electionElapsed < r.electionTimeout := h.timed.elapsed_lt h.not_leader
    exact absurd hlt (not_lt.mpr (by simpa using hle))
  | cons rnd rnds ih =>
    obtain ⟨r₁, hstep, hrun⟩ := Machine.run_cons.mp hrun
    obtain ⟨h₁, hmove⟩ := h.tick hb rnd r₁ (Go.eq_ok_of_toOption hstep)
    rcases hmove with ⟨hsame, htimeout, helapsed⟩ | ⟨-, hcampaign⟩
    · rw [length_cons, Nat.cast_succ] at hle
      obtain ⟨rnds₁, rnd', rnds₂, r₂, r₃, rfl, hrun₁, hrest, hterm, hcampaign⟩ :=
        ih h₁ hrun (by rw [htimeout, helapsed]; omega)
      exact ⟨rnd :: rnds₁, rnd', rnds₂, r₂, r₃, rfl, Machine.run_cons.mpr ⟨r₁, hstep, hrun₁⟩,
        hrest, hterm.trans hsame, hcampaign⟩
    · exact ⟨[], rnd, rnds, r, r₁, rfl, rfl, hstep, rfl, hcampaign, h₁, hrun⟩

theorem Waits.exists_run_ticks (hb : IsBase b) {s t : ℕ} (rnds : List ℕ) (h : r.Waits b)
    (hlog : r.raftLog.Based s t) : ∃ r', node.run r (rnds.map .tick) = some r' := by
  induction rnds generalizing r with
  | nil => exact ⟨r, rfl⟩
  | cons rnd rnds ih =>
    obtain ⟨r₁, htick, hlog₁⟩ : ∃ r₁, r.tick rnd = .ok r₁ ∧ r₁.raftLog = r.raftLog := by
      rw [tick_eq (h.timed.waits h.not_leader) h.not_leader]
      split_ifs
      · obtain ⟨x, hx⟩ := hlog.exists_term_lastIndex
        rw [hup_of_peers _ _ (by simpa using (Nat.lt_of_succ_le h.peers).ne')]
        simp only [hx, Go.ok_bind, Go.pure_eq_ok]
        exact ⟨_, rfl, rfl⟩
      · exact ⟨_, rfl, rfl⟩
    obtain ⟨r', hrun⟩ := ih (h.tick hb rnd r₁ htick).1 (hlog₁ ▸ hlog)
    exact ⟨r', Machine.run_cons.mpr ⟨r₁, by simp [node, htick, Except.toOption], hrun⟩⟩

end

def node64 : Machine Raft NodeEvent := @node uint64Term

/-- A node that hears from the leader of its term often enough follows it. Otherwise, if it has
other peers, it campaigns within `2 * b - 1` ticks, unless a message has brought its log in
disorder. Its term is then larger, unless two more campaigns reach the end of its range. -/
theorem election_timer {rnd₀ : ℕ} {c : Config} {r₀ : Raft} (hnew : newRaft rnd₀ c = .ok r₀)
    (hb : c.electionTick = b) (hint : 2 * b ≤ 2^63) {es : List NodeEvent}
    (hrun : node64.run r₀ es = some r) :
    (∀ rnd m r₁ fs, m.IsFromLeader → m.term = r.term → node64.step r (.step rnd m) = some r₁ →
      InTouch b m.fromId r.term fs →
      node64.Throughout (fun r' => r'.state = .follower ∧ r'.term = r.term) r₁ fs) ∧
    (∀ rnds : List ℕ, r.state ≠ .leader → 2 ≤ r.prs.keys.length →
      (rnds.length : ℤ) = 2 * b - 1 →
      (∀ r', node64.run r (rnds.map .tick) = some r' →
        (∃ rnds₁ rnd rnds₂ r₁ r₂, rnds = rnds₁ ++ rnd :: rnds₂ ∧
          node64.run r (rnds₁.map .tick) = some r₁ ∧ node64.step r₁ (.tick rnd) = some r₂ ∧
          r₁.term = r.term ∧ r₂.state = .candidate ∧ r₂.term = (r.term + 1) % 2^64) ∧
        (r.term + 2 < 2^64 → r.term < r'.term)) ∧
      (∀ ms s t, c.storage = some ms → ms.CompactedTo s t → s ≤ maxInt → Ordered es →
        ∃ r', node64.run r (rnds.map .tick) = some r')) := by
  subst hb
  let _ := uint64Term
  obtain ⟨hpos, htimed₀⟩ := timed_of_newRaft hint hnew
  have htimed : r.clock.Timed c.electionTick :=
    Machine.run_invariant (I := fun r => r.clock.Timed c.electionTick)
      (fun _ _ _ h hstep => timed_of_step hpos h hstep) htimed₀ hrun
  refine ⟨fun rnd m r₁ fs hm hterm hstep htouch => ?_, fun rnds hstate hpeers hlen => ?_⟩
  · have hhears := htimed.hears hpos hm hterm
      (step_ifReturns rnd r m r₁ (Go.eq_ok_of_toOption hstep)).1
    exact throughout_of_hears hpos hhears htouch.no_hup htouch.no_later htouch.ticks
  · have hwaits : r.Waits c.electionTick := ⟨htimed, hstate, hpeers⟩
    refine ⟨fun r' hticks => ?_, fun ms s t hc hms hs hes => ?_⟩
    · have hlt : r.electionTimeout < 2 * c.electionTick := htimed.timeout_lt
      have hnonneg : 0 ≤ r.electionElapsed := htimed.elapsed_nonneg
      obtain ⟨rnds₁, rnd, rnds₂, r₁, r₂, rfl, hrun₁, hstep, hterm, hcampaign, hwaits₂, hrun₂⟩ :=
        hwaits.exists_campaign hpos hticks (by omega)
      have hterm₂ : r₂.term = (r.term + 1) % 2^64 := hterm ▸ hcampaign.term_eq
      refine ⟨⟨rnds₁, rnd, rnds₂, r₁, r₂, rfl, hrun₁, hstep, hterm, hcampaign.state_eq, hterm₂⟩,
        fun hfits => ?_⟩
      rw [Nat.mod_eq_of_lt (by omega)] at hterm₂
      have hle := hwaits₂.term_le_of_run_ticks hpos (Nat.mod_eq_of_lt (by omega)) hrun₂ ?_
      · omega
      · rw [length_append, length_cons, Nat.cast_add, Nat.cast_succ] at hlen
        rw [hcampaign.elapsed_eq]
        omega
    · obtain ⟨hrecovered, -⟩ := recovered_of_newRaft hms hc hnew
      exact hwaits.exists_run_ticks hpos rnds
        (persisted_of_run hs hes hrecovered.persisted hrun).toBased

def twoPeers : Config where
  id := 1
  peers := [1, 2]
  electionTick := 3
  heartbeatTick := 1
  storage := some { ents := [{}], hardState := { term := 1 } }

def beatOfTwo : Message := { msgType := .msgHeartbeat, fromId := 2, toId := 1, term := 1 }

def beatBetweenTicks : List NodeEvent :=
  [.tick 0, .tick 0, .step 0 beatOfTwo, .tick 0, .tick 0]

theorem inTouch_beatBetweenTicks : InTouch 3 2 1 beatBetweenTicks where
  no_hup := by
    intro rnd m hm
    obtain ⟨-, rfl⟩ : rnd = 0 ∧ m = beatOfTwo := by simpa [beatBetweenTicks] using hm
    decide
  no_later := by
    intro rnd m hm
    obtain ⟨-, rfl⟩ : rnd = 0 ∧ m = beatOfTwo := by simpa [beatBetweenTicks] using hm
    decide
  ticks := by
    intro fs hfs
    have hall : ∀ fs ∈ beatBetweenTicks.inits,
        ((fs.foldl (ticksSince 2 1) 0 : ℕ) : ℤ) ≤ 3 - 1 := by decide
    exact hall fs ((mem_inits fs _).mpr hfs)

theorem election_timer_twoPeers :
    ∃ r r₁ r', newRaft 0 twoPeers = .ok r ∧ node64.step r (.step 0 beatOfTwo) = some r₁ ∧
      node64.Throughout (fun r' => r'.state = .follower ∧ r'.term = 1) r₁ beatBetweenTicks ∧
      node64.run r ((List.replicate 5 0).map .tick) = some r' ∧ 1 < r'.term := by
  obtain ⟨r, hnew⟩ : ∃ r, newRaft 0 twoPeers = .ok r := ⟨_, rfl⟩
  obtain ⟨hterm, hstate, hpeers⟩ : r.term = 1 ∧ r.state ≠ .leader ∧ 2 ≤ r.prs.keys.length := by
    cases hnew
    exact ⟨rfl, nofun, by decide⟩
  obtain ⟨r₁, hstep⟩ : ∃ r₁, node64.step r (.step 0 beatOfTwo) = some r₁ := by
    cases hnew
    exact ⟨_, rfl⟩
  obtain ⟨hstays, hcampaigns⟩ :=
    election_timer hnew rfl (by decide) (show node64.run r [] = some r from rfl)
  obtain ⟨hlt, hreturns⟩ := hcampaigns (List.replicate 5 0) hstate hpeers (by decide)
  obtain ⟨r', hrun⟩ := hreturns _ 0 0 rfl ⟨⟨{}, rfl, rfl, rfl⟩, by decide, by decide⟩ (by decide)
    (by simp [Ordered])
  have hstay := hstays 0 beatOfTwo r₁ beatBetweenTicks (by decide) hterm.symm hstep
    (hterm ▸ inTouch_beatBetweenTicks)
  rw [hterm] at hstay
  exact ⟨r, r₁, r', hnew, hstep, hstay, hrun, hterm ▸ (hlt r' hrun).2 (by omega)⟩

def lastTerm : Config where
  id := 1
  peers := [1, 2]
  electionTick := 2
  heartbeatTick := 1
  storage := some { ents := [{}], hardState := { term := 2^64 - 1 } }

theorem term_wraps : ∃ r r', newRaft 0 lastTerm = .ok r ∧ r.state = .follower ∧
    2 ≤ r.prs.keys.length ∧ node64.run r ((List.replicate 3 0).map .tick) = some r' ∧
    r'.state = .candidate ∧ r.term = 2^64 - 1 ∧ r'.term = 0 :=
  ⟨_, _, rfl, rfl, by decide, rfl, rfl, rfl, rfl⟩

end Raft

end TinyKV
