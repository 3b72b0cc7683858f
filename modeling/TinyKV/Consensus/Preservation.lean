import TinyKV.Consensus.Safety

/-!
# Steps preserve the invariant

Each step of the protocol keeps `State.Inv`, extends the history and leaves the other nodes alone
(`Step.evolves`).
-/

namespace Consensus

open List
open Function (update)

variable {N V : Type*}

theorem update_update_apply {α β γ : Type*} [DecidableEq α] [DecidableEq β] (f : α → β → γ)
    (x : α) (y : β) (v : γ) (x' : α) (y' : β) :
    update f x (update (f x) y v) x' y' = if x' = x ∧ y' = y then v else f x' y' := by
  by_cases hx : x' = x
  · subst hx
    by_cases hy : y' = y
    · subst hy
      simp
    · simp [hy]
  · simp [hx]

namespace State

variable {Q : QuorumSystem N} {a b : State N V} {n : N}

structure Evolves (Q : QuorumSystem N) (n : N) (a b : State N V) : Prop where
  inv : b.Inv Q
  ext : a.Extends b
  frame : Frame n a b

theorem Evolves.refl (h : a.Inv Q) : Evolves Q n a a :=
  ⟨h, Extends.refl a, Frame.refl n a⟩

theorem Evolves.trans {c : State N V} (h : Evolves Q n a b) (h' : Evolves Q n b c) :
    Evolves Q n a c :=
  ⟨h'.inv, h.ext.trans h'.ext, h.frame.trans h'.frame⟩

theorem Inv.camp_next (h : a.Inv Q) (n : N) : a.camp (a.term n + 1) n = none := by
  rcases hc : a.camp (a.term n + 1) n with _ | l
  · rfl
  · have := h.vote_term n _ n (h.camp_vote _ n l hc)
    omega

theorem Inv.leading_of_le (h : a.Inv Q) {c : N} {t : ℕ} (ht : a.term c ≤ t)
    (hc : a.leader t = some c) : a.log c = a.llog t := by
  obtain rfl : t = a.term c := le_antisymm (h.leader_term hc) ht
  exact h.leading c hc

theorem Inv.commit_ok_of_le (h : a.Inv Q) {p : N} {t : ℕ} (ht : a.term p ≤ t) :
    a.commit p = 0 ∨ ∃ T i, T ≤ t ∧ a.commit p ≤ i ∧ a.Decided Q T i ∧
      (a.log p).take (a.commit p) = (a.llog T).take (a.commit p) := by
  rcases h.commit_ok p with h0 | ⟨T, i, hT, hrest⟩
  · exact Or.inl h0
  · exact Or.inr ⟨T, i, hT.trans ht, hrest⟩

/-- When a node can append to its log as the leader of its term. -/
structure LeadOk (Q : QuorumSystem N) (a : State N V) (n : N) (vs : List V) : Prop where
  unique : ∀ c, a.leader (a.term n) = some c → c = n
  won : ∃ S, Q.IsQuorum S ∧ ∀ p ∈ S, a.vote p (a.term n) = some n
  base : ∃ l ws, a.camp (a.term n) n = some l ∧ ws ≠ [] ∧
    a.log n ++ vs.map (Slot.mk (a.term n)) = l ++ ws.map (Slot.mk (a.term n))
  grows : a.llog (a.term n) <+: a.log n

theorem leadOk_of_elected (h : a.Inv Q) {v : V} {S : Finset N}
    (hcamp : a.camp (a.term n) n = some (a.log n)) (hnew : a.leader (a.term n) ≠ some n)
    (hS : Q.IsQuorum S) (hvotes : ∀ p ∈ S, a.vote p (a.term n) = some n) : LeadOk Q a n [v] := by
  have hunique : ∀ c, a.leader (a.term n) = some c → c = n := fun c hc =>
    h.won_unique hc hS hvotes
  refine ⟨hunique, ⟨S, hS, hvotes⟩, ⟨a.log n, [v], hcamp, by simp, rfl⟩, ?_⟩
  -- The term has no leader yet, and so no log.
  have hnone : a.leader (a.term n) = none := by
    rcases hl : a.leader (a.term n) with _ | c
    · rfl
    · exact absurd (by rw [hl, hunique c hl]) hnew
  rw [h.llog_none _ hnone]
  exact List.nil_prefix

theorem leadOk_of_leader (h : a.Inv Q) {vs : List V} (hlead : a.leader (a.term n) = some n) :
    LeadOk Q a n vs := by
  obtain ⟨l, ws, hcamp, hws, heq⟩ := h.llog_eq _ n hlead
  have hlog := h.leading n hlead
  refine ⟨fun c hc => Option.some.inj (hc.symm.trans hlead), h.won _ n hlead, ?_, ?_⟩
  · refine ⟨l, ws ++ vs, hcamp, by simp [hws], ?_⟩
    rw [hlog, heq]
    simp
  · rw [hlog]

theorem Inv.key_le_merge (h : a.Inv Q) {k : ℕ} (hk : k ≤ (a.llog (a.term n)).length)
    (hterm : termAt (a.llog (a.term n)) k = a.term n) :
    key (a.log n) ≤ key (merge (a.log n) (a.llog (a.term n)) k) := by
  unfold merge
  split_ifs with heq
  · exact le_rfl
  · rw [key_le_key, length_take, Nat.min_eq_left hk, termAt_take le_rfl, hterm]
    rcases (termAt_le (h.log_le n) le_rfl).lt_or_eq with hlt | hlast
    · exact Or.inl hlt
    · refine Or.inr ⟨hlast, ?_⟩
      -- A longer log that ends in the node's term is a prefix of the leader's, and has the slots.
      by_contra hcon
      have hpre := (h.log_traced n).isPrefix (by omega)
      rw [hlast] at hpre
      exact heq (take_of_isPrefix hpre (by omega)).symm

theorem Inv.accepted_key (h : a.Inv Q) {k : ℕ} (hk : k ≤ (a.llog (a.term n)).length)
    (hterm : termAt (a.llog (a.term n)) k = a.term n) (hpos : 0 < k) :
    toLex (a.term n, k) ≤ key (merge (a.log n) (a.llog (a.term n)) k) := by
  unfold merge
  split_ifs with heq
  · -- The node had the slots before, and its own log reaches them.
    have hlen : k ≤ (a.log n).length := le_length_of_take_eq heq hk
    have := h.le_key_of_termAt (h.log_traced n) hpos hlen
    rwa [termAt_congr heq le_rfl, hterm] at this
  · rw [toLex_le_key, length_take, Nat.min_eq_left hk, termAt_take le_rfl, hterm]
    exact Or.inr ⟨rfl, le_rfl⟩

theorem merge_take (l L : List (Slot V)) (k : ℕ) : (merge l L k).take k = L.take k := by
  unfold merge
  split_ifs with h
  · exact h
  · rw [take_take, Nat.min_self]

theorem take_merge {l L : List (Slot V)} {k i : ℕ} (h : l.take i = L.take i) :
    (merge l L k).take i = l.take i := by
  unfold merge
  split_ifs with heq
  · rfl
  · -- A shared prefix of length `k` would not have been replaced.
    have hik : i ≤ k := by
      by_contra hcon
      exact heq (take_eq_of_take_eq h (by omega))
    rw [take_take, Nat.min_eq_left hik, h]

variable [DecidableEq N]

theorem observe_evolves (h : a.Inv Q) {T : ℕ} (hT : a.term n ≤ T) :
    Evolves Q n a (a.observe n T) := by
  have hle : ∀ p, a.term p ≤ update a.term n T p := by
    intro p
    by_cases hp : p = n
    · subst hp
      simpa using hT
    · simp [hp]
  refine ⟨?_, ?_, ?_⟩
  · exact
    { h with
      vote_term := fun p T c hv => (h.vote_term p T c hv).trans (hle p)
      log_le := fun p e he => (h.log_le p e he).trans (hle p)
      leading := fun c hc => h.leading_of_le (hle c) hc
      commit_ok := fun p => h.commit_ok_of_le (hle p) }
  · exact { Extends.refl a with term := hle }
  · exact { Frame.refl n a with term := fun p hp => by simp [observe, hp] }

theorem campaign_camp (T : ℕ) (c : N) : (a.campaign n).camp T c =
    if T = a.term n + 1 ∧ c = n then some (a.log n) else a.camp T c :=
  update_update_apply a.camp _ _ _ _ _

theorem campaign_vote (p : N) (T : ℕ) : (a.campaign n).vote p T =
    if p = n ∧ T = a.term n + 1 then some n else a.vote p T :=
  update_update_apply a.vote _ _ _ _ _

theorem campaign_extends (h : a.Inv Q) : a.Extends (a.campaign n) := by
  refine { Extends.refl a with term := ?_, camp := ?_, vote := ?_ }
  · intro p
    by_cases hp : p = n
    · subst hp
      simp [campaign]
    · simp [campaign, hp]
  · intro T c l hl
    rw [campaign_camp, if_neg]
    · exact hl
    · rintro ⟨rfl, rfl⟩
      rw [h.camp_next] at hl
      cases hl
  · intro p T c hv
    rw [campaign_vote, if_neg]
    · exact hv
    · rintro ⟨rfl, rfl⟩
      have := h.vote_term p _ c hv
      omega

theorem campaign_evolves (h : a.Inv Q) : Evolves Q n a (a.campaign n) := by
  have hext : a.Extends (a.campaign n) := campaign_extends h
  -- A campaign in the new state is one of the old state, or the new one.
  have hcamp : ∀ T c l, (a.campaign n).camp T c = some l →
      a.camp T c = some l ∨ T = a.term n + 1 ∧ c = n ∧ l = a.log n := by
    intro T c l hl
    rw [campaign_camp] at hl
    split_ifs at hl with hc
    · exact Or.inr ⟨hc.1, hc.2, (Option.some.inj hl).symm⟩
    · exact Or.inl hl
  -- The same for votes.
  have hvote : ∀ p T c, (a.campaign n).vote p T = some c →
      a.vote p T = some c ∨ p = n ∧ T = a.term n + 1 ∧ c = n := by
    intro p T c hv
    rw [campaign_vote] at hv
    split_ifs at hv with hc
    · exact Or.inr ⟨hc.1, hc.2, (Option.some.inj hv).symm⟩
    · exact Or.inl hv
  have hself : (a.campaign n).term n = a.term n + 1 := by simp [campaign]
  refine ⟨?_, hext, ?_⟩
  · exact
    { h with
      vote_term := by
        intro p T c hv
        rcases hvote p T c hv with hv | ⟨rfl, rfl, -⟩
        · exact (h.vote_term p T c hv).trans (hext.term p)
        · rw [hself]
      vote_camp := by
        intro p T c hv
        rcases hvote p T c hv with hv | ⟨rfl, rfl, rfl⟩
        · obtain ⟨l, hl⟩ := h.vote_camp p T c hv
          exact ⟨l, hext.camp T c l hl⟩
        · exact ⟨a.log c, by rw [campaign_camp, if_pos ⟨rfl, rfl⟩]⟩
      camp_vote := by
        intro T c l hl
        rcases hcamp T c l hl with hl | ⟨rfl, rfl, -⟩
        · exact hext.vote c T c (h.camp_vote T c l hl)
        · rw [campaign_vote, if_pos ⟨rfl, rfl⟩]
      camp_lt := by
        intro T c l hl e he
        rcases hcamp T c l hl with hl | ⟨rfl, rfl, rfl⟩
        · exact h.camp_lt T c l hl e he
        · exact Nat.lt_succ_of_le (h.log_le c e he)
      camp_traced := by
        intro T c l hl
        rcases hcamp T c l hl with hl | ⟨rfl, rfl, rfl⟩
        · exact h.camp_traced T c l hl
        · exact h.log_traced c
      log_le := fun p e he => (h.log_le p e he).trans (hext.term p)
      won := by
        intro T c hc
        obtain ⟨S, hS, hv⟩ := h.won T c hc
        exact ⟨S, hS, fun p hp => hext.vote p T c (hv p hp)⟩
      llog_eq := by
        intro T c hc
        obtain ⟨l, vs, hl, hrest⟩ := h.llog_eq T c hc
        exact ⟨l, vs, hext.camp T c l hl, hrest⟩
      leading := fun c hc => h.leading_of_le (hext.term c) hc
      vote_ack := by
        -- The only new vote is that of the candidate, which has what it has acknowledged.
        intro p T' c l T i hv hl hTT h0 hi
        rcases hcamp T' c l hl with hold | ⟨rfl, rfl, rfl⟩
        · rcases hvote p T' c hv with hv | ⟨rfl, rfl, rfl⟩
          · exact h.vote_ack p T' c l T i hv hold hTT h0 hi
          · rw [h.camp_next] at hold
            cases hold
        · rcases hvote p _ c hv with hv | ⟨rfl, -, -⟩
          · obtain ⟨l, hl'⟩ := h.vote_camp p _ c hv
            rw [h.camp_next] at hl'
            cases hl'
          · exact h.ack_key p T i h0 hi
      commit_ok := fun p => h.commit_ok_of_le (hext.term p) }
  · refine { Frame.refl n a with term := ?_, vote := ?_, camp := ?_ }
    · intro p hp
      simp [campaign, hp]
    · intro p hp
      simp [campaign, hp]
    · intro T p hp
      rw [campaign_camp, if_neg (fun hc => hp hc.2)]

theorem grant_vote (c p : N) (T : ℕ) : (a.grant n c).vote p T =
    if p = n ∧ T = a.term n then some c else a.vote p T :=
  update_update_apply a.vote _ _ _ _ _

theorem grant_evolves (h : a.Inv Q) {c : N} {l : List (Slot V)}
    (hcamp : a.camp (a.term n) c = some l)
    (hfree : a.vote n (a.term n) = none ∨ a.vote n (a.term n) = some c)
    (hkey : key (a.log n) ≤ key l) : Evolves Q n a (a.grant n c) := by
  -- A vote in the new state is one of the old state, or the new one.
  have hvote : ∀ p T d, (a.grant n c).vote p T = some d →
      a.vote p T = some d ∨ p = n ∧ T = a.term n ∧ d = c := by
    intro p T d hv
    rw [grant_vote] at hv
    split_ifs at hv with hc
    · exact Or.inr ⟨hc.1, hc.2, (Option.some.inj hv).symm⟩
    · exact Or.inl hv
  -- No vote is taken back: the node had not voted, or for the same candidate.
  have hkeep : ∀ p T d, a.vote p T = some d → (a.grant n c).vote p T = some d := by
    intro p T d hv
    rw [grant_vote]
    split_ifs with hc
    · obtain ⟨rfl, rfl⟩ := hc
      rcases hfree with hf | hf
      · rw [hf] at hv
        cases hv
      · exact hf.symm.trans hv
    · exact hv
  refine ⟨?_, ?_, ?_⟩
  · exact
    { h with
      vote_term := by
        intro p T d hv
        rcases hvote p T d hv with hv | ⟨rfl, rfl, -⟩
        · exact h.vote_term p T d hv
        · exact le_rfl
      vote_camp := by
        intro p T d hv
        rcases hvote p T d hv with hv | ⟨-, rfl, rfl⟩
        · exact h.vote_camp p T d hv
        · exact ⟨l, hcamp⟩
      camp_vote := fun T d l' hl' => hkeep d T d (h.camp_vote T d l' hl')
      won := by
        intro T d hd
        obtain ⟨S, hS, hv⟩ := h.won T d hd
        exact ⟨S, hS, fun p hp => hkeep p T d (hv p hp)⟩
      vote_ack := by
        intro p T' d l' T i hv hl' hTT h0 hi
        rcases hvote p T' d hv with hv | ⟨rfl, rfl, rfl⟩
        · exact h.vote_ack p T' d l' T i hv hl' hTT h0 hi
        · -- The voter's log has what it acknowledged, and the candidate's is no less up to date.
          obtain rfl : l = l' := Option.some.inj (hcamp.symm.trans hl')
          exact (h.ack_key p T i h0 hi).trans hkey }
  · exact { Extends.refl a with vote := hkeep }
  · refine { Frame.refl n a with vote := ?_ }
    intro p hp
    simp [grant, hp]

section Lead

variable {vs : List V}

theorem lead_ack (vs : List V) (p : N) (T : ℕ) : (a.lead n vs).ack p T =
    if p = n ∧ T = a.term n then (a.log n ++ vs.map (Slot.mk (a.term n))).length else a.ack p T :=
  update_update_apply a.ack _ _ _ _ _

theorem lead_log (vs : List V) (p : N) : (a.lead n vs).log p =
    if p = n then a.log n ++ vs.map (Slot.mk (a.term n)) else a.log p :=
  Function.update_apply ..

theorem lead_llog (vs : List V) (T : ℕ) : (a.lead n vs).llog T =
    if T = a.term n then a.log n ++ vs.map (Slot.mk (a.term n)) else a.llog T :=
  Function.update_apply ..

theorem lead_leader (vs : List V) (T : ℕ) : (a.lead n vs).leader T =
    if T = a.term n then some n else a.leader T :=
  Function.update_apply ..

theorem lead_extends (h : a.Inv Q) (hok : LeadOk Q a n vs) : a.Extends (a.lead n vs) := by
  have hgrow : a.llog (a.term n) <+: a.log n ++ vs.map (Slot.mk (a.term n)) :=
    hok.grows.trans (prefix_append _ _)
  refine { Extends.refl a with leader := ?_, llog := ?_, ack := ?_ }
  · intro T c hc
    rw [lead_leader]
    split_ifs with hT
    · subst hT
      rw [hok.unique c hc]
    · exact hc
  · intro T
    rw [lead_llog]
    split_ifs with hT
    · subst hT
      exact hgrow
    · exact prefix_rfl
  · intro p T
    rw [lead_ack]
    split_ifs with hc
    · obtain ⟨rfl, rfl⟩ := hc
      exact (h.ack_le p _).trans hgrow.length_le
    · exact le_rfl

theorem lead_log_le (h : a.Inv Q) {p : N} {e : Slot V} (he : e ∈ (a.lead n vs).log p) :
    e.term ≤ a.term p := by
  rw [lead_log] at he
  split_ifs at he with hp
  · subst hp
    rcases mem_append.mp he with he | he
    · exact h.log_le p e he
    · obtain ⟨v, -, rfl⟩ := mem_map.mp he
      exact le_rfl
  · exact h.log_le p e he

theorem lead_log_traced (h : a.Inv Q) (hok : LeadOk Q a n vs) (p : N) :
    (a.lead n vs).Traced ((a.lead n vs).log p) := by
  have hext := lead_extends h hok
  rw [lead_log]
  split_ifs with hp
  · subst hp
    intro i h0 hi
    rcases Nat.lt_or_ge (a.log p).length i with hlt | hge
    · -- A new slot is of the leader's own term, whose log is the leader's.
      rw [termAt_append_map hlt (by simpa using hi), lead_leader, lead_llog, if_pos rfl, if_pos rfl]
      exact ⟨Option.some_ne_none p, rfl⟩
    · rw [termAt_append_left hge, take_append_of_le_length hge]
      exact (h.log_traced p).mono hext i h0 hge
  · exact (h.log_traced p).mono hext

theorem lead_leading (h : a.Inv Q) {c : N} (hc : (a.lead n vs).leader (a.term c) = some c) :
    (a.lead n vs).log c = (a.lead n vs).llog (a.term c) := by
  rw [lead_leader] at hc
  rw [lead_log, lead_llog]
  split_ifs at hc with hT
  · obtain rfl : n = c := Option.some.inj hc
    rw [if_pos rfl, if_pos rfl]
  · have hcn : c ≠ n := fun hcn => hT (by rw [hcn])
    rw [if_neg hcn, if_neg hT]
    exact h.leading c hc

theorem lead_ack_key (h : a.Inv Q) (hok : LeadOk Q a n vs) {p : N} {T i : ℕ} (h0 : 0 < i)
    (hi : i ≤ (a.lead n vs).ack p T) : toLex (T, i) ≤ key ((a.lead n vs).log p) := by
  rw [lead_ack] at hi
  rw [lead_log]
  split_ifs at hi with hc
  · -- The log ends with a slot of the term, since it is longer than that of the campaign.
    obtain ⟨rfl, rfl⟩ := hc
    obtain ⟨l, ws, -, hws, hbase⟩ := hok.base
    have hpos : 0 < ws.length := length_pos_iff.mpr hws
    rw [if_pos rfl, toLex_le_key]
    refine Or.inr ⟨?_, hi⟩
    rw [hbase]
    exact (termAt_append_map (by simp; omega) (by simp)).symm
  · have hkey := h.ack_key p T i h0 hi
    split_ifs with hp
    · -- Appending has only raised the key of the leader's log.
      subst hp
      refine hkey.trans ?_
      rcases eq_or_ne vs [] with rfl | hvs
      · simp
      · exact key_le_key_append hvs (h.log_le p)
    · exact hkey

theorem lead_commit_ok (h : a.Inv Q) (hok : LeadOk Q a n vs) (p : N) :
    a.commit p = 0 ∨ ∃ T i, T ≤ a.term p ∧ a.commit p ≤ i ∧ (a.lead n vs).Decided Q T i ∧
      ((a.lead n vs).log p).take (a.commit p) = ((a.lead n vs).llog T).take (a.commit p) := by
  have hext := lead_extends h hok
  rcases h.commit_ok p with h0 | ⟨T, i, hT, hle, hd, htake⟩
  · exact Or.inl h0
  · refine Or.inr ⟨T, i, hT, hle, hd.mono hext, ?_⟩
    rw [take_of_isPrefix (hext.llog T) (hle.trans hd.2.1), ← htake, lead_log]
    split_ifs with hp
    · subst hp
      exact take_append_of_le_length (h.commit_le_length p)
    · rfl

theorem lead_evolves (h : a.Inv Q) (hok : LeadOk Q a n vs) : Evolves Q n a (a.lead n vs) := by
  have hext : a.Extends (a.lead n vs) := lead_extends h hok
  refine ⟨?_, hext, ?_⟩
  · refine
    { h with
      camp_traced := fun T c l hl => (h.camp_traced T c l hl).mono hext
      log_le := fun p e he => lead_log_le h he
      log_traced := lead_log_traced h hok
      won := ?_
      llog_eq := ?_
      llog_none := ?_
      leading := fun c hc => lead_leading h hc
      ack_le := ?_
      ack_key := fun p T i h0 hi => lead_ack_key h hok h0 hi
      vote_ack := ?_
      commit_ok := lead_commit_ok h hok }
    · intro T c hc
      rw [lead_leader] at hc
      split_ifs at hc with hT
      · obtain rfl : n = c := Option.some.inj hc
        rw [hT]
        exact hok.won
      · exact h.won T c hc
    · intro T c hc
      rw [lead_leader] at hc
      rw [lead_llog]
      split_ifs at hc ⊢ with hT
      · obtain rfl : n = c := Option.some.inj hc
        rw [hT]
        exact hok.base
      · exact h.llog_eq T c hc
    · intro T hc
      rw [lead_leader] at hc
      rw [lead_llog]
      split_ifs at hc ⊢ with hT
      exact h.llog_none T hc
    · intro p T
      rw [lead_ack]
      split_ifs with hc
      · rw [lead_llog, if_pos hc.2]
      · exact (h.ack_le p T).trans (hext.llog T).length_le
    · intro p T' c l' T i hv hl' hTT h0 hi
      rw [lead_ack] at hi
      split_ifs at hi with hc
      · -- The leader has not voted in a term after its own.
        obtain ⟨rfl, rfl⟩ := hc
        have := h.vote_term p T' c hv
        omega
      · exact h.vote_ack p T' c l' T i hv hl' hTT h0 hi
  · refine { Frame.refl n a with log := ?_, leader := ?_ }
    · intro p hp
      rw [lead_log, if_neg hp]
    · intro T p hp hl
      rw [lead_leader] at hl
      split_ifs at hl with hT
      · exact absurd (Option.some.inj hl).symm hp
      · exact hl

end Lead

section Accept

variable {k : ℕ}

theorem accept_ack (k : ℕ) (p : N) (T : ℕ) : (a.accept n k).ack p T =
    if p = n ∧ T = a.term n then max (a.ack n (a.term n)) k else a.ack p T :=
  update_update_apply a.ack _ _ _ _ _

theorem accept_log (k : ℕ) (p : N) : (a.accept n k).log p =
    if p = n then merge (a.log n) (a.llog (a.term n)) k else a.log p :=
  Function.update_apply ..

theorem accept_extends (k : ℕ) : a.Extends (a.accept n k) := by
  refine { Extends.refl a with ack := ?_ }
  intro p T
  rw [accept_ack]
  split_ifs with hc
  · obtain ⟨rfl, rfl⟩ := hc
    exact le_max_left _ _
  · exact le_rfl

theorem accept_log_le (h : a.Inv Q) {p : N} {e : Slot V} (he : e ∈ (a.accept n k).log p) :
    e.term ≤ a.term p := by
  rw [accept_log, merge] at he
  split_ifs at he with hp heq
  · subst hp
    exact h.log_le p e he
  · subst hp
    exact h.llog_le (mem_of_mem_take he)
  · exact h.log_le p e he

theorem accept_log_traced (h : a.Inv Q) (p : N) : (a.accept n k).Traced ((a.accept n k).log p) := by
  have hext : a.Extends (a.accept n k) := accept_extends k
  rw [accept_log, merge]
  split_ifs with hp heq
  · subst hp
    exact (h.log_traced p).mono hext
  · exact ((h.llog_traced _).take k).mono hext
  · exact (h.log_traced p).mono hext

theorem accept_ack_key (h : a.Inv Q) (hk : k ≤ (a.llog (a.term n)).length)
    (hterm : termAt (a.llog (a.term n)) k = a.term n) (hpos : 0 < k) {p : N} {T i : ℕ} (h0 : 0 < i)
    (hi : i ≤ (a.accept n k).ack p T) : toLex (T, i) ≤ key ((a.accept n k).log p) := by
  -- What was acknowledged before is covered by the log that accepting can only have raised.
  have hold : i ≤ a.ack p T → toLex (T, i) ≤ key ((a.accept n k).log p) := by
    intro hack
    rw [accept_log]
    split_ifs with hp
    · subst hp
      exact (h.ack_key p T i h0 hack).trans (h.key_le_merge hk hterm)
    · exact h.ack_key p T i h0 hack
  rw [accept_ack] at hi
  split_ifs at hi with hc
  · obtain ⟨rfl, rfl⟩ := hc
    rcases le_max_iff.mp hi with hi | hi
    · exact hold hi
    · rw [accept_log, if_pos rfl]
      refine le_trans ?_ (h.accepted_key hk hterm hpos)
      rw [Prod.Lex.toLex_le_toLex]
      exact Or.inr ⟨rfl, hi⟩
  · exact hold hi

theorem accept_commit_ok (h : a.Inv Q) {c : N} (hlead : a.leader (a.term n) = some c) (p : N) :
    a.commit p = 0 ∨ ∃ T i, T ≤ a.term p ∧ a.commit p ≤ i ∧ (a.accept n k).Decided Q T i ∧
      ((a.accept n k).log p).take (a.commit p) = (a.llog T).take (a.commit p) := by
  rcases h.commit_ok p with h0 | ⟨T, i, hT, hle, hd, htake⟩
  · exact Or.inl h0
  · refine Or.inr ⟨T, i, hT, hle, hd.mono (accept_extends k), ?_⟩
    rw [accept_log]
    split_ifs with hp
    · subst hp
      rw [take_merge (h.commit_in_llog hlead), htake]
    · exact htake

theorem accept_evolves (h : a.Inv Q) {c : N} (hlead : a.leader (a.term n) = some c)
    (hk : k ≤ (a.llog (a.term n)).length) (hterm : termAt (a.llog (a.term n)) k = a.term n)
    (hpos : 0 < k) : Evolves Q n a (a.accept n k) := by
  have hext : a.Extends (a.accept n k) := accept_extends k
  refine ⟨?_, hext, { Frame.refl n a with log := fun p hp => by rw [accept_log, if_neg hp] }⟩
  refine
    { h with
      camp_traced := fun T c l hl => (h.camp_traced T c l hl).mono hext
      log_le := fun p e he => accept_log_le h he
      log_traced := accept_log_traced h
      leading := ?_
      ack_le := ?_
      ack_key := fun p T i h0 hi => accept_ack_key h hk hterm hpos h0 hi
      vote_ack := ?_
      commit_ok := accept_commit_ok h hlead }
  · -- A leader that accepts its own log keeps it.
    intro d hd
    rw [accept_log]
    split_ifs with hp
    · subst hp
      have hlog : a.log d = a.llog (a.term d) := h.leading d hd
      rw [merge, hlog, if_pos rfl]
      rfl
    · exact h.leading d hd
  · intro p T
    rw [accept_ack]
    split_ifs with hc
    · obtain ⟨rfl, rfl⟩ := hc
      exact max_le (h.ack_le p _) hk
    · exact h.ack_le p T
  · intro p T' d l' T i hv hl' hTT h0 hi
    rw [accept_ack] at hi
    split_ifs at hi with hc
    · -- The node has not voted in a term after the one that it is in.
      obtain ⟨rfl, rfl⟩ := hc
      have := h.vote_term p T' d hv
      omega
    · exact h.vote_ack p T' d l' T i hv hl' hTT h0 hi

end Accept

theorem learn_evolves (h : a.Inv Q) {i T j : ℕ} (hT : T ≤ a.term n) (hij : i ≤ j)
    (hdec : a.Decided Q T j) (hlog : (a.log n).take i = (a.llog T).take i)
    (hcommit : a.commit n ≤ i) : Evolves Q n a (a.learn n i) := by
  refine ⟨?_, ?_, ?_⟩
  · refine { h with commit_ok := ?_ }
    intro p
    by_cases hp : p = n
    · subst hp
      refine Or.inr ⟨T, j, hT, ?_, hdec, ?_⟩
      · simpa [learn] using hij
      · simpa [learn] using hlog
    · have hsame : (a.learn n i).commit p = a.commit p := by simp [learn, hp]
      rw [hsame]
      exact h.commit_ok p
  · refine { Extends.refl a with commit := ?_ }
    intro p
    by_cases hp : p = n
    · subst hp
      simpa [learn] using hcommit
    · simp [learn, hp]
  · exact { Frame.refl n a with commit := fun p hp => by simp [learn, hp] }

end State

open State

variable [DecidableEq N] {Q : QuorumSystem N} {n : N} {a b : State N V}

theorem Step.evolves (h : a.Inv Q) (hs : Step Q n a b) : Evolves Q n a b := by
  cases hs with
  | observe hT => exact observe_evolves h hT
  | campaign => exact campaign_evolves h
  | grant hcamp hvote hkey => exact grant_evolves h hcamp hvote hkey
  | elect hcamp hnew hS hvotes => exact lead_evolves h (leadOk_of_elected h hcamp hnew hS hvotes)
  | append hlead => exact lead_evolves h (leadOk_of_leader h hlead)
  | accept hlead hk hterm hpos => exact accept_evolves h hlead hk hterm hpos
  | learn hT hij hdec hlog hcommit => exact learn_evolves h hT hij hdec hlog hcommit

/-- A run of one node's steps. -/
abbrev Steps (Q : QuorumSystem N) (n : N) : State N V → State N V → Prop :=
  Relation.ReflTransGen (Step Q n)

theorem Steps.evolves (h : a.Inv Q) (hs : Steps Q n a b) : Evolves Q n a b := by
  induction hs with
  | refl => exact Evolves.refl h
  | tail _ hstep ih => exact ih.trans (hstep.evolves ih.inv)

end Consensus
