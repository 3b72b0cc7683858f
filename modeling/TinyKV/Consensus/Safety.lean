import TinyKV.Consensus.Protocol

/-!
# Safety of the protocol

`State.Inv` is the inductive invariant, from which the promises of the protocol follow in one state:
a term has one leader, logs with the same term at a position agree up to it, and a decided position
is in the log of every later leader (`Inv.decided_in_campaign`), so that decided prefixes agree
(`Inv.decided_take_eq`).
-/

namespace Consensus

open List
open Function (update)

variable {N V : Type*}

namespace State

/-- The invariant of the protocol. -/
structure Inv (Q : QuorumSystem N) (a : State N V) : Prop where
  vote_term : ∀ p T c, a.vote p T = some c → T ≤ a.term p
  vote_camp : ∀ p T c, a.vote p T = some c → ∃ l, a.camp T c = some l
  camp_vote : ∀ T c l, a.camp T c = some l → a.vote c T = some c
  camp_lt : ∀ T c l, a.camp T c = some l → ∀ e ∈ l, e.term < T
  camp_traced : ∀ T c l, a.camp T c = some l → a.Traced l
  log_le : ∀ p, ∀ e ∈ a.log p, e.term ≤ a.term p
  log_traced : ∀ p, a.Traced (a.log p)
  won : ∀ T c, a.leader T = some c → ∃ S, Q.IsQuorum S ∧ ∀ p ∈ S, a.vote p T = some c
  llog_eq : ∀ T c, a.leader T = some c →
    ∃ l vs, a.camp T c = some l ∧ vs ≠ [] ∧ a.llog T = l ++ vs.map (Slot.mk T)
  llog_none : ∀ T, a.leader T = none → a.llog T = []
  leading : ∀ c, a.leader (a.term c) = some c → a.log c = a.llog (a.term c)
  ack_le : ∀ p T, a.ack p T ≤ (a.llog T).length
  ack_key : ∀ p T i, 0 < i → i ≤ a.ack p T → toLex (T, i) ≤ key (a.log p)
  vote_ack : ∀ p T' c l T i, a.vote p T' = some c → a.camp T' c = some l → T < T' → 0 < i →
    i ≤ a.ack p T → toLex (T, i) ≤ key l
  commit_ok : ∀ p, a.commit p = 0 ∨ ∃ T i, T ≤ a.term p ∧ a.commit p ≤ i ∧ a.Decided Q T i ∧
    (a.log p).take (a.commit p) = (a.llog T).take (a.commit p)

variable {Q : QuorumSystem N} {a : State N V}

/-- The state in which no node has done anything. -/
def initial : State N V where
  term _ := 0
  log _ := []
  commit _ := 0
  camp _ _ := none
  vote _ _ := none
  leader _ := none
  llog _ := []
  ack _ _ := 0

theorem inv_initial : (initial : State N V).Inv Q where
  vote_term _ _ _ h := by simp [initial] at h
  vote_camp _ _ _ h := by simp [initial] at h
  camp_vote _ _ _ h := by simp [initial] at h
  camp_lt _ _ _ h := by simp [initial] at h
  camp_traced _ _ _ h := by simp [initial] at h
  log_le _ _ h := by simp [initial] at h
  log_traced _ i h0 hi := by simp [initial] at hi; omega
  won _ _ h := by simp [initial] at h
  llog_eq _ _ h := by simp [initial] at h
  llog_none _ _ := rfl
  leading _ h := by simp [initial] at h
  ack_le _ _ := by simp [initial]
  ack_key _ _ i h0 hi := by simp [initial] at hi; omega
  vote_ack _ _ _ _ _ _ h := by simp [initial] at h
  commit_ok _ := Or.inl rfl

variable {T : ℕ}

theorem Inv.leader_term (h : a.Inv Q) {c : N} (hc : a.leader T = some c) : T ≤ a.term c := by
  -- It has campaigned, and so voted for itself.
  obtain ⟨l, vs, hl, -, -⟩ := h.llog_eq T c hc
  exact h.vote_term c T c (h.camp_vote T c l hl)

theorem Inv.won_unique (h : a.Inv Q) {c d : N} (hc : a.leader T = some c)
    {S : Finset N} (hS : Q.IsQuorum S) (hd : ∀ p ∈ S, a.vote p T = some d) : c = d := by
  obtain ⟨S', hS', hc'⟩ := h.won T c hc
  obtain ⟨p, hp, hp'⟩ := Q.inter S S' hS hS'
  -- The common member of the quorums has only one vote.
  have := (hd p hp).symm.trans (hc' p hp')
  exact (Option.some.inj this).symm

theorem Inv.llog_le (h : a.Inv Q) {e : Slot V} (he : e ∈ a.llog T) : e.term ≤ T := by
  rcases hl : a.leader T with _ | c
  · rw [h.llog_none T hl] at he
    simp at he
  · obtain ⟨l, vs, hcamp, -, heq⟩ := h.llog_eq T c hl
    rw [heq] at he
    rcases mem_append.mp he with he | he
    · exact (h.camp_lt T c l hcamp e he).le
    · obtain ⟨v, -, rfl⟩ := mem_map.mp he
      exact le_rfl

theorem Inv.termAt_llog_le (h : a.Inv Q) (T i : ℕ) (hi : i ≤ (a.llog T).length) :
    termAt (a.llog T) i ≤ T :=
  termAt_le (fun _ he => h.llog_le he) hi

theorem Inv.termAt_llog_length (h : a.Inv Q) {c : N} (hc : a.leader T = some c) :
    termAt (a.llog T) (a.llog T).length = T := by
  obtain ⟨l, vs, -, hvs, heq⟩ := h.llog_eq T c hc
  have hpos : 0 < vs.length := length_pos_iff.mpr hvs
  rw [heq]
  exact termAt_append_map (by simp; omega) (by simp)

theorem Inv.llog_length_pos (h : a.Inv Q) {c : N} (hc : a.leader T = some c) :
    0 < (a.llog T).length := by
  obtain ⟨l, vs, -, hvs, heq⟩ := h.llog_eq T c hc
  have hpos : 0 < vs.length := length_pos_iff.mpr hvs
  rw [heq, length_append, length_map]
  omega

theorem Inv.llog_traced (h : a.Inv Q) (T : ℕ) : a.Traced (a.llog T) := by
  intro i h0 hi
  rcases hl : a.leader T with _ | c
  · rw [h.llog_none T hl] at hi
    simp at hi
    omega
  · obtain ⟨l, vs, hcamp, -, heq⟩ := h.llog_eq T c hl
    rcases Nat.lt_or_ge l.length i with hlt | hge
    · -- A slot that the leader has appended is of its own term.
      have hterm : termAt (a.llog T) i = T := by
        rw [heq] at hi ⊢
        exact termAt_append_map hlt (by simpa using hi)
      rw [hterm]
      exact ⟨by simp [hl], rfl⟩
    · -- The others are those of its campaign.
      have htake : (a.llog T).take i = l.take i := by
        rw [heq, take_append_of_le_length hge]
      rw [termAt_congr htake le_rfl, htake]
      exact h.camp_traced T c l hcamp i h0 hge

variable {l : List (Slot V)}

theorem Traced.isPrefix (hl : a.Traced l) (hpos : 0 < l.length) :
    l <+: a.llog (termAt l l.length) := by
  have htake := (hl l.length hpos le_rfl).2
  rw [take_length] at htake
  exact prefix_iff_eq_take.mpr htake

variable (h : a.Inv Q)
include h

theorem Inv.le_key_of_termAt (hl : a.Traced l) {k : ℕ}
    (h0 : 0 < k) (hk : k ≤ l.length) : toLex (termAt l k, k) ≤ key l := by
  have hpre := hl.isPrefix (h0.trans_le hk)
  -- The leader of the last term has no slot of a later one.
  have hle : termAt l k ≤ termAt l l.length := by
    rw [← termAt_congr (take_of_isPrefix hpre hk) le_rfl]
    exact h.termAt_llog_le _ _ (hk.trans hpre.length_le)
  rw [toLex_le_key]
  rcases hle.lt_or_eq with hlt | heq
  · exact Or.inl hlt
  · exact Or.inr ⟨heq, hk⟩

theorem Inv.decided_in_campaign {T i : ℕ} (hd : a.Decided Q T i) :
    ∀ T' c l, T < T' → a.leader T' = some c → a.camp T' c = some l →
      i ≤ l.length ∧ l.take i = (a.llog T).take i := by
  obtain ⟨h0, hi, hterm, S, hS, hack⟩ := hd
  intro T'
  -- The induction is on the later term: the candidate's log comes from a leader between the two.
  induction T' using Nat.strong_induction_on with
  | _ T' ih =>
    intro c l hTT hlead hcamp
    -- A node both acknowledged the position and voted for the candidate.
    obtain ⟨S', hS', hvotes⟩ := h.won T' c hlead
    obtain ⟨p, hp, hp'⟩ := Q.inter S S' hS hS'
    have hkey := h.vote_ack p T' c l T i (hvotes p hp') hcamp hTT h0 (hack p hp)
    have htr := h.camp_traced T' c l hcamp
    have hpos := length_pos_of_le_key h0 hkey
    have hpre := htr.isPrefix hpos
    rw [toLex_le_key] at hkey
    rcases hkey with hlt | ⟨heqT, hle⟩
    · -- The log ends in a term after `T`, whose leader has the position by induction.
      set t := termAt l l.length with ht
      obtain ⟨e, he, het⟩ := exists_mem_termAt hpos le_rfl
      have htT : t < T' := by
        rw [ht, ← het]
        exact h.camp_lt T' c l hcamp e he
      obtain ⟨d, hd⟩ := Option.ne_none_iff_exists'.mp (htr l.length hpos le_rfl).1
      rw [← ht] at hd
      obtain ⟨l', vs, hcamp', -, hll⟩ := h.llog_eq t d hd
      obtain ⟨hi', htake'⟩ := ih t htT d l' hlt hd hcamp'
      have htake : (a.llog t).take i = (a.llog T).take i := by
        rw [hll, take_append_of_le_length hi', htake']
      have hil : i ≤ l.length := by
        -- A shorter log would end with a slot of the leader of `T`, and not after `T`.
        by_contra hcon
        have hlen : l.length ≤ i := by omega
        have hlast : termAt (a.llog t) l.length = t :=
          termAt_congr (take_of_isPrefix hpre le_rfl) le_rfl
        have hbound := h.termAt_llog_le T l.length (hlen.trans hi)
        rw [← termAt_congr htake hlen, hlast] at hbound
        omega
      refine ⟨hil, ?_⟩
      rw [← take_of_isPrefix hpre hil, htake]
    · -- The log ends in the term `T`, and is a prefix of its leader's.
      refine ⟨hle, ?_⟩
      rw [← take_of_isPrefix hpre hle, heqT]

theorem Inv.not_key_le_camp {n c : N} (hlead : a.leader (a.term n) = some n)
    (hcamp : a.camp (a.term n) c = some l) : ¬ key (a.log n) ≤ key l := by
  intro hkey
  have hlast := h.termAt_llog_length hlead
  have hpos := h.llog_length_pos hlead
  rw [← h.leading n hlead] at hlast hpos
  have hlpos : 0 < l.length := length_pos_of_le_key hpos hkey
  obtain ⟨e, he, het⟩ := exists_mem_termAt hlpos le_rfl
  have hlt := h.camp_lt _ _ l hcamp e he
  rw [key_le_key, hlast] at hkey
  omega

theorem Inv.decided_in_llog {T T' i : ℕ} (hd : a.Decided Q T i) (hTT : T ≤ T')
    {c : N} (hlead : a.leader T' = some c) : (a.llog T').take i = (a.llog T).take i := by
  rcases hTT.eq_or_lt with rfl | hlt
  · rfl
  · obtain ⟨l, vs, hcamp, -, heq⟩ := h.llog_eq T' c hlead
    obtain ⟨hle, htake⟩ := h.decided_in_campaign hd T' c l hlt hlead hcamp
    rw [heq, take_append_of_le_length hle, htake]

theorem Inv.decided_in_traced {T i : ℕ} (hd : a.Decided Q T i) (hl : a.Traced l)
    (hkey : toLex (T, i) ≤ key l) : i ≤ l.length ∧ l.take i = (a.llog T).take i := by
  have hpos := length_pos_of_le_key hd.1 hkey
  have hpre := hl.isPrefix hpos
  rw [toLex_le_key] at hkey
  rcases hkey with hlt | ⟨heq, hle⟩
  · -- The log ends in a later term, whose leader has the position.
    obtain ⟨c, hc⟩ := Option.ne_none_iff_exists'.mp (hl l.length hpos le_rfl).1
    have htake := h.decided_in_llog hd hlt.le hc
    have hle : i ≤ l.length := by
      by_contra hcon
      have hlen : l.length ≤ i := by omega
      have hbound := h.termAt_llog_le T l.length (hlen.trans hd.2.1)
      rw [← termAt_congr htake hlen, termAt_congr (take_of_isPrefix hpre le_rfl) le_rfl] at hbound
      omega
    exact ⟨hle, by rw [← take_of_isPrefix hpre hle, htake]⟩
  · exact ⟨hle, by rw [← take_of_isPrefix hpre hle, heq]⟩

theorem Inv.leader_of_decided {T i : ℕ} (hd : a.Decided Q T i) : ∃ c, a.leader T = some c := by
  rcases hl : a.leader T with _ | c
  · have := hd.2.1
    rw [h.llog_none T hl] at this
    have := hd.1
    simp at *
    omega
  · exact ⟨c, rfl⟩

theorem Inv.decided_take_eq {T i T' i' k : ℕ} (hd : a.Decided Q T i) (hd' : a.Decided Q T' i')
    (hk : k ≤ i) (hk' : k ≤ i') : (a.llog T).take k = (a.llog T').take k := by
  obtain ⟨c, hc⟩ := h.leader_of_decided hd
  obtain ⟨c', hc'⟩ := h.leader_of_decided hd'
  rcases Nat.le_total T T' with hle | hle
  · exact (take_eq_of_take_eq (h.decided_in_llog hd hle hc') hk).symm
  · exact take_eq_of_take_eq (h.decided_in_llog hd' hle hc) hk'

theorem Inv.commit_le_length (p : N) : a.commit p ≤ (a.log p).length := by
  rcases h.commit_ok p with h0 | ⟨T, i, -, hle, hd, htake⟩
  · omega
  · exact le_length_of_take_eq htake (hle.trans hd.2.1)

theorem Inv.commit_take_eq {p q : N} {k : ℕ} (hp : k ≤ a.commit p)
    (hq : k ≤ a.commit q) : (a.log p).take k = (a.log q).take k := by
  rcases Nat.eq_zero_or_pos k with rfl | h0
  · simp
  rcases h.commit_ok p with hz | ⟨T, i, -, hle, hd, htake⟩
  · omega
  rcases h.commit_ok q with hz | ⟨T', i', -, hle', hd', htake'⟩
  · omega
  rw [take_eq_of_take_eq htake hp, take_eq_of_take_eq htake' hq]
  exact h.decided_take_eq hd hd' (hp.trans hle) (hq.trans hle')

theorem Inv.commit_in_llog {p c : N} (hlead : a.leader (a.term p) = some c) :
    (a.log p).take (a.commit p) = (a.llog (a.term p)).take (a.commit p) := by
  rcases h.commit_ok p with h0 | ⟨T, i, hT, hle, hd, htake⟩
  · simp [h0]
  · rw [htake]
    exact (take_eq_of_take_eq (h.decided_in_llog hd hT hlead) hle).symm

theorem Inv.acked_take_eq {p : N} {i : ℕ} (hi : i ≤ a.ack p (a.term p)) :
    (a.log p).take i = (a.llog (a.term p)).take i := by
  rcases Nat.eq_zero_or_pos i with rfl | h0
  · simp
  have hkey := h.ack_key p (a.term p) i h0 hi
  have hpre := (h.log_traced p).isPrefix (length_pos_of_le_key h0 hkey)
  have hle : termAt (a.log p) (a.log p).length ≤ a.term p := termAt_le (h.log_le p) le_rfl
  rw [toLex_le_key] at hkey
  rcases hkey with hlt | ⟨heq, hlen⟩
  · omega
  · -- The log ends in the node's term, so that it is a prefix of the leader's.
    rw [← take_of_isPrefix hpre hlen, ← heq]

end State

end Consensus
