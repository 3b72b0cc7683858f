import Mathlib.Logic.Function.Basic
import Mathlib.Logic.Relation
import TinyKV.Consensus.Log
import TinyKV.Consensus.Quorum

/-!
# The protocol

Leader-based replication of a log, as a transition system without messages.
-/

namespace Consensus

open Function (update)

/-- The state of the protocol: each node's term, log and decided prefix, and the history. -/
structure State (N V : Type*) where
  term : N → ℕ
  log : N → List (Slot V)
  commit : N → ℕ
  camp : ℕ → N → Option (List (Slot V))
  vote : N → ℕ → Option N
  leader : ℕ → Option N
  llog : ℕ → List (Slot V)
  ack : N → ℕ → ℕ

variable {N V : Type*}

noncomputable def merge (l L : List (Slot V)) (k : ℕ) : List (Slot V) :=
  open Classical in if l.take k = L.take k then l else L.take k

namespace State

def Decided (Q : QuorumSystem N) (a : State N V) (T i : ℕ) : Prop :=
  0 < i ∧ i ≤ (a.llog T).length ∧ termAt (a.llog T) i = T ∧
    ∃ S, Q.IsQuorum S ∧ ∀ p ∈ S, i ≤ a.ack p T

def Traced (a : State N V) (l : List (Slot V)) : Prop :=
  ∀ i, 0 < i → i ≤ l.length →
    a.leader (termAt l i) ≠ none ∧ l.take i = (a.llog (termAt l i)).take i

/-- The history of `a` is part of that of `b`, and terms and decided prefixes have not shrunk. -/
structure Extends (a b : State N V) : Prop where
  term : ∀ p, a.term p ≤ b.term p
  commit : ∀ p, a.commit p ≤ b.commit p
  camp : ∀ T c l, a.camp T c = some l → b.camp T c = some l
  vote : ∀ p T c, a.vote p T = some c → b.vote p T = some c
  leader : ∀ T c, a.leader T = some c → b.leader T = some c
  llog : ∀ T, a.llog T <+: b.llog T
  ack : ∀ p T, a.ack p T ≤ b.ack p T

/-- What belongs to other nodes than `n` is the same in `a` and `b`. -/
structure Frame (n : N) (a b : State N V) : Prop where
  term : ∀ p, p ≠ n → b.term p = a.term p
  log : ∀ p, p ≠ n → b.log p = a.log p
  commit : ∀ p, p ≠ n → b.commit p = a.commit p
  vote : ∀ p, p ≠ n → b.vote p = a.vote p
  camp : ∀ T p, p ≠ n → b.camp T p = a.camp T p
  leader : ∀ T p, p ≠ n → b.leader T = some p → a.leader T = some p

@[refl]
theorem Extends.refl (a : State N V) : a.Extends a :=
  ⟨fun _ => le_rfl, fun _ => le_rfl, fun _ _ _ h => h, fun _ _ _ h => h, fun _ _ h => h,
    fun _ => List.prefix_rfl, fun _ _ => le_rfl⟩

theorem Extends.trans {a b c : State N V} (h : a.Extends b) (h' : b.Extends c) : a.Extends c :=
  ⟨fun p => (h.term p).trans (h'.term p), fun p => (h.commit p).trans (h'.commit p),
    fun T p l hl => h'.camp T p l (h.camp T p l hl),
    fun p T d hd => h'.vote p T d (h.vote p T d hd),
    fun T d hd => h'.leader T d (h.leader T d hd), fun T => (h.llog T).trans (h'.llog T),
    fun p T => (h.ack p T).trans (h'.ack p T)⟩

@[refl]
theorem Frame.refl (n : N) (a : State N V) : Frame n a a :=
  ⟨fun _ _ => rfl, fun _ _ => rfl, fun _ _ => rfl, fun _ _ => rfl, fun _ _ _ => rfl,
    fun _ _ _ h => h⟩

theorem Frame.trans {n : N} {a b c : State N V} (h : Frame n a b) (h' : Frame n b c) :
    Frame n a c :=
  ⟨fun p hp => (h'.term p hp).trans (h.term p hp), fun p hp => (h'.log p hp).trans (h.log p hp),
    fun p hp => (h'.commit p hp).trans (h.commit p hp),
    fun p hp => (h'.vote p hp).trans (h.vote p hp),
    fun T p hp => (h'.camp T p hp).trans (h.camp T p hp),
    fun T p hp hl => h.leader T p hp (h'.leader T p hp hl)⟩

theorem Traced.mono {a b : State N V} (h : a.Extends b) {l : List (Slot V)} (hl : a.Traced l) :
    b.Traced l := by
  intro i h0 hi
  obtain ⟨hlead, htake⟩ := hl i h0 hi
  obtain ⟨c, hc⟩ := Option.ne_none_iff_exists'.mp hlead
  -- The leader's log has the position already, so what is appended to it comes after.
  refine ⟨by rw [h.leader _ _ hc]; exact Option.some_ne_none c, ?_⟩
  rw [htake, take_of_isPrefix (h.llog _) (le_length_of_take_eq htake.symm hi)]

theorem Decided.mono {Q : QuorumSystem N} {a b : State N V} (h : a.Extends b) {T i : ℕ}
    (hd : a.Decided Q T i) : b.Decided Q T i := by
  obtain ⟨h0, hi, hterm, S, hS, hack⟩ := hd
  refine ⟨h0, hi.trans (h.llog T).length_le, ?_, S, hS, fun p hp => (hack p hp).trans (h.ack p T)⟩
  exact (termAt_congr (take_of_isPrefix (h.llog T) hi) le_rfl).trans hterm

theorem Traced.take_eq {a : State N V} {l m : List (Slot V)} (hl : a.Traced l) (hm : a.Traced m)
    {i : ℕ} (hil : i ≤ l.length) (him : i ≤ m.length) (h : termAt l i = termAt m i) :
    l.take i = m.take i := by
  rcases Nat.eq_zero_or_pos i with rfl | h0
  · simp
  · rw [(hl i h0 hil).2, (hm i h0 him).2, h]

theorem Traced.take {a : State N V} {l : List (Slot V)} (hl : a.Traced l) (k : ℕ) :
    a.Traced (l.take k) := by
  intro i h0 hi
  rw [List.length_take] at hi
  rw [termAt_take (by omega), List.take_take, Nat.min_eq_left (by omega)]
  exact hl i h0 (by omega)

variable [DecidableEq N]

def observe (a : State N V) (n : N) (T : ℕ) : State N V :=
  { a with term := update a.term n T }

def campaign (a : State N V) (n : N) : State N V :=
  { a with
    term := update a.term n (a.term n + 1)
    camp := update a.camp (a.term n + 1) (update (a.camp (a.term n + 1)) n (some (a.log n)))
    vote := update a.vote n (update (a.vote n) (a.term n + 1) (some n)) }

def grant (a : State N V) (n c : N) : State N V :=
  { a with vote := update a.vote n (update (a.vote n) (a.term n) (some c)) }

def lead (a : State N V) (n : N) (vs : List V) : State N V :=
  { a with
    leader := update a.leader (a.term n) (some n)
    log := update a.log n (a.log n ++ vs.map (Slot.mk (a.term n)))
    llog := update a.llog (a.term n) (a.log n ++ vs.map (Slot.mk (a.term n)))
    ack := update a.ack n
      (update (a.ack n) (a.term n) (a.log n ++ vs.map (Slot.mk (a.term n))).length) }

noncomputable def accept (a : State N V) (n : N) (k : ℕ) : State N V :=
  { a with
    log := update a.log n (merge (a.log n) (a.llog (a.term n)) k)
    ack := update a.ack n (update (a.ack n) (a.term n) (max (a.ack n (a.term n)) k)) }

def learn (a : State N V) (n : N) (i : ℕ) : State N V :=
  { a with commit := update a.commit n i }

end State

open State

variable [DecidableEq N]

inductive Step (Q : QuorumSystem N) (n : N) (a : State N V) : State N V → Prop
  | observe {T : ℕ} (h : a.term n ≤ T) : Step Q n a (a.observe n T)
  | campaign : Step Q n a (a.campaign n)
  | grant {c : N} {l : List (Slot V)} (hcamp : a.camp (a.term n) c = some l)
      (hvote : a.vote n (a.term n) = none ∨ a.vote n (a.term n) = some c)
      (hkey : key (a.log n) ≤ key l) : Step Q n a (a.grant n c)
  | elect {v : V} {S : Finset N} (hcamp : a.camp (a.term n) n = some (a.log n))
      (hnew : a.leader (a.term n) ≠ some n) (hS : Q.IsQuorum S)
      (hvotes : ∀ p ∈ S, a.vote p (a.term n) = some n) : Step Q n a (a.lead n [v])
  | append {vs : List V} (hlead : a.leader (a.term n) = some n) : Step Q n a (a.lead n vs)
  | accept {c : N} {k : ℕ} (hlead : a.leader (a.term n) = some c)
      (hk : k ≤ (a.llog (a.term n)).length) (hterm : termAt (a.llog (a.term n)) k = a.term n)
      (hpos : 0 < k) : Step Q n a (a.accept n k)
  | learn {i T j : ℕ} (hT : T ≤ a.term n) (hij : i ≤ j) (hdec : a.Decided Q T j)
      (hlog : (a.log n).take i = (a.llog T).take i) (hcommit : a.commit n ≤ i) :
      Step Q n a (a.learn n i)

end Consensus
