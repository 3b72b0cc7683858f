import Mathlib.Logic.Function.Basic
import TinyKV.Latches.Latches
import TinyKV.Machine

/-!
# Mutual exclusion by latches

Any number of clients call `AcquireLatches` and `ReleaseLatches`, where a client releases the keys
that it has latched.
-/

namespace TinyKV

open List

inductive LatchClient
  | idle
  | waiting (keys : List LatchKey) (wg : ℕ)
  | holding (keys : List LatchKey) (wg : ℕ)
deriving DecidableEq, Repr

structure LatchSystem (γ : Type) where
  latches : Latches := newLatches
  clients : γ → LatchClient := fun _ => .idle
  owners : List (γ × List LatchKey) := []

inductive LatchEvent (γ : Type)
  | acquire (c : γ) (keys : List LatchKey)
  | retry (c : γ)
  | giveUp (c : γ)
  | release (c : γ)

namespace LatchSystem

variable {γ : Type}

def acquire [DecidableEq γ] (s : LatchSystem γ) (c : γ) (keys : List LatchKey) : LatchSystem γ :=
  match s.latches.acquireLatches keys with
  | (some wg, l) =>
    { s with latches := l, clients := Function.update s.clients c (.waiting keys wg) }
  | (none, l) =>
    { latches := l
      clients := Function.update s.clients c (.holding keys s.latches.groups.length)
      owners := s.owners ++ [(c, keys)] }

def machine (γ : Type) [DecidableEq γ] : Machine (LatchSystem γ) (LatchEvent γ) where
  step s
    | .acquire c keys => if s.clients c = .idle then some (s.acquire c keys) else none
    | .retry c =>
      match s.clients c with
      | .waiting keys wg => do
        let group ← s.latches.groups[wg]?
        if group.Open then some (s.acquire c keys) else none
      | _ => none
    | .giveUp c =>
      match s.clients c with
      | .waiting _ _ => some { s with clients := Function.update s.clients c .idle }
      | _ => none
    | .release c =>
      match s.clients c with
      | .holding keys _ =>
        match s.latches.releaseLatches keys with
        | .ok l => some { s with latches := l, clients := Function.update s.clients c .idle }
        | .error _ => none
      | _ => none

def held (s : LatchSystem γ) (c : γ) : List LatchKey :=
  match s.clients c with
  | .holding keys _ => keys
  | _ => []

variable {s : LatchSystem γ}

theorem mem_held {c : γ} {k : LatchKey} :
    k ∈ s.held c ↔ ∃ keys g, s.clients c = .holding keys g ∧ k ∈ keys := by
  unfold held
  cases s.clients c <;> simp

/-- What holds of the latches and their clients at any time. -/
structure Inv (s : LatchSystem γ) : Prop where
  owners_length : s.owners.length = s.latches.groups.length
  holding : ∀ c keys g, s.clients c = .holding keys g → s.owners[g]? = some (c, keys)
  waiting : ∀ c keys g, s.clients c = .waiting keys g →
    ∃ d keys', s.owners[g]? = some (d, keys') ∧ keys' ≠ []
  lookup : ∀ k g, s.latches.latchMap.lookup k = some g ↔
    ∃ c keys, s.clients c = .holding keys g ∧ k ∈ keys
  group : ∀ g c keys, s.owners[g]? = some (c, keys) → s.latches.groups[g]? =
    some (⟨1, if keys = [] ∨ s.clients c = .holding keys g then 0 else 1⟩ : WaitGroup)

theorem inv_init : Inv ({} : LatchSystem γ) := by
  refine ⟨rfl, ?_, ?_, ?_, ?_⟩ <;> simp [newLatches]

namespace Inv

variable {c d : γ} {keys : List LatchKey} {g : ℕ}

theorem holding_inj (h : s.Inv) {keys' : List LatchKey} (hc : s.clients c = .holding keys g)
    (hd : s.clients d = .holding keys' g) : c = d := by
  have hown := h.holding c keys g hc
  rw [h.holding d keys' g hd] at hown
  exact (Prod.ext_iff.mp (Option.some.inj hown)).1.symm

theorem lookup_of_holding (h : s.Inv) (hc : s.clients c = .holding keys g) :
    ∀ k ∈ keys, s.latches.latchMap.lookup k = some g :=
  fun k hk => (h.lookup k g).mpr ⟨c, keys, hc, hk⟩

theorem group_of_holding (h : s.Inv) (hc : s.clients c = .holding keys g) :
    s.latches.groups[g]? = some ⟨1, 0⟩ := by
  rw [h.group g c keys (h.holding c keys g hc), if_pos (Or.inr hc)]

variable [DecidableEq γ]

theorem update_clients (h : s.Inv) (hc : ∀ keys g, s.clients c ≠ .holding keys g) {st : LatchClient}
    (hst : ∀ keys g, st ≠ .holding keys g)
    (hwait : ∀ keys g, st = .waiting keys g → ∃ d keys', s.owners[g]? = some (d, keys') ∧ keys' ≠
      []) : Inv { s with clients := Function.update s.clients c st } := by
  have hiff : ∀ d keys g, Function.update s.clients c st d = .holding keys g ↔
      s.clients d = .holding keys g := by
    intro d keys g
    rcases eq_or_ne d c with rfl | hd
    · simp [hst, hc]
    · rw [Function.update_of_ne hd]
  refine ⟨h.owners_length, ?_, ?_, ?_, ?_⟩
  · simpa only [hiff] using h.holding
  · intro d keys g hd
    rcases eq_or_ne d c with rfl | hne
    · simp only [Function.update_self] at hd
      exact hwait keys g hd
    · simp only [Function.update_of_ne hne] at hd
      exact h.waiting d keys g hd
  · simpa only [hiff] using h.lookup
  · simpa only [hiff] using h.group

theorem latch (h : s.Inv) (hc : ∀ keys g, s.clients c ≠ .holding keys g) {l : Latches}
    (hacq : s.latches.acquireLatches keys = (none, l)) :
    Inv {
      latches := l
      clients := Function.update s.clients c (.holding keys s.latches.groups.length)
      owners := s.owners ++ [(c, keys)] } := by
  obtain ⟨hfree, hgroups, hlookup⟩ := Latches.of_acquireLatches_none hacq
  rw [← h.owners_length] at hlookup ⊢
  have hiff : ∀ d keys' g, Function.update s.clients c (.holding keys s.owners.length) d =
      .holding keys' g ↔
        s.clients d = .holding keys' g ∨ d = c ∧ keys' = keys ∧ g = s.owners.length := by
    intro d keys' g
    rcases eq_or_ne d c with rfl | hd
    · simp [hc, eq_comm]
    · simp [hd]
  have hlt : ∀ {g o}, s.owners[g]? = some o → g < s.owners.length :=
    fun ho => (List.getElem?_eq_some_iff.mp ho).1
  refine ⟨by simp [hgroups, h.owners_length], ?_, ?_, ?_, ?_⟩
  · intro d keys' g hd
    rw [Go.getElem?_concat_eq_some]
    rcases (hiff d keys' g).mp hd with hd | ⟨rfl, rfl, rfl⟩
    · exact Or.inl (h.holding d keys' g hd)
    · exact Or.inr ⟨rfl, rfl⟩
  · intro d keys' g hd
    rcases eq_or_ne d c with rfl | hne
    · simp at hd
    · simp only [Function.update_of_ne hne] at hd
      obtain ⟨e, keys'', hown, hkeys⟩ := h.waiting d keys' g hd
      exact ⟨e, keys'', Go.getElem?_concat_eq_some.mpr (Or.inl hown), hkeys⟩
  · intro k g
    simp only [hlookup, hiff]
    split_ifs with hk
    · -- No other client has the key.
      constructor
      · intro hg
        exact ⟨c, keys, Or.inr ⟨rfl, rfl, (Option.some.inj hg).symm⟩, hk⟩
      · rintro ⟨d, keys', hd | ⟨-, -, rfl⟩, hmem⟩
        · have hnone := hfree k hk
          rw [h.lookup_of_holding hd k hmem] at hnone
          cases hnone
        · rfl
    · rw [h.lookup k g]
      constructor
      · rintro ⟨d, keys', hd, hmem⟩
        exact ⟨d, keys', Or.inl hd, hmem⟩
      · rintro ⟨d, keys', hd | ⟨-, rfl, -⟩, hmem⟩
        · exact ⟨d, keys', hd, hmem⟩
        · exact absurd hmem hk
  · intro g d keys' hown
    simp only [hiff, hgroups, Go.getElem?_concat_eq_some]
    rcases Go.getElem?_concat_eq_some.mp hown with hown | ⟨rfl, heq⟩
    · refine Or.inl ?_
      rw [h.group g d keys' hown]
      simp [(hlt hown).ne]
    · obtain ⟨rfl, rfl⟩ : d = c ∧ keys' = keys := by simpa using heq
      exact Or.inr ⟨h.owners_length, by simp⟩

theorem acquire (h : s.Inv) (hc : ∀ keys g, s.clients c ≠ .holding keys g)
    (keys : List LatchKey) : (s.acquire c keys).Inv := by
  unfold LatchSystem.acquire
  rcases hacq : s.latches.acquireLatches keys with ⟨_ | g, l⟩
  · exact h.latch hc hacq
  · -- One of the keys is latched, and the client waits.
    obtain ⟨rfl, k, hk, hlookup⟩ := Latches.of_acquireLatches_some hacq
    refine h.update_clients hc (by simp) ?_
    intro keys' g' heq
    obtain ⟨rfl, rfl⟩ : keys = keys' ∧ g = g' := by simpa using heq
    obtain ⟨d, keys', hd, hmem⟩ := (h.lookup k g).mp hlookup
    exact ⟨d, keys', h.holding d keys' g hd, ne_nil_of_mem hmem⟩

omit [DecidableEq γ] in
theorem releaseLatches (h : s.Inv) (hc : s.clients c = .holding keys g) :
    ∃ l, s.latches.releaseLatches keys = .ok l ∧
      (∀ k, l.latchMap.lookup k = if k ∈ keys then none else s.latches.latchMap.lookup k) ∧
      l.groups = if keys = [] then s.latches.groups else s.latches.groups.set g ⟨1, 1⟩ := by
  by_cases hne : keys = []
  · subst hne
    exact ⟨s.latches, Latches.releaseLatches_nil _, by simp, rfl⟩
  · refine ⟨_, Latches.releaseLatches_eq hne (h.lookup_of_holding hc) (h.group_of_holding hc),
      fun k => ?_, (if_neg hne).symm⟩
    simp [GoMap.lookup_foldl_erase]

omit [DecidableEq γ] in
theorem dones_releaseLatches (h : s.Inv) (hc : s.clients c = .holding keys g) {l : Latches}
    (hl : s.latches.releaseLatches keys = .ok l) (g' : ℕ) :
    l.dones g' = s.latches.dones g' + if g' = g ∧ keys ≠ [] then 1 else 0 := by
  obtain ⟨l', hl', -, hgroups⟩ := h.releaseLatches hc
  obtain rfl : l' = l := by simpa [hl'] using hl
  have hg := h.group_of_holding hc
  have hlt := (List.getElem?_eq_some_iff.mp hg).1
  unfold Latches.dones
  rw [hgroups]
  by_cases hnil : keys = []
  · simp [hnil]
  · rcases eq_or_ne g' g with rfl | hne
    · rw [if_neg hnil, getElem?_set_self hlt, hg]
      simp [hnil]
    · simp [hnil, hne, getElem?_set_ne hne.symm]

theorem release (h : s.Inv) (hc : s.clients c = .holding keys g) {l : Latches}
    (hl : s.latches.releaseLatches keys = .ok l) :
    Inv { s with latches := l, clients := Function.update s.clients c .idle } := by
  obtain ⟨l', hl', hlookup, hgroups⟩ := h.releaseLatches hc
  obtain rfl : l' = l := by simpa [hl'] using hl
  -- The other clients have what they had.
  have hiff : ∀ d keys' g', Function.update s.clients c .idle d = .holding keys' g' ↔
      d ≠ c ∧ s.clients d = .holding keys' g' := by
    intro d keys' g'
    rcases eq_or_ne d c with rfl | hd
    · simp
    · simp [hd]
  refine ⟨?_, ?_, ?_, ?_, ?_⟩
  · have := h.owners_length
    simp only [hgroups]
    split_ifs <;> simpa
  · intro d keys' g' hd
    exact h.holding d keys' g' ((hiff d keys' g').mp hd).2
  · intro d keys' g' hd
    rcases eq_or_ne d c with rfl | hne
    · simp at hd
    · simp only [Function.update_of_ne hne] at hd
      exact h.waiting d keys' g' hd
  · intro k g'
    simp only [hlookup, hiff]
    split_ifs with hk
    · -- No other client has the key.
      refine iff_of_false (by simp) ?_
      rintro ⟨d, keys', ⟨hd, hhold⟩, hmem⟩
      have hg' := h.lookup_of_holding hhold k hmem
      rw [h.lookup_of_holding hc k hk] at hg'
      obtain rfl : g = g' := Option.some.inj hg'
      exact hd (h.holding_inj hhold hc)
    · rw [h.lookup k g']
      constructor
      · rintro ⟨d, keys', hd, hmem⟩
        refine ⟨d, keys', ⟨?_, hd⟩, hmem⟩
        rintro rfl
        rw [hc] at hd
        obtain ⟨rfl, -⟩ : keys = keys' ∧ g = g' := by simpa using hd
        exact hk hmem
      · rintro ⟨d, keys', ⟨-, hd⟩, hmem⟩
        exact ⟨d, keys', hd, hmem⟩
  · intro g' d keys' hown
    simp only [hgroups, hiff]
    have hold := h.group g' d keys' hown
    rcases eq_or_ne g' g with rfl | hg
    · -- The group of the client itself.
      rw [h.holding c keys g' hc] at hown
      obtain ⟨rfl, rfl⟩ : c = d ∧ keys = keys' := by simpa using hown
      have hlt := (List.getElem?_eq_some_iff.mp hold).1
      split_ifs with hnil h1 h2
      · simpa [hnil] using hold
      · exact absurd (Or.inl hnil) h1
      · simp [hnil] at h2
      · simp [hlt]
    · have hset : (if keys = [] then s.latches.groups else s.latches.groups.set g ⟨1, 1⟩)[g']? =
          s.latches.groups[g']? := by
        split_ifs
        · rfl
        · exact getElem?_set_ne hg.symm
      rw [hset, hold]
      congr 3
      rw [eq_iff_iff]
      refine or_congr_right ⟨fun hd => ⟨?_, hd⟩, And.right⟩
      rintro rfl
      rw [hc] at hd
      obtain ⟨-, rfl⟩ : keys = keys' ∧ g = g' := by simpa using hd
      exact hg rfl

end Inv

variable [DecidableEq γ]

theorem dones_acquire (s : LatchSystem γ) (c : γ) (keys : List LatchKey) (g : ℕ) :
    (s.acquire c keys).latches.dones g = s.latches.dones g := by
  unfold LatchSystem.acquire
  rcases hacq : s.latches.acquireLatches keys with ⟨_ | wg, l⟩
  · obtain ⟨-, hgroups, -⟩ := Latches.of_acquireLatches_none hacq
    simp only [Latches.dones, hgroups]
    rcases Nat.lt_trichotomy g s.latches.groups.length with hlt | rfl | hgt
    · rw [getElem?_append_left hlt]
    · simp
    · rw [getElem?_eq_none (by simpa using Nat.succ_le_of_lt hgt),
        getElem?_eq_none hgt.le]
  · obtain ⟨rfl, -⟩ := Latches.of_acquireLatches_some hacq
    rfl

inductive Outcome (s : LatchSystem γ) : LatchEvent γ → LatchSystem γ → Prop
  | acquire {e : LatchEvent γ} {c : γ} {keys : List LatchKey}
      (hc : ∀ keys g, s.clients c ≠ .holding keys g) : Outcome s e (s.acquire c keys)
  | giveUp {e : LatchEvent γ} {c : γ} (hc : ∀ keys g, s.clients c ≠ .holding keys g) :
      Outcome s e { s with clients := Function.update s.clients c .idle }
  | release {c : γ} {keys : List LatchKey} {g : ℕ} {l : Latches}
      (hc : s.clients c = .holding keys g) (hl : s.latches.releaseLatches keys = .ok l) :
      Outcome s (.release c) { s with latches := l, clients := Function.update s.clients c .idle }

theorem outcome_of_step {s s' : LatchSystem γ} {e : LatchEvent γ}
    (h : (machine γ).step s e = some s') : Outcome s e s' := by
  cases e with
  | acquire c keys =>
    simp only [machine] at h
    split_ifs at h with hidle
    obtain rfl := Option.some.inj h
    exact .acquire (by simp [hidle])
  | retry c =>
    cases hc : s.clients c with
    | waiting keys g =>
      simp only [machine, hc] at h
      obtain ⟨group, -, h⟩ := Option.bind_eq_some_iff.mp h
      split_ifs at h
      obtain rfl := Option.some.inj h
      exact .acquire (by simp [hc])
    | _ => simp [machine, hc] at h
  | giveUp c =>
    cases hc : s.clients c with
    | waiting keys g =>
      simp only [machine, hc] at h
      obtain rfl := Option.some.inj h
      exact .giveUp (by simp [hc])
    | _ => simp [machine, hc] at h
  | release c =>
    cases hc : s.clients c with
    | holding keys g =>
      simp only [machine, hc] at h
      split at h
      · rename_i l hl
        obtain rfl := Option.some.inj h
        exact .release hc hl
      · cases h
    | _ => simp [machine, hc] at h

theorem Inv.step {s s' : LatchSystem γ} {e : LatchEvent γ} (h : s.Inv)
    (hstep : (machine γ).step s e = some s') : s'.Inv := by
  cases outcome_of_step hstep with
  | acquire hc => exact h.acquire hc _
  | giveUp hc => exact h.update_clients hc (by simp) (by simp)
  | release hc hl => exact h.release hc hl

theorem inv_of_run {es : List (LatchEvent γ)} (h : (machine γ).run {} es = some s) : s.Inv :=
  Machine.run_invariant (fun _ _ _ hs hstep => hs.step hstep) inv_init h

/-- Mutual exclusion without lost wake-ups. -/
structure Exclusion (s : LatchSystem γ) : Prop where
  disjoint : ∀ c d, c ≠ d → (s.held c).Disjoint (s.held d)
  domain : ∀ k, k ∈ s.latches.latchMap ↔ ∃ c, k ∈ s.held c
  acquire : ∀ keys g l, s.latches.acquireLatches keys = (some g, l) →
    l = s.latches ∧ ∃ c keys', s.clients c = .holding keys' g ∧ ∃ k ∈ keys, k ∈ keys'
  release : ∀ c keys g, s.clients c = .holding keys g → keys ≠ [] →
    ∃ l, s.latches.releaseLatches keys = .ok l ∧
      ∀ g', l.dones g' = s.latches.dones g' + if g' = g then 1 else 0
  marks : ∀ e s' g, (machine γ).step s e = some s' → s'.latches.dones g ≠ s.latches.dones g →
    ∃ c keys, e = .release c ∧ s.clients c = .holding keys g ∧ keys ≠ []
  once : ∀ g c keys, s.owners[g]? = some (c, keys) → keys ≠ [] →
    s.latches.dones g = if s.clients c = .holding keys g then 0 else 1
  never : ∀ g, (∀ c keys, s.owners[g]? = some (c, keys) → keys = []) → s.latches.dones g = 0
  waiting : ∀ c keys g, s.clients c = .waiting keys g → ∃ group, s.latches.groups[g]? = some group ∧
    (¬ group.Open ↔ ∃ d keys', s.clients d = .holding keys' g)

theorem Inv.exclusion (h : s.Inv) : s.Exclusion where
  disjoint := by
    intro c d hne k hkc hkd
    obtain ⟨keys, g, hc, hk⟩ := mem_held.mp hkc
    obtain ⟨keys', g', hd, hk'⟩ := mem_held.mp hkd
    -- The key has one group, and the group was allocated for one client.
    have hg := h.lookup_of_holding hc k hk
    rw [h.lookup_of_holding hd k hk'] at hg
    obtain rfl : g' = g := Option.some.inj hg
    exact hne (h.holding_inj hc hd)
  domain := by
    intro k
    rw [← AList.lookup_isSome, Option.isSome_iff_exists]
    simp only [h.lookup, mem_held]
    exact ⟨fun ⟨g, c, keys, hc, hk⟩ => ⟨c, keys, g, hc, hk⟩,
      fun ⟨c, keys, g, hc, hk⟩ => ⟨g, c, keys, hc, hk⟩⟩
  acquire := by
    intro keys g l hacq
    obtain ⟨rfl, k, hk, hlookup⟩ := Latches.of_acquireLatches_some hacq
    obtain ⟨c, keys', hc, hk'⟩ := (h.lookup k g).mp hlookup
    exact ⟨rfl, c, keys', hc, k, hk, hk'⟩
  release := by
    intro c keys g hc hne
    obtain ⟨l, hl, -⟩ := h.releaseLatches hc
    exact ⟨l, hl, fun g' => by simpa [hne] using h.dones_releaseLatches hc hl g'⟩
  marks := by
    intro e s' g hstep hdones
    cases outcome_of_step hstep with
    | acquire hc => exact absurd (dones_acquire s _ _ g) hdones
    | giveUp hc => exact absurd rfl hdones
    | @release c keys g' l hc hl =>
      have hl' := h.dones_releaseLatches hc hl g
      split_ifs at hl' with heq
      · exact ⟨c, keys, rfl, heq.1 ▸ hc, heq.2⟩
      · exact absurd hl' hdones
  once := by
    intro g c keys hown hne
    simp [Latches.dones, h.group g c keys hown, hne]
  never := by
    intro g hempty
    cases hown : s.owners[g]? with
    | none =>
      have hlen := List.getElem?_eq_none_iff.mp hown
      rw [h.owners_length] at hlen
      simp [Latches.dones, getElem?_eq_none hlen]
    | some owner => simp [Latches.dones, h.group g _ _ hown, hempty _ _ hown]
  waiting := by
    intro c keys g hc
    obtain ⟨d, keys', hown, hne⟩ := h.waiting c keys g hc
    refine ⟨_, h.group g d keys' hown, ?_⟩
    simp only [WaitGroup.Open, hne, false_or]
    constructor
    · intro hopen
      refine ⟨d, keys', ?_⟩
      by_contra hnot
      simp [hnot] at hopen
    · rintro ⟨d', keys'', hd'⟩
      have hown' := h.holding d' keys'' g hd'
      rw [hown] at hown'
      obtain ⟨rfl, rfl⟩ : d = d' ∧ keys' = keys'' := by simpa using hown'
      simp [hd']

/-- In every run of any number of clients, there is mutual exclusion without lost wake-ups. -/
theorem run_exclusion {s : LatchSystem γ} {es : List (LatchEvent γ)}
    (h : (machine γ).run {} es = some s) : s.Exclusion :=
  (inv_of_run h).exclusion

theorem run_exclusion_of_wait : ∃ s, (machine ℕ).run {} [.acquire 0 [[1], [2], [1]],
    .acquire 1 [[3], [2]], .release 0, .retry 1] = some s ∧
      s.clients 1 = .holding [[3], [2]] 1 ∧ s.Exclusion := by
  obtain ⟨s, hs, hc⟩ : ∃ s, (machine ℕ).run {} [.acquire 0 [[1], [2], [1]],
      .acquire 1 [[3], [2]], .release 0, .retry 1] = some s ∧
        s.clients 1 = .holding [[3], [2]] 1 := ⟨_, rfl, rfl⟩
  exact ⟨s, hs, hc, run_exclusion hs⟩

theorem run_no_keys : ∃ s, (machine ℕ).run {} [.acquire 0 [], .release 0] = some s ∧
    s.owners = [(0, [])] ∧ s.clients 0 = .idle ∧ s.latches.dones 0 = 0 :=
  ⟨_, rfl, rfl, rfl, rfl⟩

end LatchSystem

end TinyKV
