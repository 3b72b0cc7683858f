import Mathlib.Data.List.Induction
import Mathlib.Logic.Function.Basic
import TinyKV.Machine
import TinyKV.Scheduler.Etcd
import TinyKV.Strconv

/-!
# The GC safe point

`UpdateGCSafePoint` of `scheduler/server/grpc_service.go` reads the safe point, and saves the one of
the request if it is larger, as a text (`scheduler/server/core/storage.go`).
-/

namespace TinyKV

open List

def saveGCSafePoint (safePoint : ℕ) : List Char := Strconv.formatUint 16 safePoint

def loadGCSafePoint (value : List Char) : Option ℕ :=
  if value = [] then some 0 else Strconv.parseUint 16 value

theorem loadGCSafePoint_saveGCSafePoint {x : ℕ} (hx : x < 2^64) :
    loadGCSafePoint (saveGCSafePoint x) = some x := by
  rw [loadGCSafePoint, saveGCSafePoint, if_neg (Strconv.formatUint_ne_nil (by decide) x)]
  exact Strconv.parseUint_formatUint (by decide) (by decide) hx

inductive SafePointRequest
  | idle
  | saving (newSafePoint : ℕ)
deriving DecidableEq, Repr

structure SafePoint (ρ : Type) where
  value : List Char := []
  requests : ρ → SafePointRequest := fun _ => .idle
  returned : List ℕ := []

inductive SafePointEvent (ρ : Type)
  | load (r : ρ) (safePoint : ℕ) (err : Bool)
  | save (r : ρ) (outcome : CommitOutcome)

def SafePointEvent.request {ρ : Type} : SafePointEvent ρ → ρ
  | .load r _ _ => r
  | .save r _ => r

namespace SafePoint

variable {ρ : Type}

def persisted (s : SafePoint ρ) : ℕ := (loadGCSafePoint s.value).getD 0

def load [DecidableEq ρ] (s : SafePoint ρ) (r : ρ) (newSafePoint : ℕ) (err : Bool) : SafePoint ρ :=
  if err then s
  else match loadGCSafePoint s.value with
    | none => s
    | some oldSafePoint =>
      -- Only a larger safe point is saved.
      if oldSafePoint < newSafePoint then
        { s with requests := Function.update s.requests r (.saving newSafePoint) }
      else
        let newSafePoint := if newSafePoint < oldSafePoint then oldSafePoint else newSafePoint
        { s with returned := s.returned ++ [newSafePoint] }

def save [DecidableEq ρ] (s : SafePoint ρ) (r : ρ) (newSafePoint : ℕ) (outcome : CommitOutcome) :
    SafePoint ρ :=
  let s := { s with requests := Function.update s.requests r .idle }
  match outcome with
  | .answered =>
    { s with value := saveGCSafePoint newSafePoint, returned := s.returned ++ [newSafePoint] }
  | .failedApplied => { s with value := saveGCSafePoint newSafePoint }
  | .failedLost => s

def machine (ρ : Type) [DecidableEq ρ] : Machine (SafePoint ρ) (SafePointEvent ρ) where
  step s
    | .load r safePoint err =>
      if s.requests r = .idle ∧ safePoint < 2^64 then some (s.load r safePoint err) else none
    | .save r outcome =>
      match s.requests r with
      | .saving newSafePoint => some (s.save r newSafePoint outcome)
      | .idle => none

def NeverBackwards [DecidableEq ρ] (s : SafePoint ρ) (es : List (SafePointEvent ρ)) : Prop :=
  ∀ es₁ es₂ es₃ s₁ s₂, es = es₁ ++ es₂ ++ es₃ → (machine ρ).run s es₁ = some s₁ →
    (machine ρ).run s₁ es₂ = some s₂ →
    s₁.persisted ≤ s₂.persisted ∧ ∀ v ∈ s₁.returned, v ≤ s₂.persisted

def HasRead [DecidableEq ρ] (es : List (SafePointEvent ρ)) (r : ρ) (v : ℕ) : Prop :=
  (es.filter fun e => e.request = r).getLast? = some (.load r v false)

def Overtaken [DecidableEq ρ] (es : List (SafePointEvent ρ)) : Prop :=
  ∃ es₁ es₂ es₃ r r' v w outcome outcome',
    es = es₁ ++ .save r' outcome' :: es₂ ++ .save r outcome :: es₃ ∧
    HasRead es₁ r v ∧ HasRead es₁ r' w ∧ v < w ∧ (∀ e ∈ es₂, e.request ≠ r) ∧
    outcome.Applies ∧ outcome'.Applies

/-- The event writes a safe point over a larger one. -/
def Overwrites (s : SafePoint ρ) : SafePointEvent ρ → Prop
  | .load _ _ _ => False
  | .save r outcome => outcome.Applies ∧ ∃ v < s.persisted, s.requests r = .saving v

def Words (s : SafePoint ρ) : Prop := ∀ r v, s.requests r = .saving v → v < 2^64

def Bounded (s : SafePoint ρ) : Prop := ∀ v ∈ s.returned, v ≤ s.persisted

variable [DecidableEq ρ] {s s' : SafePoint ρ} {r : ρ} {v : ℕ} {e : SafePointEvent ρ}

theorem persisted_save (hv : v < 2^64) {outcome : CommitOutcome} (houtcome : outcome.Applies) :
    (s.save r v outcome).persisted = v := by
  cases outcome with
  | failedLost => exact absurd rfl houtcome
  | _ => simp [persisted, save, loadGCSafePoint_saveGCSafePoint hv]

theorem persisted_load (err : Bool) : (s.load r v err).persisted = s.persisted := by
  unfold load
  split_ifs
  · rfl
  · split
    · rfl
    · split_ifs <;> rfl

theorem Bounded.load (h : s.Bounded) (err : Bool) : (s.load r v err).Bounded := by
  unfold Bounded
  rw [persisted_load]
  unfold SafePoint.load
  split_ifs
  · exact h
  · split
    · exact h
    · rename_i old hold
      have hpersisted : s.persisted = old := by simp [persisted, hold]
      split_ifs with hlt hgt
      · exact h
      -- What is returned is what was read, in both cases.
      all_goals
        intro w hw
        rcases mem_append.mp hw with hw | hw
        · exact h w hw
        · rw [mem_singleton.mp hw]
          omega

theorem Bounded.save (h : s.Bounded) (hv : v < 2^64) (hle : s.persisted ≤ v)
    (outcome : CommitOutcome) : (s.save r v outcome).Bounded := by
  intro w hw
  cases outcome with
  | failedLost => exact h w hw
  | failedApplied =>
    rw [persisted_save hv (by decide)]
    exact (h w hw).trans hle
  | answered =>
    rw [persisted_save hv (by decide)]
    rcases mem_append.mp hw with hw | hw
    · exact (h w hw).trans hle
    · exact (mem_singleton.mp hw).le

theorem cases_of_step (hstep : (machine ρ).step s e = some s') :
    (∃ r v err, e = .load r v err ∧ v < 2^64 ∧ s' = s.load r v err) ∨
      ∃ r v outcome, e = .save r outcome ∧ s.requests r = .saving v ∧ s' = s.save r v outcome := by
  cases e with
  | load r v err =>
    simp only [machine] at hstep
    split_ifs at hstep with hguard
    exact Or.inl ⟨r, v, err, rfl, hguard.2, (Option.some.inj hstep).symm⟩
  | save r outcome =>
    cases hr : s.requests r with
    | idle => simp [machine, hr] at hstep
    | saving v =>
      simp only [machine, hr] at hstep
      exact Or.inr ⟨r, v, outcome, rfl, hr, (Option.some.inj hstep).symm⟩

theorem saving_of_step (hstep : (machine ρ).step s e = some s') (hr : s'.requests r = .saving v) :
    (e = .load r v false ∧ v < 2^64 ∧ s'.persisted < v) ∨
      e.request ≠ r ∧ s.requests r = .saving v := by
  cases e with
  | load r' v' err =>
    simp only [machine] at hstep
    split_ifs at hstep with hguard
    obtain rfl := Option.some.inj hstep
    rw [persisted_load]
    have hsame : s.requests r = .saving v → r' ≠ r := by
      rintro hsaving rfl
      simp [hguard.1] at hsaving
    unfold load at hr
    split_ifs at hr with herr
    · exact Or.inr ⟨hsame hr, hr⟩
    · split at hr
      · exact Or.inr ⟨hsame hr, hr⟩
      · rename_i old hold
        split_ifs at hr with hlt
        · rcases eq_or_ne r r' with rfl | hne
          · obtain rfl : v' = v := by simpa using hr
            exact Or.inl ⟨by simpa using herr, hguard.2, by simpa [persisted, hold] using hlt⟩
          · exact Or.inr ⟨hne.symm, by simpa [hne] using hr⟩
        all_goals exact Or.inr ⟨hsame hr, hr⟩
  | save r' outcome =>
    rcases cases_of_step hstep with ⟨r₁, v₁, err, heq, -⟩ | ⟨r₁, v₁, o₁, heq, -, rfl⟩
    · cases heq
    · obtain ⟨rfl, rfl⟩ : r' = r₁ ∧ outcome = o₁ := by simpa using heq
      have hupdate : (s.save r' v₁ outcome).requests = Function.update s.requests r' .idle := by
        cases outcome <;> rfl
      rw [hupdate] at hr
      rcases eq_or_ne r r' with rfl | hne
      · simp at hr
      · exact Or.inr ⟨hne.symm, by simpa [hne] using hr⟩

theorem Words.step (h : s.Words) (hstep : (machine ρ).step s e = some s') : s'.Words := by
  intro r v hr
  rcases saving_of_step hstep hr with ⟨-, hv, -⟩ | ⟨-, hsaving⟩
  · exact hv
  · exact h r v hsaving

theorem Bounded.step (h : s.Bounded) (hwords : s.Words) (hstep : (machine ρ).step s e = some s')
    (hover : ¬ s.Overwrites e) : s'.Bounded ∧ s.persisted ≤ s'.persisted := by
  rcases cases_of_step hstep with ⟨r, v, err, -, -, rfl⟩ | ⟨r, v, outcome, rfl, hr, rfl⟩
  · exact ⟨h.load err, (persisted_load err).ge⟩
  · have hv := hwords r v hr
    by_cases hfailed : outcome = .failedLost
    · subst hfailed
      exact ⟨h, le_rfl⟩
    · have hle : s.persisted ≤ v := by
        by_contra hlt
        exact hover ⟨hfailed, v, not_le.mp hlt, hr⟩
      exact ⟨h.save hv hle outcome, by rwa [persisted_save hv hfailed]⟩

section History

variable {es : List (SafePointEvent ρ)}

theorem HasRead.append (h : HasRead es r v) {fs : List (SafePointEvent ρ)}
    (hfs : ∀ e ∈ fs, e.request ≠ r) : HasRead (es ++ fs) r v := by
  have hnil : (fs.filter fun e => e.request = r) = [] := by simpa using hfs
  rw [HasRead, filter_append, hnil, append_nil]
  exact h

theorem HasRead.inj {w : ℕ} (hv : HasRead es r v) (hw : HasRead es r w) : v = w := by
  have heq := hv.symm.trans hw
  simp only [Option.some.injEq, SafePointEvent.load.injEq] at heq
  exact heq.2.1

theorem hasRead_load : HasRead (es ++ [.load r v false]) r v := by
  simp [HasRead, SafePointEvent.request]

structure History (es : List (SafePointEvent ρ)) (s : SafePoint ρ) : Prop where
  words : s.Words
  read : ∀ r v, s.requests r = .saving v → HasRead es r v
  overtaken : ∀ r v, s.requests r = .saving v → v < s.persisted →
    ∃ es₁ es₂ r' w outcome', es = es₁ ++ .save r' outcome' :: es₂ ∧ HasRead es₁ r v ∧
      HasRead es₁ r' w ∧ v < w ∧ (∀ e ∈ es₂, e.request ≠ r) ∧ outcome'.Applies

theorem History.step (h : History es s) (hstep : (machine ρ).step s e = some s') :
    History (es ++ [e]) s' := by
  refine ⟨h.words.step hstep, fun r v hr => ?_, fun r v hr hlt => ?_⟩
  · rcases saving_of_step hstep hr with ⟨rfl, -, -⟩ | ⟨hne, hsaving⟩
    · exact hasRead_load
    · exact (h.read r v hsaving).append (by simpa using hne)
  · rcases saving_of_step hstep hr with ⟨-, -, hle⟩ | ⟨hne, hsaving⟩
    · omega
    -- The larger safe point was there before, or the step has saved it.
    by_cases hbefore : v < s.persisted
    · obtain ⟨es₁, es₂, r', w, outcome', rfl, hr, hr', hvw, hes₂, happlies⟩ :=
        h.overtaken r v hsaving hbefore
      refine ⟨es₁, es₂ ++ [e], r', w, outcome', by simp, hr, hr', hvw, ?_, happlies⟩
      intro e' he'
      rcases mem_append.mp he' with he' | he'
      · exact hes₂ e' he'
      · rwa [mem_singleton.mp he']
    · rcases cases_of_step hstep with ⟨r', w, err, -, -, rfl⟩ | ⟨r', w, outcome', rfl, hr', rfl⟩
      · rw [persisted_load] at hlt
        exact absurd hlt hbefore
      · have happlies : outcome'.Applies := by
          rintro rfl
          exact hbefore hlt
        rw [persisted_save (h.words r' w hr') happlies] at hlt
        exact ⟨es, [], r', w, outcome', rfl, h.read r v hsaving, h.read r' w hr', hlt, by simp,
          happlies⟩

theorem history_of_run {value : List Char}
    (hrun : (machine ρ).run { value := value } es = some s) : History es s := by
  induction es using List.reverseRecOn generalizing s with
  | nil =>
    obtain rfl := Option.some.inj hrun
    exact ⟨fun r v hr => by simp at hr, fun r v hr => by simp at hr, fun r v hr => by simp at hr⟩
  | append_singleton es e ih =>
    obtain ⟨s₁, hrun, hstep⟩ := Machine.run_append.mp hrun
    rw [Machine.run_singleton] at hstep
    exact (ih hrun).step hstep

theorem overtaken_of_overwrites {value : List Char} {es₂ : List (SafePointEvent ρ)}
    (hrun : (machine ρ).run { value := value } es = some s) (hover : s.Overwrites e) :
    Overtaken (es ++ e :: es₂) := by
  cases e with
  | load r v err => exact hover.elim
  | save r outcome =>
    obtain ⟨happlies, v, hlt, hr⟩ := hover
    obtain ⟨es₁, es₃, r', w, outcome', rfl, hread, hread', hvw, hes₃, happlies'⟩ :=
      (history_of_run hrun).overtaken r v hr hlt
    exact ⟨es₁, es₃, es₂, r, r', v, w, outcome, outcome', rfl, hread, hread', hvw, hes₃, happlies,
      happlies'⟩

theorem persisted_of_hasRead {value : List Char} {outcome : CommitOutcome}
    (hrun : (machine ρ).run { value := value } es = some s) (hread : HasRead es r v)
    (hstep : (machine ρ).step s (.save r outcome) = some s') (happlies : outcome.Applies) :
    s'.persisted = v := by
  have h := history_of_run hrun
  rcases cases_of_step hstep with ⟨r₁, v₁, err, heq, -⟩ | ⟨r₁, v₁, o₁, heq, hr, rfl⟩
  · cases heq
  · obtain ⟨rfl, rfl⟩ : r = r₁ ∧ outcome = o₁ := by simpa using heq
    rw [persisted_save (h.words r v₁ hr) happlies]
    exact (h.read r v₁ hr).inj hread

theorem NeverBackwards.not_overtaken {value : List Char}
    (hrun : (machine ρ).run { value := value } es = some s)
    (h : NeverBackwards { value := value } es) : ¬ Overtaken es := by
  rintro ⟨es₁, es₂, es₃, r, r', v, w, outcome, outcome', rfl, hread, hread', hvw, hes₂, happlies,
    happlies'⟩
  obtain ⟨s₄, hrun₄, hrun⟩ := Machine.run_append.mp hrun
  obtain ⟨s₁, hrun₁, hrun₂⟩ := Machine.run_append.mp hrun₄
  obtain ⟨s₂, hstep', hrun₂⟩ := Machine.run_cons.mp hrun₂
  obtain ⟨s₅, hstep, -⟩ := Machine.run_cons.mp hrun
  have hw : s₂.persisted = w := persisted_of_hasRead hrun₁ hread' hstep' happlies'
  have hne : r' ≠ r := by
    rintro rfl
    exact hvw.ne (hread.inj hread')
  have hv : s₅.persisted = v := by
    refine persisted_of_hasRead hrun₄ (hread.append fun e he => ?_) hstep happlies
    rcases mem_cons.mp he with rfl | he
    · exact hne
    · exact hes₂ e he
  have hle := (h (es₁ ++ [.save r' outcome']) (es₂ ++ [.save r outcome]) es₃ s₂ s₅ (by simp)
    (Machine.run_append.mpr ⟨s₁, hrun₁, by rwa [Machine.run_singleton]⟩)
    (Machine.run_append.mpr ⟨s₄, hrun₂, by rwa [Machine.run_singleton]⟩)).1
  omega

theorem neverBackwards_of_not_overtaken {value : List Char} (h : ¬ Overtaken es) :
    NeverBackwards { value := value } es := by
  have halong : (machine ρ).Along (fun s e _ => ¬ s.Overwrites e) { value := value } es := by
    rintro es₁ e es₂ s₁ s₂ rfl hrun - hover
    exact h (overtaken_of_overwrites hrun hover)
  rintro es₁ es₂ es₃ s₁ s₂ rfl hrun₁ hrun₂
  have hbounded : s₁.Words ∧ s₁.Bounded := by
    refine halong.left.left.run_invariant (I := fun s => s.Words ∧ s.Bounded)
      (fun s e s' hs hstep hover => ?_) ⟨fun r v hr => by simp at hr, by simp [Bounded]⟩ hrun₁
    exact ⟨hs.1.step hstep, (hs.2.step hs.1 hstep hover).1⟩
  -- From there on, what is stored does not decrease.
  have hle : s₂.Words ∧ s₂.Bounded ∧ s₁.persisted ≤ s₂.persisted := by
    refine (halong.left.right hrun₁).run_invariant
      (I := fun s => s.Words ∧ s.Bounded ∧ s₁.persisted ≤ s.persisted)
      (fun s e s' hs hstep hover => ?_) ⟨hbounded.1, hbounded.2, le_rfl⟩ hrun₂
    obtain ⟨hb, hmono⟩ := hs.2.1.step hs.1 hstep hover
    exact ⟨hs.1.step hstep, hb, hs.2.2.trans hmono⟩
  exact ⟨hle.2.2, fun v hv => (hbounded.2 v hv).trans hle.2.2⟩

/-- For any run, from any stored text: the safe point never moves backwards if and only if no
request is overtaken between its read and its save. -/
theorem neverBackwards_iff {value : List Char} {es : List (SafePointEvent ρ)} {s : SafePoint ρ}
    (hrun : (machine ρ).run { value := value } es = some s) :
    NeverBackwards { value := value } es ↔ ¬ Overtaken es :=
  ⟨fun h => h.not_overtaken hrun, neverBackwards_of_not_overtaken⟩

theorem neverBackwards_in_turn : NeverBackwards {} [.load 0 20 false, .save 0 .answered,
    .load 1 10 false] := by
  refine (neverBackwards_iff rfl).mpr ?_
  -- There is only one save.
  rintro ⟨es₁, es₂, es₃, r, r', v, w, outcome, outcome', heq, -⟩
  rcases es₁ with _ | ⟨a, _ | ⟨b, _ | ⟨c, es₁⟩⟩⟩ <;> rcases es₂ with _ | ⟨d, es₂⟩ <;> simp at heq

end History

theorem lost_update : ∃ s₁ s₂, (machine ℕ).run {} [.load 0 10 false, .load 1 20 false,
      .save 1 .answered] = some s₁ ∧ (machine ℕ).run s₁ [.save 0 .answered] = some s₂ ∧
    s₁.persisted = 20 ∧ s₁.returned = [20] ∧ s₂.persisted = 10 :=
  ⟨_, _, rfl, rfl, rfl, rfl, rfl⟩

end SafePoint

end TinyKV
