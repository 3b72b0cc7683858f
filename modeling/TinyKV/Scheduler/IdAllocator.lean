import Mathlib.Logic.Function.Basic
import TinyKV.Go
import TinyKV.Machine
import TinyKV.Scheduler.Etcd

/-!
# The id allocator

`AllocatorImpl` of `scheduler/server/id/id.go` hands out the ids of a window `(base, end]`.
-/

namespace TinyKV

open List

def allocStep : ℕ := 1000

structure AllocatorImpl where
  base : ℕ := 0
  end_ : ℕ := 0
deriving DecidableEq, Repr

def newAllocatorImpl : AllocatorImpl := {}

namespace AllocatorImpl

def next (alloc : AllocatorImpl) : ℕ × AllocatorImpl :=
  let alloc := { alloc with base := (alloc.base + 1) % 2^64 }
  (alloc.base, alloc)

def refill (end_ : ℕ) : AllocatorImpl := { base := sub64 end_ allocStep, end_ := end_ }

def generateEnd (value : Option (List UInt8)) : Option ℕ :=
  match value with
  | none => some allocStep
  | some value => do
    let end_ ← Typeutil.bytesToUint64 value
    return (end_ + allocStep) % 2^64

end AllocatorImpl

inductive AllocPhase
  | ready
  | generating (value : Option (List UInt8)) (end_ : ℕ)
deriving DecidableEq, Repr

structure IdSystem (ι μ : Type) where
  value : Option (List UInt8)
  leader : Option μ
  allocs : ι → AllocatorImpl := fun _ => newAllocatorImpl
  phases : ι → AllocPhase := fun _ => .ready
  returned : List ℕ := []

inductive IdEvent (ι μ : Type)
  | setLeader (leader : Option μ)
  | alloc (i : ι)
  | read (i : ι) (err : Bool)
  | commit (i : ι) (outcome : CommitOutcome)

namespace IdSystem

variable {ι μ : Type}

def persisted (s : IdSystem ι μ) : ℕ := (s.value.bind Typeutil.bytesToUint64).getD 0

def answer [DecidableEq ι] (s : IdSystem ι μ) (i : ι) (alloc : AllocatorImpl) : IdSystem ι μ :=
  { s with
    allocs := Function.update s.allocs i alloc.next.2
    phases := Function.update s.phases i .ready
    returned := s.returned ++ [alloc.next.1] }

def fail [DecidableEq ι] (s : IdSystem ι μ) (i : ι) : IdSystem ι μ :=
  { s with phases := Function.update s.phases i .ready }

def Holds (s : IdSystem ι μ) (member : μ) (value : Option (List UInt8)) : Prop :=
  s.value = value ∧ s.leader = some member

instance [DecidableEq μ] (s : IdSystem ι μ) (member : μ) (value : Option (List UInt8)) :
    Decidable (s.Holds member value) := inferInstanceAs (Decidable (_ ∧ _))

def put (s : IdSystem ι μ) (end_ : ℕ) : IdSystem ι μ :=
  { s with value := some (Typeutil.uint64ToBytes end_) }

def commit [DecidableEq ι] [DecidableEq μ] (s : IdSystem ι μ) (member : μ) (i : ι)
    (value : Option (List UInt8)) (end_ : ℕ) (outcome : CommitOutcome) : IdSystem ι μ :=
  if s.Holds member value ∧ outcome.Applies then
    if outcome = .answered then (s.put end_).answer i (AllocatorImpl.refill end_)
    else (s.put end_).fail i
  else s.fail i

def machine [DecidableEq ι] [DecidableEq μ] (member : ι → μ) :
    Machine (IdSystem ι μ) (IdEvent ι μ) where
  step s
    | .setLeader leader => some { s with leader := leader }
    | .alloc i =>
      if s.phases i = .ready ∧ (s.allocs i).base ≠ (s.allocs i).end_ then
        some (s.answer i (s.allocs i))
      else none
    | .read i err =>
      if s.phases i = .ready ∧ (s.allocs i).base = (s.allocs i).end_ then
        if err then some s
        else match AllocatorImpl.generateEnd s.value with
          | some end_ =>
            some { s with phases := Function.update s.phases i (.generating s.value end_) }
          | none => some s
      else none
    | .commit i outcome =>
      match s.phases i with
      | .generating value end_ => some (s.commit (member i) i value end_ outcome)
      | .ready => none

def InWindow (s : IdSystem ι μ) (i : ι) (x : ℕ) : Prop :=
  (s.allocs i).base < x ∧ x ≤ (s.allocs i).end_

/-- What holds at any time of a run in which the key starts with `p`. -/
structure Inv (p : ℕ) (s : IdSystem ι μ) : Prop where
  start_le : p ≤ s.persisted
  end_le : ∀ i, (s.allocs i).end_ ≤ s.persisted
  base_le : ∀ i, (s.allocs i).base ≤ (s.allocs i).end_
  lt_of_mem : ∀ i x, s.InWindow i x → p < x
  disjoint : ∀ i j x, s.InWindow i x → s.InWindow j x → i = j
  generating : ∀ i value end_, s.phases i = .generating value end_ →
    AllocatorImpl.generateEnd value = some end_
  returned_mem : ∀ x ∈ s.returned, p < x ∧ x ≤ s.persisted
  returned_used : ∀ x ∈ s.returned, ∀ i, ¬ s.InWindow i x
  nodup : s.returned.Nodup

theorem inv_init (value : Option (List UInt8)) (leader : Option μ) :
    Inv (persisted { value := value, leader := leader : IdSystem ι μ })
      { value := value, leader := leader : IdSystem ι μ } := by
  have hempty : ∀ i x, ¬ InWindow { value := value, leader := leader : IdSystem ι μ } i x := by
    rintro i x ⟨h1, h2⟩
    exact absurd h2 (not_le.mpr h1)
  refine ⟨le_rfl, fun i => Nat.zero_le _, fun i => le_rfl, fun i x hx => absurd hx (hempty i x),
    fun i j x hx => absurd hx (hempty i x), ?_, ?_, ?_, ?_⟩ <;> simp

namespace Inv

variable {p : ℕ} {s : IdSystem ι μ}

theorem refill (h : s.Inv p) {s' : IdSystem ι μ} {i : ι} (hle : s.persisted ≤ s'.persisted)
    (hother : ∀ j ≠ i, s'.allocs j = s.allocs j)
    (hself : s'.allocs i = s.allocs i ∨
      (s'.allocs i).base = s.persisted ∧ (s'.allocs i).end_ = s'.persisted)
    (hphases : s'.phases = s.phases) (hreturned : s'.returned = s.returned) : s'.Inv p := by
  -- An id that is left to an allocator was left to it before, or comes after the old value.
  have hwindow : ∀ j x, s'.InWindow j x → s.InWindow j x ∨ j = i ∧ s.persisted < x := by
    intro j x hx
    rcases eq_or_ne j i with rfl | hne
    · rcases hself with heq | ⟨hbase, -⟩
      · exact Or.inl (by simpa [InWindow, heq] using hx)
      · exact Or.inr ⟨rfl, hbase ▸ hx.1⟩
    · exact Or.inl (by simpa [InWindow, hother j hne] using hx)
  have hle_of_mem : ∀ j x, s.InWindow j x → x ≤ s.persisted :=
    fun j x hx => hx.2.trans (h.end_le j)
  refine ⟨h.start_le.trans hle, ?_, ?_, ?_, ?_, ?_, ?_, ?_, ?_⟩
  · intro j
    rcases eq_or_ne j i with rfl | hne
    · rcases hself with heq | ⟨-, hend⟩
      · exact heq ▸ (h.end_le j).trans hle
      · exact hend.le
    · exact hother j hne ▸ (h.end_le j).trans hle
  · intro j
    rcases eq_or_ne j i with rfl | hne
    · rcases hself with heq | ⟨hbase, hend⟩
      · exact heq ▸ h.base_le j
      · omega
    · exact hother j hne ▸ h.base_le j
  · intro j x hx
    rcases hwindow j x hx with hx | ⟨-, hx⟩
    · exact h.lt_of_mem j x hx
    · exact h.start_le.trans_lt hx
  · intro j k x hj hk
    rcases hwindow j x hj with hj | ⟨hji, hj⟩ <;> rcases hwindow k x hk with hk | ⟨hki, hk⟩
    · exact h.disjoint j k x hj hk
    · exact absurd (hle_of_mem j x hj) (not_le.mpr hk)
    · exact absurd (hle_of_mem k x hk) (not_le.mpr hj)
    · rw [hji, hki]
  · rw [hphases]
    exact h.generating
  · intro x hx
    rw [hreturned] at hx
    exact ⟨(h.returned_mem x hx).1, (h.returned_mem x hx).2.trans hle⟩
  · intro x hx j hj
    rw [hreturned] at hx
    rcases hwindow j x hj with hj | ⟨-, hj⟩
    · exact h.returned_used x hx j hj
    · exact absurd (h.returned_mem x hx).2 (not_le.mpr hj)
  · rw [hreturned]
    exact h.nodup

variable [DecidableEq ι]

theorem setPhase (h : s.Inv p) (i : ι) (phase : AllocPhase)
    (hphase : ∀ value end_, phase = .generating value end_ → AllocatorImpl.generateEnd value =
      some end_) : Inv p { s with phases := Function.update s.phases i phase } := by
  refine ⟨h.start_le, h.end_le, h.base_le, h.lt_of_mem, h.disjoint, ?_, h.returned_mem,
    h.returned_used, h.nodup⟩
  intro j value end_ hj
  rcases eq_or_ne j i with rfl | hne
  · exact hphase value end_ (by simpa using hj)
  · exact h.generating j value end_ (by simpa [hne] using hj)

theorem fail (h : s.Inv p) (i : ι) : (s.fail i).Inv p :=
  h.setPhase i .ready (by simp)

theorem answer (h : s.Inv p) {i : ι} (hne : (s.allocs i).base ≠ (s.allocs i).end_)
    (hbound : s.persisted < 2^64) : (s.answer i (s.allocs i)).Inv p := by
  have hend := h.end_le i
  have hbase := h.base_le i
  have hnext : (s.allocs i).next = ((s.allocs i).base + 1,
      { s.allocs i with base := (s.allocs i).base + 1 }) := by
    simp only [AllocatorImpl.next]
    rw [Nat.mod_eq_of_lt (by omega)]
  have hin : s.InWindow i ((s.allocs i).base + 1) := ⟨by omega, by omega⟩
  -- The id that is returned is no longer left to the allocator.
  have hwindow : ∀ j x, (s.answer i (s.allocs i)).InWindow j x →
      s.InWindow j x ∧ x ≠ (s.allocs i).base + 1 := by
    intro j x hx
    unfold IdSystem.answer InWindow at hx
    rcases eq_or_ne j i with rfl | hji
    · simp only [Function.update_self, hnext] at hx
      exact ⟨⟨by omega, hx.2⟩, by omega⟩
    · simp only [Function.update_of_ne hji] at hx
      refine ⟨hx, ?_⟩
      rintro rfl
      exact hji (h.disjoint j i _ hx hin)
  have hphases := (h.setPhase i .ready (by simp)).generating
  refine ⟨h.start_le, ?_, ?_, fun j x hx => h.lt_of_mem j x (hwindow j x hx).1,
    fun j k x hj hk => h.disjoint j k x (hwindow j x hj).1 (hwindow k x hk).1, hphases, ?_, ?_, ?_⟩
  · intro j
    change (Function.update s.allocs i _ j).end_ ≤ s.persisted
    rcases eq_or_ne j i with rfl | hji
    · simpa [hnext] using hend
    · simpa [hji] using h.end_le j
  · intro j
    unfold IdSystem.answer
    rcases eq_or_ne j i with rfl | hji
    · simp only [Function.update_self, hnext]
      omega
    · simpa [hji] using h.base_le j
  · intro x hx
    simp only [IdSystem.answer, hnext] at hx
    rcases mem_append.mp hx with hx | hx
    · exact h.returned_mem x hx
    · rw [mem_singleton.mp hx]
      exact ⟨h.lt_of_mem i _ hin, hin.2.trans hend⟩
  · intro x hx j hj
    simp only [IdSystem.answer, hnext] at hx
    rcases mem_append.mp hx with hx | hx
    · exact h.returned_used x hx j (hwindow j x hj).1
    · exact (hwindow j x hj).2 (mem_singleton.mp hx)
  · simp only [IdSystem.answer, hnext]
    refine nodup_append.mpr ⟨h.nodup, by simp, ?_⟩
    intro x hx y hy
    rw [mem_singleton.mp hy]
    rintro rfl
    exact h.returned_used _ hx i hin

end Inv

theorem generateEnd_eq {s : IdSystem ι μ} {end_ : ℕ}
    (h : AllocatorImpl.generateEnd s.value = some end_) (hbound : s.persisted < 2^64 - allocStep) :
    end_ = s.persisted + allocStep := by
  unfold AllocatorImpl.generateEnd at h
  unfold persisted at hbound ⊢
  cases hvalue : s.value with
  | none => simpa [hvalue] using h.symm
  | some value =>
    simp only [hvalue, Option.bind_some] at h hbound ⊢
    obtain ⟨e, he, h⟩ := Option.bind_eq_some_iff.mp h
    rw [he, Option.getD_some] at hbound ⊢
    obtain rfl : (e + allocStep) % 2^64 = end_ := Option.some.inj h
    rw [Nat.mod_eq_of_lt (by omega)]

theorem persisted_put {s : IdSystem ι μ} {end_ : ℕ} (h : end_ < 2^64) :
    (s.put end_).persisted = end_ := by
  simp [persisted, put, Typeutil.bytesToUint64_uint64ToBytes h]

theorem refill_base (n : ℕ) : (AllocatorImpl.refill (n + allocStep)).base = n := by
  rw [AllocatorImpl.refill, sub64_of_le (Nat.le_add_left _ _), Nat.add_sub_cancel]

variable [DecidableEq ι] {p : ℕ} {s s' : IdSystem ι μ} {i : ι}

theorem Inv.granted (h : s.Inv p) (hword : s.persisted + allocStep < 2^64) :
    ((s.put (s.persisted + allocStep)).answer i
      (AllocatorImpl.refill (s.persisted + allocStep))).Inv p := by
  let granted : IdSystem ι μ := { s.put (s.persisted + allocStep) with
    allocs := Function.update s.allocs i (AllocatorImpl.refill (s.persisted + allocStep)) }
  have hself : granted.allocs i = AllocatorImpl.refill (s.persisted + allocStep) :=
    Function.update_self ..
  have hpersisted : granted.persisted = s.persisted + allocStep := persisted_put (s := s) hword
  have hinv : granted.Inv p := by
    refine h.refill (i := i) (by omega) (fun j hj => Function.update_of_ne hj ..) (Or.inr ?_) rfl
      rfl
    rw [hself, refill_base, hpersisted]
    exact ⟨rfl, rfl⟩
  have hanswer : (granted.answer i (granted.allocs i)).Inv p := by
    refine hinv.answer ?_ (by omega)
    rw [hself, refill_base]
    simp [AllocatorImpl.refill, allocStep]
  rw [hself] at hanswer
  simpa [granted, IdSystem.answer, put] using hanswer

theorem Inv.lost (h : s.Inv p) (hword : s.persisted + allocStep < 2^64) :
    ((s.put (s.persisted + allocStep)).fail i).Inv p := by
  have hle : s.persisted ≤ (s.put (s.persisted + allocStep)).persisted := by
    rw [persisted_put hword]
    omega
  exact Inv.fail (h.refill (i := i) hle (fun _ _ => rfl) (Or.inl rfl) rfl rfl) i

variable [DecidableEq μ] {member : ι → μ}

theorem Inv.commit (h : s.Inv p) {value : Option (List UInt8)} {end_ : ℕ}
    (hphase : s.phases i = .generating value end_) (hbound : s.persisted < 2^64 - allocStep)
    (outcome : CommitOutcome) : (s.commit (member i) i value end_ outcome).Inv p := by
  unfold IdSystem.commit
  by_cases hholds : s.Holds (member i) value ∧ outcome.Applies
  · rw [if_pos hholds]
    -- The value is still the one that was read, so that the next window is the one after it.
    obtain ⟨⟨rfl, -⟩, -⟩ := hholds
    obtain rfl := generateEnd_eq (h.generating i _ _ hphase) hbound
    split_ifs
    · exact h.granted (by omega)
    · exact h.lost (by omega)
  · rw [if_neg hholds]
    exact h.fail i

theorem Inv.step {e : IdEvent ι μ} (h : s.Inv p) (hbound : s.persisted < 2^64 - allocStep)
    (hstep : (machine member).step s e = some s') : s'.Inv p := by
  cases e with
  | setLeader leader =>
    obtain rfl := Option.some.inj hstep
    exact ⟨h.start_le, h.end_le, h.base_le, h.lt_of_mem, h.disjoint, h.generating, h.returned_mem,
      h.returned_used, h.nodup⟩
  | alloc i =>
    simp only [machine] at hstep
    split_ifs at hstep with hguard
    obtain rfl := Option.some.inj hstep
    exact h.answer hguard.2 (by omega)
  | read i err =>
    simp only [machine] at hstep
    split_ifs at hstep with hguard
    · obtain rfl := Option.some.inj hstep
      exact h
    · split at hstep
      · rename_i end_ hend
        obtain rfl := Option.some.inj hstep
        refine h.setPhase i _ fun value end_' heq => ?_
        obtain ⟨rfl, rfl⟩ : s.value = value ∧ end_ = end_' := by simpa using heq
        exact hend
      · obtain rfl := Option.some.inj hstep
        exact h
  | commit i outcome =>
    cases hphase : s.phases i with
    | ready => simp [machine, hphase] at hstep
    | generating value end_ =>
      simp only [machine, hphase] at hstep
      obtain rfl := Option.some.inj hstep
      exact h.commit hphase hbound outcome

/-- For any allocators and members, any order of the calls and any changes of the leader, as long as
the value of the key stays far from the largest word: no id is returned twice, and every id comes
after the value at the start and not after the value now. -/
theorem run_unique {value : Option (List UInt8)} {leader : Option μ} {es : List (IdEvent ι μ)}
    (hbound : (machine member).Throughout (fun s => s.persisted < 2^64 - 1000)
      { value := value, leader := leader } es)
    (hrun : (machine member).run { value := value, leader := leader } es = some s) :
    s.returned.Nodup ∧ ∀ x ∈ s.returned,
      persisted { value := value, leader := leader : IdSystem ι μ } < x ∧ x ≤ s.persisted := by
  have hinv := hbound.along.run_invariant (fun s e s' hs hstep hb => hs.step hb hstep)
    (inv_init value leader) hrun
  exact ⟨hinv.nodup, hinv.returned_mem⟩

theorem run_unique_of_two : ∃ s, (machine fun i : Fin 2 => i).run
    { value := none, leader := some 0 } [.read 0 false, .commit 0 .failedApplied, .read 0 false,
      .commit 0 .answered, .alloc 0, .setLeader (some 1), .read 1 false, .commit 1 .answered,
      .alloc 0] = some s ∧ s.returned = [1001, 1002, 2001, 1003] ∧ s.returned.Nodup := by
  obtain ⟨s, hs, hreturned⟩ := Option.map_eq_some_iff.mp (show ((machine fun i : Fin 2 => i).run
    { value := none, leader := some 0 } [.read 0 false, .commit 0 .failedApplied, .read 0 false,
      .commit 0 .answered, .alloc 0, .setLeader (some 1), .read 1 false, .commit 1 .answered,
      .alloc 0]).map IdSystem.returned = some [1001, 1002, 2001, 1003] by decide +kernel)
  exact ⟨s, hs, hreturned, (run_unique (by decide +kernel) hs).1⟩

end IdSystem

end TinyKV
