import Mathlib.Data.Fintype.Basic
import Mathlib.Data.Int.ConditionallyCompleteOrder
import Mathlib.Order.CompletePartialOrder
import Mathlib.Order.ConditionallyCompleteLattice.Basic
import Mathlib.Order.Interval.Set.Disjoint
import TinyKV.Scheduler.TsoInv

/-!
# Timestamps are unique

`GetRespTS` returns the time of an object in milliseconds, which Go truncates towards zero, and a
part of its logical range.
-/

namespace TinyKV

open List

def millis (x : Int64) : ℤ := (x / millisecond).toInt

theorem millis_eq (x : Int64) :
    millis x = if 0 ≤ x.toInt then x.toInt / 1000000 else -(-x.toInt / 1000000) := by
  rw [millis, Int64.toInt_div_of_ne_right _ _ (by decide)]
  change x.toInt.tdiv 1000000 = _
  split_ifs with h
  · exact Int.tdiv_eq_ediv_of_nonneg h
  · have hneg := Int.neg_tdiv (-x.toInt) 1000000
    have hpos : (-x.toInt).tdiv 1000000 = -x.toInt / 1000000 :=
      Int.tdiv_eq_ediv_of_nonneg (by omega)
    rwa [neg_neg, hpos] at hneg

theorem millis_mono {x y : Int64} (h : x.toInt ≤ y.toInt) : millis x ≤ millis y := by
  rw [millis_eq, millis_eq]
  split_ifs <;> omega

theorem millis_lt_iff {x y : Int64} (h : x.toInt + 1000000 ≤ y.toInt) :
    millis x < millis y ↔ ¬ (LastBefore x ∧ y.toInt < 1000000) := by
  rw [millis_eq, millis_eq, LastBefore]
  split_ifs <;> omega

namespace TsoCluster

variable {μ : Type} {s s' : TsoCluster μ} {saveInterval : Int64}

def Increasing (s : TsoCluster μ) : Prop :=
  s.objects.Pairwise fun a a' => a.leadership = a'.leadership →
    millis a.physical < millis a'.physical

theorem Effect.getElem? {crosses : Prop} (h : s.Effect s' crosses) {i : ℕ} {a : AtomicObject}
    (ha : s.objects[i]? = some a) : s'.objects[i]? = some a := by
  cases h with
  | quiet hobjects => rwa [hobjects]
  | updated _ _ hobjects => rw [hobjects, Go.getElem?_concat_eq_some]; exact .inl ha
  | started hobjects => rw [hobjects, Go.getElem?_concat_eq_some]; exact .inl ha

theorem Increasing.step_iff {crosses : Prop} (hinc : s.Increasing) (hinv : s.Inv saveInterval)
    (heffect : s.Effect s' crosses) : s'.Increasing ↔ ¬ crosses := by
  unfold Increasing
  cases heffect with
  | quiet hobjects hcross =>
    rw [hobjects]
    exact iff_of_true hinc hcross
  | @updated o k x b next hat hx hobjects hcross =>
    rw [hobjects, hcross, ← millis_lt_iff hx]
    constructor
    · intro h
      exact (pairwise_append.mp h).2.2 ⟨x, k⟩ hat.mem ⟨next, k⟩ (mem_singleton_self _) rfl
    · intro hlt
      refine pairwise_append.mpr ⟨hinc, pairwise_singleton _ _, fun a ha a' ha' hk => ?_⟩
      obtain rfl := mem_singleton.mp ha'
      -- The time before is the largest of the leadership.
      exact (millis_mono (hat.newest a ha hk)).trans_lt hlt
  | started hobjects hcross =>
    rw [hobjects]
    refine iff_of_true (pairwise_append.mpr ⟨hinc, pairwise_singleton _ _,
      fun a ha a' ha' hk => ?_⟩) hcross
    obtain rfl := mem_singleton.mp ha'
    obtain ⟨b, hb, -⟩ := hinv.ordered.object_lt a ha
    exact absurd hk hb.lt_length.ne

theorem Increasing.millis_ne (hinc : s.Increasing) (hinv : s.Inv saveInterval) {i j : ℕ}
    {a a' : AtomicObject} (ha : s.objects[i]? = some a) (ha' : s.objects[j]? = some a')
    (hne : i ≠ j) : millis a.physical ≠ millis a'.physical := by
  -- An object of an earlier leadership is more than two milliseconds earlier.
  have hearlier : ∀ a ∈ s.objects, ∀ a' ∈ s.objects, a.leadership < a'.leadership →
      millis a.physical < millis a'.physical := by
    intro a ha a' ha' hk
    obtain ⟨b, hb, hlt⟩ := hinv.ordered.object_lt a ha
    have hle := hinv.ordered.object_ge a' ha' _ b hk hb
    refine (millis_lt_iff (by omega)).mpr ?_
    rintro ⟨⟨hx, -⟩, hy⟩
    omega
  have hmem := mem_of_getElem? ha
  have hmem' := mem_of_getElem? ha'
  obtain ⟨hi, rfl⟩ := List.getElem?_eq_some_iff.mp ha
  obtain ⟨hj, rfl⟩ := List.getElem?_eq_some_iff.mp ha'
  rcases Nat.lt_trichotomy s.objects[i].leadership s.objects[j].leadership with hk | hk | hk
  · exact (hearlier _ hmem _ hmem' hk).ne
  · have hpairwise := pairwise_iff_getElem.mp hinc
    rcases Nat.lt_or_gt_of_ne hne with hij | hij
    · exact (hpairwise i j hi hj hij hk).ne
    · exact (hpairwise j i hj hi hij hk.symm).ne'
  · exact (hearlier _ hmem' _ hmem hk).ne'

end TsoCluster

def TsoRequest.Fits {μ : Type} (logical : ℕ → Int64) : TsoRequest μ → Prop
  | .loaded _ count _ ptr => (logical ptr).toInt + count.toNat < 2^63
  | .idle | .looping .. => True

instance {μ : Type} (logical : ℕ → Int64) : (q : TsoRequest μ) → Decidable (q.Fits logical)
  | .loaded .. => inferInstanceAs (Decidable (_ < _))
  | .idle | .looping .. => isTrue trivial

namespace TsoSystem

variable {μ ρ : Type} {s s' : TsoSystem μ ρ} {saveInterval : Int64}

def InRange (saveInterval : Int64) (s : TsoSystem μ ρ) : TsoEvent μ ρ → Prop
  | .oracle e => s.oracles.InRange saveInterval e
  | .add r _ => (s.requests r).Fits s.logical
  | .call .. | .load _ => True

def CrossesZero (s : TsoSystem μ ρ) : TsoEvent μ ρ → Prop
  | .oracle e => s.oracles.CrossesZero s.logical e
  | _ => False

instance (saveInterval : Int64) (s : TsoSystem μ ρ) :
    (e : TsoEvent μ ρ) → Decidable (s.InRange saveInterval e)
  | .oracle e => inferInstanceAs (Decidable (s.oracles.InRange saveInterval e))
  | .add r _ => inferInstanceAs (Decidable ((s.requests r).Fits s.logical))
  | .call .. | .load .. => isTrue trivial

instance [DecidableEq μ] (s : TsoSystem μ ρ) : (e : TsoEvent μ ρ) → Decidable (s.CrossesZero e)
  | .oracle e => inferInstanceAs (Decidable (s.oracles.CrossesZero s.logical e))
  | .add .. | .call .. | .load .. => isFalse id

/-- What holds of the calls of `GetRespTS` at any time. -/
structure Calls (s : TsoSystem μ ρ) : Prop where
  response : ∀ a ∈ s.responses, (∃ o, s.oracles.objects[a.ptr]? = some o ∧
    a.physical.toInt = millis o.physical) ∧ a.logical.toInt ≤ (s.logical a.ptr).toInt
  ordered : s.responses.Pairwise fun a b => a.ptr = b.ptr →
    a.logical.toInt ≤ b.logical.toInt - (b.count.toNat : ℤ)

structure Correct (s : TsoSystem μ ρ) : Prop where
  unique : s.responses.Pairwise fun a b => a.physical = b.physical →
    Disjoint (Set.Ioc (a.logical.toInt - (a.count.toNat : ℤ)) a.logical.toInt)
      (Set.Ioc (b.logical.toInt - (b.count.toNat : ℤ)) b.logical.toInt)
  increasing : s.oracles.Increasing
  below : ∀ a ∈ s.oracles.objects, ∃ p, s.oracles.timestamp = some p ∧
    a.physical.toInt < p.toInt

theorem Calls.correct (h : s.Calls) (hinv : s.oracles.Inv saveInterval)
    (hinc : s.oracles.Increasing) : s.Correct where
  unique := by
    refine (pairwise_iff_getElem.mpr fun i j hi hj hij => ?_)
    intro hphysical
    have hordered := pairwise_iff_getElem.mp h.ordered i j hi hj hij
    obtain ⟨⟨o, ho, hxa⟩, -⟩ := h.response _ (getElem_mem hi)
    obtain ⟨⟨o', ho', hyb⟩, -⟩ := h.response _ (getElem_mem hj)
    -- The two timestamps are of one object.
    have hptr : s.responses[i].ptr = s.responses[j].ptr := by
      by_contra hne
      exact hinc.millis_ne hinv ho ho' hne (by rw [← hxa, ← hyb, hphysical])
    exact Set.Ioc_disjoint_Ioc_of_le (hordered hptr)
  increasing := hinc
  below := by
    intro a ha
    obtain ⟨b, hb, hlt⟩ := hinv.ordered.object_lt a ha
    obtain ⟨p, hp, hle⟩ := hinv.saved_le _ b hb
    exact ⟨p, hp, by omega⟩

theorem Calls.of_eq (h : s.Calls) (horacles : s'.oracles = s.oracles)
    (hlogical : ∀ ptr, (s.logical ptr).toInt ≤ (s'.logical ptr).toInt)
    (hresponses : s'.responses = s.responses) : s'.Calls := by
  refine ⟨fun a ha => ?_, by rw [hresponses]; exact h.ordered⟩
  rw [hresponses] at ha
  rw [horacles]
  exact ⟨(h.response a ha).1, (h.response a ha).2.trans (hlogical a.ptr)⟩

variable [DecidableEq ρ]

theorem Calls.add (h : s.Calls) (r : ρ) (m : μ) {count : UInt32} (i : ℕ) {ptr : ℕ}
    {o : AtomicObject} (ho : s.oracles.objects[ptr]? = some o)
    (hrange : (s.logical ptr).toInt + count.toNat < 2^63) (expired : Bool) :
    (s.add r m count i ptr o.physical expired).Calls := by
  have hcount : (Int64.ofNat count.toNat).toInt = count.toNat :=
    Int64.toInt_ofNat_of_lt (by have := count.toNat_lt; omega)
  have hsum : (s.logical ptr + Int64.ofNat count.toNat).toInt =
      (s.logical ptr).toInt + count.toNat := by
    rw [TsoCluster.toInt_add_of_lt (by omega) (by omega), hcount]
  have hlogical : ∀ ptr', (s.logical ptr').toInt ≤ (Function.update s.logical ptr
      (s.logical ptr + Int64.ofNat count.toNat) ptr').toInt := by
    intro ptr'
    rcases eq_or_ne ptr' ptr with rfl | hne
    · rw [Function.update_self]
      omega
    · rw [Function.update_of_ne hne]
  unfold TsoSystem.add
  dsimp only
  split_ifs
  · exact h.of_eq rfl hlogical rfl
  · exact h.of_eq rfl hlogical rfl
  · refine ⟨fun a ha => ?_, ?_⟩
    · rcases mem_append.mp ha with ha | ha
      · exact ⟨(h.response a ha).1, (h.response a ha).2.trans (hlogical a.ptr)⟩
      · obtain rfl := mem_singleton.mp ha
        refine ⟨⟨o, ho, rfl⟩, ?_⟩
        simp [TsoSystem.setRequest]
    · refine pairwise_append.mpr ⟨h.ordered, pairwise_singleton .., ?_⟩
      intro a ha b hb hptr
      obtain rfl := mem_singleton.mp hb
      have hle := (h.response a ha).2
      rw [hptr] at hle
      simp only at hle ⊢
      omega

variable [DecidableEq μ]

theorem step_spec (hinterval : updateTimestampGuard < saveInterval) {e : TsoEvent μ ρ}
    (hinv : s.oracles.Inv saveInterval) (hcalls : s.Calls)
    (hstep : (machine saveInterval μ ρ).step s e = some s') (hrange : s.InRange saveInterval e) :
    s'.oracles.Inv saveInterval ∧ s'.Calls ∧ s.oracles.Effect s'.oracles (s.CrossesZero e) := by
  -- The calls do not touch the objects.
  have hquiet : ∀ {t : TsoSystem μ ρ}, t.oracles = s.oracles → t.Calls →
      t.oracles.Inv saveInterval ∧ t.Calls ∧ s.oracles.Effect t.oracles False := by
    intro t ht hcalls'
    rw [ht]
    exact ⟨hinv, hcalls', .quiet rfl id⟩
  cases e with
  | oracle e =>
    obtain ⟨oracles, horacles, heq⟩ := Option.bind_eq_some_iff.mp hstep
    obtain rfl := Option.some.inj heq
    have hguard := Int64.lt_iff_toInt_lt.mp hinterval
    obtain ⟨hinv', heffect⟩ := hinv.step hguard horacles hrange
    refine ⟨hinv', ⟨fun a ha => ?_, hcalls.ordered⟩, heffect⟩
    obtain ⟨⟨o, ho, hphysical⟩, hlogical⟩ := hcalls.response a ha
    exact ⟨⟨o, heffect.getElem? ho, hphysical⟩, hlogical⟩
  | call r m count =>
    simp only [machine] at hstep
    split at hstep <;> simp only [Option.some.injEq, reduceCtorEq] at hstep
    subst hstep
    split_ifs
    · exact hquiet rfl hcalls
    · exact hquiet rfl (hcalls.of_eq rfl (fun _ => le_rfl) rfl)
  | load r =>
    simp only [machine] at hstep
    split at hstep <;> simp only [Option.some.injEq, reduceCtorEq] at hstep
    subst hstep
    unfold TsoSystem.load
    split <;> exact hquiet rfl (hcalls.of_eq rfl (fun _ => le_rfl) rfl)
  | add r expired =>
    simp only [machine] at hstep
    split at hstep <;> try cases hstep
    rename_i m count i ptr hr
    obtain ⟨o, ho, heq⟩ := Option.bind_eq_some_iff.mp hstep
    obtain rfl := Option.some.inj heq
    simp only [InRange, hr, TsoRequest.Fits] at hrange
    refine hquiet ?_ (hcalls.add r m i ho hrange expired)
    unfold TsoSystem.add
    dsimp only
    split_ifs <;> rfl

/-- In a run in which nothing overflows, the timestamps are unique, the times of each leadership
increase in milliseconds and all times are below the saved one, if and only if no member goes from
the last millisecond before 1970 to the first after within a leadership. -/
theorem throughout_correct_iff (hinterval : updateTimestampGuard < saveInterval)
    (timestamp : Option Int64) (es : List (TsoEvent μ ρ))
    (hrange : (machine saveInterval μ ρ).Along (fun s e _ => s.InRange saveInterval e)
      { oracles := { timestamp := timestamp } } es) :
    (machine saveInterval μ ρ).Throughout Correct { oracles := { timestamp := timestamp } } es ↔
      (machine saveInterval μ ρ).Along (fun s e _ => ¬ s.CrossesZero e)
        { oracles := { timestamp := timestamp } } es := by
  have hinit : TsoCluster.Inv saveInterval ({ timestamp := timestamp } : TsoCluster μ) :=
    TsoCluster.inv_init timestamp
  have hcalls : Calls ({ oracles := { timestamp := timestamp } } : TsoSystem μ ρ) := by
    refine ⟨?_, List.Pairwise.nil⟩
    simp
  refine hrange.throughout_iff (I := fun s => s.oracles.Inv saveInterval ∧ s.Calls)
    ⟨hinit, hcalls⟩ (hcalls.correct hinit List.Pairwise.nil) ?_
  rintro s e s' ⟨hinv, hcalls⟩ hcorrect hstep hrange
  obtain ⟨hinv', hcalls', heffect⟩ := step_spec hinterval hinv hcalls hstep hrange
  refine ⟨⟨hinv', hcalls'⟩, ?_⟩
  rw [← hcorrect.increasing.step_iff hinv heffect]
  exact ⟨fun h => h.increasing, hcalls'.correct hinv'⟩

theorem correct_of_two_leaders : (machine 3000000000 (Fin 2) (Fin 1)).Throughout Correct
    { oracles := { timestamp := none } } [.oracle (.campaign 0),
      .oracle (.syncLoad 0 5000000 false), .oracle (.syncCommit 0 .answered), .call 0 0 2, .load 0,
      .add 0 false, .oracle .expire,
      .oracle (.campaign 1), .oracle (.syncLoad 1 4000000 false), .oracle (.syncCommit 1 .answered),
      .call 0 1 1, .load 0, .add 0 false, .oracle (.update 0 8000000), .call 0 0 3, .load 0,
      .add 0 false] :=
  (throughout_correct_iff (by decide) none _ (by decide +kernel)).mpr (by decide +kernel)

theorem same_timestamp_twice : ∃ s, (machine 3000000000 Unit Unit).run
      { oracles := { timestamp := none } } [.oracle (.campaign ()),
        .oracle (.syncLoad () (-900000) false), .oracle (.syncCommit () .answered), .call () () 1,
        .load (), .add () false, .oracle (.update () 500000), .call () () 1, .load (),
        .add () false] = some s ∧
    s.responses = [⟨0, 1, 1, 0⟩, ⟨0, 1, 1, 1⟩] ∧ ¬ s.Correct := by
  refine ⟨_, rfl, by decide +kernel, fun h => ?_⟩
  have hdisjoint := rel_of_pairwise_cons h.unique (mem_singleton_self _) rfl
  have hmem : (1 : ℤ) ∈ Set.Ioc (1 - ((1 : ℕ) : ℤ)) 1 := ⟨by decide, by decide⟩
  exact Set.disjoint_left.mp hdisjoint hmem hmem

end TsoSystem

end TinyKV
