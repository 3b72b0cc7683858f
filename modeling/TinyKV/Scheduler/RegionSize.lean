import TinyKV.Scheduler.RegionsInfo

/-!
# The sizes of the stores

`update` of a sub-tree keeps the total size of its regions up to date, but `remove` does not take
the size of the region off.
-/

namespace TinyKV

open List

def RegionEvent.Displaces : RegionEvent → RegionInfo → Prop
  | .set region, x => x.id = region.id ∨ region.contains x.startKey ∨ x.contains region.startKey
  | .remove region, x => x = region

instance (e : RegionEvent) (x : RegionInfo) : Decidable (e.Displaces x) := by
  cases e <;> unfold RegionEvent.Displaces <;> infer_instance

def RegionTree.sizeOf (t : RegionTree) (P : RegionInfo → Prop) [DecidablePred P] : ℤ :=
  ((t.filter fun x => P x).map RegionInfo.approximateSize).sum

theorem RegionInfo.Meets.contains {x y : RegionInfo} (h : x.Meets y) :
    x.contains y.startKey ∨ y.contains x.startKey := by
  obtain ⟨key, hx, hy⟩ := h
  rw [contains_iff, contains_iff]
  rcases le_total x.startKey y.startKey with hle | hle
  · exact Or.inl ⟨hle, (WithTop.coe_le_coe.mpr hy.1).trans_lt hx.2⟩
  · exact Or.inr ⟨hle, (WithTop.coe_le_coe.mpr hx.1).trans_lt hy.2⟩

theorem RegionTree.sizeOf_or {t : RegionTree} {P Q R : RegionInfo → Prop} [DecidablePred P]
    [DecidablePred Q] [DecidablePred R] (hor : ∀ x ∈ t, P x ↔ Q x ∨ R x)
    (hand : ∀ x ∈ t, ¬ (Q x ∧ R x)) : t.sizeOf P = t.sizeOf Q + t.sizeOf R := by
  unfold sizeOf
  induction t with
  | nil => simp
  | cons x t ih =>
    have ih := ih (fun y hy => hor y (mem_cons_of_mem x hy))
      fun y hy => hand y (mem_cons_of_mem x hy)
    have hx := hor x mem_cons_self
    have hx' := hand x mem_cons_self
    by_cases hQ : Q x
    · have hR : ¬ R x := fun hR => hx' ⟨hQ, hR⟩
      have hP : P x := hx.mpr (Or.inl hQ)
      simp only [filter_cons, hP, hQ, hR, decide_true, decide_false, if_true, if_false,
        map_cons, sum_cons, ih, Bool.false_eq_true]
      omega
    · by_cases hR : R x
      · have hP : P x := hx.mpr (Or.inr hR)
        simp only [filter_cons, hP, hQ, hR, decide_true, decide_false, if_true, if_false,
          map_cons, sum_cons, ih, Bool.false_eq_true]
        omega
      · have hP : ¬ P x := fun hP => (hx.mp hP).elim hQ hR
        simpa [filter_cons, hP, hQ, hR] using ih

namespace RegionsInfo

/-- The sizes of the stores are the sums of the sizes of the regions whose leader, follower, or any
peer is on the store. -/
structure SizesExact (r : RegionsInfo) : Prop where
  leader : ∀ s, r.getStoreLeaderRegionSize s =
    int64 (r.tree.sizeOf fun x => ∃ p ∈ x.leader, p.storeId = s)
  follower : ∀ s, r.getStoreFollowerRegionSize s =
    int64 (r.tree.sizeOf fun x => ∃ p ∈ x.peers, x.leader ≠ some p ∧ p.storeId = s)
  region : ∀ s, r.getStoreRegionSize s =
    int64 (r.tree.sizeOf fun x => ∃ p ∈ x.peers, p.storeId = s)

variable {r : RegionsInfo}

theorem Inv.getTotalSize_eq (h : r.Inv) (hsized : r.Sized) (role : Role) (s : ℕ) :
    (r.subTrees role s).getTotalSize = int64 (r.tree.sizeOf fun x => (role, s) ∈ x.placements) := by
  have htree : (r.subTrees role s).tree = r.tree.filter fun x => (role, s) ∈ x.placements :=
    (h.indexed.apart role s).sorted.ext (h.apart.sorted.filter _) fun x => by
      rw [h.indexed.mem, mem_filter, decide_eq_true_eq]
  have hsum := hsized role s
  rw [RegionSubTree.Sized, htree] at hsum
  unfold RegionSubTree.getTotalSize
  split_ifs with hlength
  · rw [htree, length_eq_zero_iff] at hlength
    rw [RegionTree.sizeOf, hlength]
    decide
  · exact hsum

theorem Inv.sizeOf_congr (h : r.Inv) {P Q : RegionInfo → Prop} [DecidablePred P] [DecidablePred Q]
    (hPQ : ∀ x : RegionInfo, x.WellFormed → (P x ↔ Q x)) : r.tree.sizeOf P = r.tree.sizeOf Q := by
  unfold RegionTree.sizeOf
  congr 2
  exact filter_congr fun x hx => by simp [hPQ x (h.indexed.wellFormed x hx)]

theorem Inv.sizesExact (h : r.Inv) (hsized : r.Sized) : r.SizesExact := by
  have hleader : ∀ s, r.getStoreLeaderRegionSize s =
      int64 (r.tree.sizeOf fun x => ∃ p ∈ x.leader, p.storeId = s) := fun s =>
    (h.getTotalSize_eq hsized .leader s).trans
      (congrArg int64 (h.sizeOf_congr fun x hx => hx.mem_leader))
  have hfollower : ∀ s, r.getStoreFollowerRegionSize s =
      int64 (r.tree.sizeOf fun x => ∃ p ∈ x.peers, x.leader ≠ some p ∧ p.storeId = s) := fun s =>
    (h.getTotalSize_eq hsized .follower s).trans
      (congrArg int64 (h.sizeOf_congr fun x hx => hx.mem_follower))
  have hlearner : ∀ s, r.getStoreLearnerRegionSize s = 0 := by
    intro s
    have hnone : ∀ x : RegionInfo, x.WellFormed → ((Role.learner, s) ∈ x.placements ↔ False) :=
      fun x hx => iff_false_intro hx.not_mem_learner
    refine (h.getTotalSize_eq hsized .learner s).trans ?_
    rw [h.sizeOf_congr hnone]
    simp [RegionTree.sizeOf, int64]
  refine ⟨hleader, hfollower, fun s => ?_⟩
  -- A region has one peer on the store, which is the leader or a follower.
  have hsum : (r.tree.sizeOf fun x => ∃ p ∈ x.peers, p.storeId = s) =
      (r.tree.sizeOf fun x => ∃ p ∈ x.leader, p.storeId = s) +
        r.tree.sizeOf fun x => ∃ p ∈ x.peers, x.leader ≠ some p ∧ p.storeId = s := by
    refine RegionTree.sizeOf_or (fun x hx => ?_) fun x hx => ?_
    · constructor
      · rintro ⟨p, hp, hs⟩
        by_cases hleader : x.leader = some p
        · exact Or.inl ⟨p, hleader, hs⟩
        · exact Or.inr ⟨p, hp, hleader, hs⟩
      · rintro (⟨p, hp, hs⟩ | ⟨p, hp, -, hs⟩)
        · exact ⟨p, (h.indexed.wellFormed x hx).leader p hp, hs⟩
        · exact ⟨p, hp, hs⟩
    · rintro ⟨⟨p, hp, hps⟩, q, hq, hne, hqs⟩
      have hwf := h.indexed.wellFormed x hx
      have heq := inj_on_of_nodup_map hwf.stores (hwf.leader p hp) hq (hps.trans hqs.symm)
      exact hne (heq ▸ hp)
  rw [getStoreRegionSize, hleader, hfollower, hlearner, add_zero, int64_add_int64, add_comm,
    int64_add_int64, add_comm, hsum]

theorem Inv.sized_step {e : RegionEvent} {r' : RegionsInfo} (h : r.Inv) (hsized : r.Sized)
    (hstep : machine.step r e = some r') (hweight : ∀ x ∈ r.tree, e.Displaces x → x.Weightless) :
    r'.Sized := by
  cases e with
  | set region =>
    simp only [machine] at hstep
    split_ifs at hstep with hregion
    obtain ⟨r₁, overlaps, hr₁, -, -, -, -, hsized₁⟩ := h.setRegion hregion
    rw [hr₁] at hstep
    obtain rfl : r₁ = r' := Option.some.inj hstep
    refine hsized₁ (fun o ho hdisplaced => hweight o ho ?_) hsized
    exact hdisplaced.imp_right RegionInfo.Meets.contains
  | remove region =>
    simp only [machine] at hstep
    split_ifs at hstep with hget
    obtain rfl := Option.some.inj hstep
    have hregion := ((h.indexed.get region.id region).mp hget).1
    exact (h.removeRegion hregion).2.2 (hweight region hregion rfl) hsized

/-- After every sequence of calls none of which takes out a region with a size, the sizes of the
stores are exact. -/
theorem run_sizesExact (es : List RegionEvent) (hrun : machine.run {} es = some r)
    (hweight : machine.Along (fun r e _ => ∀ x ∈ r.tree, e.Displaces x → x.Weightless) {} es) :
    r.SizesExact := by
  have hinv := hweight.run_invariant (I := fun r => r.Inv ∧ r.Sized)
    (fun r e r' h hstep hweight => ⟨h.1.step hstep, h.1.sized_step h.2 hstep hweight⟩)
    ⟨inv_init, fun _ _ => RegionSubTree.sized_nil⟩ hrun
  exact hinv.1.sizesExact hinv.2

theorem sizesExact_of_two : ∃ r, machine.run {}
      [.set {
          id := 1, endKey := [109], peers := [⟨1, 1⟩, ⟨2, 2⟩], leader := some ⟨1, 1⟩,
          approximateSize := 10 },
        .set {
          id := 2, startKey := [109], peers := [⟨3, 1⟩, ⟨4, 2⟩], leader := some ⟨4, 2⟩,
          approximateSize := 5 }] = some r ∧ r.SizesExact := by
  have hexact : ∀ {es}, (machine.run {} es).isSome →
      machine.Along (fun r e _ => ∀ x ∈ r.tree, e.Displaces x → x.Weightless) {} es →
      ∃ r, machine.run {} es = some r ∧ r.SizesExact := by
    intro es hsome hweight
    obtain ⟨r, hr⟩ := Option.isSome_iff_exists.mp hsome
    exact ⟨r, hr, run_sizesExact es hr hweight⟩
  exact hexact (by decide +kernel) (by decide +kernel)

theorem size_counted_twice : ∃ r, machine.run {}
      [.set { id := 1, peers := [⟨1, 1⟩], leader := some ⟨1, 1⟩, approximateSize := 10 },
        .set { id := 1, peers := [⟨1, 1⟩], leader := some ⟨1, 1⟩, approximateSize := 10 }] =
      some r ∧ r.getStoreLeaderRegionSize 1 = 20 ∧ r.getStoreRegionSize 1 = 20 ∧
    (r.tree.sizeOf fun x => ∃ p ∈ x.leader, p.storeId = 1) = 10 := by
  refine ⟨_, rfl, ?_⟩
  decide +kernel

end RegionsInfo

end TinyKV
