import Mathlib.Algebra.Order.Group.Multiset
import Mathlib.Data.List.DropRight
import TinyKV.Scheduler.OperatorSafety

/-!
# Operators that displace each other

`AddOperator` of `scheduler/server/schedule/operator_controller.go` compares each of its operators
with the one that runs for its region, and only then puts them in, one after the other.
-/

namespace TinyKV.OperatorController

open List

variable {oc oc' : OperatorController} {op old new : Operator} {ops : List Operator} {id : ℕ}

def Keyed (oc : OperatorController) : Prop := ∀ id op, oc.operators id = some op → op.regionId = id

def Runs (oc : OperatorController) (op : Operator) : Prop :=
  (oc.operators op.regionId).map Operator.addr = some op.addr

def Outranked (ops : List Operator) (old : Operator) : Prop :=
  ∃ new, ops.find? (·.regionId = old.regionId) = some new ∧ old.level < new.level

def following (ops : List Operator) (op : Operator) : List Operator :=
  ops.rtakeWhile fun op' => op'.addr ≠ op.addr

structure OnlyOutranked (oc : OperatorController) (ops : List Operator) : Prop where
  running : ∀ id old, oc.operators id = some old →
    (oc.addOperator ops).1.Runs old ∨ Outranked ops old
  added : ∀ op ∈ ops, (oc.addOperator ops).1.Runs op ∨ Outranked (following ops op) op

def AddsByPriority (oc : OperatorController) (ops : List Operator) : Prop :=
  ((oc.addOperator ops).2 = true → oc.OnlyOutranked ops) ∧
    ((oc.addOperator ops).2 = false → (oc.addOperator ops).1.operators = oc.operators)

def Admits (oc : OperatorController) (ops : List Operator) : Prop :=
  ∀ op ∈ ops, ∃ region, oc.regions op.regionId = some region ∧ region.version = op.version ∧
    region.confVer = op.confVer ∧ ∀ old, oc.operators op.regionId = some old → old.level < op.level

def Ascending (ops : List Operator) : Prop :=
  ∀ op ∈ ops, ∀ new, (following ops op).find? (·.regionId = op.regionId) = some new →
    op.level < new.level

def Addressed (ops : List Operator) : Prop :=
  ∀ op ∈ ops, ∀ op' ∈ ops, op.addr = op'.addr → op = op'

def installed (oc : OperatorController) (op : Operator) : Operator :=
  match oc.regions op.regionId with
  | none => op
  | some region => (op.check region).1

theorem Keyed.mono (h : oc.Keyed)
    (hsub : ∀ id op, oc'.operators id = some op → oc.operators id = some op) : oc'.Keyed :=
  fun id op hop => h id op (hsub id op hop)

theorem Keyed.setOperator (h : oc.Keyed) (hid : op.regionId = id) :
    (oc.setOperator id op).Keyed := by
  intro id' op' hop'
  unfold OperatorController.setOperator at hop'
  by_cases hid' : id' = id
  · subst hid'
    obtain rfl : op = op' := by simpa using hop'
    exact hid
  · exact h id' op' (by simpa [hid'] using hop')

theorem operators_removeOperatorLocked
    (h : (oc.removeOperatorLocked op).1.operators id = some old) : oc.operators id = some old := by
  unfold removeOperatorLocked at h
  split_ifs at h with hrun
  · by_cases hid : id = op.regionId
    · simp [hid] at h
    · simpa [hid] using h
  · exact h

theorem operators_removeOperator {status : OperatorStatus}
    (h : (oc.removeOperator op status).operators id = some old) : oc.operators id = some old := by
  unfold removeOperator at h
  dsimp only at h
  split_ifs at h <;> exact operators_removeOperatorLocked h

theorem Keyed.operators_replaceOperator (h : oc.Keyed) (op : Operator) :
    (oc.replaceOperator op).operators = Function.update oc.operators op.regionId (some op) := by
  unfold replaceOperator
  cases hold : oc.operators op.regionId with
  | none => rfl
  | some old =>
    have hid : old.regionId = op.regionId := h _ _ hold
    simp [removeOperatorLocked, OperatorController.setOperator, record, hid, hold]

theorem regions_replaceOperator (oc : OperatorController) (op : Operator) :
    (oc.replaceOperator op).regions = oc.regions := by
  unfold replaceOperator removeOperatorLocked
  cases oc.operators op.regionId with
  | none => rfl
  | some old =>
    dsimp only
    split_ifs <;> rfl

theorem Keyed.operators_addOperatorLocked (h : oc.Keyed) (op : Operator) :
    (oc.addOperatorLocked op).operators =
      Function.update oc.operators op.regionId (some (oc.installed op)) := by
  have hreplace := h.operators_replaceOperator op
  unfold addOperatorLocked installed
  simp only [regions_replaceOperator]
  cases oc.regions op.regionId with
  | none => exact hreplace
  | some region =>
    -- The command, if there is one, leaves the operators as they are.
    cases hstep : (op.check region).2 with
    | none => simp [hstep, OperatorController.setOperator, hreplace]
    | some step =>
      simp [hstep, (sendScheduleCommand_fields step).1, OperatorController.setOperator, hreplace]

theorem regions_addOperatorLocked (oc : OperatorController) (op : Operator) :
    (oc.addOperatorLocked op).regions = oc.regions := by
  have hreplace := regions_replaceOperator oc op
  unfold addOperatorLocked
  simp only [hreplace]
  cases oc.regions op.regionId with
  | none => exact hreplace
  | some region =>
    cases hstep : (op.check region).2 with
    | none =>
      simp only [hstep]
      exact hreplace
    | some step =>
      simp only [hstep, (sendScheduleCommand_fields step).2.1]
      exact hreplace

theorem installed_fields (oc : OperatorController) (op : Operator) :
    (oc.installed op).regionId = op.regionId ∧ (oc.installed op).addr = op.addr := by
  unfold installed
  cases oc.regions op.regionId <;> exact ⟨rfl, rfl⟩

theorem Keyed.addOperatorLocked (h : oc.Keyed) (op : Operator) : (oc.addOperatorLocked op).Keyed :=
  (h.setOperator (installed_fields oc op).1).mono fun id op' hop' => by
    rwa [h.operators_addOperatorLocked op] at hop'

theorem Keyed.foldl_addOperatorLocked (h : oc.Keyed) (ops : List Operator) :
    (ops.foldl OperatorController.addOperatorLocked oc).Keyed ∧
      (ops.foldl OperatorController.addOperatorLocked oc).regions = oc.regions := by
  induction ops generalizing oc with
  | nil => exact ⟨h, rfl⟩
  | cons op ops ih =>
    obtain ⟨hkeyed, hregions⟩ := ih (h.addOperatorLocked op)
    exact ⟨hkeyed, hregions.trans (regions_addOperatorLocked oc op)⟩

theorem Keyed.operators_foldl (h : oc.Keyed) (hops : ∀ op ∈ ops, op.regionId ≠ id) :
    (ops.foldl OperatorController.addOperatorLocked oc).operators id = oc.operators id := by
  induction ops generalizing oc with
  | nil => rfl
  | cons op ops ih =>
    have hid : id ≠ op.regionId := (hops op mem_cons_self).symm
    calc ((op :: ops).foldl OperatorController.addOperatorLocked oc).operators id
        = (oc.addOperatorLocked op).operators id :=
          ih (h.addOperatorLocked op) fun op' hop' => hops op' (mem_cons_of_mem op hop')
      _ = oc.operators id := by
          rw [h.operators_addOperatorLocked op, Function.update_of_ne hid]

theorem Keyed.operators_foldl_last (h : oc.Keyed) {before after : List Operator}
    (hafter : ∀ op' ∈ after, op'.regionId ≠ op.regionId) :
    ((before ++ op :: after).foldl OperatorController.addOperatorLocked oc).operators op.regionId =
      some (oc.installed op) := by
  rw [foldl_append, foldl_cons]
  obtain ⟨hkeyed, hregions⟩ := h.foldl_addOperatorLocked before
  rw [(hkeyed.addOperatorLocked op).operators_foldl hafter, hkeyed.operators_addOperatorLocked op,
    Function.update_self, installed, installed, hregions]

theorem Keyed.exists_operators_foldl (h : oc.Keyed) (hops : ∃ op ∈ ops, op.regionId = id) :
    ∃ op ∈ ops, op.regionId = id ∧
      (ops.foldl OperatorController.addOperatorLocked oc).operators id =
        some (oc.installed op) := by
  induction ops using List.reverseRecOn with
  | nil => simp at hops
  | append_singleton ops last ih =>
    by_cases hlast : last.regionId = id
    · subst hlast
      exact ⟨last, by simp, rfl, h.operators_foldl_last (by simp)⟩
    · obtain ⟨op, hop, hid⟩ := hops
      have hmem : op ∈ ops := by
        rcases mem_append.mp hop with hop | hop
        · exact hop
        · exact absurd (mem_singleton.mp hop ▸ hid) hlast
      obtain ⟨op', hop', hid', hoperators⟩ := ih ⟨op, hmem, hid⟩
      refine ⟨op', mem_append_left _ hop', hid', ?_⟩
      rw [foldl_append, foldl_cons, foldl_nil,
        (h.foldl_addOperatorLocked ops).1.operators_addOperatorLocked last,
        Function.update_of_ne (Ne.symm hlast), hoperators]

theorem exists_eq_append_following (haddr : Addressed ops) (hop : op ∈ ops) :
    ∃ before, ops = before ++ op :: following ops op := by
  have hsplit := rdropWhile_append_rtakeWhile (p := fun op' => op'.addr ≠ op.addr) (l := ops)
  have hne : ops.rdropWhile (fun op' => decide (op'.addr ≠ op.addr)) ≠ [] := by
    intro hnil
    rw [hnil, nil_append] at hsplit
    have := mem_rtakeWhile_imp (hsplit ▸ hop)
    simp at this
  have hlast := rdropWhile_last_not _ _ hne
  rw [← dropLast_append_getLast hne, append_assoc, singleton_append] at hsplit
  have heq : (ops.rdropWhile fun op' => decide (op'.addr ≠ op.addr)).getLast hne = op := by
    refine haddr _ ?_ op hop (by simpa using hlast)
    exact (List.rdropWhile_prefix _ ops).subset (getLast_mem hne)
  rw [heq] at hsplit
  exact ⟨_, hsplit.symm⟩

theorem Keyed.runs_foldl_iff (h : oc.Keyed) (haddr : Addressed ops) (hop : op ∈ ops) :
    (ops.foldl OperatorController.addOperatorLocked oc).Runs op ↔
      ∀ op' ∈ following ops op, op'.regionId ≠ op.regionId := by
  obtain ⟨before, hsplit⟩ := exists_eq_append_following haddr hop
  constructor
  · intro hruns op' hop' hid
    have hfold : ops.foldl OperatorController.addOperatorLocked oc =
        (following ops op).foldl OperatorController.addOperatorLocked
          ((before ++ [op]).foldl OperatorController.addOperatorLocked oc) := by
      rw [← foldl_append, append_assoc, singleton_append, ← hsplit]
    obtain ⟨hkeyed, -⟩ := h.foldl_addOperatorLocked (before ++ [op])
    obtain ⟨last, hlast, -, hoperators⟩ := hkeyed.exists_operators_foldl ⟨op', hop', hid⟩
    rw [hfold, Runs, hoperators, Option.map_some, (installed_fields _ last).2,
      Option.some.injEq] at hruns
    have hne := mem_rtakeWhile_imp hlast
    simp [hruns] at hne
  · intro hnone
    rw [Runs, hsplit, h.operators_foldl_last hnone, Option.map_some, (installed_fields oc op).2]

theorem checkAddOperator_iff : oc.checkAddOperator ops = true ↔ oc.Admits ops := by
  unfold checkAddOperator Admits
  rw [all_eq_true]
  refine forall₂_congr fun op _ => ?_
  cases oc.regions op.regionId with
  | none => simp
  | some region => cases oc.operators op.regionId <;> simp [and_assoc]

theorem operators_foldl_record (ops : List Operator) (oc : OperatorController) :
    (ops.foldl (fun oc op => oc.record op .cancel) oc).operators = oc.operators := by
  induction ops generalizing oc with
  | nil => rfl
  | cons op ops ih => exact ih (oc.record op .cancel)

theorem forall_ne_or_find? (ops : List Operator) (id : ℕ) :
    (∀ op ∈ ops, op.regionId ≠ id) ∨ ∃ new, ops.find? (·.regionId = id) = some new ∧
      new ∈ ops ∧ new.regionId = id := by
  cases hfind : ops.find? (·.regionId = id) with
  | none => exact .inl fun op hop => by simpa using find?_eq_none.mp hfind op hop
  | some new =>
    have hid : new.regionId = id := by simpa using find?_some hfind
    exact .inr ⟨new, rfl, mem_of_find?_eq_some hfind, hid⟩

theorem Keyed.onlyOutranked_iff (h : oc.Keyed) (haddr : Addressed ops) (hadmits : oc.Admits ops) :
    oc.OnlyOutranked ops ↔ Ascending ops := by
  have hadd : (oc.addOperator ops).1 = ops.foldl OperatorController.addOperatorLocked oc := by
    rw [addOperator, if_pos (checkAddOperator_iff.mpr hadmits)]
  constructor
  · intro honly op hop new hfind
    rcases honly.added op hop with hruns | ⟨new', hfind', hlt⟩
    · rw [hadd, h.runs_foldl_iff haddr hop] at hruns
      exact absurd (by simpa using find?_some hfind)
        (hruns new (mem_of_find?_eq_some hfind))
    · obtain rfl : new' = new := Option.some.inj (hfind'.symm.trans hfind)
      exact hlt
  · intro hascending
    refine ⟨fun id old hold => ?_, fun op hop => ?_⟩
    · obtain rfl : old.regionId = id := h id old hold
      obtain hnone | ⟨new, hfind, hnew, hid⟩ := forall_ne_or_find? ops old.regionId
      · exact .inl (by rw [hadd, Runs, h.operators_foldl hnone, hold, Option.map_some])
      · -- The first operator for the region was compared with the one that runs.
        obtain ⟨-, -, -, -, hlt⟩ := hadmits new hnew
        exact .inr ⟨new, hfind, hlt old (by rw [hid, hold])⟩
    · rw [hadd, h.runs_foldl_iff haddr hop]
      obtain hnone | ⟨new, hfind, -, -⟩ := forall_ne_or_find? (following ops op) op.regionId
      · exact .inl hnone
      · exact .inr ⟨new, hfind, hascending op hop new hfind⟩

/-- A call displaces by strictly higher priority only, and changes nothing if it is refused, exactly
if it is refused or each of its operators that is followed by others for its region is followed
first by one of a strictly higher priority. -/
theorem addsByPriority_iff (hkeyed : oc.Keyed) (haddr : Addressed ops) :
    oc.AddsByPriority ops ↔ (oc.Admits ops → Ascending ops) := by
  unfold AddsByPriority
  by_cases hadmits : oc.Admits ops
  · have hresult : (oc.addOperator ops).2 = true := by
      rw [addOperator, if_pos (checkAddOperator_iff.mpr hadmits)]
    simp [hresult, hadmits, hkeyed.onlyOutranked_iff haddr hadmits]
  · have hrefused : oc.addOperator ops =
        (ops.foldl (fun oc op => oc.record op .cancel) oc, false) := by
      rw [addOperator, if_neg (mt checkAddOperator_iff.mp hadmits)]
    simp [hrefused, hadmits, operators_foldl_record]

def threeStores : RegionInfo :=
  { id := 1, startKey := [], endKey := [], confVer := 1, version := 1,
    peers := [⟨11, 1⟩, ⟨12, 2⟩, ⟨13, 3⟩], leader := some ⟨11, 1⟩ }

def idle : OperatorController := { regions := Function.update (fun _ => none) 1 (some threeStores) }

def removal (kind storeId : ℕ) : Operator :=
  { Operator.newOperator threeStores (opRegion ||| kind) [.removePeer storeId] with
    addr := storeId }

theorem keyed_idle : idle.Keyed := by
  intro id op hop
  cases hop

theorem addsByPriority_admin :
    (idle.addOperator [removal 0 2, removal opAdmin 3]).2 = true ∧
      idle.AddsByPriority [removal 0 2, removal opAdmin 3] :=
  ⟨by decide, (addsByPriority_iff keyed_idle (by unfold Addressed; decide)).mpr fun _ => by
    unfold Ascending
    decide⟩

theorem not_addsByPriority :
    idle.Keyed ∧ (removal 0 2).level < (removal opAdmin 3).level ∧
      (idle.addOperator [removal opAdmin 3, removal 0 2]).2 = true ∧
      (idle.addOperator [removal opAdmin 3, removal 0 2]).1.operators 1 = some (removal 0 2) ∧
      ¬ idle.AddsByPriority [removal opAdmin 3, removal 0 2] := by
  refine ⟨keyed_idle, by decide, by decide, by decide, ?_⟩
  rintro ⟨hadds, -⟩
  obtain hruns | ⟨new, hfind, hlt⟩ := (hadds (by decide)).added (removal opAdmin 3) (by simp)
  · exact absurd hruns (by unfold Runs; decide)
  · obtain rfl : removal 0 2 = new := Option.some.inj (by rw [← hfind]; decide)
    exact absurd hlt (by decide)

/-- The calls of a controller, with any operators. -/
inductive OperatorCall
  | report (region : RegionInfo)
  | dispatch (region : RegionInfo) (source : DispatchSource) (running : ℕ)
  | add (ops : List Operator)
  | remove (op : Operator) (found : Bool)

def calls : Machine OperatorController OperatorCall where
  step oc
    | .report region =>
      some { oc with regions := Function.update oc.regions region.id (some region) }
    | .dispatch region source running => some (oc.dispatch region source running)
    | .add ops => some (oc.addOperator ops).1
    | .remove op found =>
      if (oc.removeOperatorLocked op).2 = found then some (oc.removeOperatorLocked op).1 else none

theorem Keyed.dispatch (h : oc.Keyed) (region : RegionInfo) (source : DispatchSource)
    (running : ℕ) : (oc.dispatch region source running).Keyed := by
  unfold OperatorController.dispatch
  cases hop : oc.operators region.id with
  | none => exact h
  | some op =>
    have hset : (oc.setOperator region.id (op.check region).1).Keyed := by
      apply h.setOperator
      exact h region.id op hop
    have hremove (status : OperatorStatus) :
        ((oc.setOperator region.id (op.check region).1).removeOperator (op.check region).1
          status).Keyed := hset.mono fun _ _ => operators_removeOperator
    have hfinish (timeout : Bool) : ((oc.setOperator region.id (op.check region).1).finish
        (op.check region).1 timeout).Keyed := by
      unfold finish
      split_ifs
      · exact hremove .success
      · exact hremove .timeout
      · exact hset
    cases hstep : (op.check region).2 with
    | none => simpa [hstep] using hfinish _
    | some step =>
      cases htimeout : op.isTimeout running with
      | true => simpa [hstep, htimeout] using hfinish true
      | false =>
        simp only [hstep, htimeout, sendOrCancel]
        split_ifs
        · exact hremove .cancel
        · exact hset.mono fun id op' hop' => by rwa [(sendScheduleCommand_fields step).1] at hop'

theorem Keyed.addOperator (h : oc.Keyed) (ops : List Operator) : (oc.addOperator ops).1.Keyed := by
  unfold OperatorController.addOperator
  split_ifs
  · exact (h.foldl_addOperatorLocked ops).1
  · exact h.mono fun id op hop => by rwa [operators_foldl_record] at hop

theorem Keyed.step {e : OperatorCall} (h : oc.Keyed) (hstep : calls.step oc e = some oc') :
    oc'.Keyed := by
  cases e with
  | report region =>
    obtain rfl := Option.some.inj hstep
    exact h
  | dispatch region source running =>
    obtain rfl := Option.some.inj hstep
    exact h.dispatch region source running
  | add ops =>
    obtain rfl := Option.some.inj hstep
    exact h.addOperator ops
  | remove op found =>
    simp only [calls] at hstep
    split_ifs at hstep
    obtain rfl := Option.some.inj hstep
    exact h.mono fun _ _ => operators_removeOperatorLocked

theorem keyed_of_calls {es : List OperatorCall} (hrun : calls.run {} es = some oc) : oc.Keyed :=
  Machine.run_invariant (fun _ _ _ h hstep => Keyed.step h hstep) (fun _ _ hop => by cases hop) hrun

def accounted (oc : OperatorController) (id : ℕ) : Multiset ℕ :=
  ((oc.operators id).map Operator.addr).elim 0 (fun addr => {addr}) +
    (oc.records.filter (·.1.regionId = id)).map (·.1.addr)

def addrs (id : ℕ) (ops : List Operator) : Multiset ℕ :=
  (ops.filter (·.regionId = id)).map Operator.addr

def asked (id : ℕ) : OperatorCall → Multiset ℕ
  | .add ops => addrs id ops
  | _ => 0

def taken (id : ℕ) : OperatorCall → Multiset ℕ
  | .remove op true => addrs id [op]
  | _ => 0

theorem accounted_setOperator {i : ℕ} (h : (oc.operators i).map Operator.addr = some op.addr) :
    (oc.setOperator i op).accounted id = oc.accounted id := by
  unfold accounted OperatorController.setOperator
  rcases eq_or_ne id i with rfl | hne
  · simp [h]
  · simp [hne]

theorem accounted_record (oc : OperatorController) (op : Operator) (status : OperatorStatus) :
    (oc.record op status).accounted id = oc.accounted id + addrs id [op] := by
  by_cases hid : op.regionId = id
  · simp [accounted, addrs, record, hid, add_assoc, ← Multiset.coe_singleton]
  · simp [accounted, addrs, record, hid]

theorem accounted_removeOperatorLocked (oc : OperatorController) (op : Operator) :
    (oc.removeOperatorLocked op).1.accounted id +
      (if (oc.removeOperatorLocked op).2 then addrs id [op] else 0) = oc.accounted id := by
  unfold removeOperatorLocked
  by_cases hrun : (oc.operators op.regionId).map Operator.addr = some op.addr
  · rw [if_pos hrun]
    rcases eq_or_ne op.regionId id with rfl | hne
    · simp [hrun, accounted, addrs, add_comm]
    · simp [accounted, addrs, hne, hne.symm]
  · rw [if_neg hrun]
    exact add_zero _

theorem accounted_removeOperator (oc : OperatorController) (op : Operator)
    (status : OperatorStatus) : (oc.removeOperator op status).accounted id = oc.accounted id := by
  rw [← accounted_removeOperatorLocked oc op]
  unfold removeOperator
  dsimp only
  split_ifs
  · exact accounted_record _ op status
  · exact (add_zero _).symm

theorem accounted_sendScheduleCommand (oc : OperatorController) (region : RegionInfo)
    (step : OpStep) : (oc.sendScheduleCommand region step).accounted id = oc.accounted id := by
  obtain ⟨sent, hsent⟩ := exists_sendScheduleCommand oc region step
  rw [hsent]
  rfl

theorem accounted_dispatch (oc : OperatorController) (region : RegionInfo)
    (source : DispatchSource) (running : ℕ) :
    (oc.dispatch region source running).accounted id = oc.accounted id := by
  unfold OperatorController.dispatch
  cases hop : oc.operators region.id with
  | none => rfl
  | some op =>
    have hset : (oc.setOperator region.id (op.check region).1).accounted id = oc.accounted id :=
      accounted_setOperator (by rw [hop]; rfl)
    dsimp only
    split
    · unfold sendOrCancel
      dsimp only
      split_ifs
      · rw [accounted_removeOperator, hset]
      · rw [accounted_sendScheduleCommand, hset]
    · unfold finish
      split_ifs
      · rw [accounted_removeOperator, hset]
      · rw [accounted_removeOperator, hset]
      · exact hset

theorem accounted_setOperator_of_none (h : oc.operators op.regionId = none) :
    (oc.setOperator op.regionId op).accounted id = oc.accounted id + addrs id [op] := by
  rcases eq_or_ne op.regionId id with rfl | hne
  · simp [accounted, addrs, OperatorController.setOperator, h, add_comm]
  · simp [accounted, addrs, OperatorController.setOperator, hne, hne.symm]

theorem Keyed.accounted_replaceOperator (h : oc.Keyed) (op : Operator) :
    (oc.replaceOperator op).accounted id = oc.accounted id + addrs id [op] := by
  unfold replaceOperator
  cases hold : oc.operators op.regionId with
  | none => exact accounted_setOperator_of_none hold
  | some old =>
    have hid : old.regionId = op.regionId := h _ _ hold
    have hremove : oc.removeOperatorLocked old =
        ({ oc with operators := Function.update oc.operators op.regionId none }, true) := by
      simp [removeOperatorLocked, hid, hold]
    -- The operator that gives way is recorded.
    have hlocked : _ = oc.accounted id := accounted_removeOperatorLocked oc old
    rw [hremove, if_pos rfl] at hlocked
    simp only [hremove]
    refine (accounted_setOperator_of_none ?_).trans ?_
    · simp [record]
    · rw [accounted_record, hlocked]

theorem Keyed.accounted_addOperatorLocked (h : oc.Keyed) (op : Operator) :
    (oc.addOperatorLocked op).accounted id = oc.accounted id + addrs id [op] := by
  have hreplace : (oc.replaceOperator op).accounted id = oc.accounted id + addrs id [op] :=
    h.accounted_replaceOperator op
  have hsame : ((oc.replaceOperator op).operators op.regionId).map Operator.addr =
      some op.addr := by
    simp [h.operators_replaceOperator]
  unfold OperatorController.addOperatorLocked
  dsimp only
  cases (oc.replaceOperator op).regions op.regionId with
  | none => exact hreplace
  | some region =>
    have hset : ((oc.replaceOperator op).setOperator op.regionId (op.check region).1).accounted id =
        (oc.replaceOperator op).accounted id := accounted_setOperator hsame
    cases hstep : (op.check region).2 with
    | none => simp only [hstep, hset, hreplace]
    | some step => simp only [hstep, accounted_sendScheduleCommand, hset, hreplace]

theorem addrs_cons (id : ℕ) (op : Operator) (ops : List Operator) :
    addrs id (op :: ops) = addrs id [op] + addrs id ops := by
  unfold addrs
  by_cases hid : op.regionId = id <;> simp [hid]

theorem accounted_foldl {f : OperatorController → Operator → OperatorController}
    {I : OperatorController → Prop} (hf : ∀ oc op, I oc → I (f oc op) ∧
      (f oc op).accounted id = oc.accounted id + addrs id [op])
    (h : I oc) (ops : List Operator) :
    (ops.foldl f oc).accounted id = oc.accounted id + addrs id ops := by
  induction ops generalizing oc with
  | nil => exact (add_zero _).symm
  | cons op ops ih =>
    obtain ⟨hI, haccounted⟩ := hf oc op h
    rw [foldl_cons, ih hI, haccounted, addrs_cons id op ops, add_assoc]

theorem Keyed.accounted_step {e : OperatorCall} (h : oc.Keyed) (id : ℕ)
    (hstep : calls.step oc e = some oc') :
    oc'.accounted id + taken id e = oc.accounted id + asked id e := by
  cases e with
  | report region =>
    obtain rfl := Option.some.inj hstep
    rfl
  | dispatch region source running =>
    obtain rfl := Option.some.inj hstep
    exact congrArg (· + 0) (accounted_dispatch oc region source running)
  | add ops =>
    obtain rfl := Option.some.inj hstep
    refine (add_zero _).trans ?_
    unfold OperatorController.addOperator
    split_ifs
    · exact accounted_foldl
        (fun _ op hk => ⟨hk.addOperatorLocked op, hk.accounted_addOperatorLocked op⟩) h ops
    · exact accounted_foldl (I := fun _ => True)
        (fun oc op _ => ⟨trivial, accounted_record oc op .cancel⟩) trivial ops
  | remove op found =>
    simp only [calls] at hstep
    split_ifs at hstep with hfound
    obtain rfl := Option.some.inj hstep
    have hlocked : _ = oc.accounted id := accounted_removeOperatorLocked oc op
    rw [hfound] at hlocked
    refine Eq.trans ?_ (hlocked.trans (add_zero _).symm)
    cases found <;> rfl

theorem Keyed.accounted_run {es : List OperatorCall} (h : oc.Keyed) (id : ℕ)
    (hrun : calls.run oc es = some oc') :
    oc'.accounted id + (es.map (taken id)).sum = oc.accounted id + (es.map (asked id)).sum := by
  induction es generalizing oc with
  | nil =>
    obtain rfl : oc = oc' := Option.some.inj hrun
    rfl
  | cons e es ih =>
    obtain ⟨oc₁, hstep, hrun⟩ := Machine.run_cons.mp hrun
    have hfirst := h.accounted_step id hstep
    have hrest := ih (h.step hstep) hrun
    rw [map_cons, map_cons, sum_cons, sum_cons, add_left_comm, hrest,
      ← add_assoc, ← add_assoc, add_comm (taken id e), hfirst]

/-- No operator is lost and none is recorded twice: in every run, the operators for a region that
were to be added are those that run, those that were recorded and those that someone else has
removed. -/
theorem operators_accounted {es : List OperatorCall} (hrun : calls.run {} es = some oc) (id : ℕ) :
    oc.accounted id + (es.map (taken id)).sum = (es.map (asked id)).sum := by
  have hkeyed : ({} : OperatorController).Keyed := fun _ _ hop => by cases hop
  have haccounted := hkeyed.accounted_run id hrun
  rwa [show ({} : OperatorController).accounted id = 0 from rfl, zero_add] at haccounted

def displaced : List OperatorCall :=
  [.report threeStores, .add [removal 0 2, removal opAdmin 3], .remove (removal opAdmin 3) true]

theorem operators_accounted_displaced : ∃ oc, calls.run {} displaced = some oc ∧
    oc.accounted 1 + {3} = {2, 3} := by
  obtain ⟨oc, hoc⟩ := Option.isSome_iff_exists.mp
    (show (calls.run {} displaced).isSome = true by rfl)
  exact ⟨oc, hoc, operators_accounted hoc 1⟩

end TinyKV.OperatorController
