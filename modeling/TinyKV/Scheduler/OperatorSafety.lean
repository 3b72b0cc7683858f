import TinyKV.Scheduler.Operator

/-!
# When the removal of a leader is ordered

The operators that remove a peer transfer the leader away first.
-/

namespace TinyKV

open List

def Operator.Exposes (op : Operator) (region : RegionInfo) : Prop :=
  ∃ steps s leader, op.steps.drop op.currentStep = steps ++ [.removePeer s] ∧
    (∀ st ∈ steps, st.isFinish region) ∧ region.leader = some leader ∧
    region.getStorePeer s = some leader

def Operator.RemovesLast (op : Operator) : Prop := ∀ s, OpStep.removePeer s ∉ op.steps.dropLast

def OpStep.RemovesLeader (region : RegionInfo) : OpStep → Prop
  | removePeer s => ∃ leader, region.leader = some leader ∧ region.getStorePeer s = some leader
  | transferLeader _ _ | addPeer _ _ => False

namespace OperatorController

def Safe (oc : OperatorController) : Prop :=
  ∀ region p, (region, ScheduleCommand.removeNode (some p)) ∈ oc.sent → region.leader ≠ some p

/-- The event makes the controller look at an operator that is to remove the leader: a region is
dispatched, and its operator has neither timed out nor become stale, or operators are added. -/
def Exposed (oc : OperatorController) : OperatorEvent → Prop
  | .dispatch region source running => ∃ op, oc.operators region.id = some op ∧
      op.Exposes region ∧ op.isTimeout running = false ∧
      ¬ (source = .heartBeat ∧
        (op.check region).1.confVerChanged region < sub64 region.confVer op.confVer)
  | .add requests => ∃ ops, requests.mapM oc.create = some ops ∧ oc.checkAddOperator ops ∧
      ∃ op ∈ ops, ∃ region, oc.regions op.regionId = some region ∧ op.Exposes region
  | .report _ | .remove _ => False

end OperatorController

namespace Operator

variable {op : Operator} {region : RegionInfo} {st : OpStep}

theorem checkFrom_eq_some {steps : List OpStep} {n : ℕ} :
    (checkFrom region steps n).2 = some st ↔ ∃ done rest, steps = done ++ st :: rest ∧
      (∀ s ∈ done, s.isFinish region) ∧ st.isFinish region = false := by
  induction steps generalizing n with
  | nil => simp [checkFrom]
  | cons s steps ih =>
    rw [checkFrom]
    split_ifs with hs
    · rw [ih]
      constructor
      · rintro ⟨done, rest, rfl, hdone, hst⟩
        exact ⟨s :: done, rest, rfl, by simpa [hs] using hdone, hst⟩
      · rintro ⟨done, rest, heq, hdone, hst⟩
        cases done with
        | nil =>
          obtain ⟨rfl, -⟩ := List.cons.inj heq
          rw [hs] at hst
          cases hst
        | cons d done =>
          obtain ⟨rfl, rfl⟩ := List.cons.inj heq
          exact ⟨done, rest, rfl, fun x hx => hdone x (mem_cons_of_mem _ hx), hst⟩
    · constructor
      · intro heq
        obtain rfl : s = st := Option.some.inj heq
        exact ⟨[], steps, rfl, by simp, by simpa using hs⟩
      · rintro ⟨done, rest, heq, hdone, hst⟩
        cases done with
        | nil =>
          obtain ⟨rfl, -⟩ := List.cons.inj heq
          rfl
        | cons d done =>
          obtain ⟨rfl, -⟩ := List.cons.inj heq
          exact absurd (hdone s mem_cons_self) hs

theorem check_eq_some : (op.check region).2 = some st ↔
    ∃ done rest, op.steps.drop op.currentStep = done ++ st :: rest ∧
      (∀ s ∈ done, s.isFinish region) ∧ st.isFinish region = false :=
  checkFrom_eq_some

theorem RemovesLast.check (h : op.RemovesLast) : (op.check region).1.RemovesLast := h

theorem RemovesLast.exposes_iff (h : op.RemovesLast) :
    op.Exposes region ↔ ∃ st, (op.check region).2 = some st ∧ st.RemovesLeader region := by
  constructor
  · rintro ⟨steps, s, leader, hsteps, hdone, hleader, hpeer⟩
    refine ⟨_, check_eq_some.mpr ⟨steps, [], hsteps, hdone, ?_⟩, leader, hleader, hpeer⟩
    simp [OpStep.isFinish, hpeer]
  · rintro ⟨st, hcheck, hremoves⟩
    obtain ⟨done, rest, hdrop, hdone, -⟩ := check_eq_some.mp hcheck
    cases st with
    | transferLeader fromStore toStore => exact hremoves.elim
    | addPeer toStore peerId => exact hremoves.elim
    | removePeer s =>
      obtain ⟨leader, hleader, hpeer⟩ := hremoves
      -- Nothing comes after the removal.
      cases rest with
      | nil => exact ⟨done, s, leader, hdrop, hdone, hleader, hpeer⟩
      | cons r rest =>
        refine absurd ?_ (h s)
        rw [← take_append_drop op.currentStep op.steps, hdrop]
        simp [dropLast_append_of_ne_nil, dropLast_cons_of_ne_nil]

end Operator

namespace OperatorController

variable {oc oc' oc'' : OperatorController} {region : RegionInfo} {op : Operator}

def RunsLast (oc : OperatorController) : Prop :=
  ∀ id op, oc.operators id = some op → op.RemovesLast

/-- A change of the running operators and the records: nothing is sent. -/
structure Quiet (oc oc' : OperatorController) : Prop where
  sent : oc'.sent = oc.sent
  regions : oc'.regions = oc.regions
  runsLast : oc.RunsLast → oc'.RunsLast

theorem Quiet.refl (oc : OperatorController) : oc.Quiet oc := ⟨rfl, rfl, id⟩

theorem Quiet.trans (h : oc.Quiet oc') (h' : oc'.Quiet oc'') : oc.Quiet oc'' :=
  ⟨h'.sent.trans h.sent, h'.regions.trans h.regions, fun hruns => h'.runsLast (h.runsLast hruns)⟩

theorem quiet_setOperator (hop : oc.RunsLast → op.RemovesLast) (id : ℕ) :
    oc.Quiet (oc.setOperator id op) := by
  refine ⟨rfl, rfl, fun h id' op' hop' => ?_⟩
  rcases eq_or_ne id' id with rfl | hne
  · obtain rfl : op = op' := by simpa [setOperator] using hop'
    exact hop h
  · exact h id' op' (by simpa [setOperator, hne] using hop')

theorem quiet_record (op : Operator) (status : OperatorStatus) : oc.Quiet (oc.record op status) :=
  ⟨rfl, rfl, id⟩

theorem quiet_removeOperatorLocked : oc.Quiet (oc.removeOperatorLocked op).1 := by
  unfold removeOperatorLocked
  split_ifs
  · refine ⟨rfl, rfl, fun h id' op' hop' => ?_⟩
    rcases eq_or_ne id' op.regionId with rfl | hne
    · simp at hop'
    · exact h id' op' (by simpa [hne] using hop')
  · exact .refl oc

theorem quiet_removeOperator (status : OperatorStatus) :
    oc.Quiet (oc.removeOperator op status) := by
  unfold removeOperator
  dsimp only
  split_ifs
  · exact quiet_removeOperatorLocked.trans (quiet_record op status)
  · exact quiet_removeOperatorLocked

theorem quiet_finish (timeout : Bool) : oc.Quiet (oc.finish op timeout) := by
  unfold finish
  split_ifs
  · exact quiet_removeOperator _
  · exact quiet_removeOperator _
  · exact .refl oc

theorem quiet_replaceOperator (hop : op.RemovesLast) : oc.Quiet (oc.replaceOperator op) := by
  unfold replaceOperator
  split
  · rename_i old _
    exact (quiet_removeOperatorLocked.trans (quiet_record old .replace)).trans
      (quiet_setOperator (fun _ => hop) _)
  · exact quiet_setOperator (fun _ => hop) _

inductive Sends (oc : OperatorController) :
    Option (RegionInfo × OpStep) → OperatorController → Prop
  | nothing {oc' : OperatorController} (h : oc.Quiet oc') : Sends oc none oc'
  | command {oc' : OperatorController} (h : oc.Quiet oc') (region : RegionInfo) (st : OpStep) :
    Sends oc (some (region, st)) (oc'.sendScheduleCommand region st)

def dispatched (oc : OperatorController) (region : RegionInfo) (source : DispatchSource)
    (running : ℕ) : Option (RegionInfo × OpStep) :=
  match oc.operators region.id with
  | none => none
  | some op =>
    if op.isTimeout running ∨ source = .heartBeat ∧
        (op.check region).1.confVerChanged region < sub64 region.confVer op.confVer then none
    else (op.check region).2.map fun st => (region, st)

def added (oc : OperatorController) (op : Operator) : Option (RegionInfo × OpStep) :=
  match oc.regions op.regionId with
  | none => none
  | some region => (op.check region).2.map fun st => (region, st)

theorem sends_dispatch (source : DispatchSource) (running : ℕ) :
    oc.Sends (oc.dispatched region source running) (oc.dispatch region source running) := by
  unfold dispatched dispatch
  cases hop : oc.operators region.id with
  | none => exact .nothing (.refl oc)
  | some op =>
    have hset : oc.Quiet (oc.setOperator region.id (op.check region).1) :=
      quiet_setOperator (fun h => (h region.id op hop).check) region.id
    cases hstep : (op.check region).2 with
    | none =>
      simp only [hstep, Option.map_none, ite_self]
      exact .nothing (hset.trans (quiet_finish _))
    | some st =>
      cases htimeout : op.isTimeout running with
      | true =>
        simp only [hstep, htimeout, true_or, if_true]
        exact .nothing (hset.trans (quiet_finish _))
      | false =>
        simp only [hstep, htimeout, sendOrCancel, Bool.false_eq_true, false_or, Option.map_some]
        -- The operator that was checked has the version of the one before.
        have hversion : (op.check region).1.confVer = op.confVer := rfl
        rw [hversion]
        split_ifs
        · exact .nothing (hset.trans (quiet_removeOperator _))
        · exact .command hset region st

theorem sends_addOperatorLocked (hop : op.RemovesLast) :
    oc.Sends (oc.added op) (oc.addOperatorLocked op) := by
  have hreplace : oc.Quiet (oc.replaceOperator op) := quiet_replaceOperator hop
  unfold added addOperatorLocked
  simp only [hreplace.regions]
  cases hregion : oc.regions op.regionId with
  | none => exact .nothing hreplace
  | some region =>
    have hset : oc.Quiet ((oc.replaceOperator op).setOperator op.regionId (op.check region).1) :=
      hreplace.trans (quiet_setOperator (fun _ => hop.check) op.regionId)
    cases hstep : (op.check region).2 with
    | none =>
      simp only [hstep, Option.map_none]
      exact .nothing hset
    | some st =>
      simp only [hstep, Option.map_some]
      exact .command hset region st

theorem safe_congr (h : oc'.sent = oc.sent) : oc'.Safe ↔ oc.Safe := by
  unfold Safe
  rw [h]

theorem safe_sendMsg (cmd : ScheduleCommand) : (oc.sendMsg region cmd).Safe ↔
    oc.Safe ∧ ∀ p, cmd = .removeNode (some p) → region.leader ≠ some p := by
  unfold sendMsg
  split_ifs with hleader
  · simp [hleader]
  simp only [Safe, mem_append, mem_singleton, Prod.mk.injEq]
  constructor
  · intro h
    exact ⟨fun r p hmem => h r p (Or.inl hmem), fun p hcmd => h region p (Or.inr ⟨rfl, hcmd.symm⟩)⟩
  · rintro ⟨h, hcmd⟩ r p (hmem | ⟨rfl, heq⟩)
    · exact h r p hmem
    · exact hcmd p heq.symm

theorem safe_sendScheduleCommand (st : OpStep) :
    (oc.sendScheduleCommand region st).Safe ↔ oc.Safe ∧ ¬ st.RemovesLeader region := by
  cases st with
  | transferLeader fromStore toStore =>
    simp [sendScheduleCommand, safe_sendMsg, OpStep.RemovesLeader]
  | addPeer toStore peerId =>
    rw [sendScheduleCommand]
    split_ifs <;> simp [safe_sendMsg, OpStep.RemovesLeader]
  | removePeer fromStore =>
    rw [sendScheduleCommand, safe_sendMsg]
    refine and_congr_right fun _ => ?_
    simp only [ScheduleCommand.removeNode.injEq, OpStep.RemovesLeader]
    constructor
    · rintro h ⟨leader, hleader, hpeer⟩
      exact h leader hpeer hleader
    · intro h p hpeer hleader
      exact h ⟨p, hleader, hpeer⟩

theorem exists_sendScheduleCommand (oc : OperatorController) (region : RegionInfo) (st : OpStep) :
    ∃ sent, oc.sendScheduleCommand region st = { oc with sent := sent } := by
  have hsend : ∀ cmd, ∃ sent, oc.sendMsg region cmd = { oc with sent := sent } := by
    intro cmd
    unfold sendMsg
    split_ifs
    · exact ⟨oc.sent, rfl⟩
    · exact ⟨_, rfl⟩
  cases st with
  | transferLeader | removePeer => exact hsend _
  | addPeer toStore peerId =>
    rw [sendScheduleCommand]
    split_ifs
    · exact ⟨oc.sent, rfl⟩
    · exact hsend _

theorem sendScheduleCommand_fields (st : OpStep) :
    (oc.sendScheduleCommand region st).operators = oc.operators ∧
      (oc.sendScheduleCommand region st).regions = oc.regions ∧
      (oc.sendScheduleCommand region st).records = oc.records := by
  obtain ⟨sent, hsent⟩ := exists_sendScheduleCommand oc region st
  rw [hsent]
  exact ⟨rfl, rfl, rfl⟩

namespace Sends

variable {next : Option (RegionInfo × OpStep)}

theorem safe_iff (h : oc.Sends next oc') :
    oc'.Safe ↔ oc.Safe ∧ ¬ ∃ region st, next = some (region, st) ∧ st.RemovesLeader region := by
  cases h with
  | nothing h => simp [safe_congr h.sent]
  | command h region st => simp [safe_sendScheduleCommand, safe_congr h.sent]

theorem runsLast (h : oc.Sends next oc') (hruns : oc.RunsLast) : oc'.RunsLast := by
  cases h with
  | nothing h => exact h.runsLast hruns
  | command h region st =>
    intro id op hop
    rw [(sendScheduleCommand_fields st).1] at hop
    exact h.runsLast hruns id op hop

theorem regions (h : oc.Sends next oc') : oc'.regions = oc.regions := by
  cases h with
  | nothing h => exact h.regions
  | command h region st => rw [(sendScheduleCommand_fields st).2.1, h.regions]

end Sends

theorem RunsLast.exposed_dispatch (h : oc.RunsLast) (source : DispatchSource) (running : ℕ) :
    oc.Exposed (.dispatch region source running) ↔ ∃ region' st,
      oc.dispatched region source running = some (region', st) ∧ st.RemovesLeader region' := by
  unfold Exposed dispatched
  cases hop : oc.operators region.id with
  | none => simp [hop]
  | some op =>
    have hexposes : op.Exposes region ↔ _ := (h region.id op hop).exposes_iff
    simp only [hop, Option.some.injEq, exists_eq_left', hexposes]
    split_ifs with hquiet
    · simp only [false_and, exists_false, iff_false]
      rintro ⟨-, htimeout, hstale⟩
      exact hquiet.elim (by simp [htimeout]) hstale
    · obtain ⟨htimeout, hstale⟩ := not_or.mp hquiet
      simp [htimeout, hstale]

theorem exposes_iff_added (h : op.RemovesLast) :
    (∃ region, oc.regions op.regionId = some region ∧ op.Exposes region) ↔
      ∃ region st, oc.added op = some (region, st) ∧ st.RemovesLeader region := by
  unfold added
  cases hregion : oc.regions op.regionId with
  | none => simp
  | some region =>
    have hexposes : op.Exposes region ↔ _ := h.exposes_iff
    simp [hexposes]

theorem foldl_addOperatorLocked (ops : List Operator) (hops : ∀ op ∈ ops, op.RemovesLast)
    (oc : OperatorController) (h : oc.RunsLast) :
    (ops.foldl addOperatorLocked oc).RunsLast ∧ ((ops.foldl addOperatorLocked oc).Safe ↔
      oc.Safe ∧ ¬ ∃ op ∈ ops, ∃ region, oc.regions op.regionId = some region ∧
        op.Exposes region) := by
  induction ops generalizing oc with
  | nil => exact ⟨h, by simp⟩
  | cons op ops ih =>
    have hop := hops op mem_cons_self
    have hsends : oc.Sends (oc.added op) (oc.addOperatorLocked op) := sends_addOperatorLocked hop
    obtain ⟨hruns, hsafe⟩ := ih (fun op' hop' => hops op' (mem_cons_of_mem op hop')) _
      (hsends.runsLast h)
    refine ⟨hruns, ?_⟩
    rw [foldl_cons, hsafe, hsends.regions, hsends.safe_iff, ← exposes_iff_added hop]
    simp only [mem_cons, exists_eq_or_imp, not_or, and_assoc]

end OperatorController

structure TransfersFirst (region : RegionInfo) (storeId : ℕ) (ids : List ℕ)
    (steps : List OpStep) : Prop where
  removePeer : ∀ s, OpStep.removePeer s ∉ steps
  transferLeader : region.leader ≠ none → region.leaderStoreId = storeId →
    ∃ id ∈ ids, OpStep.transferLeader storeId id ∈ steps

namespace TransfersFirst

variable {region : RegionInfo} {storeId : ℕ} {ids : List ℕ} {steps : List OpStep}

theorem of_transferLeaderStep {hasStore : ℕ → Bool} {kind : ℕ}
    (h : Operator.transferLeaderStep hasStore region storeId ids = .ok (kind, steps)) :
    TransfersFirst region storeId ids steps := by
  unfold Operator.transferLeaderStep Operator.transferLeaderToSuitableSteps at h
  dsimp only at h
  split_ifs at h with hleader hid
  · obtain ⟨-, rfl⟩ := Prod.mk.inj (Except.ok.inj h)
    refine ⟨by simp, fun _ _ => ⟨_, ?_, mem_singleton_self _⟩⟩
    -- An id other than zero was found.
    unfold Operator.findAvailableStore at hid ⊢
    cases hfind : ids.find? hasStore with
    | none => simp [hfind] at hid
    | some id => exact mem_of_find?_eq_some hfind
  · obtain ⟨-, rfl⟩ := Prod.mk.inj (Except.ok.inj h)
    exact ⟨by simp, fun hsome heq => absurd ⟨hsome, heq⟩ hleader⟩

theorem addPeer (h : TransfersFirst region storeId ids steps) {newStore peerId : ℕ}
    {steps' : List OpStep} (hperm : steps'.Perm (.addPeer newStore peerId :: steps)) :
    TransfersFirst region storeId ids steps' := by
  refine ⟨fun s hmem => ?_, fun hsome heq => ?_⟩
  · refine h.removePeer s ?_
    simpa using hperm.mem_iff.mp hmem
  · obtain ⟨id, hid, hmem⟩ := h.transferLeader hsome heq
    exact ⟨id, hid, hperm.mem_iff.mpr (mem_cons_of_mem _ hmem)⟩

end TransfersFirst

def CreateOperator.store : CreateOperator → ℕ
  | removePeer storeId => storeId
  | movePeer oldStore _ _ | offlinePeer oldStore _ _ => oldStore

def CreateRequest.targets (req : CreateRequest) : List ℕ :=
  match req.create with
  | .movePeer _ newStore _ => req.followerIds ++ [newStore]
  | .removePeer _ | .offlinePeer _ _ _ => req.followerIds

namespace CreateRequest

variable {req : CreateRequest} {region : RegionInfo} {op : Operator}

theorem operator_spec (h : req.operator region = .ok op) :
    op.regionId = region.id ∧ op.currentStep = 0 ∧
      ∃ steps, op.steps = steps ++ [.removePeer req.create.store] ∧
        TransfersFirst region req.create.store req.targets steps := by
  -- Each of the functions starts with `transferLeaderStep`, which must return no error.
  have hbind : ∀ {ids storeId} {f : ℕ × List OpStep → Except Operator.OperatorErr Operator},
      (Operator.transferLeaderStep req.hasStore region storeId ids >>= f) = .ok op →
      ∃ made, TransfersFirst region storeId ids made.2 ∧ f made = .ok op := by
    intro ids storeId f hf
    cases hmade : Operator.transferLeaderStep req.hasStore region storeId ids with
    | error err =>
      rw [hmade] at hf
      cases hf
    | ok made =>
      rw [hmade] at hf
      exact ⟨made, .of_transferLeaderStep hmade, hf⟩
  unfold operator at h
  unfold targets
  cases hcreate : req.create with
  | removePeer storeId =>
    simp only [hcreate, Operator.createRemovePeerOperator, Operator.removePeerSteps,
      bind_assoc] at h
    obtain ⟨made, hfirst, h⟩ := hbind h
    cases h
    exact ⟨rfl, rfl, made.2, rfl, hfirst⟩
  | movePeer oldStore newStore peerId =>
    simp only [hcreate, Operator.createMovePeerOperator, Operator.removePeerSteps,
      bind_assoc] at h
    obtain ⟨made, hfirst, h⟩ := hbind h
    cases h
    exact ⟨rfl, rfl, _, (append_assoc _ _ _).symm, hfirst.addPeer (.refl _)⟩
  | offlinePeer oldStore newStore peerId =>
    simp only [hcreate, Operator.createOfflinePeerOperator] at h
    obtain ⟨made, hfirst, h⟩ := hbind h
    cases h
    exact ⟨rfl, rfl, _, rfl, hfirst.addPeer (perm_append_singleton _ _)⟩

end CreateRequest

namespace OperatorController

variable {oc : OperatorController} {req : CreateRequest} {op : Operator}

theorem create_eq_some (h : oc.create req = some op) : ∃ region made,
    oc.regions req.regionId = some region ∧ req.followerIds.Perm region.getFollowers.keys ∧
      req.operator region = .ok made ∧
        op = { made with level := req.level.getD made.level, addr := req.addr } := by
  obtain ⟨region, hregion, h⟩ := Option.bind_eq_some_iff.mp h
  split_ifs at h with hperm
  obtain ⟨made, hmade, h⟩ := Option.bind_eq_some_iff.mp h
  refine ⟨region, made, hregion, hperm, ?_, (Option.some.inj h).symm⟩
  cases hop : req.operator region with
  | error err => simp [hop, Except.toOption] at hmade
  | ok made' => simpa [hop, Except.toOption] using hmade

theorem removesLast_of_create (h : oc.create req = some op) : op.RemovesLast := by
  obtain ⟨region, made, -, -, hmade, rfl⟩ := create_eq_some h
  obtain ⟨-, -, steps, hsteps, hfirst⟩ := CreateRequest.operator_spec hmade
  intro s
  simpa [hsteps] using hfirst.removePeer s

theorem exists_create_of_mapM {requests : List CreateRequest} {ops : List Operator}
    (h : requests.mapM oc.create = some ops) (hop : op ∈ ops) :
    ∃ req ∈ requests, oc.create req = some op := by
  induction requests generalizing ops with
  | nil =>
    obtain rfl : [] = ops := by simpa using h
    simp at hop
  | cons req requests ih =>
    rw [mapM_cons] at h
    obtain ⟨first, hfirst, h⟩ := Option.bind_eq_some_iff.mp h
    obtain ⟨rest, hrest, h⟩ := Option.bind_eq_some_iff.mp h
    obtain rfl : first :: rest = ops := Option.some.inj h
    cases hop with
    | head => exact ⟨req, mem_cons_self, hfirst⟩
    | tail _ hop =>
      obtain ⟨req', hreq', hcreate⟩ := ih hrest hop
      exact ⟨req', mem_cons_of_mem _ hreq', hcreate⟩

theorem quiet_foldl_record (ops : List Operator) (oc : OperatorController) :
    oc.Quiet (ops.foldl (fun oc op => oc.record op .cancel) oc) := by
  induction ops generalizing oc with
  | nil => exact .refl oc
  | cons op ops ih => exact (quiet_record op .cancel).trans (ih _)

theorem step_spec {oc' : OperatorController} {e : OperatorEvent} (h : oc.RunsLast)
    (hstep : machine.step oc e = some oc') :
    oc'.RunsLast ∧ (oc'.Safe ↔ oc.Safe ∧ ¬ oc.Exposed e) := by
  cases e with
  | report region =>
    obtain rfl := Option.some.inj hstep
    exact ⟨h, by simp [Exposed, Safe]⟩
  | dispatch region source running =>
    obtain rfl := Option.some.inj hstep
    have hsends : oc.Sends _ (oc.dispatch region source running) := sends_dispatch source running
    rw [h.exposed_dispatch]
    exact ⟨hsends.runsLast h, hsends.safe_iff⟩
  | add requests =>
    obtain ⟨ops, hops, hstep⟩ := Option.bind_eq_some_iff.mp hstep
    obtain rfl := Option.some.inj hstep
    have hlast : ∀ op ∈ ops, op.RemovesLast := by
      intro op hop
      obtain ⟨req, -, hcreate⟩ := exists_create_of_mapM hops hop
      exact removesLast_of_create hcreate
    unfold addOperator
    split_ifs with hcheck
    · simpa [Exposed, hops, hcheck] using foldl_addOperatorLocked ops hlast oc h
    · have hquiet := quiet_foldl_record ops oc
      exact ⟨hquiet.runsLast h, by simp [Exposed, hops, hcheck, safe_congr hquiet.sent]⟩
  | remove regionId =>
    cases hop : oc.operators regionId with
    | none => simp [machine, hop] at hstep
    | some op =>
      obtain rfl : (oc.removeOperatorLocked op).1 = oc' := by simpa [machine, hop] using hstep
      have hquiet : oc.Quiet (oc.removeOperatorLocked op).1 := quiet_removeOperatorLocked
      exact ⟨hquiet.runsLast h, by simp [Exposed, safe_congr hquiet.sent]⟩

/-- Along a run no command removes the leader of the region it is sent for if and only if no call
looks at an operator that is to remove the leader. -/
theorem throughout_safe_iff (es : List OperatorEvent) :
    machine.Throughout Safe {} es ↔ machine.Along (fun oc e _ => ¬ oc.Exposed e) {} es := by
  refine Machine.throughout_iff_along (I := RunsLast) ?_ ?_ ?_
  · intro id op hop
    simp at hop
  · intro region p hmem
    simp at hmem
  · intro oc e oc' h hsafe hstep
    simpa [hsafe] using step_spec h hstep

def leaderBack : List OperatorEvent :=
  let region : RegionInfo :=
    { id := 1, peers := [⟨1, 1⟩, ⟨2, 2⟩, ⟨3, 3⟩], leader := some ⟨1, 1⟩ }
  let transferred : RegionInfo := { region with leader := some ⟨2, 2⟩ }
  [.report region,
    .add [{
      regionId := 1, create := .removePeer 1, kind := opAdmin, hasStore := fun _ => true
      followerIds := [2, 3] }],
    .report transferred, .dispatch transferred .heartBeat 0,
    .report region, .dispatch region .heartBeat 0]

theorem leaderBack_removes_leader : ∃ oc region p, machine.run {} leaderBack = some oc ∧
    region.WellFormed ∧ region.leader = some p ∧ (region, .removeNode (some p)) ∈ oc.sent := by
  refine ⟨_, { id := 1, peers := [⟨1, 1⟩, ⟨2, 2⟩, ⟨3, 3⟩], leader := some ⟨1, 1⟩ }, ⟨1, 1⟩, rfl, ?_⟩
  decide +kernel

end OperatorController

theorem RegionInfo.mem_keys_getFollowers {region : RegionInfo} {s : ℕ} :
    s ∈ region.getFollowers.keys ↔ ∃ p ∈ region.peers,
      (region.leader = none ∨ region.leaderId ≠ p.id) ∧ p.storeId = s := by
  -- The loop over the voters, with the followers found before.
  have hloop : ∀ (peers : List Peer) (followers : AList fun _ : ℕ => Peer),
      s ∈ (peers.foldl (fun followers peer =>
        if region.leader = none ∨ region.leaderId ≠ peer.id then
          followers.insert peer.storeId peer
        else followers) followers).keys ↔ s ∈ followers.keys ∨ ∃ p ∈ peers,
          (region.leader = none ∨ region.leaderId ≠ p.id) ∧ p.storeId = s := by
    intro peers
    induction peers with
    | nil => simp
    | cons p peers ih =>
      intro followers
      rw [foldl_cons, ih]
      split_ifs with hp
      · simp only [← AList.mem_keys, AList.mem_insert, mem_cons, exists_eq_or_imp, hp,
          true_and]
        grind
      · simp only [mem_cons, exists_eq_or_imp, hp, false_and, false_or]
  simpa [getFollowers, getVoters] using hloop region.peers ∅

end TinyKV
