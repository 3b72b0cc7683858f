import TinyKV.Scheduler.OperatorSteps

/-!
# Operators that make progress

`Dispatch` cancels an operator if a heartbeat shows more changes of the region's configuration than
the steps up to the current one account for.
-/

namespace TinyKV

open List

def OpStep.stores : OpStep → List ℕ
  | transferLeader fromStore toStore => [fromStore, toStore]
  | addPeer toStore _ => [toStore]
  | removePeer fromStore => [fromStore]

def Operator.namedStores (op : Operator) : List ℕ := op.steps.flatMap OpStep.stores

def ScheduleCommand.storeId : ScheduleCommand → Option ℕ
  | transferLeader _ => none
  | addNode peer => some peer.storeId
  | removeNode peer => peer.map Peer.storeId

namespace RegionInfo

variable {region region' : RegionInfo} {p : Peer} {s : ℕ}

def carryOut (region : RegionInfo) : ScheduleCommand → RegionInfo
  | .transferLeader _ | .removeNode none => region
  | .addNode peer =>
    if peer.storeId ∈ region.stores then region
    else { region with peers := region.peers ++ [peer], confVer := region.confVer + 1 }
  | .removeNode (some peer) =>
    if peer ∈ region.peers then
      { region with peers := region.peers.filter (· ≠ peer), confVer := region.confVer + 1 }
    else region

structure ChangesPeer (s : ℕ) (region region' : RegionInfo) : Prop where
  id : region'.id = region.id
  confVer : region'.confVer = region.confVer + 1
  nodup : region'.stores.Nodup
  other : ∀ t ≠ s, region'.getStorePeer t = region.getStorePeer t

theorem carryOut_addNode (h : region.stores.Nodup) (hp : p.storeId ∉ region.stores) :
    ChangesPeer p.storeId region (region.carryOut (.addNode p)) ∧
      (region.carryOut (.addNode p)).getStorePeer p.storeId = some p := by
  rw [carryOut, if_neg hp]
  have hnodup : (region.stores ++ [p.storeId]).Nodup := by
    rw [nodup_append]
    refine ⟨h, nodup_singleton _, ?_⟩
    rintro s hs _ hmem rfl
    exact hp (mem_singleton.mp hmem ▸ hs)
  refine ⟨⟨rfl, rfl, by simpa [stores] using hnodup, ?_⟩, ?_⟩
  · intro t ht
    simp [getStorePeer, find?_append, ht.symm]
  · have hnone : region.peers.find? (fun peer => peer.storeId = p.storeId) = none :=
      getStorePeer_eq_none.mpr hp
    simp [getStorePeer, find?_append, hnone]

theorem carryOut_removeNode (h : region.stores.Nodup) (hp : p ∈ region.peers) :
    ChangesPeer p.storeId region (region.carryOut (.removeNode (some p))) ∧
      (region.carryOut (.removeNode (some p))).getStorePeer p.storeId = none := by
  rw [carryOut, if_pos hp]
  refine ⟨⟨rfl, rfl, ?_, ?_⟩, ?_⟩
  · exact (filter_sublist.map Peer.storeId).nodup h
  · intro t ht
    unfold getStorePeer
    rw [find?_filter]
    congr 1
    funext q
    -- A peer on the store is not the one that was removed.
    by_cases hq : q.storeId = t
    · have hne : q ≠ p := by
        rintro rfl
        exact ht hq.symm
      simp [hq, hne]
    · simp [hq]
  · rw [getStorePeer_eq_none]
    intro hmem
    obtain ⟨q, hq, hstore⟩ := mem_stores.mp hmem
    obtain ⟨hq, hne⟩ := mem_filter.mp hq
    exact absurd (inj_on_of_nodup_map h hq hp hstore) (by simpa using hne)

theorem carryOut_cases (region : RegionInfo) (cmd : ScheduleCommand) :
    region.carryOut cmd = region ∨ (∃ p, cmd = .addNode p ∧ p.storeId ∉ region.stores) ∨
      ∃ p, cmd = .removeNode (some p) ∧ p ∈ region.peers := by
  unfold carryOut
  split
  · exact .inl rfl
  · exact .inl rfl
  · split_ifs with hp
    · exact .inl rfl
    · exact .inr (.inl ⟨_, rfl, hp⟩)
  · split_ifs with hp
    · exact .inr (.inr ⟨_, rfl, hp⟩)
    · exact .inl rfl

end RegionInfo

structure OperatorRun where
  oc : OperatorController
  region : RegionInfo
  foreign : ℕ := 0
  reports : List (RegionInfo × ℕ) := [(region, 0)]

inductive ProgressEvent
  | execute (i : ℕ)
  | foreign (cmd : ScheduleCommand)
  | dispatch (i : ℕ) (leader : Option Peer) (pending : List Peer) (source : DispatchSource)
    (running : ℕ)

def ProgressEvent.isForeign : ProgressEvent → Bool
  | foreign _ => true
  | execute _ | dispatch _ _ _ _ _ => false

namespace OperatorRun

def enter (s : OperatorRun) (region : RegionInfo) (foreign : ℕ) : OperatorRun :=
  { s with region := region, foreign := foreign, reports := (region, foreign) :: s.reports }

def heartbeat (region : RegionInfo) (leader : Option Peer) (pending : List Peer) : RegionInfo :=
  { region with leader := leader, pendingPeers := pending }

def machine (op : Operator) (mark : ℕ) : Machine OperatorRun ProgressEvent where
  step s
    | .execute i =>
      (s.oc.sent.drop mark)[i]?.map fun sent => s.enter (s.region.carryOut sent.2) s.foreign
    | .foreign cmd =>
      if (∀ storeId ∈ cmd.storeId, storeId ∉ op.namedStores) ∧
          (s.region.carryOut cmd).confVer ≠ s.region.confVer then
        some (s.enter (s.region.carryOut cmd) (s.foreign + 1))
      else none
    | .dispatch i leader pending source running => do
      let report ← s.reports[i]?
      let region := heartbeat report.1 leader pending
      if (s.oc.operators region.id).any (·.isTimeout running) then none
      else some { s with oc := s.oc.dispatch region source running }

def NeverCancels (op : Operator) (mark : ℕ) (s : OperatorRun) : Prop :=
  ∀ es s', (∀ e ∈ es, ProgressEvent.isForeign e = false) → (machine op mark).run s es = some s' →
    ∃ records, s'.oc.records = s.oc.records ++ records ∧ ∀ r ∈ records, r.2 ≠ .cancel

def CancelsStale (op : Operator) (mark : ℕ) (s : OperatorRun) : Prop :=
  ∀ es s', (machine op mark).run s es = some s' →
    ∀ report ∈ s'.reports, 0 < report.2 → ∀ leader pending running o st,
      s'.oc.operators op.regionId = some o → o.isTimeout running = false →
      (o.check (heartbeat report.1 leader pending)).2 = some st →
      let oc := s'.oc.dispatch (heartbeat report.1 leader pending) .heartBeat running
      oc.operators op.regionId = none ∧ oc.sent = s'.oc.sent ∧ oc.records = s'.oc.records ++
        [((o.check (heartbeat report.1 leader pending)).1, .cancel)]

end OperatorRun

namespace Operator

def Coherent (op : Operator) : Prop :=
  ∀ s id, OpStep.addPeer s id ∈ op.steps → OpStep.removePeer s ∉ op.steps

def Fresh (op : Operator) (region : RegionInfo) : Prop :=
  ∀ s id, OpStep.addPeer s id ∈ op.steps → (OpStep.addPeer s id).confVerChanged region = false

structure Accounts (op : Operator) (current : ℕ) (known region : RegionInfo) (foreign : ℕ)
    (done : List OpStep) : Prop where
  id : region.id = op.regionId
  stores : region.stores.Nodup
  nodup : done.Nodup
  mem_take : ∀ st ∈ done, st ∈ op.steps.take (current + 1)
  changed : ∀ st ∈ done, st.confVerChanged region = true
  confVer : region.confVer = op.confVer + done.length + foreign
  added : op.Fresh known → ∀ s id, OpStep.addPeer s id ∈ op.steps →
    (OpStep.addPeer s id).confVerChanged region = true → OpStep.addPeer s id ∈ done

variable {op : Operator} {region region' known : RegionInfo} {current foreign s : ℕ}
  {done : List OpStep} {st : OpStep} {p : Peer}

theorem confVerChanged_congr (h : ∀ s ∈ st.stores, region'.getStorePeer s = region.getStorePeer s) :
    st.confVerChanged region' = st.confVerChanged region := by
  cases st with
  | transferLeader fromStore toStore => rfl
  | addPeer toStore peerId =>
    have hpeer : region'.getStoreVoter toStore = region.getStoreVoter toStore :=
      h toStore mem_cons_self
    simp only [OpStep.confVerChanged, hpeer]
  | removePeer fromStore =>
    simp only [OpStep.confVerChanged, h fromStore mem_cons_self]

theorem confVerChanged_of_changesPeer (h : region.ChangesPeer s region') (hs : s ∉ st.stores) :
    st.confVerChanged region' = st.confVerChanged region := by
  refine confVerChanged_congr fun t ht => h.other t ?_
  rintro rfl
  exact hs ht

theorem confVerChanged_addPeer {id : ℕ} : (OpStep.addPeer s id).confVerChanged region = true ↔
    ∃ p, region.getStorePeer s = some p ∧ p.id = id := by
  have hvoter : region.getStoreVoter s = region.getStorePeer s := rfl
  rw [OpStep.confVerChanged, hvoter]
  cases region.getStorePeer s <;> simp

theorem confVerChanged_removePeer : (OpStep.removePeer s).confVerChanged region = true ↔
    region.getStorePeer s = none := Option.isNone_iff_eq_none

namespace Accounts

variable (h : Accounts op current known region foreign done)
include h

theorem mono {current' : ℕ}
    (hle : current ≤ current') : Accounts op current' known region foreign done :=
  { h with mem_take := fun st hst =>
      (take_subset_take_left op.steps (Nat.succ_le_succ hle)) (h.mem_take st hst) }

theorem changes : sub64 region.confVer op.confVer = done.length + foreign := by
  rw [h.confVer, Nat.add_assoc, sub64_of_le (Nat.le_add_right _ _), Nat.add_sub_cancel_left]

theorem foreign_change (hchange : region.ChangesPeer s region') (hs : s ∉ op.namedStores) :
    Accounts op current known region' (foreign + 1) done := by
  have hcongr : ∀ st ∈ op.steps, st.confVerChanged region' = st.confVerChanged region :=
    fun st hst => confVerChanged_of_changesPeer hchange fun ht =>
      hs (mem_flatMap.mpr ⟨st, hst, ht⟩)
  refine ⟨hchange.id.trans h.id, hchange.nodup, h.nodup, h.mem_take, ?_, ?_, ?_⟩
  · intro st hst
    rw [hcongr st (mem_of_mem_take (h.mem_take st hst))]
    exact h.changed st hst
  · rw [hchange.confVer, h.confVer, Nat.add_assoc]
  · intro hfresh s id hmem hchanged
    rw [hcongr _ hmem] at hchanged
    exact h.added hfresh s id hmem hchanged

theorem carry_out (hchange : region.ChangesPeer s region') (hmem : st ∈ op.steps.take (current + 1))
    (hbefore : st.confVerChanged region = false) (hafter : st.confVerChanged region' = true)
    (hother : ∀ st' ∈ op.steps, s ∈ st'.stores → st' ∉ done)
    (hadded : ∀ id, (OpStep.addPeer s id).confVerChanged region' = true → OpStep.addPeer s id =
      st) : Accounts op current known region' foreign (st :: done) := by
  refine ⟨hchange.id.trans h.id, hchange.nodup, ?_, ?_, ?_, ?_, ?_⟩
  · refine nodup_cons.mpr ⟨fun hdone => ?_, h.nodup⟩
    rw [h.changed st hdone] at hbefore
    cases hbefore
  · exact forall_mem_cons.mpr ⟨hmem, h.mem_take⟩
  · refine forall_mem_cons.mpr ⟨hafter, fun st' hst' => ?_⟩
    have hst'mem := mem_of_mem_take (h.mem_take st' hst')
    rw [confVerChanged_of_changesPeer hchange fun hs => hother st' hst'mem hs hst']
    exact h.changed st' hst'
  · rw [hchange.confVer, h.confVer, length_cons]
    omega
  · intro hfresh t id hmem' hchanged
    by_cases hts : t = s
    · subst hts
      rw [hadded id hchanged]
      exact mem_cons_self
    · have hs : s ∉ (OpStep.addPeer t id).stores := by simpa [OpStep.stores] using Ne.symm hts
      rw [confVerChanged_of_changesPeer hchange hs] at hchanged
      exact mem_cons_of_mem st (h.added hfresh t id hmem' hchanged)

theorem not_mem (hst : s ∈ st.stores)
    (hadd : ∀ id, st = .addPeer s id → region.getStorePeer s = none)
    (hremove : st = .removePeer s → region.getStorePeer s ≠ none) : st ∉ done := by
  intro hdone
  have hchanged := h.changed st hdone
  cases st with
  | transferLeader fromStore toStore => cases hchanged
  | addPeer toStore peerId =>
    obtain rfl : s = toStore := by simpa [OpStep.stores] using hst
    obtain ⟨p, hp, -⟩ := confVerChanged_addPeer.mp hchanged
    rw [hadd peerId rfl] at hp
    cases hp
  | removePeer fromStore =>
    obtain rfl : s = fromStore := by simpa [OpStep.stores] using hst
    exact hremove rfl (confVerChanged_removePeer.mp hchanged)

theorem addNode (hop : op.Coherent)
    (hmem : OpStep.addPeer p.storeId p.id ∈ op.steps.take (current + 1))
    (hp : p.storeId ∉ region.stores) :
    Accounts op current known (region.carryOut (.addNode p)) foreign
      (.addPeer p.storeId p.id :: done) := by
  obtain ⟨hchange, hpeer⟩ := RegionInfo.carryOut_addNode h.stores hp
  have hnone : region.getStorePeer p.storeId = none := RegionInfo.getStorePeer_eq_none.mpr hp
  apply h.carry_out hchange hmem
  · rw [← Bool.not_eq_true, confVerChanged_addPeer, hnone]
    simp
  · exact confVerChanged_addPeer.mpr ⟨p, hpeer, rfl⟩
  · intro st' hst' hs
    refine h.not_mem hs (fun _ _ => hnone) ?_
    rintro rfl
    exact absurd hst' (hop _ _ (mem_of_mem_take hmem))
  · intro id hchanged
    obtain ⟨q, hq, rfl⟩ := confVerChanged_addPeer.mp hchanged
    rw [hpeer] at hq
    rw [Option.some.inj hq]

theorem removeNode (hop : op.Coherent)
    (hmem : OpStep.removePeer p.storeId ∈ op.steps.take (current + 1)) (hp : p ∈ region.peers) :
    Accounts op current known (region.carryOut (.removeNode (some p))) foreign
      (.removePeer p.storeId :: done) := by
  obtain ⟨hchange, hnone⟩ := RegionInfo.carryOut_removeNode h.stores hp
  have hpeer : region.getStorePeer p.storeId = some p :=
    (RegionInfo.getStorePeer_eq_some h.stores).mpr ⟨hp, rfl⟩
  apply h.carry_out hchange hmem
  · rw [← Bool.not_eq_true, confVerChanged_removePeer, hpeer]
    simp
  · exact confVerChanged_removePeer.mpr hnone
  · intro st' hst' hs
    refine h.not_mem hs (fun id hst => ?_) (fun _ => by simp [hpeer])
    subst hst
    exact absurd (mem_of_mem_take hmem) (hop _ _ hst')
  · intro id hchanged
    obtain ⟨q, hq, -⟩ := confVerChanged_addPeer.mp hchanged
    rw [hnone] at hq
    cases hq

end Accounts

def Sanctions (op : Operator) (current : ℕ) : ScheduleCommand → Prop
  | .transferLeader _ | .removeNode none => True
  | .addNode p => OpStep.addPeer p.storeId p.id ∈ op.steps.take (current + 1)
  | .removeNode (some p) => OpStep.removePeer p.storeId ∈ op.steps.take (current + 1)

variable {cmd : ScheduleCommand}

theorem Sanctions.mono (h : op.Sanctions current cmd) {current' : ℕ}
    (hle : current ≤ current') : op.Sanctions current' cmd := by
  have hsub := take_subset_take_left op.steps (Nat.succ_le_succ hle)
  cases cmd with
  | transferLeader p => trivial
  | addNode p => exact hsub h
  | removeNode p =>
    cases p with
    | none => trivial
    | some p => exact hsub h

theorem Accounts.execute (h : Accounts op current known region foreign done) (hop : op.Coherent)
    (hcmd : op.Sanctions current cmd) :
    ∃ done', Accounts op current known (region.carryOut cmd) foreign done' := by
  obtain heq | ⟨p, rfl, hp⟩ | ⟨p, rfl, hp⟩ := region.carryOut_cases cmd
  · rw [heq]
    exact ⟨done, h⟩
  · exact ⟨_, h.addNode hop hcmd hp⟩
  · exact ⟨_, h.removeNode hop hcmd hp⟩

theorem Accounts.foreign_execute (h : Accounts op current known region foreign done)
    (hcmd : ∀ s ∈ cmd.storeId, s ∉ op.namedStores)
    (hchange : (region.carryOut cmd).confVer ≠ region.confVer) :
    Accounts op current known (region.carryOut cmd) (foreign + 1) done := by
  obtain heq | ⟨p, rfl, hp⟩ | ⟨p, rfl, hp⟩ := region.carryOut_cases cmd
  · exact absurd (congrArg RegionInfo.confVer heq) hchange
  · exact h.foreign_change (RegionInfo.carryOut_addNode h.stores hp).1 (hcmd _ rfl)
  · exact h.foreign_change (RegionInfo.carryOut_removeNode h.stores hp).1 (hcmd _ rfl)

theorem checkFrom_current {steps : List OpStep} {n : ℕ} :
    n ≤ (checkFrom region steps n).1 ∧ ∀ st, (checkFrom region steps n).2 = some st →
      steps[(checkFrom region steps n).1 - n]? = some st ∧ st.isFinish region = false := by
  induction steps generalizing n with
  | nil => simp [checkFrom]
  | cons first steps ih =>
    rw [checkFrom]
    split_ifs with hfirst
    · obtain ⟨hle, hnext⟩ := @ih (n + 1)
      refine ⟨by omega, fun st hst => ?_⟩
      have hindex : (checkFrom region steps (n + 1)).1 - n =
          (checkFrom region steps (n + 1)).1 - (n + 1) + 1 := by omega
      rw [hindex, getElem?_cons_succ]
      exact hnext st hst
    · refine ⟨le_rfl, fun st hst => ?_⟩
      obtain rfl := Option.some.inj hst
      simpa using hfirst

def atStep (op : Operator) (current : ℕ) : Operator := { op with currentStep := current }

theorem check_atStep (op : Operator) (region : RegionInfo) : ((op.atStep current).check region).1 =
    op.atStep ((op.atStep current).check region).1.currentStep := rfl

theorem le_check (op : Operator) (region : RegionInfo) :
    op.currentStep ≤ (op.check region).1.currentStep := checkFrom_current.1

theorem check_current (h : (op.check region).2 = some st) :
    op.steps[(op.check region).1.currentStep]? = some st ∧ st.isFinish region = false := by
  have hle := le_check op region
  obtain ⟨hindex, hfinish⟩ := checkFrom_current.2 st h
  rw [getElem?_drop] at hindex
  refine ⟨?_, hfinish⟩
  rw [← hindex]
  congr 1
  exact (Nat.add_sub_cancel' hle).symm

theorem confVerChanged_eq (h : op.steps[op.currentStep]? = some st) :
    op.confVerChanged region =
      (op.steps.take (op.currentStep + 1)).countP (·.confVerChanged region) := by
  have hlt : op.currentStep < op.steps.length := (List.getElem?_eq_some_iff.mp h).1
  unfold confVerChanged
  rw [if_neg (by omega)]

theorem Accounts.length_le (h : Accounts op op.currentStep known region foreign done)
    (hst : op.steps[op.currentStep]? = some st) : done.length ≤ op.confVerChanged region := by
  rw [confVerChanged_eq hst, countP_eq_length_filter]
  refine (subperm_of_subset h.nodup fun st' hst' => ?_).length_le
  exact mem_filter.mpr ⟨h.mem_take st' hst', h.changed st' hst'⟩

theorem Accounts.le_length (h : Accounts op op.currentStep known region foreign done)
    (hfresh : op.Fresh known) (hlast : op.RemovesLast) (hnodup : op.steps.Nodup)
    (hst : op.steps[op.currentStep]? = some st) (hfinish : st.isFinish region = false) :
    op.confVerChanged region ≤ done.length := by
  rw [confVerChanged_eq hst, countP_eq_length_filter]
  have hsub : ((op.steps.take (op.currentStep + 1)).filter (·.confVerChanged region)).Nodup :=
    (hnodup.sublist (take_sublist _ _)).filter _
  refine (subperm_of_subset hsub fun st' hst' => ?_).length_le
  obtain ⟨hmem, hchanged⟩ := mem_filter.mp hst'
  cases st' with
  | transferLeader fromStore toStore => cases hchanged
  | addPeer toStore peerId =>
    exact h.added hfresh toStore peerId (mem_of_mem_take hmem) hchanged
  | removePeer fromStore =>
    -- The removal is the last step, so that it is the one that is not finished.
    have hlt := (List.getElem?_eq_some_iff.mp hst).1
    rw [take_succ_eq_append_getElem hlt, mem_append, mem_singleton] at hmem
    obtain hmem | heq := hmem
    · refine absurd ?_ (hlast fromStore)
      rw [dropLast_eq_take]
      exact take_subset_take_left op.steps (by omega) hmem
    · rw [getElem?_eq_getElem hlt, ← heq] at hst
      obtain rfl := Option.some.inj hst
      have hfinished : (OpStep.removePeer fromStore).isFinish region = true := hchanged
      rw [hfinish] at hfinished
      cases hfinished

end Operator

namespace OperatorController

variable {oc : OperatorController} {op : Operator} {region : RegionInfo} {source : DispatchSource}
  {running : ℕ} {st : OpStep}

theorem removeOperator_setOperator (oc : OperatorController) (op : Operator) {id : ℕ}
    (hid : op.regionId = id) (status : OperatorStatus) :
    (oc.setOperator id op).removeOperator op status =
      { oc with
        operators := Function.update oc.operators id none
        records := oc.records ++ [(op, status)] } := by
  subst hid
  simp [removeOperator, removeOperatorLocked, setOperator, record]

/-- What `Dispatch` leaves of an operator that does not time out. -/
inductive Outcome (oc : OperatorController) (region : RegionInfo) (op : Operator) :
    OperatorController → Prop
  | removed (status : OperatorStatus) (hstatus : status = .cancel →
      ∃ st, op.steps[op.currentStep]? = some st ∧
        op.confVerChanged region < sub64 region.confVer op.confVer) :
    Outcome oc region op
      { oc with
        operators := Function.update oc.operators region.id none
        records := oc.records ++ [(op, status)] }
  | kept : Outcome oc region op (oc.setOperator region.id op)
  | sent (st : OpStep) (hst : op.steps[op.currentStep]? = some st) :
    Outcome oc region op
      ((oc.setOperator region.id op).sendScheduleCommand region st)

section

variable (hop : oc.operators region.id = some op) (hid : op.regionId = region.id)
  (htimeout : op.isTimeout running = false)
include hop hid htimeout

theorem outcome_dispatch :
    Outcome oc region (op.check region).1 (oc.dispatch region source running) := by
  have hremove (status : OperatorStatus) : (oc.setOperator region.id
      (op.check region).1).removeOperator (op.check region).1 status = _ :=
    removeOperator_setOperator oc (op.check region).1 hid status
  unfold dispatch
  simp only [hop, htimeout]
  cases hnext : (op.check region).2 with
  | none =>
    simp only [finish, Bool.false_eq_true, if_false]
    split_ifs with hfinish
    · rw [hremove .success]
      exact .removed .success nofun
    · exact .kept
  | some st =>
    have hst : (op.check region).1.steps[(op.check region).1.currentStep]? = some st :=
      (Operator.check_current hnext).1
    simp only [sendOrCancel]
    split_ifs with hstale
    · rw [hremove .cancel]
      exact .removed .cancel fun _ => ⟨st, hst, hstale.2⟩
    · exact .sent st hst

theorem dispatch_stale (hnext : (op.check region).2 = some st)
    (hstale : (op.check region).1.confVerChanged region < sub64 region.confVer op.confVer) :
    oc.dispatch region .heartBeat running =
      { oc with
        operators := Function.update oc.operators region.id none
        records := oc.records ++ [((op.check region).1, .cancel)] } := by
  unfold dispatch
  simp only [hop, htimeout, hnext, sendOrCancel]
  have hversion : (op.check region).1.confVer = op.confVer := rfl
  rw [if_pos ⟨trivial, hversion.symm ▸ hstale⟩]
  exact removeOperator_setOperator oc (op.check region).1 hid .cancel

end

theorem sanctions_sendScheduleCommand (oc : OperatorController) (region : RegionInfo)
    {current mark : ℕ} (hst : op.steps[current]? = some st) :
    ∀ sent ∈ (oc.sendScheduleCommand region st).sent.drop mark,
      sent ∈ oc.sent.drop mark ∨ op.Sanctions current sent.2 := by
  have hmem : st ∈ op.steps.take (current + 1) :=
    mem_of_getElem? (by rwa [getElem?_take_of_lt (Nat.lt_succ_self current)])
  have hsend : ∀ cmd, op.Sanctions current cmd → ∀ sent ∈ (oc.sendMsg region cmd).sent.drop mark,
      sent ∈ oc.sent.drop mark ∨ op.Sanctions current sent.2 := by
    intro cmd hcmd sent hsent
    unfold sendMsg at hsent
    split_ifs at hsent
    · exact .inl hsent
    rw [drop_append] at hsent
    refine (mem_append.mp hsent).imp_right fun hsent => ?_
    rwa [mem_singleton.mp (mem_of_mem_drop hsent)]
  cases st with
  | transferLeader fromStore toStore => exact hsend _ trivial
  | addPeer toStore peerId =>
    rw [sendScheduleCommand]
    split_ifs
    · exact fun sent hsent => .inl hsent
    · exact hsend _ hmem
  | removePeer fromStore =>
    apply hsend
    cases hpeer : region.getStorePeer fromStore with
    | none => trivial
    | some p =>
      have hp : p.storeId = fromStore := by simpa using find?_some hpeer
      rwa [← hp] at hmem

end OperatorController

namespace OperatorRun

variable {op : Operator} {mark current : ℕ} {known : RegionInfo} {s s' : OperatorRun}

structure Follows (op : Operator) (mark : ℕ) (known : RegionInfo) (current : ℕ) (s : OperatorRun) :
    Prop where
  running : ∀ o, s.oc.operators op.regionId = some o → o = op.atStep current
  reports : ∀ report ∈ s.reports, ∃ done, op.Accounts current known report.1 report.2 done
  region : (s.region, s.foreign) ∈ s.reports
  commands : ∀ sent ∈ s.oc.sent.drop mark, op.Sanctions current sent.2

section

variable {region : RegionInfo} {foreign : ℕ} {done : List OpStep}
  (h : op.Accounts current known region foreign done)
include h

theorem accounts_heartbeat (leader : Option Peer) (pending : List Peer) :
    op.Accounts current known (heartbeat region leader pending) foreign done := by
  have hcongr : ∀ st : OpStep, st.confVerChanged (heartbeat region leader pending) =
      st.confVerChanged region := fun st => Operator.confVerChanged_congr fun _ _ => rfl
  refine ⟨h.id, h.stores, h.nodup, h.mem_take, ?_, h.confVer, ?_⟩
  · intro st hst
    rw [hcongr]
    exact h.changed st hst
  · intro hfresh s id hmem hchanged
    rw [hcongr] at hchanged
    exact h.added hfresh s id hmem hchanged

theorem accounts_current : (op.atStep current).Accounts current known region foreign done :=
  ⟨h.id, h.stores, h.nodup, h.mem_take, h.changed, h.confVer, h.added⟩

end

namespace Follows

variable (h : Follows op mark known current s)
include h

theorem enter {region : RegionInfo} {foreign : ℕ}
    {done : List OpStep} (hdone : op.Accounts current known region foreign done) :
    Follows op mark known current (s.enter region foreign) where
  running := h.running
  reports := forall_mem_cons.mpr ⟨⟨done, hdone⟩, h.reports⟩
  region := mem_cons_self
  commands := h.commands

theorem mono {current' : ℕ} (hle : current ≤ current')
    {oc : OperatorController}
    (hrunning : ∀ o, oc.operators op.regionId = some o → o = op.atStep current')
    (hcommands : ∀ sent ∈ oc.sent.drop mark,
      sent ∈ s.oc.sent.drop mark ∨ op.Sanctions current' sent.2) :
    Follows op mark known current' { s with oc := oc } where
  running := hrunning
  reports := fun report hreport => by
    obtain ⟨done, hdone⟩ := h.reports report hreport
    exact ⟨done, hdone.mono hle⟩
  region := h.region
  commands := fun sent hsent =>
    (hcommands sent hsent).elim (fun hold => (h.commands sent hold).mono hle) id

theorem dispatch {report : RegionInfo × ℕ} (hreport : report ∈ s.reports) {leader : Option Peer}
    {pending : List Peer} {source : DispatchSource} {running : ℕ}
    (htimeout : ∀ o, s.oc.operators op.regionId = some o → o.isTimeout running = false) :
    (∃ current', Follows op mark known current'
      { s with oc := s.oc.dispatch (heartbeat report.1 leader pending) source running }) ∧
    ∃ records, (s.oc.dispatch (heartbeat report.1 leader pending) source running).records =
      s.oc.records ++ records ∧ ∀ r ∈ records, r.2 = .cancel → 0 < report.2 := by
  obtain ⟨done, hdone⟩ := h.reports report hreport
  have hdone := accounts_heartbeat hdone leader pending
  generalize heartbeat report.1 leader pending = region at hdone ⊢
  have hid : op.regionId = region.id := hdone.id.symm
  cases hop : s.oc.operators op.regionId with
  | none =>
    have hdispatch : s.oc.dispatch region source running = s.oc := by
      rw [OperatorController.dispatch, ← hid, hop]
    rw [hdispatch]
    exact ⟨⟨current, h⟩, [], by simp, by simp⟩
  | some o =>
    have htimeout := htimeout o hop
    obtain rfl := h.running o hop
    rw [hid] at hop
    have houtcome : s.oc.Outcome region _ (s.oc.dispatch region source running) :=
      OperatorController.outcome_dispatch hop hid htimeout
    have hle : current ≤ _ := (op.atStep current).le_check region
    rw [op.check_atStep] at houtcome
    generalize ((op.atStep current).check region).1.currentStep = current' at houtcome hle
    generalize s.oc.dispatch region source running = oc at houtcome ⊢
    cases houtcome with
    | removed status hstatus =>
      refine ⟨⟨current', h.mono hle ?_ fun _ hsent => .inl hsent⟩, _, rfl, ?_⟩
      · intro o ho
        rw [hid] at ho
        simp at ho
      · intro r hr hcancel
        obtain rfl := mem_singleton.mp hr
        obtain ⟨st, hst, hstale⟩ := hstatus hcancel
        -- Every step that was carried out shows, so that the rest of the changes is foreign.
        have hlength := (accounts_current (hdone.mono hle)).length_le hst
        have hchanges : sub64 region.confVer (op.atStep current').confVer = _ := hdone.changes
        omega
    | kept =>
      refine ⟨⟨current', h.mono hle ?_ fun _ hsent => .inl hsent⟩, [], by simp [
        OperatorController.setOperator], by simp⟩
      intro o ho
      rw [hid] at ho
      simpa [OperatorController.setOperator, eq_comm] using ho
    | sent st hst =>
      refine ⟨⟨current', h.mono hle ?_ ?_⟩, [], ?_, by simp⟩
      · intro o ho
        rw [(OperatorController.sendScheduleCommand_fields st).1, hid] at ho
        simpa [OperatorController.setOperator, eq_comm] using ho
      · exact OperatorController.sanctions_sendScheduleCommand _ region hst
      · rw [(OperatorController.sendScheduleCommand_fields st).2.2, append_nil]
        rfl

theorem step (hop : op.Coherent) {e : ProgressEvent}
    (hstep : (machine op mark).step s e = some s') :
    (∃ current', Follows op mark known current' s') ∧
      ∃ records, s'.oc.records = s.oc.records ++ records ∧
        ((∀ report ∈ s.reports, report.2 = 0) → ∀ r ∈ records, r.2 ≠ .cancel) := by
  obtain ⟨done, hdone⟩ := h.reports _ h.region
  cases e with
  | execute i =>
    obtain ⟨sent, hsent, rfl⟩ := Option.map_eq_some_iff.mp hstep
    obtain ⟨done', hdone'⟩ := hdone.execute hop (h.commands sent (mem_of_getElem? hsent))
    exact ⟨⟨current, h.enter hdone'⟩, [], by simp [OperatorRun.enter], by simp⟩
  | foreign cmd =>
    simp only [machine, Option.ite_none_right_eq_some, Option.some.injEq] at hstep
    obtain ⟨⟨hnamed, hchange⟩, rfl⟩ := hstep
    refine ⟨⟨current, h.enter (hdone.foreign_execute hnamed hchange)⟩, [], ?_, by simp⟩
    simp [OperatorRun.enter]
  | dispatch i leader pending source running =>
    obtain ⟨report, hreport, hstep⟩ := Option.bind_eq_some_iff.mp hstep
    simp only [Option.ite_none_left_eq_some, Option.some.injEq] at hstep
    obtain ⟨htimeout, rfl⟩ := hstep
    have hmem := mem_of_getElem? hreport
    obtain ⟨done, hdone⟩ := h.reports report hmem
    have hid : (heartbeat report.1 leader pending).id = op.regionId := hdone.id
    rw [hid] at htimeout
    have htimeout : ∀ o, s.oc.operators op.regionId = some o → o.isTimeout running = false := by
      intro o ho
      simpa [ho] using htimeout
    obtain ⟨hfollows, records, hrecords, hcancel⟩ := h.dispatch hmem htimeout
    refine ⟨hfollows, records, hrecords, fun hzero r hr hr2 => ?_⟩
    exact absurd (hcancel r hr hr2) (by simp [hzero report hmem])

theorem run (hop : op.Coherent) {es : List ProgressEvent}
    (hrun : (machine op mark).run s es = some s') :
    ∃ current', Follows op mark known current' s' := by
  refine Machine.run_invariant (I := fun s => ∃ current, Follows op mark known current s) ?_
    ⟨current, h⟩ hrun
  rintro s e s' ⟨current, hs⟩ hstep
  exact (hs.step hop hstep).1

end Follows

theorem foreign_eq_zero {e : ProgressEvent} (he : e.isForeign = false)
    (hstep : (machine op mark).step s e = some s')
    (h : s.foreign = 0 ∧ ∀ report ∈ s.reports, report.2 = 0) :
    s'.foreign = 0 ∧ ∀ report ∈ s'.reports, report.2 = 0 := by
  cases e with
  | execute i =>
    obtain ⟨sent, hsent, rfl⟩ := Option.map_eq_some_iff.mp hstep
    exact ⟨h.1, forall_mem_cons.mpr h⟩
  | foreign cmd => cases he
  | dispatch i leader pending source running =>
    obtain ⟨report, hreport, hstep⟩ := Option.bind_eq_some_iff.mp hstep
    simp only [Option.ite_none_left_eq_some, Option.some.injEq] at hstep
    obtain ⟨-, rfl⟩ := hstep
    exact h

theorem Follows.neverCancels (h : Follows op mark known current s) (hop : op.Coherent)
    (hforeign : s.foreign = 0 ∧ ∀ report ∈ s.reports, report.2 = 0) : NeverCancels op mark s := by
  intro es s' hes hrun
  induction es generalizing s current with
  | nil =>
    obtain rfl := Option.some.inj hrun
    exact ⟨[], by simp, by simp⟩
  | cons e es ih =>
    obtain ⟨s₁, hstep, hrun⟩ := Machine.run_cons.mp hrun
    obtain ⟨he, hes⟩ := forall_mem_cons.mp hes
    obtain ⟨⟨current', hfollows⟩, records, hrecords, hcancel⟩ := h.step hop hstep
    obtain ⟨records', hrecords', hcancel'⟩ :=
      ih hfollows (foreign_eq_zero he hstep hforeign) hes hrun
    refine ⟨records ++ records', by rw [hrecords', hrecords, append_assoc], ?_⟩
    exact forall_mem_append.mpr ⟨hcancel hforeign.2, hcancel'⟩

theorem Follows.cancelsStale (h : Follows op mark known current s) (hop : op.Coherent)
    (hfresh : op.Fresh known) (hlast : op.RemovesLast) (hnodup : op.steps.Nodup) :
    CancelsStale op mark s := by
  intro es s' hrun report hreport hforeign leader pending running o st ho htimeout hnext
  obtain ⟨current', hfollows⟩ := h.run hop hrun
  obtain ⟨done, hdone⟩ := hfollows.reports report hreport
  have hdone := accounts_heartbeat hdone leader pending
  generalize heartbeat report.1 leader pending = region at hdone hnext ⊢
  obtain rfl := hfollows.running o ho
  have hid : op.regionId = region.id := hdone.id.symm
  obtain ⟨hst, hfinish⟩ := Operator.check_current hnext
  have hle := (op.atStep current').le_check region
  -- What shows was carried out, and so the foreign change makes the difference.
  have hcount := (accounts_current (hdone.mono hle)).le_length hfresh hlast hnodup hst hfinish
  have hchanges := hdone.changes
  have hstale : ((op.atStep current').check region).1.confVerChanged region <
      sub64 region.confVer (op.atStep current').confVer := by
    calc ((op.atStep current').check region).1.confVerChanged region
        ≤ done.length := hcount
      _ < done.length + report.2 := Nat.lt_add_of_pos_right hforeign
      _ = sub64 region.confVer (op.atStep current').confVer := hchanges.symm
  rw [hid] at ho
  rw [OperatorController.dispatch_stale ho hid htimeout hnext hstale]
  exact ⟨by simp [hid], rfl, rfl⟩

end OperatorRun

inductive Operator.Built (region : RegionInfo) : Operator → Prop
  | addPeer (peerId toStoreId kind : ℕ) :
    Built region (createAddPeerOperator region peerId toStoreId kind)
  | create {op : Operator} (req : CreateRequest)
    (hids : req.followerIds.Perm region.getFollowers.keys) (h : req.operator region = .ok op) :
    Built region op

namespace Operator.Built

variable {region : RegionInfo} {op : Operator}

theorem removesLast (h : Built region op) : op.RemovesLast := by
  cases h with
  | addPeer peerId toStoreId kind =>
    intro s
    simp [createAddPeerOperator, newOperator, createAddPeerSteps]
  | create req _ hop =>
    obtain ⟨-, -, steps, hsteps, hfirst⟩ := CreateRequest.operator_spec hop
    intro s
    simpa [hsteps] using hfirst.removePeer s

theorem nodup (h : Built region op) : op.steps.Nodup := by
  cases h with
  | addPeer peerId toStoreId kind => exact nodup_singleton _
  | create req _ hop =>
    obtain ⟨kind, transfer, htransfer, rfl⟩ := CreateRequest.operator_eq_ok hop
    -- The leader is transferred once or not at all.
    unfold newOperator
    obtain ⟨-, rfl⟩ | ⟨-, id, -, rfl⟩ := transferLeaderStep_eq_ok htransfer
    all_goals cases req.create <;> simp [CreateOperator.preparation, createAddPeerSteps]

end Operator.Built

namespace OperatorRun

variable {oc : OperatorController} {op : Operator} {known region : RegionInfo}

theorem follows_addOperator (hlast : op.RemovesLast) (hknown : oc.regions op.regionId = some known)
    (hid : known.id = op.regionId) (hstores : known.stores.Nodup)
    (hadd : (oc.addOperator [op]).2 = true) :
    ∃ current, Follows op oc.sent.length known current
      { oc := (oc.addOperator [op]).1, region := known } := by
  unfold OperatorController.addOperator at hadd ⊢
  split_ifs at hadd ⊢ with hcheck
  -- The versions agree, or the operator would not have been added.
  have hversion : known.confVer = op.confVer := by
    simp only [OperatorController.checkAddOperator, all_cons, all_nil, hknown,
      Bool.and_eq_true, decide_eq_true_eq] at hcheck
    exact hcheck.1.1.2
  have hquiet : oc.Quiet (oc.replaceOperator op) := OperatorController.quiet_replaceOperator hlast
  refine ⟨(op.check known).1.currentStep, ?_⟩
  have hreports : ∀ report ∈ [(known, 0)],
      ∃ done, op.Accounts (op.check known).1.currentStep known report.1 report.2 done := by
    intro report hreport
    obtain rfl := mem_singleton.mp hreport
    refine ⟨[], hid, hstores, nodup_nil, by simp, by simp, by simp [hversion], ?_⟩
    intro hfresh s id hmem hchanged
    rw [hfresh s id hmem] at hchanged
    cases hchanged
  have hrunning : ((oc.replaceOperator op).setOperator op.regionId (op.check known).1).operators
      op.regionId = some (op.atStep (op.check known).1.currentStep) := by
    simp [OperatorController.setOperator, Operator.check, Operator.atStep]
  rw [foldl_cons, foldl_nil, OperatorController.addOperatorLocked]
  simp only [hquiet.regions, hknown]
  cases hnext : (op.check known).2 with
  | none =>
    refine ⟨fun o ho => ?_, hreports, mem_cons_self, ?_⟩
    · exact Option.some.inj (ho.symm.trans hrunning)
    · simp [OperatorController.setOperator, hquiet.sent]
  | some st =>
    obtain ⟨hst, -⟩ := Operator.check_current hnext
    refine ⟨fun o ho => ?_, hreports, mem_cons_self, fun sent hmem => ?_⟩
    · rw [(OperatorController.sendScheduleCommand_fields st).1] at ho
      exact Option.some.inj (ho.symm.trans hrunning)
    · have hset : ((oc.replaceOperator op).setOperator op.regionId (op.check known).1).sent =
        oc.sent := hquiet.sent
      have hsent := OperatorController.sanctions_sendScheduleCommand _ known hst sent hmem
      refine hsent.resolve_left ?_
      simp [hset]

/-- An operator that was built and added is never cancelled while only its own commands are
executed, and is cancelled once someone else has changed a peer, unless the region had the peer that
it adds. -/
theorem built_neverCancels (hop : Operator.Built region op) (hcoherent : op.Coherent)
    (hknown : oc.regions op.regionId = some known) (hid : known.id = op.regionId)
    (hstores : known.stores.Nodup) (hadd : (oc.addOperator [op]).2 = true) :
    NeverCancels op oc.sent.length { oc := (oc.addOperator [op]).1, region := known } ∧
      (op.Fresh known → CancelsStale op oc.sent.length
        { oc := (oc.addOperator [op]).1, region := known }) := by
  obtain ⟨current, hfollows⟩ := follows_addOperator hop.removesLast hknown hid hstores hadd
  refine ⟨hfollows.neverCancels hcoherent ⟨rfl, by simp⟩, fun hfresh => ?_⟩
  exact hfollows.cancelsStale hcoherent hfresh hop.removesLast hop.nodup

def pendingSecond : RegionInfo :=
  { id := 1, confVer := 1, version := 1, peers := [⟨11, 1⟩, ⟨12, 2⟩, ⟨13, 3⟩],
    leader := some ⟨11, 1⟩, pendingPeers := [⟨12, 2⟩] }

def twiceOnSecond : RegionInfo :=
  { pendingSecond with peers := [⟨11, 1⟩, ⟨12, 2⟩, ⟨13, 2⟩], pendingPeers := [] }

def knows (region : RegionInfo) : OperatorController :=
  { regions := Function.update (fun _ => none) 1 (some region) }

def added (op : Operator) (region : RegionInfo) : OperatorRun :=
  { oc := ((knows region).addOperator [op]).1, region := region }

theorem built_neverCancels_fourth :
    NeverCancels (.createAddPeerOperator pendingSecond 14 4 0) 0
      (added (.createAddPeerOperator pendingSecond 14 4 0) pendingSecond) ∧
    CancelsStale (.createAddPeerOperator pendingSecond 14 4 0) 0
      (added (.createAddPeerOperator pendingSecond 14 4 0) pendingSecond) := by
  have hcoherent : (Operator.createAddPeerOperator pendingSecond 14 4 0).Coherent := by
    intro s id _
    simp [Operator.createAddPeerOperator, Operator.newOperator, Operator.createAddPeerSteps]
  have hfresh : (Operator.createAddPeerOperator pendingSecond 14 4 0).Fresh pendingSecond := by
    intro s id hmem
    obtain ⟨rfl, rfl⟩ : s = 4 ∧ id = 14 := by
      simpa [Operator.createAddPeerOperator, Operator.newOperator, Operator.createAddPeerSteps]
        using hmem
    decide
  have hknown : (knows pendingSecond).regions 1 = some pendingSecond := rfl
  have hop : Operator.Built pendingSecond _ := .addPeer 14 4 0
  have h := built_neverCancels hop hcoherent hknown rfl (by decide) (by decide)
  exact ⟨h.1, h.2 hfresh⟩

def move (region : RegionInfo) (oldStore newStore peerId : ℕ) : Operator :=
  .newOperator region opRegion [.addPeer newStore peerId, .removePeer oldStore]

def removal (region : RegionInfo) (storeId : ℕ) : Operator :=
  .newOperator region opRegion [.removePeer storeId]

theorem not_built_cancels :
    ¬ CancelsStale (.createAddPeerOperator pendingSecond 12 2 0) 0
      (added (.createAddPeerOperator pendingSecond 12 2 0) pendingSecond) ∧
    (Operator.createMovePeerOperator (fun _ => true) 0 pendingSecond [2, 3] 4 4 14 =
        .ok (move pendingSecond 4 4 14) ∧
      ¬ NeverCancels (move pendingSecond 4 4 14) 0
        (added (move pendingSecond 4 4 14) pendingSecond)) ∧
    (Operator.createRemovePeerOperator (fun _ => true) 0 twiceOnSecond [2] 2 =
        .ok (removal twiceOnSecond 2) ∧
      ¬ NeverCancels (removal twiceOnSecond 2) 0
        (added (removal twiceOnSecond 2) twiceOnSecond)) := by
  refine ⟨fun h => ?_, ⟨by decide, fun h => ?_⟩, ⟨by decide, fun h => ?_⟩⟩
  · have hcancel := h [.foreign (.removeNode (some ⟨13, 3⟩))] _ rfl (_, 1) mem_cons_self
      Nat.one_pos (some ⟨11, 1⟩) [⟨12, 2⟩] 0 _ (.addPeer 2 12) rfl (by decide) (by decide)
    exact absurd hcancel.1 (by decide)
  · obtain ⟨records, hrecords, hcancel⟩ := h [.execute 0,
      .dispatch 0 (some ⟨11, 1⟩) [] .heartBeat 0, .execute 1, .execute 0,
      .dispatch 0 (some ⟨11, 1⟩) [] .heartBeat 0] _ (by decide) rfl
    obtain rfl : _ = records := hrecords
    exact absurd hcancel (by decide)
  · obtain ⟨records, hrecords, hcancel⟩ := h [.execute 0,
      .dispatch 0 (some ⟨11, 1⟩) [] .heartBeat 0] _ (by decide) rfl
    obtain rfl : _ = records := hrecords
    exact absurd hcancel (by decide)

end OperatorRun

end TinyKV
