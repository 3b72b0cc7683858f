import TinyKV.Consensus.Safety
import TinyKV.Raft.LogBase

/-!
# What the functions of `RaftLog` compute

On a well-formed log (`RaftLog.WF`), the positions of the entries are their places in the list,
counted from one.
-/

namespace TinyKV

open List
open Consensus (Slot termAt)

/-- The part of an entry that replication carries: its term and its data. -/
def Entry.slot (e : Entry) : Slot (List UInt8) := ⟨e.term, e.data⟩

/-- The entry that `sendAppend` builds from an entry of the log. -/
def Entry.copy (e : Entry) : Entry := { index := e.index, term := e.term, data := e.data }

@[simp]
theorem Entry.slot_copy (e : Entry) : e.copy.slot = e.slot := rfl

theorem ConsecutiveFrom.map_copy {p : ℕ} {es : List Entry} (h : ConsecutiveFrom p es) :
    ConsecutiveFrom p (es.map Entry.copy) := by
  intro k e hk
  rw [getElem?_map, Option.map_eq_some_iff] at hk
  obtain ⟨e', he', rfl⟩ := hk
  exact h k e' he'

namespace RaftLog

def slots (l : RaftLog) : List (Slot (List UInt8)) := l.entries.map Entry.slot

structure WF (l : RaftLog) : Prop extends Based 0 0 l where
  dummy_eq : l.storage.ents[0]? = some ({} : Entry)
  persisted : l.stabled < l.storage.ents.length
  applied_le : l.applied ≤ l.committed

variable {l : RaftLog}

@[simp]
theorem slots_length : l.slots.length = l.entries.length := by simp [slots]

theorem termAt_slots {k : ℕ} {e : Entry} (h : l.entries[k]? = some e) :
    termAt l.slots (k + 1) = e.term := by
  simp [termAt, slots, h, Entry.slot]

theorem termAt_slots_of_lt {i : ℕ} (h : l.entries.length < i) : termAt l.slots i = 0 := by
  obtain ⟨j, rfl⟩ : ∃ j, i = j + 1 := ⟨i - 1, by omega⟩
  simp [termAt, slots, getElem?_eq_none (show l.entries.length ≤ j by omega)]

section

variable (h : l.WF)
include h

theorem WF.stabled_le_length : l.stabled ≤ l.entries.length := by
  rw [← Nat.zero_add l.entries.length]
  exact h.stabled_le

variable {e : Entry}

theorem WF.index_eq {k : ℕ} (he : l.entries[k]? = some e) : e.index = k + 1 := by
  rw [h.toBased.index_eq he, Nat.zero_add]

theorem WF.getElem?_of_mem (he : e ∈ l.entries) :
    1 ≤ e.index ∧ l.entries[e.index - 1]? = some e := by
  obtain ⟨j, hj⟩ := mem_iff_getElem?.mp he
  rw [h.index_eq hj]
  exact ⟨Nat.le_add_left 1 j, hj⟩

theorem WF.lastIndex_eq : l.lastIndex = l.entries.length := by
  rw [h.toBased.lastIndex_eq, Nat.zero_add]

theorem WF.term_eq (i : ℕ) : l.term i =
    .ok (termAt l.slots i, if i ≤ l.entries.length then none else some .errUnavailable) := by
  rcases Nat.lt_or_ge l.entries.length i with hi | hi
  · rw [h.toBased.term_above (by omega), termAt_slots_of_lt hi, if_neg (by omega)]
  · rw [if_pos hi]
    cases i with
    | zero => exact h.toBased.term_base
    | succ k =>
      have hget := getElem?_eq_getElem (show k < l.entries.length by omega)
      have hterm := h.toBased.term_of_getElem? hget
      rw [Nat.zero_add] at hterm
      rw [hterm, termAt_slots hget]

theorem WF.unstableEntries_eq : l.unstableEntries = .ok (l.entries.drop l.stabled) :=
  h.toBased.unstableEntries_eq

theorem WF.nextEnts_eq (hc : l.committed ≤ l.entries.length) :
    l.nextEnts = .ok ((l.entries.take l.committed).drop l.applied) :=
  h.toBased.nextEnts_eq (Nat.zero_le _) h.applied_le (by rwa [Nat.zero_add])

theorem WF.entryAt_eq_some {i : ℕ} : l.entryAt i = some e ↔ 1 ≤ i ∧ l.entries[i - 1]? = some e :=
  h.toBased.entryAt_eq_some

theorem WF.entryAt_index (he : e ∈ l.entries) : l.entryAt e.index = some e :=
  h.entryAt_eq_some.mpr (h.getElem?_of_mem he)

theorem WF.exists_entryAt {i : ℕ} (h1 : 1 ≤ i) (hi : i ≤ l.entries.length) :
    ∃ e, l.entryAt i = some e :=
  ⟨_, h.entryAt_eq_some.mpr ⟨h1, getElem?_eq_getElem (show i - 1 < l.entries.length by omega)⟩⟩

theorem WF.termAt_of_entryAt {i : ℕ} (he : l.entryAt i = some e) :
    i ≤ l.slots.length ∧ termAt l.slots i = e.term := by
  obtain ⟨h1, he⟩ := h.entryAt_eq_some.mp he
  have hlt := (List.getElem?_eq_some_iff.mp he).1
  refine ⟨by rw [slots_length]; omega, ?_⟩
  rw [← termAt_slots he, Nat.sub_add_cancel h1]

end

theorem WF.exists_entryAt_of_take_eq {l' : RaftLog} (h : l.WF) (h' : l'.WF) {k i : ℕ}
    (htake : l.slots.take k = l'.slots.take k) (hi : i ≤ k) {e : Entry}
    (he : l.entryAt i = some e) :
    ∃ e', l'.entryAt i = some e' ∧ e.term = e'.term ∧ e.data = e'.data := by
  rw [h.entryAt_eq_some] at he
  -- The slot is the same in both logs, and it is that of an entry.
  have hslot : l'.slots[i - 1]? = some e.slot := by
    have := congrArg (fun ls => ls[i - 1]?) htake
    simp only [getElem?_take, if_pos (show i - 1 < k by omega)] at this
    rw [← this, slots, getElem?_map, he.2]
    rfl
  rw [slots, getElem?_map, Option.map_eq_some_iff] at hslot
  obtain ⟨e', he', hslot⟩ := hslot
  refine ⟨e', h'.entryAt_eq_some.mpr ⟨he.1, he'⟩, ?_⟩
  simpa [Entry.slot] using hslot.symm

theorem WF.storage_append_eq (h : l.WF) (hlt : l.stabled < l.entries.length) :
    l.storage.append (l.entries.drop l.stabled) =
      .ok { l.storage with
        ents := l.storage.ents.take (l.stabled + 1) ++ l.entries.drop l.stabled } :=
  h.toBased.storage_append_eq h.persisted hlt

theorem WF.setStorage (h : l.WF) {ms : MemoryStorage} (hdummy : ms.ents[0]? = some ({} : Entry))
    (hlt : l.entries.length < ms.ents.length) :
    RaftLog.WF { l with storage := ms, stabled := l.entries.length } :=
  ⟨⟨h.consecutive, h.length_le, h.no_snapshot, ⟨_, hdummy, rfl, rfl⟩, Nat.zero_le _,
    (Nat.zero_add _).ge⟩, hdummy, hlt, h.applied_le⟩

variable {es : List Entry}

theorem newLog_eq {ms : MemoryStorage} (h : ms.ents = ({} : Entry) :: es) :
    newLog ms = .ok {
      storage := ms
      committed := 0
      applied := 0
      stabled := es.length
      entries := es } := by
  simpa using newLog_of_ents h

theorem hasTermAt_iff {p : ℕ} {e : Entry} :
    l.HasTermAt p e ↔ p < l.entries.length ∧ termAt l.slots (p + 1) = e.term := by
  constructor
  · rintro ⟨d, hd, hterm⟩
    exact ⟨(List.getElem?_eq_some_iff.mp hd).1, by rwa [termAt_slots hd]⟩
  · rintro ⟨hlt, hterm⟩
    have hget := getElem?_eq_getElem hlt
    exact ⟨_, hget, by rwa [termAt_slots hget] at hterm⟩

theorem WF.of_based (h : l.WF) {l' : RaftLog} (hl' : l'.Based 0 0)
    (hstorage : l'.storage = l.storage) (hstabled : l'.stabled ≤ l.stabled)
    (happlied : l'.applied = l.applied) (hcommitted : l'.committed = l.committed) : l'.WF :=
  ⟨hl', hstorage ▸ h.dummy_eq, hstorage ▸ hstabled.trans_lt h.persisted,
    happlied ▸ hcommitted ▸ h.applied_le⟩

theorem WF.append (h : l.WF) (hes : ConsecutiveFrom l.entries.length es)
    (hlen : (l.entries ++ es).length ≤ maxInt) :
    RaftLog.WF { l with entries := l.entries ++ es } := by
  have hbased := h.toBased.spliceFrom le_rfl (by rwa [Nat.zero_add]) (by rwa [take_length])
  rw [h.toBased.spliceFrom_length] at hbased
  exact h.of_based hbased rfl le_rfl rfl rfl

theorem foldlM_handleAppendEntry (h : l.WF) {p : ℕ} (hp : p ≤ l.entries.length)
    (hes : ConsecutiveFrom p es) :
    Go.Ensures (es.foldlM Raft.handleAppendEntry l) fun l' => l'.WF ∧ l.SplicedFrom 0 p es l' := by
  refine (h.toBased.foldlM_handleAppendEntry hp (by rwa [Nat.zero_add])).ensures.imp
    fun l' hl' => ⟨?_, hl'.2⟩
  cases hl'.2 with
  | kept => exact h
  | cut => exact h.of_based hl'.1 rfl (Nat.min_le_left _ _) rfl rfl

end RaftLog

end TinyKV
