import TinyKV.Raft.AppendEntries
import TinyKV.Raft.Returns

/-!
# The persisted log

The log of a node is kept in memory and in the storage from which the node is built again.
-/

namespace TinyKV

open List

namespace RaftLog

variable {s t : ℕ} {l l' : RaftLog}

/-- The log is cut off at a place and followed by other entries, or left as it is. The committed
position does not matter. -/
inductive Changed (s : ℕ) (l : RaftLog) : RaftLog → Prop
  | mk (i : ℕ) {k : ℕ} {es : List Entry} (hk : k ≤ l.entries.length)
      (hes : es = [] → k = l.entries.length) :
      Changed s l { l.spliceFrom s k es with committed := i }

theorem Based.handleAppendEntry_below (h : l.Based s t) (hs : s ≤ maxInt) {e : Entry}
    (he : 1 ≤ e.index) (hle : e.index ≤ s) :
    Go.IfReturns (Raft.handleAppendEntry l e) fun l' => l' = l := by
  -- The place of the entry wraps around, and is beyond any slice.
  have hpanics : ∀ f : List Entry → Go RaftLog, Go.IfReturns (do
      let first ← Go.index l.entries 0
      let entries ← Go.slice l.entries 0 (sub64 e.index first.index)
      f entries) fun l' => l' = l := by
    intro f
    cases hes : l.entries with
    | nil => exact Go.ifReturns_error _ _
    | cons first rest =>
      have hslice : Go.slice (first :: rest) 0 (sub64 e.index first.index) =
          .error .sliceOutOfRange := by
        have hlen := h.length_le
        unfold maxInt at hs hlen
        rw [hes] at hlen
        rw [h.index_head hes, sub64_of_lt (by omega), Go.slice, if_neg]
        omega
      rw [Go.index_eq_ok (x := first) rfl, Go.ok_bind, hslice]
      exact Go.ifReturns_error _ _
  unfold Raft.handleAppendEntry
  rw [h.lastIndex_eq, if_pos (by omega)]
  refine Go.ifReturns_bind fun x => ?_
  dsimp only
  split_ifs
  · exact hpanics _
  · exact hpanics _
  · exact (Go.ifReturns_ok _ _).mpr rfl

theorem Based.foldlM_changed {es : List Entry} (h : l.Based s t) (hs : s ≤ maxInt) {p : ℕ}
    (hp : p ≤ l.lastIndex) (hes : ConsecutiveFrom p es) :
    Go.IfReturns (es.foldlM Raft.handleAppendEntry l) fun l' =>
      l'.Based s t ∧ ∃ k ds, k ≤ l.entries.length ∧ (ds = [] → k = l.entries.length) ∧
        l' = l.spliceFrom s k ds := by
  have hkept : l = l.spliceFrom s l.entries.length [] := by simp [h.spliceFrom_length]
  induction es generalizing p with
  | nil => exact (Go.ifReturns_ok _ _).mpr ⟨h, l.entries.length, [], le_rfl, fun _ => rfl, hkept⟩
  | cons e es ih =>
    obtain ⟨he, hes'⟩ := consecutiveFrom_cons.mp hes
    rw [h.lastIndex_eq] at hp ih
    rcases Nat.lt_or_ge p s with hlt | hge
    · -- The first entry has been compacted away.
      rw [foldlM_cons]
      refine (h.handleAppendEntry_below hs (by omega) (by omega)).bind fun l₁ hl₁ => ?_
      rw [hl₁]
      exact ih (by omega) hes'
    · obtain ⟨k, rfl⟩ : ∃ k, p = s + k := ⟨p - s, by omega⟩
      intro l' hl'
      obtain ⟨hbased, hsplice⟩ := (h.foldlM_handleAppendEntry (by omega) hes).ensures.of_eq_ok hl'
      refine ⟨hbased, ?_⟩
      cases hsplice with
      | kept => exact ⟨l.entries.length, [], le_rfl, fun _ => rfl, hkept⟩
      | @cut q d hd _ hle _ =>
        refine ⟨k + q, (e :: es).drop q, hle, fun hnil => ?_, rfl⟩
        have hq := (List.getElem?_eq_some_iff.mp hd).1
        have := drop_eq_nil_iff.mp hnil
        omega

theorem Based.setCommitted (h : l.Based s t) (i : ℕ) :
    RaftLog.Based s t { l with committed := i } :=
  ⟨h.consecutive, h.length_le, h.no_snapshot, h.dummy, h.le_stabled, h.stabled_le⟩

theorem Based.changed (h : l.Based s t) (hs : s ≤ maxInt) {m : Message} (hm : m.IsOrdered)
    (hmoves : LogMoves m l l') : l'.Based s t ∧ l.Changed s l' := by
  cases hmoves with
  | commit i =>
    refine ⟨h.setCommitted i, ?_⟩
    have hchanged := @Changed.mk s l i l.entries.length [] le_rfl fun _ => rfl
    rwa [h.spliceFrom_length, append_nil] at hchanged
  | @append i es hes hlen =>
    rw [h.lastIndex_eq] at hes
    have hbased := h.spliceFrom le_rfl hes (by rw [take_length]; exact hlen h.length_le)
    have hchanged := @Changed.mk s l i l.entries.length es le_rfl fun _ => rfl
    rw [h.spliceFrom_length] at hbased hchanged
    exact ⟨hbased.setCommitted i, hchanged⟩
  | receive i htype hle hl₁ =>
    obtain ⟨hbased, k, ds, hk, hds, rfl⟩ := h.foldlM_changed hs hle (hm htype) _ hl₁
    exact ⟨hbased.setCommitted i, .mk i hk hds⟩

structure Persisted (s t : ℕ) (l : RaftLog) : Prop extends l.Based s t where
  stored_consecutive : ConsecutiveFrom s l.storage.ents.tail
  stabled_le_stored : l.stabled ≤ s + l.storage.ents.tail.length
  take_eq : l.entries.take (l.stabled - s) = l.storage.ents.tail.take (l.stabled - s)
  ahead : l.stabled < s + l.storage.ents.tail.length → l.stabled < s + l.entries.length

theorem Recovered.persisted (h : l.Recovered s t) : l.Persisted s t where
  toBased := h.based
  stored_consecutive := h.entries_eq ▸ h.based.consecutive
  stabled_le_stored := by rw [h.stabled_eq, ← h.entries_eq]
  take_eq := by rw [h.entries_eq]
  ahead := by
    rw [← h.entries_eq]
    exact id

theorem Persisted.changed (h : l.Persisted s t) (hl' : l'.Based s t) (hchanged : l.Changed s l') :
    l'.Persisted s t := by
  obtain ⟨i, hk, hes⟩ := hchanged
  rename_i k es
  have hle := h.le_stabled
  refine ⟨hl', h.stored_consecutive, ?_, ?_, ?_⟩
  · exact (Nat.min_le_left _ _).trans h.stabled_le_stored
  · -- What is cut off is not below the new `stabled`.
    have hshort : min l.stabled (s + k) - s ≤ k := by omega
    have hold := congrArg (List.take (min l.stabled (s + k) - s)) h.take_eq
    rw [take_take, take_take, Nat.min_eq_left (by omega)] at hold
    simp only [RaftLog.spliceFrom]
    rw [take_append_of_le_length (by rw [length_take]; omega), take_take,
      Nat.min_eq_left hshort, hold]
  · simp only [RaftLog.spliceFrom, length_append, length_take]
    intro hlt
    cases es with
    | nil =>
      have hahead := h.ahead
      have := hes rfl
      have := h.stabled_le
      simp only [length_nil]
      omega
    | cons e es =>
      simp only [length_cons]
      omega

theorem Persisted.storage_append (h : l.Persisted s t) :
    ∃ ms d, l.storage.append (l.entries.drop (l.stabled - s)) = .ok ms ∧
      ms.ents = d :: l.entries ∧ d.index = s ∧ d.term = t := by
  obtain ⟨d, hd, hindex, hterm⟩ := h.dummy
  obtain ⟨stored, hents⟩ := head?_eq_some_iff.mp (head?_eq_getElem?.trans hd)
  have hle := h.le_stabled
  have hst := h.stabled_le
  have hle' := h.stabled_le_stored
  have htake := h.take_eq
  have hahead := h.ahead
  rw [hents, tail_cons] at hle' htake hahead
  rcases Nat.lt_or_ge (l.stabled - s) l.entries.length with hlt | hge
  · have hp : l.stabled - s < l.storage.ents.length := by
      rw [hents, length_cons]
      omega
    refine ⟨_, d, h.storage_append_eq hp hlt, ?_, hindex, hterm⟩
    simp only [hents]
    rw [take_succ_cons, ← htake, cons_append, take_append_drop]
  · -- Everything is persisted.
    refine ⟨l.storage, d, by rw [drop_eq_nil_of_le hge]; rfl, ?_, hindex, hterm⟩
    rw [take_of_length_le hge, take_of_length_le (by omega)] at htake
    rw [hents, htake]

theorem Persisted.storage_entries (h : l.Persisted s t) {i : ℕ} (hs : s + 1 ≤ i)
    (hi : i ≤ l.stabled) :
    ∃ e, l.storage.entries i (i + 1) = .ok ([e], none) ∧ l.entryAt i = some e := by
  obtain ⟨k, rfl⟩ : ∃ k, i = s + k + 1 := ⟨i - s - 1, by omega⟩
  obtain ⟨d, hd, hindex, -⟩ := h.dummy
  have hdummy := Go.index_eq_ok hd
  have hle := h.stabled_le_stored
  have hst := h.stabled_le
  rw [length_tail] at hle
  have hk : k < l.entries.length := by omega
  -- The two logs have the same entry there.
  have hsame : l.storage.ents[k + 1]? = some (l.entries.get ⟨k, hk⟩) := by
    have hat := congrArg (fun es => es[k]?) h.take_eq
    simp only [getElem?_take_of_lt (show k < l.stabled - s by omega), getElem?_tail,
      getElem?_eq_getElem hk] at hat
    exact hat.symm
  have hlt := (List.getElem?_eq_some_iff.mp hsame).1
  have hlast : l.storage.lastIndex = .ok (s + l.storage.ents.length - 1) := by
    simp only [MemoryStorage.lastIndex, hdummy, hindex, Go.ok_bind, Go.pure_eq_ok]
    rw [sub64_of_le (by omega)]
  refine ⟨l.entries.get ⟨k, hk⟩, ?_, by rw [h.entryAt_eq, getElem?_eq_getElem hk]; rfl⟩
  simp only [MemoryStorage.entries, hdummy, hlast, hindex, Go.ok_bind]
  rw [if_neg (by omega), if_neg (by omega), sub64_of_le (by omega), sub64_of_le (by omega),
    show s + k + 1 - s = k + 1 by omega, show s + k + 1 + 1 - s = k + 1 + 1 by omega,
    Go.slice_eq_ok (by omega) (by omega), take_add_one, hsame]
  rw [drop_append_of_le_length (by rw [length_take]; omega),
    drop_eq_nil_of_le (by rw [length_take]; omega)]
  simp only [Go.ok_bind, Option.toList_some, nil_append]
  rw [if_neg (by omega)]
  rfl

end RaftLog

namespace Raft

variable {s t : ℕ} {r r' : Raft}

theorem persist_of_persisted (h : r.raftLog.Persisted s t) :
    ∃ r', r.persist = .ok r' ∧ r'.raftLog.Recovered s t ∧
      r'.raftLog.entries = r.raftLog.entries ∧
      r'.raftLog.storage.ents.tail = r.raftLog.entries := by
  obtain ⟨ms, d, happend, hents, hindex, hterm⟩ := h.storage_append
  refine ⟨{ r with raftLog :=
    { r.raftLog with storage := ms, stabled := r.raftLog.lastIndex } }, ?_, ?_, rfl, ?_⟩
  · simp only [persist, h.unstableEntries_eq, happend, Go.ok_bind, Go.pure_eq_ok]
  · have hlast := h.lastIndex_eq
    refine ⟨⟨h.consecutive, h.length_le, h.no_snapshot, ⟨d, by simp [hents], hindex, hterm⟩,
      ?_, ?_⟩, by simp [hents], ?_⟩ <;> simp only [hlast]
    all_goals omega
  · simp [hents]

theorem persisted_of_step [TermWidth] (hs : s ≤ maxInt) {e : NodeEvent}
    (he : ∀ rnd m, e = .step rnd m → m.IsOrdered) (h : r.raftLog.Persisted s t)
    (hstep : node.step r e = some r') : r'.raftLog.Persisted s t := by
  cases e with
  | step rnd m =>
    have hr' : r.step rnd m = .ok r' := Go.eq_ok_of_toOption hstep
    obtain ⟨-, hmoves⟩ := step_ifReturns rnd r m r' hr'
    obtain ⟨hbased, hchanged⟩ := h.toBased.changed hs (he rnd m rfl) hmoves
    exact h.changed hbased hchanged
  | tick rnd =>
    have hr' : r.tick rnd = .ok r' := Go.eq_ok_of_toOption hstep
    obtain ⟨-, hmoves⟩ := tick_ifReturns rnd r {} r' hr'
    obtain ⟨hbased, hchanged⟩ := h.toBased.changed hs (by simp [Message.IsOrdered]) hmoves
    exact h.changed hbased hchanged
  | persist =>
    obtain ⟨r₁, hpersist, hrecovered, -, -⟩ := persist_of_persisted h
    have hr' : r.persist = .ok r' := Go.eq_ok_of_toOption hstep
    obtain rfl : r₁ = r' := Except.ok.inj (hpersist.symm.trans hr')
    exact hrecovered.persisted

theorem persisted_of_run [TermWidth] (hs : s ≤ maxInt) {es : List NodeEvent} (hes : Ordered es)
    (h : r.raftLog.Persisted s t) (hrun : node.run r es = some r') : r'.raftLog.Persisted s t := by
  induction es generalizing r with
  | nil =>
    obtain rfl : r = r' := Option.some.inj hrun
    exact h
  | cons e es ih =>
    obtain ⟨r₁, hstep, hrun⟩ := Machine.run_cons.mp hrun
    have hfirst : ∀ rnd m, e = .step rnd m → m.IsOrdered := by
      rintro rnd m rfl
      exact hes rnd m mem_cons_self
    exact ih (fun rnd m hm => hes rnd m (mem_cons_of_mem e hm))
      (persisted_of_step hs hfirst h hstep) hrun

/-- At every moment of a run of a node, its log agrees with the storage up to `stabled`, and when
the application persists the rest, the log that can be recovered from the storage is that of the
node. -/
theorem persist_of_run {rnd : ℕ} {c : Config} {ms : MemoryStorage} {r₀ : Raft}
    (hms : ms.CompactedTo s t) (hs : s ≤ maxInt) (hc : c.storage = some ms)
    (hnew : newRaft rnd c = .ok r₀) {es : List NodeEvent} (hes : Ordered es)
    (hrun : node.run r₀ es = some r) :
    r.raftLog.storage.firstIndex = .ok (s + 1) ∧
    (∀ i, s + 1 ≤ i → i ≤ r.raftLog.stabled →
      ∃ e, r.raftLog.storage.entries i (i + 1) = .ok ([e], none) ∧
        r.raftLog.entryAt i = some e) ∧
    ∃ r' l, r.persist = .ok r' ∧ r'.raftLog.entries = r.raftLog.entries ∧
      newLog r'.raftLog.storage = .ok l ∧ l.entries = r'.raftLog.entries ∧
      l.stabled = r'.raftLog.stabled := by
  obtain ⟨hrecovered, -⟩ := recovered_of_newRaft hms hc hnew
  have h := persisted_of_run hs hes hrecovered.persisted hrun
  refine ⟨h.storage_firstIndex, fun i hi hle => h.storage_entries hi hle, ?_⟩
  obtain ⟨r', hpersist, hr', hentries, hstored⟩ := persist_of_persisted h
  obtain ⟨d, hd, hindex, -⟩ := hr'.based.dummy
  have hents : r'.raftLog.storage.ents = d :: r'.raftLog.entries := by
    rw [hr'.entries_eq]
    cases hents : r'.raftLog.storage.ents with
    | nil => simp [hents] at hd
    | cons d' stored => simpa [hents] using hd
  exact ⟨r', _, hpersist, hentries, RaftLog.newLog_of_ents hents, rfl, by
    rw [hr'.stabled_eq, hindex]⟩

def appendAfterTwo (term : ℕ) (entries : List Entry) : Message where
  msgType := .msgAppend
  fromId := 1
  toId := 2
  term := term
  index := 2
  logTerm := 1
  entries := entries

def persistAndReplace : List NodeEvent :=
  [.step 0 (appendAfterTwo 2 [{ term := 2, index := 3 }, { term := 2, index := 4 }]), .persist,
    .step 0 (appendAfterTwo 3 [{ term := 3, index := 3 }])]

theorem persist_persistAndReplace :
    ∃ r₀ r, newRaft 0 compactedConfig = .ok r₀ ∧ node.run r₀ persistAndReplace = some r ∧
      r.raftLog.stabled = 2 ∧ r.raftLog.storage.ents.length = 3 ∧
      ∃ r' l, r.persist = .ok r' ∧ r'.raftLog.entries = [{ term := 3, index := 3 }] ∧
        newLog r'.raftLog.storage = .ok l ∧ l.entries = r'.raftLog.entries ∧
        l.stabled = r'.raftLog.stabled := by
  have hvalues : ((newRaft 0 compactedConfig).toOption.bind fun r₀ =>
      (node.run r₀ persistAndReplace).map fun r =>
        (r.raftLog.stabled, r.raftLog.storage.ents.length, r.raftLog.entries)) =
      some (2, 3, [{ term := 3, index := 3 }]) := by decide +kernel
  obtain ⟨r₀, hnew, hvalues⟩ := Option.bind_eq_some_iff.mp hvalues
  obtain ⟨r, hrun, hvalues⟩ := Option.map_eq_some_iff.mp hvalues
  obtain ⟨hstabled, hlength, hentries⟩ : r.raftLog.stabled = 2 ∧
      r.raftLog.storage.ents.length = 3 ∧ r.raftLog.entries = [{ term := 3, index := 3 }] := by
    simpa using hvalues
  have hordered : Ordered persistAndReplace := by
    intro rnd m hm
    simp only [persistAndReplace, mem_cons, not_mem_nil, or_false, reduceCtorEq,
      false_or, NodeEvent.step.injEq] at hm
    rcases hm with ⟨-, rfl⟩ | ⟨-, rfl⟩ <;> decide
  obtain ⟨-, -, r', l, hpersist, hsame, hlog⟩ := persist_of_run compactedAtTwo_compactedTo
    (by decide) rfl (Go.eq_ok_of_toOption hnew) hordered hrun
  exact ⟨r₀, r, Go.eq_ok_of_toOption hnew, hrun, hstabled, hlength, r', l, hpersist,
    hsame.trans hentries, hlog⟩

end Raft

end TinyKV
