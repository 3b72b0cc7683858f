import TinyKV.Raft.Raft

/-!
# Logs over a compacted storage

A log is based at a position `s` with a term `t` when its storage has been compacted up to there.
-/

namespace TinyKV

open List

def ConsecutiveFrom (p : ℕ) (es : List Entry) : Prop :=
  ∀ k e, es[k]? = some e → e.index = p + k + 1

theorem consecutiveFrom_nil (p : ℕ) : ConsecutiveFrom p [] := by
  intro k e h
  simp at h

variable {es : List Entry} {p : ℕ}

theorem consecutiveFrom_cons {e : Entry} :
    ConsecutiveFrom p (e :: es) ↔ e.index = p + 1 ∧ ConsecutiveFrom (p + 1) es := by
  constructor
  · intro h
    refine ⟨by simpa using h 0 e rfl, fun k e' hk => ?_⟩
    have := h (k + 1) e' (by simpa using hk)
    omega
  · rintro ⟨h0, h⟩ k e' hk
    cases k with
    | zero =>
      obtain rfl : e = e' := by simpa using hk
      simpa using h0
    | succ k =>
      have := h k e' (by simpa using hk)
      omega

instance : (p : ℕ) → (es : List Entry) → Decidable (ConsecutiveFrom p es)
  | p, [] => isTrue (consecutiveFrom_nil p)
  | p, _ :: es =>
    have := instDecidableConsecutiveFrom (p + 1) es
    decidable_of_iff _ consecutiveFrom_cons.symm

theorem ConsecutiveFrom.take (h : ConsecutiveFrom p es) (k : ℕ) :
    ConsecutiveFrom p (es.take k) := by
  intro j e hj
  rw [getElem?_take] at hj
  split_ifs at hj with hlt
  exact h j e hj

theorem ConsecutiveFrom.drop (h : ConsecutiveFrom p es) (k : ℕ) :
    ConsecutiveFrom (p + k) (es.drop k) := by
  intro j e hj
  rw [getElem?_drop] at hj
  have := h (k + j) e hj
  omega

theorem ConsecutiveFrom.append {es fs : List Entry} (h : ConsecutiveFrom p es)
    (h' : ConsecutiveFrom (p + es.length) fs) : ConsecutiveFrom p (es ++ fs) := by
  intro k e hk
  rcases Nat.lt_or_ge k es.length with hlt | hge
  · rw [getElem?_append_left hlt] at hk
    exact h k e hk
  · rw [getElem?_append_right hge] at hk
    have := h' _ e hk
    omega

theorem ConsecutiveFrom.filter_lt_index (h : ConsecutiveFrom p es)
    (i : ℕ) : (es.filter fun e => i < e.index) = es.drop (i - p) := by
  induction es generalizing p with
  | nil => simp
  | cons e es ih =>
    obtain ⟨he, hes⟩ := consecutiveFrom_cons.mp h
    rcases Nat.lt_or_ge p i with hlt | hge
    · rw [filter_cons_of_neg (by simp; omega), ih hes,
        show i - p = (i - (p + 1)) + 1 by omega, drop_succ_cons]
    · rw [filter_cons_of_pos (by simp; omega), ih hes, show i - p = 0 by omega,
        show i - (p + 1) = 0 by omega, drop_zero, drop_zero]

theorem MemoryStorage.term_of_le_dummy {ms : MemoryStorage} {d : Entry} (hd : ms.ents[0]? = some d)
    {i : ℕ} (hi : i ≤ d.index) :
    ms.term i = if d.index = i then .ok (d.term, none) else .ok (0, some .errCompacted) := by
  have hne : ms.ents ≠ [] := length_pos_iff.mp (List.getElem?_eq_some_iff.mp hd).1
  split_ifs with heq
  · subst heq
    simp [term, Go.index_eq_ok hd, sub64, toInt, hne]
  · simp [term, Go.index_eq_ok hd, show i < d.index by omega]

namespace RaftLog

def entryAt (l : RaftLog) (i : ℕ) : Option Entry := l.entries.find? fun e => e.index == i

variable {l : RaftLog}

theorem entryAt_of_consecutive {p : ℕ} (h : ConsecutiveFrom p l.entries) (k : ℕ) :
    l.entryAt (p + k + 1) = l.entries[k]? := by
  unfold entryAt
  rcases hk : l.entries[k]? with _ | e
  · rw [find?_eq_none]
    intro e he hindex
    obtain ⟨j, hj⟩ := mem_iff_getElem?.mp he
    have hej := h j e hj
    rw [beq_iff_eq.mp hindex] at hej
    rw [show k = j by omega, hj] at hk
    cases hk
  · -- The entries before it have smaller indexes.
    obtain ⟨hlt, rfl⟩ := List.getElem?_eq_some_iff.mp hk
    rw [find?_eq_some_iff_getElem]
    refine ⟨by simpa using h k _ hk, k, hlt, rfl, ?_⟩
    intro j hj
    have := h j _ (getElem?_eq_getElem (show j < l.entries.length by omega))
    simp
    omega

theorem entryAt_eq_none_of_le {p i : ℕ} (h : ConsecutiveFrom p l.entries)
    (hi : i ≤ p) : l.entryAt i = none := by
  unfold entryAt
  rw [find?_eq_none]
  intro e he hindex
  obtain ⟨j, hj⟩ := mem_iff_getElem?.mp he
  have hej := h j e hj
  rw [beq_iff_eq.mp hindex] at hej
  omega

variable {e : Entry}

theorem term_of_consecutive {p : ℕ} (h : ConsecutiveFrom p l.entries)
    (hlast : l.lastIndex = p + l.entries.length) {k : ℕ} (he : l.entries[k]? = some e) :
    l.term (p + k + 1) = .ok (e.term, none) := by
  have hlt := (List.getElem?_eq_some_iff.mp he).1
  unfold term
  rw [hlast, if_neg (by omega)]
  cases hes : l.entries with
  | nil => simp [hes] at hlt
  | cons first rest =>
    have hfirst : first.index = p + 1 := (consecutiveFrom_cons.mp (hes ▸ h)).1
    simp only [head?_cons, hfirst]
    rw [if_pos (by omega), sub64_of_le (by omega), ← hes, show p + k + 1 - (p + 1) = k by omega,
      Go.index_eq_ok he]
    rfl

theorem term_of_le {p i : ℕ} (h : ConsecutiveFrom p l.entries)
    (hlast : l.lastIndex = p + l.entries.length) (hi : i ≤ p) : l.term i = l.storage.term i := by
  unfold term
  rw [hlast, if_neg (by omega)]
  cases hes : l.entries with
  | nil => rfl
  | cons first rest =>
    have hfirst : first.index = p + 1 := (consecutiveFrom_cons.mp (hes ▸ h)).1
    simp only [head?_cons, hfirst]
    rw [if_neg (by omega)]

/-- The representation invariant of a log whose storage has been compacted up to the position `s`,
where the term is `t`. -/
structure Based (s t : ℕ) (l : RaftLog) : Prop where
  consecutive : ConsecutiveFrom s l.entries
  length_le : l.entries.length ≤ maxInt
  no_snapshot : l.pendingSnapshot = none
  dummy : ∃ d, l.storage.ents[0]? = some d ∧ d.index = s ∧ d.term = t
  le_stabled : s ≤ l.stabled
  stabled_le : l.stabled ≤ s + l.entries.length

variable {s t : ℕ}

namespace Based

variable (h : l.Based s t)
include h

theorem index_eq {k : ℕ} {e : Entry} (he : l.entries[k]? = some e) :
    e.index = s + k + 1 := h.consecutive k e he

theorem index_head {first : Entry} {rest : List Entry}
    (hes : l.entries = first :: rest) : first.index = s + 1 :=
  h.index_eq (k := 0) (by rw [hes]; rfl)

theorem lastIndex_eq : l.lastIndex = s + l.entries.length := by
  unfold lastIndex
  rw [h.no_snapshot]
  rcases hl : l.entries.getLast? with _ | e
  · -- The source falls back to `stabled`, which is `s` for an empty log.
    have hnil : l.entries = [] := by simpa using hl
    have h1 := h.le_stabled
    have h2 := h.stabled_le
    simp only [hnil, length_nil] at h2 ⊢
    omega
  · rw [getLast?_eq_getElem?] at hl
    have hlt := (List.getElem?_eq_some_iff.mp hl).1
    have := h.index_eq hl
    simp only
    omega

theorem storage_term_base : l.storage.term s = .ok (t, none) := by
  obtain ⟨d, hd, rfl, rfl⟩ := h.dummy
  rw [MemoryStorage.term_of_le_dummy hd le_rfl, if_pos rfl]

variable {i : ℕ}

theorem storage_term_below (hi : i < s) : l.storage.term i = .ok (0, some .errCompacted) := by
  obtain ⟨d, hd, rfl, rfl⟩ := h.dummy
  rw [MemoryStorage.term_of_le_dummy hd hi.le, if_neg hi.ne']

theorem storage_firstIndex : l.storage.firstIndex = .ok (s + 1) := by
  obtain ⟨d, hd, rfl, rfl⟩ := h.dummy
  simp only [MemoryStorage.firstIndex, Go.index_eq_ok hd, Go.ok_bind, Go.pure_eq_ok]

theorem term_of_getElem? {k : ℕ} {e : Entry} (he : l.entries[k]? = some e) :
    l.term (s + k + 1) = .ok (e.term, none) :=
  term_of_consecutive h.consecutive h.lastIndex_eq he

theorem term_base : l.term s = .ok (t, none) := by
  rw [term_of_le h.consecutive h.lastIndex_eq le_rfl, h.storage_term_base]

theorem term_below (hi : i < s) : l.term i = .ok (0, some .errCompacted) := by
  rw [term_of_le h.consecutive h.lastIndex_eq hi.le, h.storage_term_below hi]

theorem term_above (hi : s + l.entries.length < i) : l.term i = .ok (0, some .errUnavailable) := by
  unfold term
  rw [h.lastIndex_eq, if_pos hi]

theorem exists_term_lastIndex : ∃ x, l.term l.lastIndex = .ok x := by
  rw [h.lastIndex_eq]
  rcases Nat.eq_zero_or_pos l.entries.length with hzero | hpos
  · rw [hzero]
    exact ⟨_, h.term_base⟩
  · have hget := getElem?_eq_getElem (show l.entries.length - 1 < l.entries.length by omega)
    have hterm := h.term_of_getElem? hget
    rw [show s + (l.entries.length - 1) + 1 = s + l.entries.length by omega] at hterm
    exact ⟨_, hterm⟩

theorem entryAt_eq (k : ℕ) : l.entryAt (s + k + 1) = l.entries[k]? :=
  entryAt_of_consecutive h.consecutive k

theorem entryAt_of_le (hi : i ≤ s) : l.entryAt i = none :=
  entryAt_eq_none_of_le h.consecutive hi

theorem entryAt_eq_some {e : Entry} :
    l.entryAt i = some e ↔ s + 1 ≤ i ∧ l.entries[i - s - 1]? = some e := by
  rcases Nat.lt_or_ge s i with hi | hi
  · obtain ⟨k, rfl⟩ : ∃ k, i = s + k + 1 := ⟨i - s - 1, by omega⟩
    rw [h.entryAt_eq, show s + k + 1 - s - 1 = k by omega]
    exact ⟨fun he => ⟨by omega, he⟩, And.right⟩
  · rw [h.entryAt_of_le hi]
    constructor
    · intro he
      cases he
    · rintro ⟨he, -⟩
      omega

end Based

theorem Based.unstableEntries_eq (h : l.Based s t) :
    l.unstableEntries = .ok (l.entries.drop (l.stabled - s)) := by
  unfold unstableEntries
  cases hes : l.entries with
  | nil => simp
  | cons first rest =>
    obtain ⟨last, hlast⟩ : ∃ last, l.entries.getLast? = some last := by
      rw [hes]
      exact ⟨_, getLast?_cons⟩
    have hindex : last.index = s + l.entries.length := by
      have hw := h.lastIndex_eq
      simpa [lastIndex, hlast] using hw
    rw [← hes, hlast]
    have hle := h.le_stabled
    have hst := h.stabled_le
    simp only [hes, head?_cons]
    rw [← hes, hindex, h.index_head hes]
    split_ifs with h1 h2
    · rw [drop_eq_nil_of_le (by omega)]
    · obtain h0 : l.stabled - s = 0 := by omega
      rw [h0, drop_zero]
    · rw [sub64_of_le (by omega), show l.stabled - (s + 1) + 1 = l.stabled - s by omega,
        Go.slice_eq_ok (by omega) le_rfl, take_length]

theorem Based.nextEnts_eq (h : l.Based s t) (hs : s ≤ l.applied) (ha : l.applied ≤ l.committed)
    (hc : l.committed ≤ s + l.entries.length) :
    l.nextEnts = .ok ((l.entries.take (l.committed - s)).drop (l.applied - s)) := by
  unfold nextEnts
  cases hes : l.entries with
  | nil => simp
  | cons first rest =>
    simp only [head?_cons, h.index_head hes]
    have hstart : (if l.applied + 1 ≤ s + 1 then s + 1 else l.applied + 1) = l.applied + 1 := by
      split_ifs <;> omega
    rw [hstart, ← hes]
    split_ifs with hlt
    · rw [drop_eq_nil_of_le]
      rw [length_take]
      omega
    · rw [sub64_of_le (by omega), sub64_of_le (by omega),
        show l.applied + 1 - (s + 1) = l.applied - s by omega,
        show l.committed - (s + 1) + 1 = l.committed - s by omega,
        Go.slice_eq_ok (by omega) (by omega)]

theorem nextEnts_subset (h : l.nextEnts = .ok es) : es ⊆ l.entries := by
  unfold nextEnts at h
  cases hhead : l.entries.head? with
  | none =>
    rw [hhead] at h
    cases h
    exact nil_subset _
  | some first =>
    rw [hhead] at h
    dsimp only at h
    generalize (if l.applied + 1 ≤ first.index then first.index else l.applied + 1) = start at h
    by_cases hlt : l.committed < start
    · rw [if_pos hlt] at h
      cases h
      exact nil_subset _
    · rw [if_neg hlt] at h
      exact Go.subset_of_slice h

theorem Based.lt_index_of_nextEnts (h : l.Based s t) (hes : l.nextEnts = .ok es) (he : e ∈ es) :
    s < e.index := by
  obtain ⟨k, hk⟩ := mem_iff_getElem?.mp (nextEnts_subset hes he)
  have := h.index_eq hk
  omega

theorem Based.storage_append_eq (h : l.Based s t) (hp : l.stabled - s < l.storage.ents.length)
    (hlt : l.stabled - s < l.entries.length) :
    l.storage.append (l.entries.drop (l.stabled - s)) =
      .ok { l.storage with
        ents := l.storage.ents.take (l.stabled - s + 1) ++ l.entries.drop (l.stabled - s) } := by
  obtain ⟨d, hd, hindex_d, -⟩ := h.dummy
  have hdummy := Go.index_eq_ok hd
  have hget := getElem?_eq_getElem hlt
  have hindex := h.index_eq hget
  obtain ⟨rest, hdrop⟩ : ∃ rest, l.entries.drop (l.stabled - s) =
      l.entries[l.stabled - s] :: rest := ⟨_, drop_eq_getElem_cons hlt⟩
  have hzero : Go.index (l.entries[l.stabled - s] :: rest) 0 = .ok l.entries[l.stabled - s] := rfl
  simp only [MemoryStorage.append, hdrop, h.storage_firstIndex, hindex, Go.ok_bind, Go.pure_eq_ok,
    length_cons]
  -- Nothing of them has been compacted.
  rw [sub64_of_le (by omega), if_neg (by omega), if_neg (by omega)]
  simp only [hzero, hdummy, hindex, hindex_d, Go.ok_bind]
  rw [sub64_of_le (by omega), show s + (l.stabled - s) + 1 - s = l.stabled - s + 1 by omega]
  rcases (show l.stabled - s + 1 ≤ l.storage.ents.length by omega).lt_or_eq with hlt' | heq
  · -- The storage has more than what counts as persisted, and loses it.
    rw [if_pos hlt', Go.slice_eq_ok (Nat.zero_le _) hlt'.le, drop_zero]
    rfl
  · rw [if_neg (by omega), if_pos heq.symm, heq, take_length]

theorem newLog_of_ents {ms : MemoryStorage} {d : Entry} (h : ms.ents = d :: es) :
    newLog ms = .ok {
      storage := ms
      committed := d.index
      applied := d.index
      stabled := d.index + es.length
      entries := es } := by
  have hdummy : Go.index ms.ents 0 = .ok d := Go.index_eq_ok (by rw [h]; rfl)
  have hfirst : ms.firstIndex = .ok (d.index + 1) := by
    simp only [MemoryStorage.firstIndex, hdummy, Go.ok_bind, Go.pure_eq_ok]
  have hlast : ms.lastIndex = .ok (d.index + es.length) := by
    simp only [MemoryStorage.lastIndex, hdummy, Go.ok_bind, Go.pure_eq_ok]
    rw [h, length_cons, sub64_of_le (by omega), ← Nat.add_assoc, Nat.add_sub_cancel]
  have hents : ms.entries (d.index + 1) (d.index + es.length + 1) = .ok (es, none) := by
    simp only [MemoryStorage.entries, hdummy, hlast, Go.ok_bind]
    rw [if_neg (by omega), if_neg (by omega), sub64_of_le (by omega), sub64_of_le (by omega),
      Nat.add_sub_cancel_left, show d.index + es.length + 1 - d.index = es.length + 1 by omega]
    simp [h, Go.slice]
  have hzero : sub64 (d.index + 1) 1 = d.index := sub64_of_le (by omega)
  simp only [newLog, hfirst, hlast, hents, hzero, Go.ok_bind, Go.pure_eq_ok]

def spliceFrom (s : ℕ) (l : RaftLog) (k : ℕ) (es : List Entry) : RaftLog :=
  { l with stabled := min l.stabled (s + k), entries := l.entries.take k ++ es }

def HasTermAt (l : RaftLog) (k : ℕ) (e : Entry) : Prop :=
  ∃ d, l.entries[k]? = some d ∧ d.term = e.term

namespace Based

theorem spliceFrom (h : l.Based s t) {k : ℕ} (hk : k ≤ l.entries.length) {es : List Entry}
    (hes : ConsecutiveFrom (s + k) es) (hlen : (l.entries.take k ++ es).length ≤ maxInt) :
    (l.spliceFrom s k es).Based s t := by
  have htake : (l.entries.take k).length = k := by
    rw [length_take]
    omega
  have hst := h.le_stabled
  refine ⟨?_, hlen, h.no_snapshot, h.dummy, ?_, ?_⟩
  · refine (h.consecutive.take k).append ?_
    rwa [htake]
  · simp only [RaftLog.spliceFrom]
    omega
  · simp only [RaftLog.spliceFrom, length_append, htake]
    omega

theorem spliceFrom_length (h : l.Based s t) (es : List Entry) :
    l.spliceFrom s l.entries.length es = { l with entries := l.entries ++ es } := by
  rw [RaftLog.spliceFrom, take_length, Nat.min_eq_left h.stabled_le]

theorem handleAppendEntry_within (h : l.Based s t) {k : ℕ} (hk : k ≤ l.entries.length)
    {e : Entry} (he : e.index = s + k + 1) :
    Go.EnsuresWithin (k + 1) (Raft.handleAppendEntry l e) fun l' =>
      l.HasTermAt k e ∧ l' = l ∨ ¬ l.HasTermAt k e ∧ l' = l.spliceFrom s k [e] ∧ l'.Based s t := by
  have hes : ConsecutiveFrom (s + k) [e] := consecutiveFrom_cons.mpr ⟨he, consecutiveFrom_nil _⟩
  have hst := h.le_stabled
  unfold Raft.handleAppendEntry
  rw [h.lastIndex_eq, he]
  rcases hk.lt_or_eq with hlt | rfl
  · have hd := getElem?_eq_getElem hlt
    rw [if_pos (by omega), h.term_of_getElem? hd]
    simp only [Go.ok_bind, Go.pure_eq_ok]
    by_cases hterm : l.entries[k].term = e.term
    · rw [if_neg (not_not_intro hterm)]
      exact Or.inl ⟨⟨_, hd, hterm⟩, rfl⟩
    · -- The log has an entry of another term there.
      rw [if_pos hterm]
      have hget := getElem?_eq_getElem (show 0 < l.entries.length by omega)
      have hfirst := h.index_eq hget
      have hsub : sub64 (s + k + 1) l.entries[0].index = k := by
        rw [hfirst, sub64_of_le (by omega)]
        omega
      have hstabled : (if s + k + 1 ≤ l.stabled then { l with stabled := sub64 (s + k + 1) 1 }
          else l) = { l with stabled := min l.stabled (s + k) } := by
        split_ifs with hs
        · rw [sub64_of_le (by omega), Nat.add_sub_cancel, Nat.min_eq_right (by omega)]
        · rw [Nat.min_eq_left (by omega)]
      rw [hstabled]
      simp only [Go.index_eq_ok hget, hsub, Go.slice_eq_ok (Nat.zero_le k) hk, drop_zero,
        Go.ok_bind]
      refine (Go.append_within _ _).bind ?_ fun es hes' => ?_
      · simp
      obtain ⟨rfl, hlen⟩ := hes'
      refine Or.inr ⟨?_, rfl, h.spliceFrom hk hes hlen⟩
      rintro ⟨d, hd', hdterm⟩
      rw [hd, Option.some.injEq] at hd'
      exact hterm (hd' ▸ hdterm)
  · -- The log ends before the entry.
    rw [if_neg (by omega)]
    refine (Go.append_within _ _).bind le_rfl fun es hes' => ?_
    obtain ⟨rfl, hlen⟩ := hes'
    have hsplice := h.spliceFrom le_rfl hes (by rwa [take_length])
    rw [h.spliceFrom_length] at hsplice ⊢
    refine Or.inr ⟨?_, rfl, hsplice⟩
    rintro ⟨d, hd, -⟩
    rw [getElem?_eq_none le_rfl] at hd
    cases hd

theorem foldlM_handleAppendEntry_append {es : List Entry} (h : l.Based s t)
    (hes : ConsecutiveFrom (s + l.entries.length) es) :
    Go.EnsuresWithin (l.entries.length + es.length) (es.foldlM Raft.handleAppendEntry l) fun l' =>
      l'.Based s t ∧ l' = { l with entries := l.entries ++ es } := by
  induction es generalizing l with
  | nil => exact ⟨h, by simp⟩
  | cons e es ih =>
    rw [consecutiveFrom_cons] at hes
    rw [foldlM_cons]
    refine (h.handleAppendEntry_within le_rfl hes.1).bind (by simp) fun l1 h1 => ?_
    rcases h1 with ⟨⟨d, hd, -⟩, -⟩ | ⟨-, heq, h1⟩
    · -- The log has no entry after its last.
      rw [getElem?_eq_none le_rfl] at hd
      cases hd
    · rw [h.spliceFrom_length] at heq
      subst heq
      refine (ih h1 (by simpa [Nat.add_assoc] using hes.2)).imp ?_ fun l' hl' => ?_
      · simp only [length_append, length_cons, length_nil]
        omega
      · obtain ⟨hwf, rfl⟩ := hl'
        exact ⟨hwf, by simp⟩

end Based

/-- The log after the loop of `handleAppendEntries` on entries that come at the places from `k`
on. -/
inductive SplicedFrom (s : ℕ) (l : RaftLog) (k : ℕ) (es : List Entry) : RaftLog → Prop
  | kept (hall : ∀ j e, es[j]? = some e → l.HasTermAt (k + j) e) : SplicedFrom s l k es l
  | cut {q : ℕ} {e : Entry} (he : es[q]? = some e) (hno : ¬ l.HasTermAt (k + q) e)
      (hle : k + q ≤ l.entries.length)
      (hall : ∀ j e, j < q → es[j]? = some e → l.HasTermAt (k + j) e) :
      SplicedFrom s l k es (l.spliceFrom s (k + q) (es.drop q))

theorem HasTermAt.lt {k : ℕ} (h : l.HasTermAt k e) : k < l.entries.length := by
  obtain ⟨d, hd, -⟩ := h
  exact (List.getElem?_eq_some_iff.mp hd).1

theorem SplicedFrom.cons {k : ℕ} {l' : RaftLog} (h : l.SplicedFrom s (k + 1) es l')
    (he : l.HasTermAt k e) : l.SplicedFrom s k (e :: es) l' := by
  have hall' : ∀ q, (∀ j d, j < q → es[j]? = some d → l.HasTermAt (k + 1 + j) d) →
      ∀ j d, j < q + 1 → (e :: es)[j]? = some d → l.HasTermAt (k + j) d := by
    rintro q hall (_ | j) d hjq hj
    · obtain rfl : e = d := by simpa using hj
      exact he
    · rw [show k + (j + 1) = k + 1 + j by omega]
      exact hall j d (by omega) (by simpa using hj)
  cases h with
  | kept hall => exact .kept fun j d hj => hall' j (fun i c _ => hall i c) j d (by omega) hj
  | @cut q d hq hno hle hall =>
    have hpq : k + (q + 1) = k + 1 + q := by omega
    rw [← hpq] at hno hle ⊢
    exact .cut (e := d) (by simpa using hq) hno hle (hall' q hall)

theorem Based.foldlM_handleAppendEntry (h : l.Based s t) {k : ℕ}
    (hk : k ≤ l.entries.length) (hes : ConsecutiveFrom (s + k) es) :
    Go.EnsuresWithin (k + es.length) (es.foldlM Raft.handleAppendEntry l) fun l' =>
      l'.Based s t ∧ l.SplicedFrom s k es l' := by
  induction es generalizing k with
  | nil => exact ⟨h, .kept (by simp)⟩
  | cons e es ih =>
    have hes' := consecutiveFrom_cons.mp hes
    rw [foldlM_cons]
    refine (h.handleAppendEntry_within hk hes'.1).bind (by simp) fun l1 h1 => ?_
    rcases h1 with ⟨hh, rfl⟩ | ⟨hh, rfl, h1⟩
    · -- The entry is there: the rest of the loop starts one further.
      refine (ih hh.lt hes'.2).imp ?_ fun l' hl' => ⟨hl'.1, hl'.2.cons hh⟩
      rw [length_cons]
      omega
    · -- The entry is not there: the log is cut off, and the rest of the entries follow it.
      have hlen : (l.spliceFrom s k [e]).entries.length = k + 1 := by
        simp [RaftLog.spliceFrom, length_take, hk]
      refine (h1.foldlM_handleAppendEntry_append (by rw [hlen]; exact hes'.2)).imp ?_
        fun l' hl' => ?_
      · rw [hlen, length_cons]
        omega
      · obtain ⟨hwf, rfl⟩ := hl'
        have hcut : l.SplicedFrom s k (e :: es) _ := .cut (q := 0) rfl hh hk (by simp)
        exact ⟨hwf, by simpa [RaftLog.spliceFrom] using hcut⟩

end RaftLog

end TinyKV
