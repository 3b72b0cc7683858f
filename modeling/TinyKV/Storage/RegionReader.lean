import TinyKV.Storage.EngineUtil

/-!
# Iterators over a region

`RegionIterator` of `kv/storage/raft_storage/region_reader.go` is to behave as if there were only
the keys of a region (`Cursor`).
-/

namespace TinyKV

open List

structure Region where
  startKey : Bytes := []
  endKey : Bytes := []
deriving DecidableEq, Repr

structure ErrKeyNotInRegion where
  key : Bytes
  region : Region
deriving DecidableEq, Repr

def Region.Contains (region : Region) (key : Bytes) : Prop :=
  region.startKey ≤ key ∧ (region.endKey = [] ∨ key < region.endKey)

instance Region.decidableContains (region : Region) (key : Bytes) :
    Decidable (region.Contains key) :=
  inferInstanceAs (Decidable (_ ∧ _))

def checkKeyInRegion (key : Bytes) (region : Region) : Option ErrKeyNotInRegion :=
  if key ≥ region.startKey ∧ (region.endKey.length = 0 ∨ key < region.endKey) then none
  else some { key := key, region := region }

theorem checkKeyInRegion_eq_none {key : Bytes} {region : Region} :
    checkKeyInRegion key region = none ↔ region.Contains key := by
  unfold checkKeyInRegion Region.Contains
  rw [ite_eq_left_iff, length_eq_zero_iff]
  simp only [reduceCtorEq, imp_false, not_not, ge_iff_le]

theorem Region.contains_iff {region : Region} {key : Bytes} :
    region.Contains key ↔ region.startKey ≤ key ∧ exceedEndKey key region.endKey = false := by
  unfold Contains exceedEndKey
  by_cases hend : region.endKey = [] <;> simp [hend]

structure RegionIterator where
  iter : BadgerIterator
  region : Region

namespace RegionIterator

def item (it : RegionIterator) : Option (Bytes × Bytes) := it.iter.item

def valid (it : RegionIterator) : Bool :=
  it.iter.valid && it.iter.item.any fun p => !exceedEndKey p.1 it.region.endKey

def next (it : RegionIterator) : RegionIterator := { it with iter := it.iter.next }

def seek (it : RegionIterator) (key : Bytes) : Except ErrKeyNotInRegion RegionIterator :=
  match checkKeyInRegion key it.region with
  | some err => .error err
  | none => .ok { it with iter := it.iter.seek key }

def rewind (it : RegionIterator) : RegionIterator := { it with iter := it.iter.rewind }

theorem rest_ne_nil_of_valid {it : RegionIterator} (h : it.valid = true) : it.iter.rest ≠ [] := by
  intro hnil
  simp [valid, BadgerIterator.valid, hnil] at h

def visited (it : RegionIterator) : List (Bytes × Bytes) :=
  if it.valid then it.item.toList ++ it.next.visited else []
termination_by it.iter.rest.length
decreasing_by
  have hpos := length_pos_iff.mpr (rest_ne_nil_of_valid ‹it.valid = true›)
  simp only [next, BadgerIterator.next, length_tail]
  omega

end RegionIterator

def RegionReader.iterCF (txn : Badger) (region : Region) (cf : Bytes) : RegionIterator :=
  { iter := newCFIterator cf txn, region := region }

/-- A call that moves an iterator over the region. A key that is sought is in the region. -/
inductive IterCall (region : Region)
  | seek (key : Bytes) (h : region.Contains key)
  | next
  | rewind

def Region.items (region : Region) (txn : Badger) (cf : Bytes) : List (Bytes × Bytes) :=
  (txn.pairs.filter fun p => (cfStart cf).isPrefixOf p.1 ∧
    region.Contains (p.1.drop (cfStart cf).length)).map fun p => (p.1.drop (cfStart cf).length, p.2)

def Cursor.call {region : Region} (items remaining : List (Bytes × Bytes)) :
    IterCall region → List (Bytes × Bytes)
  | .seek key _ => OrderedList.ascendGreaterOrEqual Prod.fst key items
  | .next => remaining.tail
  | .rewind => items

def Cursor.remaining {region : Region} (items : List (Bytes × Bytes))
    (calls : List (IterCall region)) : List (Bytes × Bytes) :=
  calls.foldl (Cursor.call items) []

namespace RegionIterator

def call {region : Region} (it : RegionIterator) :
    IterCall region → Except ErrKeyNotInRegion RegionIterator
  | .seek key _ => it.seek key
  | .next => .ok it.next
  | .rewind => .ok it.rewind

variable {txn : Badger} {region : Region} {cf : Bytes} {it : RegionIterator}

def Confined (txn : Badger) (region : Region) (cf : Bytes) (calls : List (IterCall region)) :
    Prop :=
  ∃ it, calls.foldlM call (RegionReader.iterCF txn region cf) = .ok it ∧
    (it.valid = true → ∃ key val, it.item = some (key, val) ∧ region.Contains key ∧
      (keyWithCF cf key, val) ∈ txn.pairs) ∧
    it.visited = Cursor.remaining (region.items txn cf) calls

theorem mem_items {key val : Bytes} : (key, val) ∈ region.items txn cf ↔
    region.Contains key ∧ (keyWithCF cf key, val) ∈ txn.pairs := by
  unfold Region.items
  constructor
  · intro h
    obtain ⟨⟨k, v⟩, hmem, heq⟩ := mem_map.mp h
    obtain ⟨hmem, hstart⟩ := mem_filter.mp hmem
    obtain ⟨hstart, hin⟩ := of_decide_eq_true hstart
    obtain ⟨c, rfl⟩ := List.isPrefixOf_iff_prefix.mp hstart
    obtain ⟨rfl, rfl⟩ : c = key ∧ v = val := by simpa using heq
    exact ⟨by simpa using hin, hmem⟩
  · rintro ⟨hin, hmem⟩
    refine mem_map.mpr ⟨(keyWithCF cf key, val), mem_filter.mpr ⟨hmem, ?_⟩, ?_⟩
    · exact decide_eq_true ⟨List.isPrefixOf_iff_prefix.mpr (prefix_append _ _), by
        simpa [keyWithCF] using hin⟩
    · simp [keyWithCF]

theorem remaining_subset (items : List (Bytes × Bytes)) (calls : List (IterCall region)) :
    Cursor.remaining items calls ⊆ items := by
  induction calls using List.reverseRecOn with
  | nil => exact nil_subset _
  | append_singleton calls c ih =>
    rw [Cursor.remaining, foldl_append]
    cases c with
    | seek key h => exact fun x hx => (OrderedList.mem_ascendGreaterOrEqual.mp hx).1
    | next => exact fun x hx => ih (mem_of_mem_tail hx)
    | rewind => exact fun x hx => hx

def Shown (region : Region) (cf : Bytes) (p : Bytes × Bytes) : Prop :=
  (cfStart cf).isPrefixOf p.1 ∧ exceedEndKey (p.1.drop (cfStart cf).length) region.endKey = false

instance decidableShown (region : Region) (cf : Bytes) (p : Bytes × Bytes) :
    Decidable (Shown region cf p) :=
  inferInstanceAs (Decidable (_ ∧ _))

/-- The iterator is one over the column family in the region. -/
structure Iterates (it : RegionIterator) (txn : Badger) (region : Region) (cf : Bytes) : Prop where
  txn_eq : it.iter.txn = txn
  start_eq : it.iter.start = cfStart cf
  region_eq : it.region = region

theorem Iterates.valid_iff (h : it.Iterates txn region cf) :
    it.valid = true ↔ ∃ p rest, it.iter.rest = p :: rest ∧ Shown region cf p := by
  unfold valid BadgerIterator.valid BadgerIterator.item Shown
  rw [h.start_eq, h.region_eq]
  cases it.iter.rest with
  | nil => simp
  | cons p rest => simp

theorem Iterates.visited_eq (h : it.Iterates txn region cf) :
    it.visited = (it.iter.rest.takeWhile fun p => Shown region cf p).map
      fun p => (p.1.drop (cfStart cf).length, p.2) := by
  generalize hrest : it.iter.rest = rest
  induction rest generalizing it with
  | nil =>
    rw [visited, if_neg fun hvalid => rest_ne_nil_of_valid hvalid hrest]
    rfl
  | cons p rest ih =>
    have hnext : it.next.Iterates txn region cf := ⟨h.txn_eq, h.start_eq, h.region_eq⟩
    rw [visited]
    by_cases hp : Shown region cf p
    · rw [if_pos (h.valid_iff.mpr ⟨p, rest, hrest, hp⟩), ih hnext (by
        rw [next, BadgerIterator.next, hrest, tail_cons])]
      simp [item, BadgerIterator.item, hrest, hp, h.start_eq]
    · rw [if_neg, takeWhile_cons_of_neg (by simpa using hp), map_nil]
      rw [h.valid_iff, hrest]
      rintro ⟨q, qs, heq, hq⟩
      cases heq
      exact hp hq

structure Follows (it : RegionIterator) (txn : Badger) (region : Region) (cf : Bytes)
    (remaining : List (Bytes × Bytes)) : Prop extends it.Iterates txn region cf where
  first : (it.iter.rest.takeWhile fun p => Shown region cf p) =
    it.iter.rest.filter fun p => Shown region cf p
  remaining : (it.iter.rest.filter fun p => Shown region cf p).map
    (fun p => (p.1.drop (cfStart cf).length, p.2)) = remaining

variable {remaining : List (Bytes × Bytes)}

theorem Follows.visited_eq (h : it.Follows txn region cf remaining) : it.visited = remaining := by
  rw [h.toIterates.visited_eq, h.first, h.remaining]

theorem Follows.next (h : it.Follows txn region cf remaining) :
    it.next.Follows txn region cf remaining.tail := by
  have hiter : it.next.Iterates txn region cf := ⟨h.txn_eq, h.start_eq, h.region_eq⟩
  have hrest : it.next.iter.rest = it.iter.rest.tail := rfl
  obtain ⟨-, hfirst, rfl⟩ := h
  cases heq : it.iter.rest with
  | nil => exact ⟨hiter, by simp [hrest, heq], by simp [hrest, heq]⟩
  | cons p rest =>
    rw [heq] at hfirst hrest
    by_cases hp : Shown region cf p
    · refine ⟨hiter, ?_, ?_⟩
      · simpa [hrest, hp] using hfirst
      · simp [hrest, hp]
    · -- No other pair is shown.
      have hnone : (rest.filter fun p => Shown region cf p) = [] := by
        simpa [hp] using hfirst.symm
      refine ⟨hiter, ?_, ?_⟩
      · rw [hrest, tail_cons, hnone]
        cases rest with
        | nil => rfl
        | cons q rest =>
          have hq : ¬ Shown region cf q := by simpa using filter_eq_nil_iff.mp hnone q
          exact takeWhile_cons_of_neg (by simpa using hq)
      · rw [hrest, tail_cons, filter_cons_of_neg (by simpa using hp), hnone]
        rfl

theorem shown_iff {p : Bytes × Bytes} : Shown region cf p ↔
    ∃ key, p.1 = keyWithCF cf key ∧ exceedEndKey key region.endKey = false := by
  unfold Shown
  constructor
  · rintro ⟨hstart, hend⟩
    obtain ⟨key, hkey⟩ := List.isPrefixOf_iff_prefix.mp hstart
    exact ⟨key, hkey.symm, by simpa [← hkey] using hend⟩
  · rintro ⟨key, hkey, hend⟩
    rw [hkey]
    exact ⟨List.isPrefixOf_iff_prefix.mpr (prefix_append _ _), by
      simpa [keyWithCF] using hend⟩

theorem Iterates.seek (h : it.Iterates txn region cf) {key : Bytes} (hkey : region.Contains key) :
    ∃ it', it.seek key = .ok it' ∧ it'.Follows txn region cf
      (OrderedList.ascendGreaterOrEqual Prod.fst key (region.items txn cf)) := by
  have hcheck : checkKeyInRegion key it.region = none := by
    rw [h.region_eq]
    exact checkKeyInRegion_eq_none.mpr hkey
  refine ⟨{ it with iter := it.iter.seek key }, by rw [RegionIterator.seek, hcheck], ?_⟩
  have hrest : (it.iter.seek key).rest =
      OrderedList.ascendGreaterOrEqual Prod.fst (keyWithCF cf key) txn.pairs := by
    rw [BadgerIterator.seek, h.start_eq, h.txn_eq]
    rfl
  refine ⟨⟨h.txn_eq, h.start_eq, h.region_eq⟩, ?_, ?_⟩
  · rw [hrest]
    refine txn.sorted.ascendGreaterOrEqual.takeWhile_eq_filter fun x hx y _ hlt hy => ?_
    obtain ⟨key', hkey', hend⟩ := shown_iff.mp (of_decide_eq_true hy)
    -- The key is between two keys of the column family.
    have hle : keyWithCF cf key ≤ x.1 := (OrderedList.mem_ascendGreaterOrEqual.mp hx).2
    rw [hkey'] at hlt
    obtain ⟨c, hc⟩ := isPrefix_of_le_of_le hle hlt.le
    rw [← hc] at hlt
    have hc' : c ≤ key' := ((append_lt_append_left_iff _ _ _).mp hlt).le
    exact decide_eq_true (shown_iff.mpr ⟨c, hc.symm, exceedEndKey_of_le hc' hend⟩)
  · rw [hrest]
    unfold OrderedList.ascendGreaterOrEqual Region.items
    rw [filter_map, filter_filter, filter_filter]
    refine congrArg _ (filter_congr fun p _ => ?_)
    rw [Bool.eq_iff_iff]
    simp only [Bool.and_eq_true, decide_eq_true_eq, Function.comp_apply, Region.contains_iff]
    constructor
    · rintro ⟨⟨hstart, hend⟩, hle⟩
      obtain ⟨c, hc⟩ := List.isPrefixOf_iff_prefix.mp hstart
      have hle' : key ≤ p.1.drop (cfStart cf).length := by
        rw [← hc] at hle ⊢
        simpa using (append_le_append_left_iff _ _ _).mp hle
      exact ⟨hle', hstart, hkey.1.trans hle', hend⟩
    · rintro ⟨hle, hstart, -, hend⟩
      obtain ⟨c, hc⟩ := List.isPrefixOf_iff_prefix.mp hstart
      refine ⟨⟨hstart, hend⟩, ?_⟩
      rw [← hc] at hle ⊢
      exact (append_le_append_left_iff _ _ _).mpr (by simpa using hle)

def Leads (txn : Badger) (region : Region) (cf : Bytes) : Prop :=
  ∀ p ∈ txn.pairs, Shown region cf p → ∀ q ∈ txn.pairs, q.1 ≤ p.1 →
    ∃ key, q.1 = keyWithCF cf key ∧ region.Contains key

theorem Iterates.rewind (h : it.Iterates txn region cf) (hleads : Leads txn region cf) :
    it.rewind.Follows txn region cf (region.items txn cf) := by
  have hrest : it.rewind.iter.rest = txn.pairs := h.txn_eq ▸ rfl
  refine ⟨⟨h.txn_eq, h.start_eq, h.region_eq⟩, ?_, ?_⟩
  · rw [hrest]
    refine txn.sorted.takeWhile_eq_filter fun x hx y hy hlt hshown => ?_
    obtain ⟨key, hkey, hin⟩ := hleads y hy (of_decide_eq_true hshown) x hx hlt.le
    exact decide_eq_true (shown_iff.mpr ⟨key, hkey, (Region.contains_iff.mp hin).2⟩)
  · rw [hrest]
    unfold Region.items
    refine congrArg _ (filter_congr fun p hp => decide_eq_decide.mpr ?_)
    constructor
    · intro hshown
      obtain ⟨key, hkey, hin⟩ := hleads p hp hshown p hp le_rfl
      exact ⟨hshown.1, by simpa [hkey, keyWithCF] using hin⟩
    · rintro ⟨hstart, hin⟩
      exact ⟨hstart, (Region.contains_iff.mp hin).2⟩

theorem follows_of_calls {calls : List (IterCall region)}
    (h : .rewind ∉ calls ∨ Leads txn region cf) :
    ∃ it, calls.foldlM call (RegionReader.iterCF txn region cf) = .ok it ∧
      it.Follows txn region cf (Cursor.remaining (region.items txn cf) calls) := by
  induction calls using List.reverseRecOn with
  | nil => exact ⟨_, rfl, ⟨rfl, rfl, rfl⟩, rfl, rfl⟩
  | append_singleton calls c ih =>
    obtain ⟨it, hrun, hit⟩ := ih (h.imp_left fun hc hmem => hc (mem_append_left _ hmem))
    simp only [foldlM_append, hrun, Cursor.remaining, foldl_append]
    cases c with
    | seek key hkey =>
      obtain ⟨it', hseek, hit'⟩ := hit.toIterates.seek hkey
      have hcall : [IterCall.seek key hkey].foldlM call it = .ok it' := by
        rw [foldlM_cons, call, hseek]
        rfl
      exact ⟨it', hcall, hit'⟩
    | next => exact ⟨it.next, rfl, hit.next⟩
    | rewind =>
      have hleads : Leads txn region cf := h.resolve_left (by simp)
      exact ⟨it.rewind, rfl, hit.toIterates.rewind hleads⟩

theorem confined_of_follows {calls : List (IterCall region)}
    (h : .rewind ∉ calls ∨ Leads txn region cf) : Confined txn region cf calls := by
  obtain ⟨it, hrun, hit⟩ := follows_of_calls h
  refine ⟨it, hrun, fun hvalid => ?_, hit.visited_eq⟩
  obtain ⟨p, rest, hrest, hp⟩ := hit.valid_iff.mp hvalid
  have hitem : it.item = some (p.1.drop (cfStart cf).length, p.2) := by
    rw [item, BadgerIterator.item, hrest, hit.start_eq]
    rfl
  have hmem : (p.1.drop (cfStart cf).length, p.2) ∈ region.items txn cf := by
    refine remaining_subset _ calls ?_
    rw [← hit.remaining, hrest]
    exact mem_map.mpr ⟨p, mem_filter.mpr ⟨mem_cons_self, decide_eq_true hp⟩, rfl⟩
  exact ⟨_, _, hitem, mem_items.mp hmem⟩

theorem rewind_next (n : ℕ) :
    ∃ it, (.rewind :: List.replicate n .next : List (IterCall region)).foldlM call
        (RegionReader.iterCF txn region cf) = .ok it ∧
      it.Iterates txn region cf ∧ it.iter.rest = txn.pairs.drop n ∧
      Cursor.remaining (region.items txn cf)
        (.rewind :: List.replicate n .next : List (IterCall region)) =
        (region.items txn cf).drop n := by
  induction n with
  | zero => exact ⟨_, rfl, ⟨rfl, rfl, rfl⟩, rfl, rfl⟩
  | succ n ih =>
    obtain ⟨it, hrun, hit, hrest, hremaining⟩ := ih
    rw [replicate_succ', ← cons_append, foldlM_append, hrun]
    refine ⟨it.next, rfl, ⟨hit.txn_eq, hit.start_eq, hit.region_eq⟩, ?_, ?_⟩
    · rw [next, BadgerIterator.next, hrest, tail_drop]
    · rw [Cursor.remaining, foldl_append, ← tail_drop, ← hremaining]
      rfl

theorem of_confined (h : ∀ calls, Confined txn region cf calls) {n : ℕ} {p : Bytes × Bytes}
    {rest : List (Bytes × Bytes)} (hrest : txn.pairs.drop n = p :: rest) :
    (Shown region cf p → ∃ key, p.1 = keyWithCF cf key ∧ region.Contains key) ∧
      (Shown region cf p ↔ n < (region.items txn cf).length) := by
  obtain ⟨it, hrun, hitem, hvisited⟩ := h (.rewind :: List.replicate n .next)
  obtain ⟨it', hrun', hit, hdrop, hremaining⟩ := @rewind_next txn region cf n
  obtain rfl : it = it' := Except.ok.inj (hrun.symm.trans hrun')
  rw [hrest] at hdrop
  constructor
  · intro hp
    obtain ⟨key, val, hkey, hin, -⟩ := hitem (hit.valid_iff.mpr ⟨p, rest, hdrop, hp⟩)
    obtain ⟨c, hc⟩ := List.isPrefixOf_iff_prefix.mp hp.1
    refine ⟨c, hc.symm, ?_⟩
    obtain ⟨rfl, -⟩ : c = key ∧ p.2 = val := by
      simpa [item, BadgerIterator.item, hdrop, hit.start_eq, ← hc] using hkey
    exact hin
  · rw [hit.visited_eq, hdrop, hremaining] at hvisited
    rw [← drop_eq_nil_iff.not.trans Nat.not_le, ← hvisited]
    by_cases hp : Shown region cf p <;> simp [hp]

theorem leads_of_confined (h : ∀ calls, Confined txn region cf calls) : Leads txn region cf := by
  intro p hp hshown q hq hle
  obtain ⟨i, hi, rfl⟩ := getElem_of_mem hq
  obtain ⟨j, hj, rfl⟩ := getElem_of_mem hp
  obtain ⟨hin, hq⟩ := of_confined h (drop_eq_getElem_cons hi)
  obtain ⟨-, hp⟩ := of_confined h (drop_eq_getElem_cons hj)
  -- The pairs that are shown are as many as the items, so that the earlier one is also shown.
  have hij : i ≤ j := by
    by_contra hlt
    exact absurd hle (not_le.mpr (pairwise_iff_getElem.mp txn.sorted j i hj hi (by omega)))
  exact hin (hq.mpr (hij.trans_lt (hp.mp hshown)))

end RegionIterator

/-- An iterator over a region behaves as if there were only the keys of the region as long as it is
not rewound, and however it is moved exactly if the keys of the region come before all others. -/
theorem RegionIterator.confined_iff (txn : Badger) (region : Region) (cf : Cf) :
    (∀ calls, .rewind ∉ calls → Confined txn region cf.name calls) ∧
      ((∀ calls, Confined txn region cf.name calls) ↔ Leads txn region cf.name) :=
  ⟨fun _ h => confined_of_follows (Or.inl h),
    leads_of_confined, fun h _ => confined_of_follows (Or.inr h)⟩

theorem RegionIterator.rewind_before_start :
    ¬ Confined (Badger.empty.set (keyWithCF Cf.default.name [97]) [1])
      { startKey := [98], endKey := [122] } Cf.default.name [.rewind] := by
  rintro ⟨it, hrun, hitem, -⟩
  cases hrun
  obtain ⟨key, val, hkey, hin, -⟩ := hitem (by decide)
  have hfirst : some (([97], [1]) : Bytes × Bytes) = some (key, val) := hkey
  obtain ⟨rfl, rfl⟩ : [97] = key ∧ [1] = val := by simpa using hfirst
  exact absurd hin (by decide)

end TinyKV
