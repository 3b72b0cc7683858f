import TinyKV.Codec.MvccKey
import TinyKV.Raftstore.PeerStorage

/-!
# Looking for a split key

`splitCheckHandler` of `kv/raftstore/runner/split_checker.go` goes through the default column family
in the range of a region, and proposes the first key at which the size passes the split size, cut
down to its user key.
-/

namespace TinyKV

open List

structure SizeSplitChecker where
  maxSize : UInt64
  splitSize : UInt64
  currentSize : UInt64 := 0
  splitKey : Option Bytes := none
deriving DecidableEq, Repr

namespace SizeSplitChecker

def reset (checker : SizeSplitChecker) : SizeSplitChecker :=
  { checker with currentSize := 0, splitKey := none }

def onKv (checker : SizeSplitChecker) (key value : Bytes) : SizeSplitChecker × Bool :=
  let valueSize := UInt64.ofNat value.length
  let size := UInt64.ofNat key.length + valueSize
  let currentSize := checker.currentSize + size
  let splitKey :=
    if currentSize > checker.splitSize ∧ checker.splitKey = none then some key
    else checker.splitKey
  ({ checker with currentSize := currentSize, splitKey := splitKey },
    currentSize > checker.maxSize)

def getSplitKey (checker : SizeSplitChecker) : SizeSplitChecker × Option Bytes :=
  let checker :=
    if checker.currentSize < checker.maxSize then { checker with splitKey := none } else checker
  (checker, checker.splitKey)

end SizeSplitChecker

inductive SplitCheckMsg
  | regionApproximateSize (regionId currentSize : UInt64)
  | splitRegion (regionId : UInt64) (splitKey : Bytes)
deriving DecidableEq, Repr

def splitCheckBody (regionID : UInt64) (endKey key value : Bytes)
    (s : SizeSplitChecker × List SplitCheckMsg) :
    ForInStep (SizeSplitChecker × List SplitCheckMsg) :=
  if exceedEndKey key endKey then
    .done (s.1, s.2 ++ [.regionApproximateSize regionID s.1.currentSize])
  else
    match s.1.onKv key value with
    | (checker, true) => .done (checker, s.2)
    | (checker, false) => .yield (checker, s.2)

def splitCheck (checker : SizeSplitChecker) (engine : Badger) (regionID : UInt64)
    (startKey endKey : Bytes) : SizeSplitChecker × List SplitCheckMsg × Option Bytes :=
  let it := (newCFIterator Cf.default.name engine).seek startKey
  let (checker, msgs) := BadgerIterator.forLoop it.start (splitCheckBody regionID endKey) it.rest
    (checker.reset, [])
  let (checker, splitKey) := checker.getSplitKey
  (checker, msgs, splitKey)

def truncateKey (key : Bytes) : Go Bytes := do
  match ← Codec.decodeBytes key with
  | .error _ => return key
  | .ok (_, userKey) => return Codec.encodeBytes userKey

def splitCheckHandle (checker : SizeSplitChecker) (engine : Badger) (region : PeerRegion) :
    Go (SizeSplitChecker × List SplitCheckMsg) := do
  let (checker, msgs, key) := splitCheck checker engine region.id region.startKey region.endKey
  match key with
  | none => return (checker, msgs)
  | some key =>
    let key ← truncateKey key
    return (checker, msgs ++ [.splitRegion region.id key])

def SplitsInside (checker : SizeSplitChecker) (engine : Badger) (region : PeerRegion) : Prop :=
  ∃ checker' msgs, splitCheckHandle checker engine region = .ok (checker', msgs) ∧
    ∀ id key, .splitRegion id key ∈ msgs →
      region.startKey < key ∧ (region.endKey = [] ∨ key < region.endKey)

section

variable {checker : SizeSplitChecker} {engine : Badger} {region : PeerRegion}

theorem truncateKey_eq (k : Bytes) : ∃ key, truncateKey k = .ok key ∧ key <+: k := by
  obtain ⟨res, hres⟩ := Codec.decodeLoop_returns
    (fun len => s!"insufficient bytes to decode value: {len}") k []
  have hdecode : Codec.decodeBytes k = .ok res := hres
  rw [truncateKey, hdecode]
  match res with
  | .error _ => exact ⟨k, rfl, prefix_refl k⟩
  | .ok (rest, userKey) =>
    refine ⟨Codec.encodeBytes userKey, rfl, rest, ?_⟩
    exact (Codec.decodeLoop_eq_ok_iff.mp hdecode).symm

theorem splitCheckBody_of_not_exceed {id : UInt64} {endKey key value : Bytes}
    {s : SizeSplitChecker × List SplitCheckMsg} (h : exceedEndKey key endKey = false) :
    splitCheckBody id endKey key value s =
      if (s.1.onKv key value).2 then .done ((s.1.onKv key value).1, s.2)
      else .yield ((s.1.onKv key value).1, s.2) := by
  rw [splitCheckBody, if_neg (by simp [h])]
  rcases s.1.onKv key value with ⟨checker, _ | _⟩ <;> rfl

theorem not_splitRegion_mem (checker : SizeSplitChecker) (engine : Badger) (region : PeerRegion)
    (id : UInt64) (key : Bytes) : .splitRegion id key ∉
      (splitCheck checker engine region.id region.startKey region.endKey).2.1 := by
  refine BadgerIterator.forLoop_invariant
    (P := fun s : SizeSplitChecker × List SplitCheckMsg => .splitRegion id key ∉ s.2)
    ((newCFIterator Cf.default.name engine).seek region.startKey) ?_
    (s := (checker.reset, [])) not_mem_nil
  rintro ⟨key', value⟩ - s hno
  cases hexceed : exceedEndKey key' region.endKey with
  | true => simpa [splitCheckBody, hexceed, ForInStep.value] using hno
  | false =>
    rw [splitCheckBody_of_not_exceed hexceed]
    split_ifs <;> exact hno

def SizeSplitChecker.scan (checker : SizeSplitChecker) : List (Bytes × Bytes) → SizeSplitChecker
  | [] => checker
  | (key, value) :: items =>
    if (checker.onKv key value).2 then (checker.onKv key value).1
    else (checker.onKv key value).1.scan items

theorem forLoop_splitCheckBody (id : UInt64) (endKey : Bytes) (it : BadgerIterator)
    (s : SizeSplitChecker × List SplitCheckMsg) :
    (BadgerIterator.forLoop it.start (splitCheckBody id endKey) it.rest s).1 =
      s.1.scan (it.items.takeWhile fun p => !exceedEndKey p.1 endKey) := by
  obtain ⟨txn, rest, start⟩ := it
  induction rest generalizing s with
  | nil => rfl
  | cons p rest ih =>
    simp only [BadgerIterator.forLoop, BadgerIterator.items, takeWhile_cons] at ih ⊢
    by_cases hstart : start.isPrefixOf p.1
    · simp only [hstart, if_true, map_cons, takeWhile_cons]
      cases hexceed : exceedEndKey (p.1.drop start.length) endKey with
      | true => simp [splitCheckBody, hexceed, SizeSplitChecker.scan]
      | false =>
        simp only [Bool.not_false, if_true, SizeSplitChecker.scan]
        rw [splitCheckBody_of_not_exceed hexceed]
        split_ifs
        · rfl
        · exact ih _
    · simp [hstart, SizeSplitChecker.scan]

def sizeAfter (size : UInt64) (p : Bytes × Bytes) : UInt64 :=
  size + (UInt64.ofNat p.1.length + UInt64.ofNat p.2.length)

def passingKey (splitSize : UInt64) : UInt64 → List (Bytes × Bytes) → Option Bytes
  | _, [] => none
  | size, p :: items =>
    if sizeAfter size p > splitSize then some p.1
    else passingKey splitSize (sizeAfter size p) items

def Fills (maxSize : UInt64) : UInt64 → List (Bytes × Bytes) → Prop
  | size, [] => maxSize ≤ size
  | size, p :: items => sizeAfter size p > maxSize ∨ Fills maxSize (sizeAfter size p) items

def regionItems (engine : Badger) (region : PeerRegion) : List (Bytes × Bytes) :=
  BadgerIterator.rangeItems Cf.default.name engine region.startKey region.endKey

theorem mem_of_passingKey {splitSize size : UInt64} {items : List (Bytes × Bytes)} {k : Bytes}
    (h : passingKey splitSize size items = some k) : ∃ value, (k, value) ∈ items := by
  induction items generalizing size with
  | nil => cases h
  | cons p items ih =>
    rw [passingKey] at h
    split_ifs at h
    · obtain rfl := Option.some.inj h
      exact ⟨p.2, mem_cons_self⟩
    · obtain ⟨value, hmem⟩ := ih h
      exact ⟨value, mem_cons_of_mem _ hmem⟩

namespace SizeSplitChecker

theorem onKv_stops {p : Bytes × Bytes} :
    (checker.onKv p.1 p.2).2 = true ↔ sizeAfter checker.currentSize p > checker.maxSize :=
  decide_eq_true_iff

theorem splitKey_onKv (checker : SizeSplitChecker) (p : Bytes × Bytes) :
    (checker.onKv p.1 p.2).1.splitKey =
      if sizeAfter checker.currentSize p > checker.splitSize ∧ checker.splitKey = none then some p.1
      else checker.splitKey := rfl

theorem fills_iff (checker : SizeSplitChecker) (items : List (Bytes × Bytes)) :
    Fills checker.maxSize checker.currentSize items ↔
      ¬ (checker.scan items).currentSize < (checker.scan items).maxSize := by
  induction items generalizing checker with
  | nil => exact UInt64.not_lt.symm
  | cons p items ih =>
    rw [scan, Fills]
    by_cases hmax : sizeAfter checker.currentSize p > checker.maxSize
    · rw [if_pos (onKv_stops.mpr hmax)]
      exact iff_of_true (Or.inl hmax) (UInt64.not_lt.mpr (UInt64.le_of_lt hmax))
    · rw [if_neg (mt onKv_stops.mp hmax), or_iff_right hmax]
      exact ih (checker.onKv p.1 p.2).1

theorem splitKey_scan_of_some {k : Bytes} (h : checker.splitKey = some k)
    (items : List (Bytes × Bytes)) : (checker.scan items).splitKey = some k := by
  induction items generalizing checker with
  | nil => exact h
  | cons p items ih =>
    have hstep : (checker.onKv p.1 p.2).1.splitKey = some k := by simp [splitKey_onKv, h]
    rw [scan]
    split_ifs
    · exact hstep
    · exact ih hstep

theorem splitKey_scan (hsize : checker.splitSize < checker.maxSize) (h : checker.splitKey = none)
    (items : List (Bytes × Bytes)) :
    (checker.scan items).splitKey = passingKey checker.splitSize checker.currentSize items := by
  induction items generalizing checker with
  | nil => exact h
  | cons p items ih =>
    rw [scan, passingKey]
    by_cases hpass : sizeAfter checker.currentSize p > checker.splitSize
    · have hstep : (checker.onKv p.1 p.2).1.splitKey = some p.1 := by
        rw [splitKey_onKv, if_pos ⟨hpass, h⟩]
      rw [if_pos hpass]
      split_ifs
      · exact hstep
      · exact splitKey_scan_of_some hstep items
    · -- A size that does not pass the split size does not pass the maximum.
      have hmax : ¬ sizeAfter checker.currentSize p > checker.maxSize :=
        fun hmax => hpass (UInt64.lt_trans hsize hmax)
      have hstep : (checker.onKv p.1 p.2).1.splitKey = none := by simp [splitKey_onKv, hpass, h]
      rw [if_neg hpass, if_neg (mt onKv_stops.mp hmax)]
      exact ih hsize hstep

end SizeSplitChecker

theorem splitCheck_eq_some {k : Bytes} (hsize : checker.splitSize < checker.maxSize) :
    (splitCheck checker engine region.id region.startKey region.endKey).2.2 = some k ↔
      passingKey checker.splitSize 0 (regionItems engine region) = some k ∧
        Fills checker.maxSize 0 (regionItems engine region) := by
  have hscan : (BadgerIterator.forLoop (newCFIterator Cf.default.name engine).start
      (splitCheckBody region.id region.endKey)
      ((newCFIterator Cf.default.name engine).seek region.startKey).rest (checker.reset, [])).1 =
      checker.reset.scan (regionItems engine region) := by
    rw [regionItems, ← BadgerIterator.takeWhile_items_seek]
    exact forLoop_splitCheckBody region.id region.endKey
      ((newCFIterator Cf.default.name engine).seek region.startKey) (checker.reset, [])
  have hkey : (checker.reset.scan (regionItems engine region)).splitKey =
      passingKey checker.splitSize 0 (regionItems engine region) :=
    @SizeSplitChecker.splitKey_scan checker.reset hsize rfl _
  have hfills : Fills checker.maxSize 0 (regionItems engine region) ↔ _ :=
    checker.reset.fills_iff (regionItems engine region)
  rw [hfills, ← hkey]
  have hfound : (splitCheck checker engine region.id region.startKey region.endKey).2.2 =
      (checker.reset.scan (regionItems engine region)).getSplitKey.2 :=
    congrArg (fun c => (SizeSplitChecker.getSplitKey c).2) hscan
  rw [hfound, SizeSplitChecker.getSplitKey]
  split_ifs with hlt
  · simp [hlt]
  · simp [hlt]

theorem lt_truncateKey_iff {start k key : Bytes} (hle : start ≤ k) (h : truncateKey k = .ok key) :
    start < key ↔
      k ≠ start ∧ ∀ u, Codec.encodeBytes u <+: k → ¬ Codec.encodeBytes u <+: start := by
  obtain ⟨res, hres⟩ := Codec.decodeLoop_returns
    (fun len => s!"insufficient bytes to decode value: {len}") k []
  have hdecode : Codec.decodeBytes k = .ok res := hres
  rw [truncateKey, hdecode] at h
  match res with
  | .error err =>
    obtain rfl : k = key := by simpa using h
    -- A key that does not decode begins with no user key.
    have hraw : ∀ u, ¬ Codec.encodeBytes u <+: k := by
      rintro u ⟨rest, hk⟩
      have hok : Codec.decodeBytes k = .ok (.ok (rest, u)) :=
        Codec.decodeLoop_eq_ok_iff.mpr hk.symm
      rw [hdecode] at hok
      cases hok
    refine ⟨fun hlt => ⟨hlt.ne', fun u hu => absurd hu (hraw u)⟩, fun hne => ?_⟩
    exact lt_of_le_of_ne hle hne.1.symm
  | .ok (rest, user) =>
    obtain rfl : Codec.encodeBytes user = key := by simpa using h
    have hk : k = Codec.encodeBytes user ++ rest := Codec.decodeLoop_eq_ok_iff.mp hdecode
    have huser : ∀ u, Codec.encodeBytes u <+: k → u = user := by
      rintro u ⟨rest', hk'⟩
      have hok : Codec.decodeBytes k = .ok (.ok (rest', u)) :=
        Codec.decodeLoop_eq_ok_iff.mpr hk'.symm
      rw [hdecode] at hok
      simp only [Except.ok.injEq, Prod.mk.injEq] at hok
      exact hok.2.symm
    have hprefix : Codec.encodeBytes user <+: k := ⟨rest, hk.symm⟩
    constructor
    · intro hlt
      have hnot : ¬ Codec.encodeBytes user <+: start := by
        rintro ⟨c, hc⟩
        exact absurd (hc ▸ le_append (Codec.encodeBytes user) c) (not_le.mpr hlt)
      exact ⟨fun heq => hnot (heq ▸ hprefix), fun u hu => huser u hu ▸ hnot⟩
    · rintro ⟨-, hnot⟩
      by_contra hge
      have hge' : Codec.encodeBytes user ++ [] ≤ start := by simpa using hge
      exact hnot user hprefix (isPrefix_of_le_of_le hge' (hk ▸ hle))

/-- For a split size below the maximum: the split keys that are sent are strictly between the start
and the end of the region exactly if, in a region that is full, the key at which the size passes the
split size is not the start, and does not have the user key with which the start begins. -/
theorem splitsInside_iff (hsize : checker.splitSize < checker.maxSize) :
    SplitsInside checker engine region ↔
      ∀ k, passingKey checker.splitSize 0 (regionItems engine region) = some k →
        Fills checker.maxSize 0 (regionItems engine region) →
        k ≠ region.startKey ∧
          ∀ u, Codec.encodeBytes u <+: k → ¬ Codec.encodeBytes u <+: region.startKey := by
  have hno := not_splitRegion_mem checker engine region
  have hsome := fun k => @splitCheck_eq_some checker engine region k hsize
  unfold SplitsInside splitCheckHandle
  rcases hcheck : splitCheck checker engine region.id region.startKey region.endKey with
    ⟨checker', msgs, found⟩
  rw [hcheck] at hno hsome
  cases found with
  | none =>
    have hnone : ∀ k, passingKey checker.splitSize 0 (regionItems engine region) = some k →
        ¬ Fills checker.maxSize 0 (regionItems engine region) :=
      fun k hk hfills => by simpa using (hsome k).mpr ⟨hk, hfills⟩
    simp only [Go.pure_eq_ok, Except.ok.injEq, Prod.mk.injEq]
    exact ⟨fun _ k hk hfills => absurd hfills (hnone k hk),
      fun _ => ⟨checker', msgs, ⟨rfl, rfl⟩, fun id key hmem => absurd hmem (hno id key)⟩⟩
  | some k =>
    obtain ⟨hpassing, hfills⟩ := (hsome k).mp rfl
    obtain ⟨value, hmem⟩ := mem_of_passingKey hpassing
    obtain ⟨⟨hlo, hexceed⟩, -⟩ := BadgerIterator.mem_rangeItems.mp hmem
    obtain ⟨-, hhi⟩ := Region.contains_iff.mpr ⟨hlo, hexceed⟩
    obtain ⟨key, htrunc, hprefix⟩ := truncateKey_eq k
    obtain ⟨rest, rfl⟩ := hprefix
    have hend : region.endKey = [] ∨ key < region.endKey :=
      hhi.imp_right fun hk => (le_append key rest).trans_lt hk
    have hlt := lt_truncateKey_iff hlo htrunc
    simp only [htrunc, Go.ok_bind, Go.pure_eq_ok, Except.ok.injEq, Prod.mk.injEq, hpassing]
    constructor
    · rintro ⟨_, _, ⟨rfl, rfl⟩, hinside⟩ k' hk' -
      obtain rfl := Option.some.inj hk'
      exact hlt.mp (hinside region.id key (by simp)).1
    · intro h
      refine ⟨_, _, ⟨rfl, rfl⟩, fun id key' hmem => ?_⟩
      obtain ⟨-, rfl⟩ : id = region.id ∧ key' = key := by simpa [hno] using hmem
      exact ⟨hlt.mpr (h _ rfl hfills), hend⟩

def twoKeysEngine : Badger := Badger.empty.writeAll
  [(keyWithCF Cf.default.name [97], some [1]), (keyWithCF Cf.default.name [98], some [2])]

theorem splitsInside_second : SplitsInside { maxSize := 3, splitSize := 2 } twoKeysEngine
    { id := 1, startKey := [97] } := by
  refine (splitsInside_iff (by decide)).mpr fun k hk _ => ?_
  obtain rfl : [98] = k := Option.some.inj (by rw [← hk]; decide)
  refine ⟨by decide, fun u hu _ => ?_⟩
  -- The key has fewer bytes than one group.
  have hlen := hu.length_le
  rcases Nat.lt_or_ge u.length Codec.encGroupSize with hlt | hge
  · rw [Codec.encodeBytes_of_lt hlt, length_append, length_padTo hlt.le] at hlen
    simp [Codec.encGroupSize] at hlen
  · rw [← take_append_drop Codec.encGroupSize u,
      Codec.encodeBytes_append (by simpa using hge)] at hlen
    simp [Codec.encGroupSize] at hlen hge
    omega

def versionsEngine : Badger := Badger.empty.writeAll
  [(keyWithCF Cf.default.name (Mvcc.encodeKey [107, 49] 2), some [1, 2, 3, 4]),
    (keyWithCF Cf.default.name (Mvcc.encodeKey [107, 49] 1), some [1, 2, 3, 4])]

theorem splitsInside_versions :
    ¬ SplitsInside { maxSize := 30, splitSize := 20 } versionsEngine
      { id := 1, startKey := Codec.encodeBytes [107, 49] } := by
  rintro ⟨checker', msgs, h, hinside⟩
  have hfound : splitCheck { maxSize := 30, splitSize := 20 } versionsEngine 1
      (Codec.encodeBytes [107, 49]) [] =
      ({ maxSize := 30, splitSize := 20, currentSize := 42,
         splitKey := some (Mvcc.encodeKey [107, 49] 2) }, [],
        some (Mvcc.encodeKey [107, 49] 2)) := by
    decide
  have htrunc : truncateKey (Mvcc.encodeKey [107, 49] 2) =
      .ok (Codec.encodeBytes [107, 49]) := by
    rw [truncateKey, Mvcc.encodeKey, Codec.decodeBytes, Codec.decodeLoop_encodeBytes]
    rfl
  rw [splitCheckHandle, hfound] at h
  simp only [htrunc, Go.ok_bind, Go.pure_eq_ok, Except.ok.injEq, Prod.mk.injEq] at h
  obtain ⟨-, rfl⟩ := h
  exact lt_irrefl _ (hinside 1 _ (by simp)).1

end

def pairsSize (items : List (Bytes × Bytes)) : ℕ :=
  (items.map fun p => p.1.length + p.2.length).sum

def ReportsSize (checker : SizeSplitChecker) (engine : Badger) (region : PeerRegion) : Prop :=
  ∃ size : UInt64, size.toNat = pairsSize (regionItems engine region) ∧
    (splitCheck checker engine region.id region.startKey region.endKey).2.1 =
      [.regionApproximateSize region.id size]

def GoesOn (engine : Badger) (region : PeerRegion) : Prop :=
  ∃ key value, (keyWithCF Cf.default.name key, value) ∈ engine.pairs ∧ region.startKey ≤ key ∧
    exceedEndKey key region.endKey = true

section

variable {checker : SizeSplitChecker} {engine : Badger} {region : PeerRegion}

theorem SizeSplitChecker.onKv_of_le {key value : Bytes}
    (h : checker.currentSize.toNat + (key.length + value.length) ≤ checker.maxSize.toNat) :
    (checker.onKv key value).1.currentSize.toNat =
        checker.currentSize.toNat + (key.length + value.length) ∧
      (checker.onKv key value).1.maxSize = checker.maxSize ∧
      (checker.onKv key value).2 = false := by
  have hmax : checker.maxSize.toNat < 2^64 := checker.maxSize.toNat_lt
  have hsize : (checker.currentSize + (UInt64.ofNat key.length + UInt64.ofNat value.length)).toNat =
      checker.currentSize.toNat + (key.length + value.length) := by
    rw [UInt64.toNat_add, UInt64.toNat_add, UInt64.toNat_ofNat', UInt64.toNat_ofNat']
    omega
  refine ⟨hsize, rfl, ?_⟩
  have hle : ¬ checker.currentSize + (UInt64.ofNat key.length + UInt64.ofNat value.length) >
      checker.maxSize := by
    rw [gt_iff_lt, UInt64.lt_iff_toNat_lt, hsize]
    omega
  exact decide_eq_false hle

theorem msgs_forLoop (id : UInt64) (endKey : Bytes) (it : BadgerIterator)
    (s : SizeSplitChecker × List SplitCheckMsg)
    (h : s.1.currentSize.toNat +
      pairsSize (it.items.takeWhile fun p => !exceedEndKey p.1 endKey) ≤ s.1.maxSize.toNat) :
    ∃ size : UInt64, size.toNat = s.1.currentSize.toNat +
        pairsSize (it.items.takeWhile fun p => !exceedEndKey p.1 endKey) ∧
      (BadgerIterator.forLoop it.start (splitCheckBody id endKey) it.rest s).2 =
        s.2 ++ if it.items.any fun p => exceedEndKey p.1 endKey then
          [.regionApproximateSize id size] else [] := by
  obtain ⟨txn, rest, start⟩ := it
  induction rest generalizing s with
  | nil => exact ⟨s.1.currentSize, by simp [BadgerIterator.items, pairsSize],
      by simp [BadgerIterator.items, BadgerIterator.forLoop]⟩
  | cons p rest ih =>
    simp only [BadgerIterator.forLoop, BadgerIterator.items, takeWhile_cons] at h ih ⊢
    by_cases hstart : start.isPrefixOf p.1
    · simp only [hstart, if_true, map_cons, takeWhile_cons, any_cons] at h ⊢
      cases hexceed : exceedEndKey (p.1.drop start.length) endKey with
      | true =>
        refine ⟨s.1.currentSize, by simp [pairsSize], ?_⟩
        simp [splitCheckBody, hexceed]
      | false =>
        simp only [hexceed, Bool.not_false, if_true, Bool.false_or] at h ⊢
        generalize p.1.drop start.length = key at h hexceed ⊢
        have hcons : ∀ items, pairsSize ((key, p.2) :: items) =
            (key.length + p.2.length) + pairsSize items := fun items => by simp [pairsSize]
        rw [hcons] at h ⊢
        have hfits : s.1.currentSize.toNat + (key.length + p.2.length) ≤ s.1.maxSize.toNat := by
          omega
        obtain ⟨hsize, hmax, hstop⟩ := SizeSplitChecker.onKv_of_le hfits
        rw [splitCheckBody_of_not_exceed hexceed, hstop]
        have ih := ih ((s.1.onKv key p.2).1, s.2) (by rw [hsize, hmax]; omega)
        rw [hsize, Nat.add_assoc] at ih
        exact ih
    · exact ⟨s.1.currentSize, by simp [hstart, pairsSize], by simp [hstart]⟩

theorem goesOn_iff : GoesOn engine region ↔
    (((newCFIterator Cf.default.name engine).seek region.startKey).items.any
      fun p => exceedEndKey p.1 region.endKey) = true := by
  rw [any_eq_true]
  constructor
  · rintro ⟨key, value, hmem, hstart, hexceed⟩
    exact ⟨(key, value), BadgerIterator.mem_items_seek.mpr ⟨hstart, hmem⟩, hexceed⟩
  · rintro ⟨⟨key, value⟩, hmem, hexceed⟩
    obtain ⟨hstart, hmem⟩ := BadgerIterator.mem_items_seek.mp hmem
    exact ⟨key, value, hmem, hstart, hexceed⟩

theorem msgs_splitCheck (hfits : pairsSize (regionItems engine region) ≤ checker.maxSize.toNat) :
    ∃ size : UInt64, size.toNat = pairsSize (regionItems engine region) ∧
      (splitCheck checker engine region.id region.startKey region.endKey).2.1 =
        if ((newCFIterator Cf.default.name engine).seek region.startKey).items.any
          fun p => exceedEndKey p.1 region.endKey then
          [.regionApproximateSize region.id size] else [] := by
  have hzero : checker.reset.currentSize.toNat + pairsSize (regionItems engine region) =
      pairsSize (regionItems engine region) := Nat.zero_add _
  have hitems := BadgerIterator.takeWhile_items_seek Cf.default.name engine region.startKey
    region.endKey
  obtain ⟨size, hsize, hmsgs⟩ := msgs_forLoop region.id region.endKey
    ((newCFIterator Cf.default.name engine).seek region.startKey) (checker.reset, [])
    (by rw [hitems]; exact hzero.trans_le hfits)
  rw [hitems] at hsize
  exact ⟨size, hsize.trans hzero, hmsgs⟩

/-- If the pairs of the region fit, their size is reported exactly if the column family goes on
after the end of the region. -/
theorem reportsSize_iff
    (hfits : pairsSize (regionItems engine region) ≤ checker.maxSize.toNat) :
    ReportsSize checker engine region ↔ GoesOn engine region := by
  obtain ⟨size, hsize, hmsgs⟩ := msgs_splitCheck hfits
  rw [goesOn_iff, ReportsSize, hmsgs, ← hsize]
  cases ((newCFIterator Cf.default.name engine).seek region.startKey).items.any
      fun p => exceedEndKey p.1 region.endKey with
  | true => exact ⟨fun _ => rfl, fun _ => ⟨size, rfl, rfl⟩⟩
  | false => simp

theorem reportsSize_of_two :
    ReportsSize { maxSize := 30, splitSize := 20 } twoKeysEngine
      { id := 1, startKey := [], endKey := [98] } :=
  (reportsSize_iff (by decide)).mpr ⟨[98], [2], by decide, by decide, by decide⟩

theorem not_reportsSize_last :
    pairsSize (regionItems twoKeysEngine { id := 2, startKey := [98], endKey := [] }) ≤ 30 ∧
      ¬ ReportsSize { maxSize := 30, splitSize := 20 } twoKeysEngine
        { id := 2, startKey := [98], endKey := [] } := by
  refine ⟨by decide, ?_⟩
  rintro ⟨size, -, hmsgs⟩
  have hnone :
      (splitCheck { maxSize := 30, splitSize := 20 } twoKeysEngine 2 [98] []).2.1 = [] := by
    decide
  rw [hnone] at hmsgs
  cases hmsgs

end

end TinyKV
