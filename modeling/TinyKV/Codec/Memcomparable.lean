import Mathlib.Tactic.IntervalCases
import TinyKV.Bytes
import TinyKV.Go

/-!
# The memcomparable format

`EncodeBytes` and `DecodeBytes` of `kv/util/codec`, and their copy in `scheduler/pkg/codec`.
-/

namespace TinyKV.Codec

open List

def encGroupSize : ℕ := 8

def encMarker : UInt8 := 0xFF

def encPad : UInt8 := 0

def pads : Bytes := List.replicate encGroupSize encPad

def encodeGroup (data : Bytes) (idx : ℕ) : Bytes :=
  let remain := data.length - idx
  let padCount := if encGroupSize ≤ remain then 0 else encGroupSize - remain
  let group :=
    if encGroupSize ≤ remain then (data.drop idx).take encGroupSize
    else data.drop idx ++ pads.take padCount
  let marker := encMarker - UInt8.ofNat padCount
  group ++ [marker]

def encodeBytes (data : Bytes) : Bytes :=
  (List.range (data.length / encGroupSize + 1)).foldl
    (fun result i => result ++ encodeGroup data (i * encGroupSize)) []

def schedulerEncodeBytes (data : Bytes) : Bytes := encodeBytes data

inductive DecodeError
  | insufficientBytes (text : String)
  | invalidMarker (groupBytes : Bytes)
  | invalidPadding (groupBytes : Bytes)
deriving DecidableEq, Repr

def decodeGroup (insufficient : ℕ → String) (b data : Bytes) :
    Go (Except DecodeError (Bytes × Bytes × Bool)) := do
  if b.length < encGroupSize + 1 then
    return .error (.insufficientBytes (insufficient b.length))
  else
    let groupBytes ← Go.slice b 0 (encGroupSize + 1)
    let group ← Go.slice groupBytes 0 encGroupSize
    let marker ← Go.index groupBytes encGroupSize
    -- Bytes wrap around.
    let padCount := encMarker - marker
    if UInt8.ofNat encGroupSize < padCount then
      return .error (.invalidMarker groupBytes)
    else
      let realGroupSize := UInt8.ofNat encGroupSize - padCount
      let real ← Go.slice group 0 realGroupSize.toNat
      let b ← Go.slice b (encGroupSize + 1) b.length
      if padCount ≠ 0 then
        let padding ← Go.slice group realGroupSize.toNat group.length
        if ∃ v ∈ padding, v ≠ encPad then
          return .error (.invalidPadding groupBytes)
        else return .ok (b, data ++ real, true)
      else return .ok (b, data ++ real, false)

variable {g d d' b b' r r' data data' : Bytes} {insufficient : ℕ → String}

theorem group_induction {motive : Bytes → Prop} (d : Bytes)
    (short : ∀ d, d.length < encGroupSize → motive d)
    (long : ∀ g d, g.length = encGroupSize → motive d → motive (g ++ d)) : motive d := by
  induction hn : d.length using Nat.strongRecOn generalizing d with
  | ind n ih =>
    rcases Nat.lt_or_ge d.length encGroupSize with hlt | hge
    · exact short d hlt
    · have hrest := ih (d.drop encGroupSize).length (by
        rw [length_drop]
        unfold encGroupSize at *
        omega) (d.drop encGroupSize) rfl
      have := long (d.take encGroupSize) (d.drop encGroupSize) (by simpa using hge) hrest
      rwa [take_append_drop] at this

theorem encodeBytes_of_lt (h : d.length < encGroupSize) :
    encodeBytes d = padTo encPad encGroupSize d ++
      [encMarker - UInt8.ofNat (encGroupSize - d.length)] := by
  have hdiv : d.length / encGroupSize = 0 := Nat.div_eq_of_lt h
  simp [encodeBytes, hdiv, encodeGroup, not_le.mpr h, padTo, pads]

theorem encodeGroup_append (hg : g.length = encGroupSize) (i : ℕ) :
    encodeGroup (g ++ d) ((i + 1) * encGroupSize) = encodeGroup d (i * encGroupSize) := by
  have hidx : (i + 1) * encGroupSize = g.length + i * encGroupSize := by
    rw [hg, Nat.add_one_mul, Nat.add_comm]
  have hremain : (g ++ d).length - (g.length + i * encGroupSize) =
      d.length - i * encGroupSize := by
    rw [length_append]
    omega
  unfold encodeGroup
  rw [hidx, hremain, drop_length_add_append]

theorem encodeBytes_append (hg : g.length = encGroupSize) :
    encodeBytes (g ++ d) = g ++ encMarker :: encodeBytes d := by
  have hfirst : encodeGroup (g ++ d) 0 = g ++ [encMarker] := by
    have htake : (g ++ d).take encGroupSize = g := take_left' hg
    simp [encodeGroup, hg, htake]
  have hdiv : (g ++ d).length / encGroupSize = d.length / encGroupSize + 1 := by
    rw [length_append, hg, Nat.add_comm]
    exact Nat.add_div_right _ (by decide)
  unfold encodeBytes
  rw [hdiv, ← flatMap_eq_foldl, ← flatMap_eq_foldl]
  rw [range_succ_eq_map, flatMap_cons, flatMap_map]
  simp only [Nat.zero_mul, hfirst, encodeGroup_append hg]
  simp

theorem exists_group (h : encGroupSize + 1 ≤ b.length) :
    ∃ g marker rest, g.length = encGroupSize ∧ b = g ++ marker :: rest := by
  have hget : encGroupSize < b.length := h
  refine ⟨b.take encGroupSize, b[encGroupSize], b.drop (encGroupSize + 1), ?_, ?_⟩
  · rw [length_take]
    omega
  · rw [← drop_eq_getElem_cons hget, take_append_drop]

theorem length_of_decodeGroup {res : Bytes × Bytes × Bool}
    (h : decodeGroup insufficient b data = .ok (.ok res)) : encGroupSize + 1 ≤ b.length := by
  by_contra hlt
  rw [decodeGroup, if_pos (not_le.mp hlt)] at h
  simp at h

/-- The number of bytes of padding that a marker stands for. -/
def padCount (marker : UInt8) : ℕ := encMarker.toNat - marker.toNat

theorem padCount_marker {n : ℕ} (hn : n ≤ encGroupSize) :
    padCount (encMarker - UInt8.ofNat n) = n := by
  unfold encGroupSize at hn
  interval_cases n <;> rfl

theorem eq_marker (marker : UInt8) : marker = encMarker - UInt8.ofNat (padCount marker) := by
  have hlt := marker.toNat_lt
  have hle : UInt8.ofNat (padCount marker) ≤ encMarker := by
    rw [UInt8.le_iff_toNat_le, UInt8.toNat_ofNat']
    unfold padCount encMarker
    simp
    omega
  rw [← UInt8.toNat_inj, UInt8.toNat_sub_of_le _ _ hle, UInt8.toNat_ofNat']
  unfold padCount encMarker
  simp
  omega

theorem toNat_encMarker_sub (marker : UInt8) : (encMarker - marker).toNat = padCount marker :=
  UInt8.toNat_sub_of_le _ _ (UInt8.le_iff_toNat_le.mpr (Nat.le_of_lt_succ marker.toNat_lt))

theorem ofNat_encGroupSize_lt_iff {marker : UInt8} :
    UInt8.ofNat encGroupSize < encMarker - marker ↔ encGroupSize < padCount marker := by
  rw [UInt8.lt_iff_toNat_lt, toNat_encMarker_sub]
  rfl

theorem encMarker_sub_eq_zero_iff {marker : UInt8} :
    encMarker - marker = 0 ↔ padCount marker = 0 := by
  rw [← toNat_encMarker_sub, ← UInt8.toNat_inj]
  rfl

theorem toNat_ofNat_encGroupSize_sub {marker : UInt8} (h : padCount marker ≤ encGroupSize) :
    (UInt8.ofNat encGroupSize - (encMarker - marker)).toNat = encGroupSize - padCount marker := by
  have hle := not_lt.mp (ofNat_encGroupSize_lt_iff.not.mpr (not_lt.mpr h))
  rw [UInt8.toNat_sub_of_le _ _ hle, toNat_encMarker_sub]
  rfl

theorem decodeGroup_append (hg : g.length = encGroupSize) (marker : UInt8) (rest : Bytes) :
    decodeGroup insufficient (g ++ marker :: rest) data = .ok (
      if encGroupSize < padCount marker then .error (.invalidMarker (g ++ [marker]))
      else if padCount marker = 0 then .ok (rest, data ++ g, false)
      else if ∃ v ∈ g.drop (encGroupSize - padCount marker), v ≠ encPad then
        .error (.invalidPadding (g ++ [marker]))
      else .ok (rest, data ++ g.take (encGroupSize - padCount marker), true)) := by
  have hlen : (g ++ marker :: rest).length = encGroupSize + 1 + rest.length := by
    simp [hg]
    omega
  have hgroupBytes : Go.slice (g ++ marker :: rest) 0 (encGroupSize + 1) = .ok (g ++ [marker]) := by
    rw [Go.slice_eq_ok (Nat.zero_le _) (by omega), ← hg, take_length_add_append]
    rfl
  have hgroup : Go.slice (g ++ [marker]) 0 encGroupSize = .ok g := by
    rw [Go.slice_eq_ok (Nat.zero_le _) (by simp [hg]), ← hg, take_left]
    rfl
  have hmarker : Go.index (g ++ [marker]) encGroupSize = .ok marker :=
    Go.index_eq_ok (by rw [← hg, getElem?_concat_length])
  have hrest : Go.slice (g ++ marker :: rest) (encGroupSize + 1) (g ++ marker :: rest).length =
      .ok rest := by
    rw [Go.slice_eq_ok (by omega) le_rfl, take_length, ← hg, drop_length_add_append]
    rfl
  unfold decodeGroup
  rw [if_neg (by omega)]
  simp only [hgroupBytes, hgroup, hmarker, hrest, Go.ok_bind, Go.pure_eq_ok,
    ofNat_encGroupSize_lt_iff, ne_eq, encMarker_sub_eq_zero_iff]
  by_cases hinvalid : encGroupSize < padCount marker
  · rw [if_pos hinvalid, if_pos hinvalid]
  · have hdata : Go.slice g 0 (encGroupSize - padCount marker) =
        .ok (g.take (encGroupSize - padCount marker)) :=
      Go.slice_eq_ok (Nat.zero_le _) (by omega)
    have hpadding : Go.slice g (encGroupSize - padCount marker) g.length =
        .ok (g.drop (encGroupSize - padCount marker)) := by
      rw [Go.slice_eq_ok (by omega) le_rfl, take_length]
    rw [if_neg hinvalid, if_neg hinvalid]
    simp only [toNat_ofNat_encGroupSize_sub (not_lt.mp hinvalid), hdata, hpadding, Go.ok_bind]
    by_cases hnone : padCount marker = 0
    · have hall : g.take (encGroupSize - 0) = g := by rw [Nat.sub_zero, ← hg, take_length]
      simp only [hnone, hall, not_true_eq_false, if_false, if_true]
    · simp only [hnone, not_false_eq_true, if_true, if_false]
      split_ifs <;> rfl

theorem decodeGroup_returns (insufficient : ℕ → String) (b data : Bytes) :
    ∃ res, decodeGroup insufficient b data = .ok res := by
  rcases Nat.lt_or_ge b.length (encGroupSize + 1) with hlt | hge
  · exact ⟨_, if_pos hlt⟩
  · obtain ⟨g, marker, rest, hg, rfl⟩ := exists_group hge
    exact ⟨_, decodeGroup_append hg marker rest⟩

theorem decodeGroup_eq_goOn : decodeGroup insufficient b data = .ok (.ok (b', data', false)) ↔
    ∃ g, g.length = encGroupSize ∧ b = g ++ encMarker :: b' ∧ data' = data ++ g := by
  constructor
  · intro h
    obtain ⟨g, marker, rest, hg, rfl⟩ := exists_group (length_of_decodeGroup h)
    rw [decodeGroup_append hg, Except.ok.injEq] at h
    split_ifs at h with hinvalid hnone hpadding
    · obtain ⟨rfl, rfl⟩ : rest = b' ∧ data ++ g = data' := by simpa using h
      have hmarker := eq_marker marker
      rw [hnone] at hmarker
      exact ⟨g, hg, by rw [hmarker]; rfl, rfl⟩
    · simp at h
  · rintro ⟨g, hg, rfl, rfl⟩
    rw [decodeGroup_append hg]
    rfl

theorem decodeGroup_eq_last : decodeGroup insufficient b data = .ok (.ok (b', data', true)) ↔
    ∃ d, d.length < encGroupSize ∧ b = encodeBytes d ++ b' ∧ data' = data ++ d := by
  constructor
  · intro h
    obtain ⟨g, marker, rest, hg, rfl⟩ := exists_group (length_of_decodeGroup h)
    rw [decodeGroup_append hg, Except.ok.injEq] at h
    split_ifs at h with hinvalid hnone hpadding
    · simp at h
    · obtain ⟨rfl, rfl⟩ : rest = b' ∧ data ++ g.take (encGroupSize - padCount marker) = data' := by
        simpa using h
      have hlength : (g.take (encGroupSize - padCount marker)).length =
          encGroupSize - padCount marker := by
        rw [length_take]
        omega
      refine ⟨_, by omega, ?_, rfl⟩
      -- The padding is what the group is filled up with.
      have hzeros : g.drop (encGroupSize - padCount marker) =
          List.replicate (padCount marker) encPad := by
        rw [eq_replicate_iff]
        refine ⟨by rw [length_drop]; omega, fun v hv => ?_⟩
        by_contra hne
        exact hpadding ⟨v, hv, hne⟩
      have hpad : encGroupSize - (encGroupSize - padCount marker) = padCount marker := by omega
      rw [encodeBytes_of_lt (by omega), padTo, hlength, hpad, ← hzeros, take_append_drop,
        ← eq_marker]
      simp
  · rintro ⟨d, hd, rfl, rfl⟩
    have hcount := padCount_marker (show encGroupSize - d.length ≤ encGroupSize by omega)
    have hback : encGroupSize - (encGroupSize - d.length) = d.length := by omega
    rw [encodeBytes_of_lt hd, append_assoc, singleton_append,
      decodeGroup_append (length_padTo hd.le), hcount, if_neg (by omega), if_neg (by omega), hback,
      padTo, drop_left, take_left, if_neg]
    rintro ⟨v, hv, hne⟩
    exact hne (eq_of_mem_replicate hv)

theorem length_lt_of_decodeGroup
    (h : decodeGroup insufficient b data = .ok (.ok (b', data', false))) :
    b'.length < b.length := by
  obtain ⟨g, -, rfl, -⟩ := decodeGroup_eq_goOn.mp h
  simp
  omega

def decodeLoop (insufficient : ℕ → String) (b data : Bytes) :
    Go (Except DecodeError (Bytes × Bytes)) :=
  match _h : decodeGroup insufficient b data with
  | .error p => .error p
  | .ok (.error err) => .ok (.error err)
  | .ok (.ok (b, data, true)) => .ok (.ok (b, data))
  | .ok (.ok (b, data, false)) => decodeLoop insufficient b data
termination_by b.length
decreasing_by exact length_lt_of_decodeGroup _h

def decodeBytes (b : Bytes) : Go (Except DecodeError (Bytes × Bytes)) :=
  decodeLoop (fun len => s!"insufficient bytes to decode value: {len}") b []

def schedulerDecodeBytes (b : Bytes) : Go (Except DecodeError (Bytes × Bytes)) :=
  decodeLoop (fun _ => "insufficient bytes to decode value") b []

theorem decodeLoop_returns (insufficient : ℕ → String) (b data : Bytes) :
    ∃ res, decodeLoop insufficient b data = .ok res := by
  fun_induction decodeLoop insufficient b data with
  | case1 b data p h =>
    obtain ⟨res, hres⟩ := decodeGroup_returns insufficient b data
    rw [hres] at h
    cases h
  | case2 => exact ⟨_, rfl⟩
  | case3 => exact ⟨_, rfl⟩
  | case4 b data b' data' h ih => exact ih

theorem eq_of_decodeLoop (h : decodeLoop insufficient b data = .ok (.ok (r, data'))) :
    ∃ d, data' = data ++ d ∧ b = encodeBytes d ++ r := by
  fun_induction decodeLoop insufficient b data with
  | case1 => cases h
  | case2 => cases h
  | case3 b data b' data'' hlast =>
    cases h
    obtain ⟨d, -, hb, hdata⟩ := decodeGroup_eq_last.mp hlast
    exact ⟨d, hdata, hb⟩
  | case4 b data b' data'' hgoOn ih =>
    obtain ⟨g, hg, rfl, rfl⟩ := decodeGroup_eq_goOn.mp hgoOn
    obtain ⟨d, rfl, rfl⟩ := ih h
    exact ⟨g ++ d, by simp, by simp [encodeBytes_append hg]⟩

theorem decodeLoop_of_last (h : decodeGroup insufficient b data = .ok (.ok (b', data', true))) :
    decodeLoop insufficient b data = .ok (.ok (b', data')) := by
  rw [decodeLoop]
  split <;> simp_all

theorem decodeLoop_of_goOn (h : decodeGroup insufficient b data = .ok (.ok (b', data', false))) :
    decodeLoop insufficient b data = decodeLoop insufficient b' data' := by
  rw [decodeLoop]
  split <;> simp_all

theorem decodeLoop_encodeBytes (insufficient : ℕ → String) (d r data : Bytes) :
    decodeLoop insufficient (encodeBytes d ++ r) data = .ok (.ok (r, data ++ d)) := by
  induction d using group_induction generalizing data with
  | short d hd => exact decodeLoop_of_last (decodeGroup_eq_last.mpr ⟨d, hd, rfl, rfl⟩)
  | long g d hg ih =>
    rw [encodeBytes_append hg, append_assoc, cons_append,
      decodeLoop_of_goOn (decodeGroup_eq_goOn.mpr ⟨g, hg, rfl, rfl⟩), ih, append_assoc]

theorem decodeLoop_eq_ok_iff :
    decodeLoop insufficient b [] = .ok (.ok (r, d)) ↔ b = encodeBytes d ++ r := by
  constructor
  · intro h
    obtain ⟨d', rfl, rfl⟩ := eq_of_decodeLoop h
    rfl
  · rintro rfl
    exact decodeLoop_encodeBytes insufficient d r []

theorem encodeBytes_append_inj (h : encodeBytes d ++ r = encodeBytes d' ++ r') :
    d = d' ∧ r = r' := by
  have hd := decodeLoop_encodeBytes (fun _ => "") d r []
  rw [h, decodeLoop_encodeBytes] at hd
  simpa [eq_comm, and_comm] using hd

/-- `DecodeBytes` returns, and accepts the encoded strings and nothing else; an encoded string and
what comes after it can be told apart. The same holds of the copy in the scheduler. -/
theorem decodeBytes_canonical (b r d : Bytes) :
    ((∃ res, decodeBytes b = .ok res) ∧
      (decodeBytes b = .ok (.ok (r, d)) ↔ b = encodeBytes d ++ r) ∧
      ∀ d' r', encodeBytes d ++ r = encodeBytes d' ++ r' → d = d' ∧ r = r') ∧
    (∃ res, schedulerDecodeBytes b = .ok res) ∧
      (schedulerDecodeBytes b = .ok (.ok (r, d)) ↔ b = schedulerEncodeBytes d ++ r) ∧
      ∀ d' r', schedulerEncodeBytes d ++ r = schedulerEncodeBytes d' ++ r' → d = d' ∧ r = r' :=
  ⟨⟨decodeLoop_returns _ b [], decodeLoop_eq_ok_iff, fun _ _ => encodeBytes_append_inj⟩,
    decodeLoop_returns _ b [], decodeLoop_eq_ok_iff, fun _ _ => encodeBytes_append_inj⟩

theorem encPad_le (c : UInt8) : encPad ≤ c := UInt8.le_iff_toNat_le.mpr (Nat.zero_le _)

theorem marker_lt_marker {m n : ℕ} (hm : m ≤ encGroupSize) (hn : n ≤ encGroupSize) :
    encMarker - UInt8.ofNat (encGroupSize - m) < encMarker - UInt8.ofNat (encGroupSize - n) ↔
      m < n := by
  have hm' := padCount_marker (show encGroupSize - m ≤ encGroupSize by omega)
  have hn' := padCount_marker (show encGroupSize - n ≤ encGroupSize by omega)
  have hlt := (encMarker - UInt8.ofNat (encGroupSize - m)).toNat_lt
  have hlt' := (encMarker - UInt8.ofNat (encGroupSize - n)).toNat_lt
  have hmax : encMarker.toNat = 255 := rfl
  rw [UInt8.lt_iff_toNat_lt]
  unfold padCount at hm' hn'
  unfold encGroupSize at *
  omega

theorem marker_inj {m n : ℕ} (hm : m ≤ encGroupSize) (hn : n ≤ encGroupSize) :
    encMarker - UInt8.ofNat (encGroupSize - m) = encMarker - UInt8.ofNat (encGroupSize - n) ↔
      m = n := by
  have h := marker_lt_marker hm hn
  have h' := marker_lt_marker hn hm
  rw [eq_iff_le_not_lt, ← not_lt, h, h']
  omega

theorem padTo_append_lt_append {a b : Bytes} (ha : a.length ≤ encGroupSize)
    (hb : b.length ≤ encGroupSize) (x y : Bytes) :
    padTo encPad encGroupSize a ++ (encMarker - UInt8.ofNat (encGroupSize - a.length)) :: x <
      padTo encPad encGroupSize b ++ (encMarker - UInt8.ofNat (encGroupSize - b.length)) :: y ↔
      a < b ∨ a = b ∧ x < y := by
  have heq : a = b ↔ padTo encPad encGroupSize a = padTo encPad encGroupSize b ∧
      a.length = b.length := by
    constructor
    · rintro rfl
      exact ⟨rfl, rfl⟩
    · rintro ⟨hpad, hlen⟩
      have := congrArg (List.take a.length) hpad
      rwa [padTo, padTo, take_left, hlen, take_left] at this
  rw [append_lt_append_iff (by rw [length_padTo ha, length_padTo hb]), cons_lt_cons_iff,
    marker_lt_marker ha hb, marker_inj ha hb, lt_iff_padTo encPad_le ha hb, heq, and_or_left,
    or_assoc, and_assoc]

theorem padTo_group (hg : g.length = encGroupSize) (x : Bytes) :
    g ++ encMarker :: x =
      padTo encPad encGroupSize g ++ (encMarker - UInt8.ofNat (encGroupSize - g.length)) :: x := by
  have hpad : padTo encPad encGroupSize g = g := by
    rw [← hg]
    exact padTo_of_length_eq encPad
  have hmarker : encMarker - UInt8.ofNat 0 = encMarker := rfl
  rw [hpad, hg, Nat.sub_self, hmarker]

theorem encodeBytes_append_lt_append (a b x y : Bytes) :
    encodeBytes a ++ x < encodeBytes b ++ y ↔ a < b ∨ a = b ∧ x < y := by
  induction a using group_induction generalizing b with
  | short a ha =>
    rw [encodeBytes_of_lt ha, append_assoc, singleton_append]
    induction b using group_induction with
    | short b hb =>
      rw [encodeBytes_of_lt hb, append_assoc, singleton_append,
        padTo_append_lt_append ha.le hb.le]
    | long g b hg _ =>
      -- The group of `a` has padding, and that of the other string has none.
      have hlt : a.length < g.length := by omega
      have hne : a ≠ g := fun h => by simp [h] at hlt
      have hne' : a ≠ g ++ b := fun h => by
        rw [h, length_append] at hlt
        omega
      rw [encodeBytes_append hg, append_assoc, cons_append, padTo_group hg,
        padTo_append_lt_append ha.le hg.le, lt_append_iff hlt]
      simp [hne, hne']
  | long g a hg ih =>
    rw [encodeBytes_append hg, append_assoc, cons_append, padTo_group hg]
    induction b using group_induction with
    | short b hb =>
      have hlt : b.length < g.length := by omega
      have hne : g ≠ b := fun h => by simp [h] at hlt
      have hne' : g ++ a ≠ b := fun h => by
        rw [← h, length_append] at hlt
        omega
      rw [encodeBytes_of_lt hb, append_assoc, singleton_append,
        padTo_append_lt_append hg.le hb.le, append_lt_iff hlt]
      simp [hne, hne']
    | long g' b hg' _ =>
      have hlen : g.length = g'.length := by omega
      have heq : g ++ a = g' ++ b ↔ g = g' ∧ a = b := by
        refine ⟨fun h => append_inj h hlen, ?_⟩
        rintro ⟨rfl, rfl⟩
        rfl
      rw [encodeBytes_append hg', append_assoc, cons_append, padTo_group hg',
        padTo_append_lt_append hg.le hg'.le, ih, append_lt_append_iff hlen, heq, and_or_left,
        or_assoc, and_assoc]

end TinyKV.Codec
