import TinyKV.BigEndian

/-!
# The keys of the metadata

`kv/raftstore/meta/keys.go`: the keys of the raft logs and the states of the regions.
-/

namespace TinyKV

open List

def localPrefix : UInt8 := 0x01

def regionRaftPrefix : UInt8 := 0x02

def regionMetaPrefix : UInt8 := 0x03

def regionRaftLogLen : ℕ := 19

def raftLogSuffix : UInt8 := 0x01

def raftStateSuffix : UInt8 := 0x02

def applyStateSuffix : UInt8 := 0x03

def regionStateSuffix : UInt8 := 0x01

def makeRegionPrefix (regionID : UInt64) (suffix : UInt8) : Bytes :=
  [localPrefix, regionRaftPrefix] ++ BigEndian.bytes 8 regionID.toNat ++ [suffix]

def makeRegionKey (regionID : UInt64) (suffix : UInt8) (subID : UInt64) : Bytes :=
  [localPrefix, regionRaftPrefix] ++ BigEndian.bytes 8 regionID.toNat ++ [suffix] ++
    BigEndian.bytes 8 subID.toNat

def raftLogKey (regionID index : UInt64) : Bytes := makeRegionKey regionID raftLogSuffix index

def raftStateKey (regionID : UInt64) : Bytes := makeRegionPrefix regionID raftStateSuffix

def applyStateKey (regionID : UInt64) : Bytes := makeRegionPrefix regionID applyStateSuffix

def regionStateKey (regionID : UInt64) : Bytes :=
  [localPrefix, regionMetaPrefix] ++ BigEndian.bytes 8 regionID.toNat ++ [regionStateSuffix]

/-- The error of `RaftLogIndex`: the key is not a valid raft log key. -/
structure InvalidRaftLogKey where
  key : Bytes
deriving DecidableEq, Repr

def raftLogIndex (key : Bytes) : Except InvalidRaftLogKey UInt64 :=
  if key.length ≠ regionRaftLogLen then .error ⟨key⟩
  else .ok (UInt64.ofNat (BigEndian.value (key.drop (regionRaftLogLen - 8))))

/-- The words from `lo` on and below `hi`, as a loop goes through them that adds one to a word. -/
def indexes (lo hi : ℕ) : List UInt64 := (List.range' lo (hi - lo)).map UInt64.ofNat

theorem mem_indexes {lo hi : ℕ} (hhi : hi ≤ 2^64) {i : UInt64} :
    i ∈ indexes lo hi ↔ lo ≤ i.toNat ∧ i.toNat < hi := by
  rw [indexes, mem_map]
  constructor
  · rintro ⟨m, hm, rfl⟩
    obtain ⟨hlo, hlt⟩ := mem_range'_1.mp hm
    have hword : m < 2^64 := by omega
    rw [UInt64.toNat_ofNat_of_lt' hword]
    omega
  · rintro ⟨hlo, hlt⟩
    exact ⟨i.toNat, mem_range'_1.mpr (by omega), UInt64.ofNat_toNat⟩

section

variable {r r' i j : UInt64} {s s' : UInt8}

theorem regionKey_lt_iff (r r' : UInt64) (s s' : UInt8) (x y : Bytes) :
    makeRegionPrefix r s ++ x < makeRegionPrefix r' s' ++ y ↔
      r < r' ∨ r = r' ∧ (s < s' ∨ s = s' ∧ x < y) := by
  have hlength : ∀ r : UInt64, (BigEndian.bytes 8 r.toNat).length = 8 :=
    fun r => BigEndian.length_bytes 8 _
  simp only [makeRegionPrefix, append_assoc]
  rw [append_lt_append_left_iff, append_lt_append_iff (by rw [hlength, hlength]),
    BigEndian.bytes_toNat_lt, BigEndian.bytes_toNat_inj, singleton_append,
    singleton_append, cons_lt_cons_iff]

theorem raftLogKey_lt_raftLogKey : raftLogKey r i < raftLogKey r' j ↔ r < r' ∨ r = r' ∧ i < j := by
  have hiff := regionKey_lt_iff r r' raftLogSuffix raftLogSuffix (BigEndian.bytes 8 i.toNat)
    (BigEndian.bytes 8 j.toNat)
  simp only [lt_irrefl, false_or, true_and, BigEndian.bytes_toNat_lt] at hiff
  exact hiff

theorem raftLogKey_le_raftLogKey : raftLogKey r i ≤ raftLogKey r' j ↔ r < r' ∨ r = r' ∧ i ≤ j := by
  rw [← not_lt, raftLogKey_lt_raftLogKey]
  simp only [UInt64.lt_iff_toNat_lt, UInt64.le_iff_toNat_le, ← UInt64.toNat_inj]
  omega

theorem raftLogKey_lt_raftStateKey : raftLogKey r i < raftStateKey r' ↔ r ≤ r' := by
  have hiff := regionKey_lt_iff r r' raftLogSuffix raftStateSuffix (BigEndian.bytes 8 i.toNat) []
  rw [append_nil] at hiff
  have hsuffix : raftLogSuffix < raftStateSuffix := by decide
  simp only [hsuffix, true_or, and_true] at hiff
  rw [UInt64.le_iff_lt_or_eq]
  exact hiff

theorem length_raftLogKey (r i : UInt64) : (raftLogKey r i).length = regionRaftLogLen := by
  simp [raftLogKey, makeRegionKey, BigEndian.length_bytes, regionRaftLogLen]

theorem length_makeRegionPrefix (r : UInt64) (s : UInt8) : (makeRegionPrefix r s).length = 11 := by
  simp [makeRegionPrefix, BigEndian.length_bytes]

theorem raftLogKey_inj : raftLogKey r i = raftLogKey r' j ↔ r = r' ∧ i = j := by
  constructor
  · intro h
    have hle := raftLogKey_le_raftLogKey.mp h.le
    have hge := raftLogKey_le_raftLogKey.mp h.ge
    simp only [UInt64.lt_iff_toNat_lt, UInt64.le_iff_toNat_le, ← UInt64.toNat_inj] at hle hge ⊢
    omega
  · rintro ⟨rfl, rfl⟩
    rfl

theorem raftLogKey_ne_makeRegionPrefix : raftLogKey r i ≠ makeRegionPrefix r' s := by
  intro h
  have hlength := congrArg List.length h
  rw [length_raftLogKey, length_makeRegionPrefix] at hlength
  exact absurd hlength (by decide)

theorem raftLogIndex_raftLogKey (r i : UInt64) : raftLogIndex (raftLogKey r i) = .ok i := by
  have hkey : raftLogKey r i =
      makeRegionPrefix r raftLogSuffix ++ BigEndian.bytes 8 i.toNat := rfl
  have hdrop : (raftLogKey r i).drop (regionRaftLogLen - 8) = BigEndian.bytes 8 i.toNat := by
    rw [hkey]
    exact drop_left' (length_makeRegionPrefix r _)
  rw [raftLogIndex, if_neg (not_not.mpr (length_raftLogKey r i)), hdrop,
    BigEndian.value_bytes i.toNat_lt, UInt64.ofNat_toNat]

variable {key : Bytes}

theorem raftLogIndex_eq_error (h : key.length ≠ regionRaftLogLen) :
    raftLogIndex key = .error ⟨key⟩ := if_pos h

theorem isPrefix_of_between (hlo : raftLogKey r i ≤ key)
    (hhi : key < raftLogKey r j) : makeRegionPrefix r raftLogSuffix <+: key :=
  isPrefix_of_le_of_le hlo hhi.le

theorem exists_raftLogKey_of_isPrefix (hstart : makeRegionPrefix r raftLogSuffix <+: key)
    (hlength : key.length = regionRaftLogLen) : ∃ m, key = raftLogKey r m := by
  obtain ⟨c, rfl⟩ := hstart
  rw [length_append, length_makeRegionPrefix, regionRaftLogLen] at hlength
  have hc : c.length = 8 := by omega
  have hvalue : BigEndian.value c < 2^64 := by
    have := BigEndian.value_lt c
    rwa [hc] at this
  refine ⟨UInt64.ofNat (BigEndian.value c), ?_⟩
  have hbytes : BigEndian.bytes 8 (BigEndian.value c) = c := hc ▸ BigEndian.bytes_value c
  rw [raftLogKey, makeRegionKey, UInt64.toNat_ofNat_of_lt' hvalue, hbytes]
  rfl

theorem exists_raftLogKey_of_between (hlo : raftLogKey r i ≤ key) (hhi : key < raftLogKey r j)
    (hlength : key.length = regionRaftLogLen) : ∃ m, key = raftLogKey r m ∧ i ≤ m ∧ m < j := by
  obtain ⟨m, rfl⟩ := exists_raftLogKey_of_isPrefix (isPrefix_of_between hlo hhi) hlength
  refine ⟨m, rfl, ?_, ?_⟩
  · simpa [raftLogKey_le_raftLogKey] using hlo
  · simpa [raftLogKey_lt_raftLogKey] using hhi

end

end TinyKV
