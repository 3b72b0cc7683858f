import TinyKV.Raftstore.Keys

/-!
# The layout of the metadata

The keys of `kv/raftstore/meta/keys.go` share the space of the local keys.
-/

namespace TinyKV

open List

def regionMetaMinKey : Bytes := [localPrefix, regionMetaPrefix]

def regionMetaMaxKey : Bytes := [localPrefix, regionMetaPrefix + 1]

def prepareBootstrapKey : Bytes := [localPrefix, 0x01]

def storeIdentKey : Bytes := [localPrefix, 0x02]

inductive InvalidRegionMetaKey
  | badLength (key : Bytes)
  | badPrefix (key : Bytes)
deriving DecidableEq, Repr

def decodeRegionMetaKey (key : Bytes) : Except InvalidRegionMetaKey (UInt64 × UInt8) :=
  if regionMetaMinKey.length + 8 + 1 ≠ key.length then .error (.badLength key)
  else if ¬ regionMetaMinKey <+: key then .error (.badPrefix key)
  else
    let regionID := UInt64.ofNat (BigEndian.value ((key.drop regionMetaMinKey.length).take 8))
    -- The key has a last byte, since its length was checked.
    .ok (regionID, key.getLastD 0)

theorem decodeRegionMetaKey_append (r : UInt64) (s : UInt8) :
    decodeRegionMetaKey (regionMetaMinKey ++ BigEndian.bytes 8 r.toNat ++ [s]) = .ok (r, s) := by
  have hlength : regionMetaMinKey.length + 8 + 1 =
      (regionMetaMinKey ++ BigEndian.bytes 8 r.toNat ++ [s]).length := by
    simp [BigEndian.length_bytes]
  have hstart : regionMetaMinKey <+: regionMetaMinKey ++ BigEndian.bytes 8 r.toNat ++ [s] := by
    rw [append_assoc]
    exact prefix_append _ _
  have hword : ((regionMetaMinKey ++ BigEndian.bytes 8 r.toNat ++ [s]).drop
      regionMetaMinKey.length).take 8 = BigEndian.bytes 8 r.toNat := by
    rw [append_assoc, drop_left]
    exact take_left' (BigEndian.length_bytes 8 _)
  rw [decodeRegionMetaKey, if_neg (not_not.mpr hlength), if_neg (not_not.mpr hstart), hword,
    BigEndian.value_bytes r.toNat_lt, UInt64.ofNat_toNat, getLastD_concat]

theorem regionStateKey_lt_iff {r r' : UInt64} : regionStateKey r < regionStateKey r' ↔ r < r' := by
  have hlength : ∀ r : UInt64, (BigEndian.bytes 8 r.toNat).length = 8 :=
    fun r => BigEndian.length_bytes 8 _
  unfold regionStateKey
  simp only [append_assoc]
  rw [append_lt_append_left_iff, append_lt_append_iff (by rw [hlength, hlength]),
    BigEndian.bytes_toNat_lt]
  simp

theorem makeRegionPrefix_inj {r r' : UInt64} {s s' : UInt8} :
    makeRegionPrefix r s = makeRegionPrefix r' s' ↔ r = r' ∧ s = s' := by
  simp [makeRegionPrefix, BigEndian.bytes_toNat_inj]

theorem regionStateKey_inj {r r' : UInt64} : regionStateKey r = regionStateKey r' ↔ r = r' := by
  simp [regionStateKey, BigEndian.bytes_toNat_inj]

/-- The ways in which a key of the metadata is made. -/
inductive MetaKey
  | raftLog (regionID index : UInt64)
  | raftState (regionID : UInt64)
  | applyState (regionID : UInt64)
  | regionState (regionID : UInt64)
  | prepareBootstrap
  | storeIdent
deriving DecidableEq, Repr

namespace MetaKey

def bytes : MetaKey → Bytes
  | raftLog regionID index => raftLogKey regionID index
  | raftState regionID => raftStateKey regionID
  | applyState regionID => applyStateKey regionID
  | regionState regionID => regionStateKey regionID
  | prepareBootstrap => prepareBootstrapKey
  | storeIdent => storeIdentKey

def kind : MetaKey → ℕ × UInt8 × UInt8
  | raftLog _ _ => (19, 2, 1)
  | raftState _ => (11, 2, 2)
  | applyState _ => (11, 2, 3)
  | regionState _ => (11, 3, 1)
  | prepareBootstrap => (2, 1, 0)
  | storeIdent => (2, 2, 0)

theorem kind_eq (k : MetaKey) : k.kind = (k.bytes.length, k.bytes.getD 1 0, k.bytes.getD 10 0) := by
  cases k <;> rfl

theorem bytes_injective : Function.Injective bytes := by
  intro k k' h
  -- Keys that are made in different ways differ in their kind.
  have hkind : k.kind = k'.kind := by rw [kind_eq, kind_eq, h]
  cases k <;> cases k' <;> simp only [kind, Prod.mk.injEq] at hkind <;>
    first
    | exact absurd hkind (by decide)
    | skip
  case raftLog.raftLog =>
    obtain ⟨rfl, rfl⟩ := raftLogKey_inj.mp h
    rfl
  case raftState.raftState => rw [(makeRegionPrefix_inj.mp h).1]
  case applyState.applyState => rw [(makeRegionPrefix_inj.mp h).1]
  case regionState.regionState => rw [regionStateKey_inj.mp h]
  case prepareBootstrap.prepareBootstrap => rfl
  case storeIdent.storeIdent => rfl

theorem isPrefix_append_iff {a b c : Bytes} (h : a.length = b.length) : a <+: b ++ c ↔ a = b := by
  rw [prefix_iff_eq_take, h, take_left]

theorem isPrefix_bytes_iff {r : UInt64} {k : MetaKey} :
    makeRegionPrefix r raftLogSuffix <+: k.bytes ↔ ∃ i, k = raftLog r i := by
  have hregion : ∀ r' s c, makeRegionPrefix r raftLogSuffix <+: makeRegionPrefix r' s ++ c ↔
      r = r' ∧ raftLogSuffix = s := by
    intro r' s c
    rw [isPrefix_append_iff (by rw [length_makeRegionPrefix, length_makeRegionPrefix]),
      makeRegionPrefix_inj]
  have hstate : ∀ r' s, raftLogSuffix ≠ s →
      ¬ makeRegionPrefix r raftLogSuffix <+: makeRegionPrefix r' s := by
    intro r' s hs h
    rw [← append_nil (makeRegionPrefix r' s)] at h
    exact hs ((hregion r' s []).mp h).2
  cases k with
  | raftLog r' i =>
    refine (hregion r' raftLogSuffix (BigEndian.bytes 8 i.toNat)).trans ?_
    simp [eq_comm]
  | raftState r' =>
    simpa [bytes, raftStateKey] using hstate r' raftStateSuffix (by decide)
  | applyState r' =>
    simpa [bytes, applyStateKey] using hstate r' applyStateSuffix (by decide)
  | regionState r' =>
    simp [bytes, regionStateKey, makeRegionPrefix, regionRaftPrefix, regionMetaPrefix]
  | prepareBootstrap =>
    simp [bytes, prepareBootstrapKey, makeRegionPrefix, regionRaftPrefix]
  | storeIdent =>
    simp [bytes, storeIdentKey, makeRegionPrefix, regionRaftPrefix]

theorem between_raftLogKey_iff {r lo hi : UInt64} {k : MetaKey} :
    raftLogKey r lo ≤ k.bytes ∧ k.bytes < raftLogKey r hi ↔
      ∃ i, k = raftLog r i ∧ lo ≤ i ∧ i < hi := by
  constructor
  · rintro ⟨hlo, hhi⟩
    obtain ⟨i, rfl⟩ := isPrefix_bytes_iff.mp (isPrefix_of_between hlo hhi)
    exact ⟨i, rfl, by simpa [bytes, raftLogKey_le_raftLogKey] using hlo,
      by simpa [bytes, raftLogKey_lt_raftLogKey] using hhi⟩
  · rintro ⟨i, rfl, hlo, hhi⟩
    exact ⟨raftLogKey_le_raftLogKey.mpr (Or.inr ⟨rfl, hlo⟩),
      raftLogKey_lt_raftLogKey.mpr (Or.inr ⟨rfl, hhi⟩)⟩

theorem between_regionMeta_iff {k : MetaKey} :
    regionMetaMinKey ≤ k.bytes ∧ k.bytes < regionMetaMaxKey ↔ ∃ r, k = regionState r := by
  rw [← not_lt]
  cases k <;> simp [bytes, regionMetaMinKey, regionMetaMaxKey, raftLogKey, makeRegionKey,
    raftStateKey, applyStateKey, makeRegionPrefix, regionStateKey, prepareBootstrapKey,
    storeIdentKey, cons_lt_cons_iff, regionRaftPrefix, regionMetaPrefix]

/-- The layout of the metadata: an interval of a log is this part of the log, the interval of the
regions is their states, in the order of their numbers, different keys are different strings, and
the numbers in a key can be read back. -/
theorem layout :
    (∀ (r lo hi : UInt64) (k : MetaKey),
      raftLogKey r lo ≤ k.bytes ∧ k.bytes < raftLogKey r hi ↔
        ∃ i, k = raftLog r i ∧ lo ≤ i ∧ i < hi) ∧
    (∀ k : MetaKey, regionMetaMinKey ≤ k.bytes ∧ k.bytes < regionMetaMaxKey ↔
      ∃ r, k = regionState r) ∧
    (∀ r r' : UInt64, (regionState r).bytes < (regionState r').bytes ↔ r < r') ∧
    Function.Injective bytes ∧
    (∀ r i : UInt64, raftLogIndex (raftLogKey r i) = .ok i) ∧
    (∀ r : UInt64, decodeRegionMetaKey (regionStateKey r) = .ok (r, regionStateSuffix)) :=
  ⟨fun _ _ _ _ => between_raftLogKey_iff, fun _ => between_regionMeta_iff,
    fun _ _ => regionStateKey_lt_iff, bytes_injective, raftLogIndex_raftLogKey,
    fun r => decodeRegionMetaKey_append r regionStateSuffix⟩

end MetaKey

end TinyKV
