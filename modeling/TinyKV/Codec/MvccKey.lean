import TinyKV.BigEndian
import TinyKV.Codec.Memcomparable

/-!
# The keys of the transaction layer

`EncodeKey`, `DecodeUserKey` and `decodeTimestamp` of `kv/transaction/mvcc/transaction.go`: a user
key in the memcomparable format, followed by the complement of a timestamp.
-/

namespace TinyKV.Mvcc

open Codec (encodeBytes decodeBytes DecodeError)

def panicWith : DecodeError → Panic
  | .insufficientBytes text => .text text
  | .invalidMarker groupBytes => .quoting "invalid marker byte, group bytes " groupBytes
  | .invalidPadding groupBytes => .quoting "invalid padding byte, group bytes " groupBytes

def bigEndianUint64 (b : Bytes) : Go UInt64 := do
  let _ ← Go.index b 7
  return UInt64.ofNat (BigEndian.value (b.take 8))

def encodeKey (key : Bytes) (ts : UInt64) : Bytes :=
  encodeBytes key ++ BigEndian.bytes 8 (~~~ts).toNat

def decodeUserKey (key : Bytes) : Go Bytes := do
  match ← decodeBytes key with
  | .error err => throw (panicWith err)
  | .ok (_, userKey) => return userKey

def decodeTimestamp (key : Bytes) : Go UInt64 := do
  match ← decodeBytes key with
  | .error err => throw (panicWith err)
  | .ok (left, _) =>
    let v ← bigEndianUint64 left
    return ~~~v

theorem bigEndianUint64_bytes (v : UInt64) :
    bigEndianUint64 (BigEndian.bytes 8 v.toNat) = .ok v := by
  have hlen := BigEndian.length_bytes 8 v.toNat
  have hget := List.getElem?_eq_getElem (show 7 < (BigEndian.bytes 8 v.toNat).length by omega)
  have hvalue : BigEndian.value (BigEndian.bytes 8 v.toNat) = v.toNat :=
    BigEndian.value_bytes v.toNat_lt
  rw [bigEndianUint64, Go.index_eq_ok hget, Go.ok_bind, List.take_of_length_le hlen.le, hvalue,
    UInt64.ofNat_toNat]
  rfl

theorem bytes_complement_lt_iff (t u : UInt64) :
    BigEndian.bytes 8 (~~~t).toNat < BigEndian.bytes 8 (~~~u).toNat ↔ u < t := by
  have ht : (~~~t).toNat < 256^8 := (~~~t).toNat_lt
  have hu : (~~~u).toNat < 256^8 := (~~~u).toNat_lt
  have hsize : UInt64.size = 2^64 := rfl
  have ht' := t.toNat_lt
  have hu' := u.toNat_lt
  rw [BigEndian.bytes_lt_bytes, Nat.mod_eq_of_lt ht, Nat.mod_eq_of_lt hu, UInt64.lt_iff_toNat_lt,
    UInt64.toNat_not, UInt64.toNat_not]
  omega

/-- The keys are ordered by user key, and then from the latest timestamp to the earliest; both parts
are read back. -/
theorem encodeKey_lt_iff (k₁ k₂ : Bytes) (t₁ t₂ : UInt64) :
    (encodeKey k₁ t₁ < encodeKey k₂ t₂ ↔ k₁ < k₂ ∨ k₁ = k₂ ∧ t₂ < t₁) ∧
      decodeUserKey (encodeKey k₁ t₁) = .ok k₁ ∧ decodeTimestamp (encodeKey k₁ t₁) = .ok t₁ := by
  have hdecode : decodeBytes (encodeKey k₁ t₁) =
      .ok (.ok (BigEndian.bytes 8 (~~~t₁).toNat, k₁)) := Codec.decodeLoop_eq_ok_iff.mpr rfl
  refine ⟨?_, ?_, ?_⟩
  · rw [encodeKey, encodeKey, Codec.encodeBytes_append_lt_append, bytes_complement_lt_iff]
  · rw [decodeUserKey, hdecode]
    rfl
  · rw [decodeTimestamp, hdecode, Go.ok_bind]
    simp only [bigEndianUint64_bytes, Go.ok_bind, UInt64.not_not, Go.pure_eq_ok]

example : encodeKey [42, 0, 5] (~~~98753868) =
    [42, 0, 5, 0, 0, 0, 0, 0, 250, 0, 0, 0, 0, 5, 226, 221, 76] := by decide

end TinyKV.Mvcc
