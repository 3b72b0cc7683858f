import TinyKV.Storage.RegionReader
import TinyKV.Storage.WriteBatch

/-!
# Deleting a range of keys

`DeleteRange` of `kv/util/engine_util/util.go` deletes the keys of the three column families in a
range in one batch, and no others (`find_deleteRange_eq_none`, `find_deleteRange_of_not`).
-/

namespace TinyKV

open List

def cfs : List Cf := [.default, .write, .lock]

@[simp]
theorem mem_cfs (cf : Cf) : cf ∈ cfs := by
  cases cf <;> decide

def deleteRangeCF (txn : Badger) (batch : WriteBatch) (cf startKey endKey : Bytes) : WriteBatch :=
  let it := (newCFIterator cf txn).seek startKey
  BadgerIterator.forLoop it.start
    (fun key _ batch =>
      if exceedEndKey key endKey then .done batch else .yield (batch.deleteCF cf key))
    it.rest batch

def deleteRangeBatch (txn : Badger) (startKey endKey : Bytes) : WriteBatch :=
  cfs.foldl (fun batch cf => deleteRangeCF txn batch cf.name startKey endKey) {}

def deleteRange (callErr : ℕ → Option BadgerErr) (commitErr : Option BadgerErr) (db : Badger)
    (startKey endKey : Bytes) : Badger × Option BadgerErr :=
  (deleteRangeBatch db startKey endKey).writeToDB callErr commitErr db

/-- The keys of a column family that are to be deleted. -/
def rangeKeys (txn : Badger) (startKey endKey : Bytes) (cf : Cf) : List Bytes :=
  (BadgerIterator.rangeItems cf.name txn startKey endKey).map fun p => keyWithCF cf.name p.1

variable {txn : Badger} {startKey endKey : Bytes}

theorem entries_deleteRangeCF (batch : WriteBatch) (cf : Cf) :
    (deleteRangeCF txn batch cf.name startKey endKey).entries =
      batch.entries ++ (rangeKeys txn startKey endKey cf).map fun key => { key := key } := by
  unfold deleteRangeCF rangeKeys
  rw [map_map]
  have hloop := BadgerIterator.forLoop_seek
    (fun key _ (batch : WriteBatch) => batch.deleteCF cf.name key) cf.name txn startKey endKey batch
  refine (congrArg WriteBatch.entries hloop).trans ?_
  clear hloop
  generalize BadgerIterator.rangeItems cf.name txn startKey endKey = items
  induction items generalizing batch with
  | nil => simp
  | cons p items ih =>
    rw [foldl_cons, ih]
    simp [WriteBatch.deleteCF]

theorem entries_deleteRangeBatch :
    (deleteRangeBatch txn startKey endKey).entries =
      (cfs.flatMap (rangeKeys txn startKey endKey)).map fun key => { key := key } := by
  simp [deleteRangeBatch, cfs, entries_deleteRangeCF]

theorem mem_flatMap_rangeKeys {raw : Bytes} :
    raw ∈ cfs.flatMap (rangeKeys txn startKey endKey) ↔
      (∃ cf key, raw = keyWithCF (Cf.name cf) key ∧
        Region.Contains ⟨startKey, endKey⟩ key) ∧ txn.find raw ≠ none := by
  simp only [mem_flatMap, mem_cfs, true_and, rangeKeys, mem_map, Prod.exists,
    BadgerIterator.mem_rangeItems, Region.contains_iff, ← Badger.find_eq_some]
  constructor
  · rintro ⟨cf, key, val, ⟨hrange, hfind⟩, rfl⟩
    exact ⟨⟨cf, key, rfl, hrange⟩, by simp [hfind]⟩
  · rintro ⟨⟨cf, key, rfl, hrange⟩, hfind⟩
    obtain ⟨val, hval⟩ := Option.ne_none_iff_exists'.mp hfind
    exact ⟨cf, key, val, ⟨hrange, hval⟩, rfl⟩

variable {callErr : ℕ → Option BadgerErr} {commitErr : Option BadgerErr} {db : Badger}

theorem find_deleteRange_eq_none (h : (deleteRange callErr commitErr db startKey endKey).2 = none)
    (cf : Cf) {key : Bytes} (hrange : Region.Contains ⟨startKey, endKey⟩ key) :
    (deleteRange callErr commitErr db startKey endKey).1.find (keyWithCF cf.name key) = none := by
  rw [deleteRange, WriteBatch.find_writeToDB_deletes entries_deleteRangeBatch h]
  split_ifs with hmem
  · rfl
  · -- A key that is not to be deleted although it is in the range is not there.
    by_contra hne
    exact hmem (mem_flatMap_rangeKeys.mpr ⟨⟨cf, key, rfl, hrange⟩, hne⟩)

theorem find_deleteRange_of_not (h : (deleteRange callErr commitErr db startKey endKey).2 = none)
    {raw : Bytes}
    (hraw : ¬ ∃ cf key, raw = keyWithCF (Cf.name cf) key ∧ Region.Contains ⟨startKey, endKey⟩ key) :
    (deleteRange callErr commitErr db startKey endKey).1.find raw = db.find raw := by
  rw [deleteRange, WriteBatch.find_writeToDB_deletes entries_deleteRangeBatch h]
  exact if_neg fun hmem => hraw (mem_flatMap_rangeKeys.mp hmem).1

theorem deleteRange_succeeds (db : Badger) (startKey endKey : Bytes) :
    (deleteRange (fun _ => none) none db startKey endKey).2 = none :=
  WriteBatch.writeToDB_succeeds _ _

end TinyKV
