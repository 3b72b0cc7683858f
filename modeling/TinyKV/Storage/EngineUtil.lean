import TinyKV.Bytes
import TinyKV.OrderedList
import TinyKV.Writes

/-!
# The key-value engine

`badger` as a transactional ordered map, and the column families of `kv/util/engine_util` on top of
it: sets of keys with the same start, through which an iterator goes without the start
(`BadgerIterator.mem_items_seek`).
-/

namespace TinyKV

open List

inductive BadgerErr
  | keyNotFound
  | notCommitted
deriving DecidableEq, Repr

structure Badger where
  pairs : List (Bytes × Bytes)
  sorted : OrderedList.Sorted Prod.fst pairs

namespace Badger

def empty : Badger := ⟨[], OrderedList.sorted_nil⟩

def set (db : Badger) (key val : Bytes) : Badger :=
  ⟨OrderedList.replaceOrInsert Prod.fst (key, val) db.pairs, db.sorted.replaceOrInsert⟩

def delete (db : Badger) (key : Bytes) : Badger :=
  ⟨OrderedList.delete Prod.fst key db.pairs, db.sorted.delete⟩

def get (db : Badger) (key : Bytes) : Except BadgerErr Bytes :=
  match OrderedList.lookup Prod.fst key db.pairs with
  | some p => .ok p.2
  | none => .error .keyNotFound

def update (fails : Bool) (db : Badger) (f : Badger → Badger) : Badger × Option BadgerErr :=
  if fails then (db, some .notCommitted) else (f db, none)

variable {db : Badger} {key key' val val' : Bytes}

theorem mem_set : (key', val') ∈ (db.set key val).pairs ↔
    key' = key ∧ val' = val ∨ key' ≠ key ∧ (key', val') ∈ db.pairs := by
  simp [set, and_comm]

theorem mem_delete_iff : (key', val') ∈ (db.delete key).pairs ↔
    key' ≠ key ∧ (key', val') ∈ db.pairs := by
  simp [delete, and_comm]

theorem get_eq_ok (h : (key, val) ∈ db.pairs) : db.get key = .ok val := by
  rw [get, db.sorted.lookup_eq_some.mpr ⟨h, rfl⟩]

theorem get_eq_error (h : ∀ val, (key, val) ∉ db.pairs) : db.get key = .error .keyNotFound := by
  have hnone : OrderedList.lookup Prod.fst key db.pairs = none :=
    OrderedList.lookup_eq_none.mpr fun p hp hkey => h p.2 (hkey ▸ hp)
  rw [get, hnone]

/-- The value of a key, if it is there. -/
def find (db : Badger) (key : Bytes) : Option Bytes :=
  (OrderedList.lookup Prod.fst key db.pairs).map Prod.snd

theorem find_eq_some : db.find key = some val ↔ (key, val) ∈ db.pairs := by
  unfold find
  rw [Option.map_eq_some_iff]
  constructor
  · rintro ⟨⟨key', val'⟩, hp, rfl⟩
    obtain ⟨hmem, rfl⟩ := db.sorted.lookup_eq_some.mp hp
    exact hmem
  · intro h
    exact ⟨(key, val), db.sorted.lookup_eq_some.mpr ⟨h, rfl⟩, rfl⟩

theorem ext_find {db' : Badger} (h : ∀ key, db.find key = db'.find key) : db = db' := by
  obtain ⟨pairs, sorted⟩ := db
  obtain ⟨pairs', sorted'⟩ := db'
  obtain rfl : pairs = pairs' := sorted.ext sorted' fun ⟨key, val⟩ => by
    rw [← @find_eq_some ⟨pairs, sorted⟩, ← @find_eq_some ⟨pairs', sorted'⟩, h]
  rfl

theorem find_set (db : Badger) (key val key' : Bytes) :
    (db.set key val).find key' = if key = key' then some val else db.find key' := by
  ext v
  rw [find_eq_some, mem_set]
  split_ifs with hkey
  · simp [hkey, eq_comm]
  · rw [find_eq_some]
    simp [Ne.symm hkey]

theorem find_delete (db : Badger) (key key' : Bytes) :
    (db.delete key).find key' = if key = key' then none else db.find key' := by
  ext v
  rw [find_eq_some, mem_delete_iff]
  split_ifs with hkey
  · simp [hkey]
  · rw [find_eq_some]
    simp [Ne.symm hkey]

def write (db : Badger) : Bytes × Option Bytes → Badger
  | (key, some val) => db.set key val
  | (key, none) => db.delete key

/-- The data after some writes, one by one and in order. -/
def writeAll (db : Badger) (ws : List (Bytes × Option Bytes)) : Badger := ws.foldl write db

theorem find_writeAll (db : Badger) (ws : List (Bytes × Option Bytes)) (key : Bytes) :
    (db.writeAll ws).find key = Writes.valueAfter (db.find key) ws key := by
  induction ws using List.reverseRecOn with
  | nil => rfl
  | append_singleton ws w ih =>
    have hconcat : db.writeAll (ws ++ [w]) = (db.writeAll ws).write w := by simp [writeAll]
    rw [hconcat, Writes.valueAfter_concat, ← ih]
    obtain ⟨key', _ | val⟩ := w
    · exact find_delete _ _ _
    · exact find_set _ _ _ _

theorem writeAll_eq_iff {ws ws' : List (Bytes × Option Bytes)} :
    db.writeAll ws = db.writeAll ws' ↔ ∀ key,
      Writes.valueAfter (db.find key) ws key = Writes.valueAfter (db.find key) ws' key := by
  constructor
  · intro h key
    rw [← find_writeAll, h, find_writeAll]
  · intro h
    refine ext_find fun key => ?_
    rw [find_writeAll, find_writeAll, h]

end Badger

inductive Cf
  | default
  | write
  | lock
deriving DecidableEq, Repr

def Cf.name : Cf → Bytes
  | default => ['d', 'e', 'f', 'a', 'u', 'l', 't'].map Char.toUInt8
  | write => ['w', 'r', 'i', 't', 'e'].map Char.toUInt8
  | lock => ['l', 'o', 'c', 'k'].map Char.toUInt8

def cfStart (cf : Bytes) : Bytes := cf ++ ['_'.toUInt8]

def keyWithCF (cf key : Bytes) : Bytes := cfStart cf ++ key

theorem head?_keyWithCF (cf : Cf) (key : Bytes) :
    (keyWithCF cf.name key).head? = cf.name.head? := by
  cases cf <;> rfl

theorem keyWithCF_inj {cf cf' : Cf} {key key' : Bytes} :
    keyWithCF cf.name key = keyWithCF cf'.name key' ↔ cf = cf' ∧ key = key' := by
  constructor
  · intro h
    -- The first letters of the names differ.
    have hletter : cf.name.head? = cf'.name.head? := by
      rw [← head?_keyWithCF cf key, h, head?_keyWithCF]
    obtain rfl : cf = cf' := by
      cases cf <;> cases cf' <;> first | rfl | exact absurd hletter (by decide)
    exact ⟨rfl, append_cancel_left h⟩
  · rintro ⟨rfl, rfl⟩
    rfl

def safeCopy (dst : Option Bytes) (value : Bytes) : Option Bytes :=
  if value = [] then dst.map fun _ => [] else some value

def getCFFromTxn (txn : Badger) (cf key : Bytes) : Except BadgerErr (Option Bytes) := do
  let value ← txn.get (keyWithCF cf key)
  return safeCopy none value

def putCF (fails : Bool) (engine : Badger) (cf key val : Bytes) : Badger × Option BadgerErr :=
  engine.update fails fun txn => txn.set (keyWithCF cf key) val

def deleteCF (fails : Bool) (engine : Badger) (cf key : Bytes) : Badger × Option BadgerErr :=
  engine.update fails fun txn => txn.delete (keyWithCF cf key)

def exceedEndKey (current endKey : Bytes) : Bool :=
  if endKey.length = 0 then false else endKey ≤ current

theorem exceedEndKey_of_le {key key' endKey : Bytes} (hle : key ≤ key')
    (h : exceedEndKey key' endKey = false) : exceedEndKey key endKey = false := by
  unfold exceedEndKey at h ⊢
  split_ifs at h ⊢ with hend
  · rfl
  · rw [decide_eq_false_iff_not, not_le] at h ⊢
    exact hle.trans_lt h

structure BadgerIterator where
  txn : Badger
  rest : List (Bytes × Bytes)
  start : Bytes

def newCFIterator (cf : Bytes) (txn : Badger) : BadgerIterator := ⟨txn, [], cfStart cf⟩

namespace BadgerIterator

def seek (it : BadgerIterator) (key : Bytes) : BadgerIterator :=
  { it with rest := OrderedList.ascendGreaterOrEqual Prod.fst (it.start ++ key) it.txn.pairs }

def valid (it : BadgerIterator) : Bool :=
  match it.rest with
  | [] => false
  | (key, _) :: _ => it.start.isPrefixOf key

def item (it : BadgerIterator) : Option (Bytes × Bytes) :=
  it.rest.head?.map fun p => (p.1.drop it.start.length, p.2)

def next (it : BadgerIterator) : BadgerIterator := { it with rest := it.rest.tail }

def rewind (it : BadgerIterator) : BadgerIterator := { it with rest := it.txn.pairs }

def forLoop {σ : Type} (start : Bytes) (body : Bytes → Bytes → σ → ForInStep σ) :
    List (Bytes × Bytes) → σ → σ
  | [], s => s
  | (key, val) :: rest, s =>
    if start.isPrefixOf key then
      match body (key.drop start.length) val s with
      | .done s => s
      | .yield s => forLoop start body rest s
    else s

def forLoopM {σ ε : Type} (start : Bytes) (body : Bytes → Bytes → σ → Except ε (ForInStep σ)) :
    List (Bytes × Bytes) → σ → Except ε σ
  | [], s => .ok s
  | (key, val) :: rest, s =>
    if start.isPrefixOf key then do
      match ← body (key.drop start.length) val s with
      | .done s => return s
      | .yield s => forLoopM start body rest s
    else .ok s

def items (it : BadgerIterator) : List (Bytes × Bytes) :=
  (it.rest.takeWhile fun p => it.start.isPrefixOf p.1).map
    fun p => (p.1.drop it.start.length, p.2)

variable {cf start key val : Bytes} {txn : Badger}

theorem items_seek : ((newCFIterator cf txn).seek start).items =
    ((OrderedList.ascendGreaterOrEqual Prod.fst (keyWithCF cf start) txn.pairs).filter
      fun p => (cfStart cf).isPrefixOf p.1).map fun p => (p.1.drop (cfStart cf).length, p.2) := by
  have htake := txn.sorted.ascendGreaterOrEqual (k := keyWithCF cf start) |>.takeWhile_eq_filter
    (p := fun p => (cfStart cf).isPrefixOf p.1) ?_
  · rw [← htake]
    rfl
  · intro x hx y _ hlt hy
    -- The key is between two keys of the column family.
    obtain ⟨c, hc⟩ := List.isPrefixOf_iff_prefix.mp hy
    have hle : keyWithCF cf start ≤ x.1 := (OrderedList.mem_ascendGreaterOrEqual.mp hx).2
    exact List.isPrefixOf_iff_prefix.mpr (isPrefix_of_le_of_le hle (hc ▸ hlt.le))

theorem mem_items_seek : (key, val) ∈ ((newCFIterator cf txn).seek start).items ↔
    start ≤ key ∧ (keyWithCF cf key, val) ∈ txn.pairs := by
  rw [items_seek]
  constructor
  · intro h
    obtain ⟨⟨k, v⟩, hmem, heq⟩ := mem_map.mp h
    obtain ⟨hmem, hstart⟩ := mem_filter.mp hmem
    obtain ⟨c, rfl⟩ := List.isPrefixOf_iff_prefix.mp hstart
    obtain ⟨hmem, hle⟩ := OrderedList.mem_ascendGreaterOrEqual.mp hmem
    obtain ⟨rfl, rfl⟩ : c = key ∧ v = val := by simpa using heq
    exact ⟨(append_le_append_left_iff _ _ _).mp hle, hmem⟩
  · rintro ⟨hle, hmem⟩
    refine mem_map.mpr ⟨(keyWithCF cf key, val), mem_filter.mpr ⟨?_, ?_⟩, ?_⟩
    · exact OrderedList.mem_ascendGreaterOrEqual.mpr
        ⟨hmem, (append_le_append_left_iff _ _ _).mpr hle⟩
    · exact List.isPrefixOf_iff_prefix.mpr (prefix_append _ _)
    · simp [keyWithCF]

theorem sorted_items_seek :
    OrderedList.Sorted Prod.fst ((newCFIterator cf txn).seek start).items := by
  rw [items_seek]
  refine pairwise_map.mpr (List.Pairwise.imp_of_mem ?_
    (txn.sorted.ascendGreaterOrEqual.filter _))
  intro x y hx hy hlt
  obtain ⟨a, ha⟩ := List.isPrefixOf_iff_prefix.mp (mem_filter.mp hx).2
  obtain ⟨b, hb⟩ := List.isPrefixOf_iff_prefix.mp (mem_filter.mp hy).2
  rw [← ha, ← hb, append_lt_append_left_iff] at hlt
  simpa [← ha, ← hb] using hlt

theorem forLoop_invariant {σ : Type} {body : Bytes → Bytes → σ → ForInStep σ} {P : σ → Prop}
    (it : BadgerIterator) (hbody : ∀ p ∈ it.items, ∀ s, P s → P (body p.1 p.2 s).value) {s : σ}
    (hs : P s) : P (forLoop it.start body it.rest s) := by
  obtain ⟨txn, rest, start⟩ := it
  induction rest generalizing s with
  | nil => exact hs
  | cons p rest ih =>
    simp only [forLoop, items, takeWhile_cons] at hbody ih ⊢
    split_ifs at hbody ⊢ with hstart
    · have hfirst := hbody (p.1.drop start.length, p.2) (by simp) s hs
      cases hstep : body (p.1.drop start.length) p.2 s with
      | done s' => simpa [hstep] using hfirst
      | yield s' =>
        rw [hstep] at hfirst
        exact ih hfirst fun q hq => hbody q (mem_cons_of_mem _ hq)
    · exact hs

theorem forLoop_until {σ : Type} (stop : Bytes → Bool) (f : Bytes → Bytes → σ → σ)
    (it : BadgerIterator) (s : σ) :
    forLoop it.start (fun key val s => if stop key then .done s else .yield (f key val s))
        it.rest s =
      (it.items.takeWhile fun p => !stop p.1).foldl (fun s p => f p.1 p.2 s) s := by
  obtain ⟨txn, rest, start⟩ := it
  induction rest generalizing s with
  | nil => rfl
  | cons p rest ih =>
    simp only [forLoop, items, takeWhile_cons] at ih ⊢
    by_cases hstart : start.isPrefixOf p.1
    · by_cases hstop : stop (p.1.drop start.length)
      · simp [hstart, hstop]
      · simp [hstart, hstop, ih]
    · simp [hstart]

theorem forLoopM_until {σ ε : Type} (stop : Bytes → Bool) (f : Bytes → Bytes → σ → Except ε σ)
    (it : BadgerIterator) (s : σ) :
    forLoopM it.start
        (fun key val s => if stop key then .ok (.done s) else .yield <$> f key val s) it.rest s =
      (it.items.takeWhile fun p => !stop p.1).foldlM (fun s p => f p.1 p.2 s) s := by
  obtain ⟨txn, rest, start⟩ := it
  induction rest generalizing s with
  | nil => rfl
  | cons p rest ih =>
    simp only [forLoopM, items, takeWhile_cons] at ih ⊢
    by_cases hstart : start.isPrefixOf p.1
    · by_cases hstop : stop (p.1.drop start.length)
      · simp only [hstart, hstop, if_true, map_cons, takeWhile_cons, Bool.not_true,
          Bool.false_eq_true, if_false]
        rfl
      · simp only [hstart, hstop, map_cons, takeWhile_cons, if_true, if_false,
          Bool.not_false, Bool.false_eq_true, foldlM_cons]
        cases f (p.1.drop start.length) p.2 s with
        | error err => rfl
        | ok s' => exact ih s'
    · simp only [hstart, Bool.false_eq_true, if_false]
      rfl

def rangeItems (cf : Bytes) (txn : Badger) (startKey endKey : Bytes) : List (Bytes × Bytes) :=
  ((newCFIterator cf txn).seek startKey).items.filter fun p => !exceedEndKey p.1 endKey

theorem takeWhile_items_seek (cf : Bytes) (txn : Badger) (startKey endKey : Bytes) :
    (((newCFIterator cf txn).seek startKey).items.takeWhile fun p => !exceedEndKey p.1 endKey) =
      rangeItems cf txn startKey endKey := by
  refine sorted_items_seek.takeWhile_eq_filter fun x _ y _ hlt hy => ?_
  simp only [Bool.not_eq_eq_eq_not, Bool.not_true] at hy ⊢
  exact exceedEndKey_of_le hlt.le hy

theorem forLoop_seek {σ : Type} (f : Bytes → Bytes → σ → σ) (cf : Bytes) (txn : Badger)
    (startKey endKey : Bytes) (s : σ) :
    forLoop (cfStart cf)
        (fun key val s => if exceedEndKey key endKey then .done s else .yield (f key val s))
        ((newCFIterator cf txn).seek startKey).rest s =
      (rangeItems cf txn startKey endKey).foldl (fun s p => f p.1 p.2 s) s := by
  rw [← takeWhile_items_seek]
  exact forLoop_until (fun key => exceedEndKey key endKey) f
    ((newCFIterator cf txn).seek startKey) s

theorem forLoopM_seek {σ ε : Type} (f : Bytes → Bytes → σ → Except ε σ) (cf : Bytes)
    (txn : Badger) (startKey endKey : Bytes) (s : σ) :
    forLoopM (cfStart cf)
        (fun key val s => if exceedEndKey key endKey then .ok (.done s) else .yield <$> f key val s)
        ((newCFIterator cf txn).seek startKey).rest s =
      (rangeItems cf txn startKey endKey).foldlM (fun s p => f p.1 p.2 s) s := by
  rw [← takeWhile_items_seek]
  exact forLoopM_until (fun key => exceedEndKey key endKey) f
    ((newCFIterator cf txn).seek startKey) s

theorem mem_rangeItems {endKey : Bytes} : (key, val) ∈ rangeItems cf txn start endKey ↔
    (start ≤ key ∧ exceedEndKey key endKey = false) ∧ (keyWithCF cf key, val) ∈ txn.pairs := by
  rw [rangeItems, mem_filter, mem_items_seek]
  simp only [Bool.not_eq_true', and_assoc]
  exact and_congr_right fun _ => and_comm

theorem sorted_rangeItems {endKey : Bytes} :
    OrderedList.Sorted Prod.fst (rangeItems cf txn start endKey) :=
  sorted_items_seek.filter _

end BadgerIterator

end TinyKV
