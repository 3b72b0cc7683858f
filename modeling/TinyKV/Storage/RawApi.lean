import TinyKV.Storage.EngineUtil

/-!
# The raw API

`RawGet`, `RawPut`, `RawDelete` and `RawScan` of `kv/server/raw_api.go`, on the storage of
`kv/storage/standalone_storage`.
-/

namespace TinyKV

inductive Modify
  | put (cf key value : Bytes)
  | delete (cf key : Bytes)

namespace StandAloneStorage

def writeModify (fails : Bool) (db : Badger) : Modify → Badger
  | .put cf key value => (putCF fails db cf key value).1
  | .delete cf key => (deleteCF fails db cf key).1

def write (fails : ℕ → Bool) (db : Badger) (batch : List Modify) : Badger × Option BadgerErr :=
  (batch.zipIdx.foldl (fun db m => writeModify (fails m.2) db m.1) db, none)

def getCF (txn : Badger) (cf key : Bytes) : Except BadgerErr (Option Bytes) :=
  match getCFFromTxn txn cf key with
  | .error .keyNotFound => .ok none
  | r => r

end StandAloneStorage

structure KvPair where
  key : Bytes
  value : Bytes
deriving DecidableEq, Repr

inductive RawRequest
  | get (cf : Cf) (key : Bytes)
  | put (cf : Cf) (key value : Bytes)
  | delete (cf : Cf) (key : Bytes)
  | scan (cf : Cf) (startKey : Bytes) (limit : ℕ)

inductive RawResponse
  | get (value : Option Bytes) (notFound : Bool)
  | put
  | delete
  | scan (kvs : List KvPair)
deriving DecidableEq, Repr

namespace RawServer

open StandAloneStorage

def dropErr (r : Except BadgerErr (Option Bytes)) : Option Bytes :=
  match r with
  | .ok val => val
  | .error _ => none

def rawGet (db : Badger) (cf key : Bytes) : RawResponse :=
  let val := dropErr (getCF db cf key)
  .get val val.isNone

def rawPut (fails : ℕ → Bool) (db : Badger) (cf key value : Bytes) :
    Badger × Except BadgerErr RawResponse :=
  match write fails db [.put cf key value] with
  | (db, some err) => (db, .error err)
  | (db, none) => (db, .ok .put)

def rawDelete (fails : ℕ → Bool) (db : Badger) (cf key : Bytes) :
    Badger × Except BadgerErr RawResponse :=
  match write fails db [.delete cf key] with
  | (db, some err) => (db, .error err)
  | (db, none) => (db, .ok .delete)

def scanBody (limit : ℕ) (key val : Bytes) (kvs : List KvPair) : ForInStep (List KvPair) :=
  if limit ≤ kvs.length then .done kvs else .yield (kvs ++ [⟨key, val⟩])

def rawScan (db : Badger) (cf startKey : Bytes) (limit : ℕ) : RawResponse :=
  let iter := (newCFIterator cf db).seek startKey
  .scan (BadgerIterator.forLoop iter.start (scanBody limit) iter.rest [])

def handle (db : Badger) : RawRequest → Badger × Except BadgerErr RawResponse
  | .get cf key => (db, .ok (rawGet db cf.name key))
  | .put cf key value => rawPut (fun _ => false) db cf.name key value
  | .delete cf key => rawDelete (fun _ => false) db cf.name key
  | .scan cf startKey limit => (db, .ok (rawScan db cf.name startKey limit))

def after (history : List RawRequest) : Badger :=
  history.foldl (fun db req => (handle db req).1) .empty

def respond (history : List RawRequest) (req : RawRequest) : Except BadgerErr RawResponse :=
  (handle (after history) req).2

end RawServer

def RawRequest.cf : RawRequest → Cf
  | get cf _ | put cf _ _ | delete cf _ | scan cf _ _ => cf

def RawRequest.written (cf : Cf) (key : Bytes) : RawRequest → Option (Option Bytes)
  | put cf' key' value => if cf = cf' ∧ key = key' then some (some value) else none
  | delete cf' key' => if cf = cf' ∧ key = key' then some none else none
  | get _ _ | scan _ _ _ => none

namespace RawServer

def live (history : List RawRequest) (cf : Cf) (key : Bytes) : Option Bytes :=
  (history.filterMap (RawRequest.written cf key)).getLast?.join

def FirstLive (history : List RawRequest) (cf : Cf) (startKey : Bytes) (limit : ℕ)
    (kvs : List KvPair) : Prop :=
  ∃ pairs : List KvPair, OrderedList.Sorted KvPair.key pairs ∧
    (∀ p, p ∈ pairs ↔ startKey ≤ p.key ∧ live history cf p.key = some p.value) ∧
    kvs = pairs.take limit

def Correct (history : List RawRequest) : RawRequest → Except BadgerErr RawResponse → Prop
  | .get cf key, .ok (.get value notFound) =>
    match live history cf key with
    | some v => notFound = false ∧ value.getD [] = v
    | none => notFound = true
  | .put _ _ _, .ok .put => True
  | .delete _ _, .ok .delete => True
  | .scan cf startKey limit, .ok (.scan kvs) => FirstLive history cf startKey limit kvs
  | _, _ => False

/-- The data has the live pairs of every column family. -/
def Refines (db : Badger) (m : Cf → Bytes → Option Bytes) : Prop :=
  ∀ cf key value, (keyWithCF cf.name key, value) ∈ db.pairs ↔ m cf key = some value

variable {db : Badger} {history : List RawRequest} {m : Cf → Bytes → Option Bytes}

theorem live_concat (req : RawRequest) (cf : Cf) (key : Bytes) :
    live (history ++ [req]) cf key = (req.written cf key).getD (live history cf key) := by
  unfold live
  rw [List.filterMap_append]
  cases h : req.written cf key with
  | none => simp [h]
  | some w => simp [h]

theorem Refines.handle (h : Refines db (live history)) (req : RawRequest) :
    Refines (handle db req).1 (live (history ++ [req])) := by
  intro cf key value
  rw [live_concat]
  cases req with
  | get cf' key' => exact h cf key value
  | scan cf' startKey limit => exact h cf key value
  | put cf' key' value' =>
    have hset : (RawServer.handle db (.put cf' key' value')).1 =
      db.set (keyWithCF cf'.name key') value' := rfl
    rw [hset, Badger.mem_set, ne_eq, keyWithCF_inj, RawRequest.written]
    by_cases heq : cf = cf' ∧ key = key'
    · obtain ⟨rfl, rfl⟩ := heq
      simp [eq_comm]
    · simpa [heq] using h cf key value
  | delete cf' key' =>
    have hdelete : (RawServer.handle db (.delete cf' key')).1 =
      db.delete (keyWithCF cf'.name key') := rfl
    rw [hdelete, Badger.mem_delete_iff, ne_eq, keyWithCF_inj, RawRequest.written]
    by_cases heq : cf = cf' ∧ key = key'
    · obtain ⟨rfl, rfl⟩ := heq
      simp
    · simpa [heq] using h cf key value

theorem refines_after (history : List RawRequest) : Refines (after history) (live history) := by
  induction history using List.reverseRecOn with
  | nil =>
    intro cf key value
    simp [after, live, Badger.empty]
  | append_singleton history req ih =>
    have hafter : after (history ++ [req]) = (RawServer.handle (after history) req).1 := by
      simp [after]
    rw [hafter]
    exact ih.handle req

theorem Refines.rawGet_of_some (h : Refines db m) {cf : Cf} {key value : Bytes}
    (hlive : m cf key = some value) :
    rawGet db cf.name key = .get (safeCopy none value) (safeCopy none value).isNone := by
  have hget := Badger.get_eq_ok ((h cf key value).mpr hlive)
  simp [rawGet, StandAloneStorage.getCF, getCFFromTxn, hget, dropErr]

theorem Refines.rawGet_of_none (h : Refines db m) {cf : Cf} {key : Bytes}
    (hlive : m cf key = none) : rawGet db cf.name key = .get none true := by
  have hget : db.get (keyWithCF cf.name key) = .error .keyNotFound :=
    Badger.get_eq_error fun value hmem => by simp [(h cf key value).mp hmem] at hlive
  simp [rawGet, StandAloneStorage.getCF, getCFFromTxn, hget, dropErr]

theorem forLoop_scanBody (limit : ℕ) (it : BadgerIterator) (kvs : List KvPair) :
    BadgerIterator.forLoop it.start (scanBody limit) it.rest kvs =
      kvs ++ (it.items.map fun p => ⟨p.1, p.2⟩).take (limit - kvs.length) := by
  obtain ⟨txn, rest, start⟩ := it
  induction rest generalizing kvs with
  | nil => simp [BadgerIterator.forLoop, BadgerIterator.items]
  | cons p rest ih =>
    -- The loop ends at the first key of another column family, or when the limit is reached.
    simp only [BadgerIterator.forLoop, BadgerIterator.items, List.takeWhile_cons] at ih ⊢
    by_cases hstart : start.isPrefixOf p.1
    · by_cases hlimit : limit ≤ kvs.length
      · simp [hstart, scanBody, hlimit]
      · have hsub : limit - kvs.length = limit - (kvs.length + 1) + 1 := by omega
        simp [hstart, scanBody, hlimit, ih, hsub]
    · simp [hstart]

theorem Refines.rawScan (h : Refines db (live history)) (cf : Cf) (startKey : Bytes) (limit : ℕ) :
    ∃ kvs, rawScan db cf.name startKey limit = .scan kvs ∧
      FirstLive history cf startKey limit kvs := by
  refine ⟨_, rfl, ((newCFIterator cf.name db).seek startKey).items.map fun p => ⟨p.1, p.2⟩,
    ?_, ?_, ?_⟩
  · exact List.pairwise_map.mpr BadgerIterator.sorted_items_seek
  · rintro ⟨key, value⟩
    rw [← h cf key value, ← BadgerIterator.mem_items_seek]
    simp
  · rw [forLoop_scanBody]
    simp

theorem FirstLive.unique {history' : List RawRequest} {cf : Cf} {startKey : Bytes} {limit : ℕ}
    {kvs kvs' : List KvPair} (hcf : live history' cf = live history cf)
    (h : FirstLive history cf startKey limit kvs)
    (h' : FirstLive history' cf startKey limit kvs') : kvs' = kvs := by
  obtain ⟨pairs, hsorted, hmem, rfl⟩ := h
  obtain ⟨pairs', hsorted', hmem', rfl⟩ := h'
  rw [hsorted'.ext hsorted fun p => by rw [hmem', hmem, hcf]]

theorem live_concat_of_ne {req : RawRequest} {cf : Cf} (h : req.cf ≠ cf) :
    live (history ++ [req]) cf = live history cf := by
  funext key
  have hwritten : req.written cf key = none := by
    cases req with
    | get | scan => rfl
    | put cf' _ _ => exact if_neg fun heq => h heq.1.symm
    | delete cf' _ => exact if_neg fun heq => h heq.1.symm
  rw [live_concat, hwritten, Option.getD_none]

theorem correct_get_iff (history : List RawRequest) (cf : Cf) (key : Bytes) :
    Correct history (.get cf key) (respond history (.get cf key)) ↔
      live history cf key ≠ some [] := by
  have hrefines := refines_after history
  have hrespond : respond history (.get cf key) = .ok (rawGet (after history) cf.name key) := rfl
  rw [hrespond]
  cases hlive : live history cf key with
  | none => simp [hrefines.rawGet_of_none hlive, Correct, hlive]
  | some value =>
    rw [hrefines.rawGet_of_some hlive]
    -- The copy of an empty value is nil, which `RawGet` takes for a key that is not there.
    by_cases hvalue : value = []
    · simp [hvalue, Correct, hlive, safeCopy]
    · simp [hvalue, Correct, hlive, safeCopy]

theorem respond_concat_of_ne {req req' : RawRequest} (h : req'.cf ≠ req.cf) :
    respond (history ++ [req']) req = respond history req := by
  have hrefines := refines_after history
  have hrefines' := refines_after (history ++ [req'])
  have hcf : live (history ++ [req']) req.cf = live history req.cf := live_concat_of_ne h
  cases req with
  | put | delete => rfl
  | get cf key =>
    refine congrArg Except.ok ?_
    cases hlive : live history cf key with
    | none =>
      have hlive' : live (history ++ [req']) cf key = none := by
        rw [← hlive]
        exact congrFun hcf key
      rw [hrefines.rawGet_of_none hlive, hrefines'.rawGet_of_none hlive']
    | some value =>
      have hlive' : live (history ++ [req']) cf key = some value := by
        rw [← hlive]
        exact congrFun hcf key
      rw [hrefines.rawGet_of_some hlive, hrefines'.rawGet_of_some hlive']
  | scan cf startKey limit =>
    obtain ⟨kvs, hkvs, hfirst⟩ := hrefines.rawScan cf startKey limit
    obtain ⟨kvs', hkvs', hfirst'⟩ := hrefines'.rawScan cf startKey limit
    refine congrArg Except.ok ?_
    rw [hkvs, hkvs', hfirst.unique hcf hfirst']

/-- After any requests: the response to a request is as it should be, unless it is a `RawGet` of a
live key with an empty value. Requests for other column families do not change the response. -/
theorem respond_correct_iff (history : List RawRequest) (req : RawRequest) :
    (Correct history req (respond history req) ↔
      ∀ cf key, req = .get cf key → live history cf key ≠ some []) ∧
    ∀ req', req'.cf ≠ req.cf → respond (history ++ [req']) req = respond history req := by
  refine ⟨?_, fun req' h => respond_concat_of_ne h⟩
  cases req with
  | put | delete => simp [respond, handle, rawPut, rawDelete, StandAloneStorage.write, Correct]
  | get cf key =>
    rw [correct_get_iff]
    constructor
    · rintro h cf' key' heq
      obtain ⟨rfl, rfl⟩ : cf = cf' ∧ key = key' := by simpa using heq
      exact h
    · intro h
      exact h cf key rfl
  | scan cf startKey limit =>
    obtain ⟨kvs, hkvs, hfirst⟩ := (refines_after history).rawScan cf startKey limit
    have hrespond : respond history (.scan cf startKey limit) = .ok (.scan kvs) :=
      congrArg Except.ok hkvs
    rw [hrespond]
    simpa [Correct] using hfirst

theorem empty_value_not_found :
    respond [.put .default [107] []] (.get .default [107]) = .ok (.get none true) ∧
      live [.put .default [107] []] .default [107] = some [] ∧
      ¬ Correct [.put .default [107] []] (.get .default [107])
        (respond [.put .default [107] []] (.get .default [107])) := by
  have hlive : live [.put .default [107] []] .default [107] = some [] := by decide
  exact ⟨by decide, hlive, fun h => (correct_get_iff _ _ _).mp h hlive⟩

end RawServer

end TinyKV
