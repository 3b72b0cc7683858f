import TinyKV.Storage.RawApi

/-!
# Writes that fail

`StandAloneStorage.Write` makes each modification of a batch in a transaction of its own, does not
look at the errors, and returns nil.
-/

namespace TinyKV

open List

def Modify.toWrite : Modify → Bytes × Option Bytes
  | put cf key value => (keyWithCF cf key, some value)
  | delete cf key => (keyWithCF cf key, none)

namespace StandAloneStorage

variable {fails : ℕ → Bool} {db : Badger} {batch : List Modify}

def AllApplied (fails : ℕ → Bool) (db : Badger) (batch : List Modify) : Prop :=
  ∀ i ≤ batch.length,
    (write fails db (batch.take i)).1 = db.writeAll ((batch.take i).map Modify.toWrite)

def WriteReports (fails : ℕ → Bool) (db : Badger) (batch : List Modify) : Prop :=
  let (db', err) := write fails db batch
  (err = none → AllApplied fails db batch) ∧ (err ≠ none → db' = db)

def ChangesNothing (db : Badger) (before : List Modify) (m : Modify) : Prop :=
  Writes.valueAfter (db.find m.toWrite.1) (before.map Modify.toWrite) m.toWrite.1 = m.toWrite.2

def FailsIdly (fails : ℕ → Bool) (db : Badger) (batch : List Modify) : Prop :=
  ∀ i m, batch[i]? = some m → fails i = true → ChangesNothing db (batch.take i) m

theorem writeModify_eq (fails : Bool) (db : Badger) (m : Modify) :
    writeModify fails db m = if fails then db else db.write m.toWrite := by
  cases m <;> cases fails <;> rfl

theorem write_concat (fails : ℕ → Bool) (db : Badger) (batch : List Modify) (m : Modify) :
    (write fails db (batch ++ [m])).1 =
      writeModify (fails batch.length) (write fails db batch).1 m := by
  simp [write, zipIdx_append]

theorem changesNothing_iff {m : Modify} : ChangesNothing db batch m ↔
    db.writeAll (batch.map Modify.toWrite) =
      db.writeAll ((batch ++ [m]).map Modify.toWrite) := by
  rw [Badger.writeAll_eq_iff]
  simp only [map_append, map_singleton, Writes.valueAfter_concat]
  constructor
  · intro h key
    split_ifs with hkey
    · rw [← hkey]
      exact h
    · rfl
  · intro h
    rw [ChangesNothing, h m.toWrite.1, if_pos rfl]

theorem allApplied_concat_iff {m : Modify} : AllApplied fails db (batch ++ [m]) ↔
    AllApplied fails db batch ∧
      (write fails db (batch ++ [m])).1 = db.writeAll ((batch ++ [m]).map Modify.toWrite) := by
  have hlen : (batch ++ [m]).length = batch.length + 1 := by simp
  constructor
  · intro h
    refine ⟨fun i hi => ?_, ?_⟩
    · rw [← take_append_of_le_length hi]
      exact h i (by omega)
    · have hall := h (batch ++ [m]).length le_rfl
      rwa [take_length] at hall
  · rintro ⟨h, hlast⟩ i hi
    rcases Nat.lt_or_ge batch.length i with hlt | hle
    · rwa [take_of_length_le (by omega)]
    · rw [take_append_of_le_length hle]
      exact h i hle

theorem allApplied_concat {m : Modify} : AllApplied fails db (batch ++ [m]) ↔
    AllApplied fails db batch ∧ (fails batch.length = true → ChangesNothing db batch m) := by
  rw [allApplied_concat_iff, and_congr_right_iff]
  intro h
  have hbatch : (write fails db batch).1 = db.writeAll (batch.map Modify.toWrite) := by
    simpa using h batch.length le_rfl
  rw [write_concat, hbatch, writeModify_eq]
  cases fails batch.length with
  | true => simpa using changesNothing_iff.symm
  | false => simp [Badger.writeAll]

theorem allApplied_singleton {m : Modify} :
    AllApplied fails db [m] ↔ (write fails db [m]).1 = db.write m.toWrite := by
  have hnil : AllApplied fails db [] := fun i _ => by simp [write, Badger.writeAll]
  have hconcat := @allApplied_concat_iff fails db [] m
  simpa [hnil, Badger.writeAll] using hconcat

theorem failsIdly_concat {m : Modify} : FailsIdly fails db (batch ++ [m]) ↔
    FailsIdly fails db batch ∧ (fails batch.length = true → ChangesNothing db batch m) := by
  constructor
  · intro h
    refine ⟨fun i m' hm' hi => ?_, fun hfails => ?_⟩
    · have hlt := (List.getElem?_eq_some_iff.mp hm').1
      have hm := h i m' (by rwa [getElem?_append_left hlt]) hi
      rwa [take_append_of_le_length hlt.le] at hm
    · simpa using h batch.length m (by simp) hfails
  · rintro ⟨h, hlast⟩ i m' hm' hi
    have hlt : i < batch.length + 1 := by simpa using (List.getElem?_eq_some_iff.mp hm').1
    rw [take_append_of_le_length (by omega)]
    rcases Nat.lt_or_eq_of_le (Nat.le_of_lt_succ hlt) with hlt | rfl
    · rw [getElem?_append_left hlt] at hm'
      exact h i m' hm' hi
    · obtain rfl : m = m' := by simpa using hm'
      simpa using hlast hi

theorem allApplied_iff : AllApplied fails db batch ↔ FailsIdly fails db batch := by
  induction batch using List.reverseRecOn with
  | nil => simp [AllApplied, FailsIdly, write, Badger.writeAll]
  | append_singleton batch m ih => rw [allApplied_concat, failsIdly_concat, ih]

theorem writeReports_iff : WriteReports fails db batch ↔ FailsIdly fails db batch := by
  have herr : (write fails db batch).2 = none := rfl
  simp [WriteReports, herr, allApplied_iff]

end StandAloneStorage

namespace RawServer

open StandAloneStorage

def PutReports (fails : ℕ → Bool) (db : Badger) (cf key value : Bytes) : Prop :=
  let (db', res) := rawPut fails db cf key value
  ∀ resp, res = .ok resp → db' = db.set (keyWithCF cf key) value

/-- `RawDelete` returns success only if the key is gone. -/
def DeleteReports (fails : ℕ → Bool) (db : Badger) (cf key : Bytes) : Prop :=
  let (db', res) := rawDelete fails db cf key
  ∀ resp, res = .ok resp → db' = db.delete (keyWithCF cf key)

variable {fails : ℕ → Bool}

theorem failsIdly_singleton {db : Badger} {m : Modify} :
    FailsIdly fails db [m] ↔ (fails 0 = true → db.find m.toWrite.1 = m.toWrite.2) := by
  have hconcat := @failsIdly_concat fails db [] m
  have hnil : FailsIdly fails db [] := by simp [FailsIdly]
  have hbefore : ChangesNothing db [] m ↔ db.find m.toWrite.1 = m.toWrite.2 := Iff.rfl
  simpa [hnil, hbefore] using hconcat

theorem putReports_iff {db : Badger} {cf key value : Bytes} :
    PutReports fails db cf key value ↔
      (fails 0 = true → db.find (keyWithCF cf key) = some value) := by
  have hbatch : PutReports fails db cf key value ↔
      AllApplied fails db [.put cf key value] := by
    simp [PutReports, allApplied_singleton, rawPut, write, Badger.write, Modify.toWrite]
  rw [hbatch, allApplied_iff]
  exact failsIdly_singleton

theorem deleteReports_iff {db : Badger} {cf key : Bytes} :
    DeleteReports fails db cf key ↔ (fails 0 = true → db.find (keyWithCF cf key) = none) := by
  have hbatch : DeleteReports fails db cf key ↔ AllApplied fails db [.delete cf key] := by
    simp [DeleteReports, allApplied_singleton, rawDelete, write, Badger.write, Modify.toWrite]
  rw [hbatch, allApplied_iff]
  exact failsIdly_singleton

/-- For every batch, every data and every pattern of failures: `Write` reports what it does exactly
if only transactions fail whose modifications change nothing, and `RawPut` and `RawDelete` do so
exactly if their transaction succeeds or the key is as they ask for before. -/
theorem write_reports_iff (fails : ℕ → Bool) (db : Badger) :
    (∀ batch, WriteReports fails db batch ↔ FailsIdly fails db batch) ∧
      (∀ cf key value, PutReports fails db cf key value ↔
        (fails 0 = true → db.find (keyWithCF cf key) = some value)) ∧
      ∀ cf key, DeleteReports fails db cf key ↔
        (fails 0 = true → db.find (keyWithCF cf key) = none) :=
  ⟨fun _ => writeReports_iff, fun _ _ _ => putReports_iff, fun _ _ => deleteReports_iff⟩

theorem put_lost :
    (rawPut (fun _ => true) .empty Cf.default.name [107] [118]).2 = .ok .put ∧
      (rawPut (fun _ => true) .empty Cf.default.name [107] [118]).1.pairs = [] ∧
      ¬ PutReports (fun _ => true) .empty Cf.default.name [107] [118] ∧
      ¬ WriteReports (fun _ => true) .empty [.put Cf.default.name [107] [118]] := by
  have hfind : Badger.empty.find (keyWithCF Cf.default.name [107]) ≠ some [118] := by decide
  refine ⟨rfl, rfl, fun h => hfind (putReports_iff.mp h rfl), fun h => ?_⟩
  exact hfind (failsIdly_singleton.mp (writeReports_iff.mp h) rfl)

end RawServer

end TinyKV
