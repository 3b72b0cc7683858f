import TinyKV.GoMap
import Mathlib.Data.List.TakeDrop

/-!
# Files of a directory

A directory is a map from names to contents.
-/

namespace TinyKV

open List

abbrev Directory (ν : Type) := AList fun _ : ν => List UInt8

namespace Directory

/-- A file that is open, and where it is read or written next. -/
structure Handle (ν : Type) where
  name : ν
  offset : ℕ
deriving DecidableEq, Repr

def overwrite (content : List UInt8) (offset : ℕ) (b : List UInt8) : List UInt8 :=
  content.take offset ++ List.replicate (offset - content.length) 0 ++ b ++
    content.drop (offset + b.length)

variable {ν : Type} [DecidableEq ν]

def fileExists (d : Directory ν) (name : ν) : Bool := (d.lookup name).isSome

def openFile (d : Directory ν) (name : ν) : Directory ν :=
  if d.fileExists name then d else d.insert name []

def write (d : Directory ν) (h : Handle ν) (b : List UInt8) : Directory ν :=
  match d.lookup h.name with
  | some content => d.insert h.name (overwrite content h.offset b)
  | none => d

def following (d : Directory ν) (h : Handle ν) : List UInt8 :=
  ((d.lookup h.name).getD []).drop h.offset

theorem following_add (d : Directory ν) (h : Handle ν) (k : ℕ) :
    d.following { h with offset := h.offset + k } = (d.following h).drop k := by
  rw [following, following, drop_drop]

def rename (d : Directory ν) (old new : ν) : Option (Directory ν) :=
  (d.lookup old).map fun content => (d.erase old).insert new content

def written (old b : List UInt8) : List UInt8 := b ++ old.drop b.length

@[simp]
theorem written_nil (old : List UInt8) : written old [] = old := rfl

theorem overwrite_written (old b c : List UInt8) :
    overwrite (written old b) b.length c = written old (b ++ c) := by
  have hlength : b.length - (written old b).length = 0 := by simp [written]
  rw [overwrite, hlength]
  simp [written, drop_drop]

theorem overwrite_zero (old b : List UInt8) : overwrite old 0 b = written old b :=
  overwrite_written old [] b

theorem length_written (old b : List UInt8) : (written old b).length = max old.length b.length := by
  rw [written, length_append, length_drop]
  omega

theorem written_eq_iff {old b : List UInt8} : written old b = b ↔ old.length ≤ b.length := by
  simp [written]

variable {d : Directory ν} {name : ν}

theorem fileExists_iff : d.fileExists name = true ↔ ∃ content, d.lookup name = some content :=
  Option.isSome_iff_exists

theorem fileExists_eq_false : d.fileExists name = false ↔ d.lookup name = none := by
  simp [fileExists]

theorem lookup_openFile (d : Directory ν) (name name' : ν) :
    (d.openFile name).lookup name' =
      if name' = name then some ((d.lookup name).getD []) else d.lookup name' := by
  unfold openFile
  split_ifs with hexists hname hname
  · obtain ⟨content, hcontent⟩ := fileExists_iff.mp hexists
    rw [hname, hcontent, Option.getD_some]
  · rfl
  · have hnone : d.lookup name = none := by simpa [fileExists] using hexists
    rw [hname, AList.lookup_insert, hnone, Option.getD_none]
  · exact AList.lookup_insert_ne hname

theorem lookup_write (d : Directory ν) (h : Handle ν) (b : List UInt8) (name : ν) :
    (d.write h b).lookup name =
      if name = h.name then (d.lookup name).map fun content => overwrite content h.offset b
      else d.lookup name := by
  unfold write
  split_ifs with hname
  · subst hname
    cases hcontent : d.lookup h.name with
    | none => simp [hcontent]
    | some content => simp
  · cases hcontent : d.lookup h.name with
    | none => rfl
    | some content => exact AList.lookup_insert_ne hname

theorem lookup_erase_eq (d : Directory ν) (name name' : ν) :
    (d.erase name).lookup name' = if name' = name then none else d.lookup name' := by
  split_ifs with hname
  · rw [hname, AList.lookup_erase]
  · exact AList.lookup_erase_ne hname

variable {d' : Directory ν}

theorem lookup_rename {old new : ν} (h : d.rename old new = some d') (name : ν) : d'.lookup name =
      if name = new then d.lookup old else if name = old then none else d.lookup name := by
  obtain ⟨content, hcontent, rfl⟩ := Option.map_eq_some_iff.mp h
  split_ifs with hnew hold
  · rw [hnew, AList.lookup_insert, hcontent]
  · rw [AList.lookup_insert_ne hnew, hold, AList.lookup_erase]
  · rw [AList.lookup_insert_ne hnew, AList.lookup_erase_ne hold]

def totalSize (P : ν → Bool) (d : Directory ν) : ℤ :=
  GoMap.weight (fun name content => if P name then (content.length : ℤ) else 0) d

/-- The size of a file in a directory. -/
def sizeOf (d : Directory ν) (name : ν) : ℤ := ((d.lookup name).getD []).length

variable {P : ν → Bool}

theorem totalSize_erase (d : Directory ν) (name : ν) :
    totalSize P (d.erase name) = totalSize P d - if P name then d.sizeOf name else 0 := by
  rw [totalSize, GoMap.weight_erase, ← totalSize, sizeOf]
  cases d.lookup name <;> simp

theorem totalSize_insert (d : Directory ν) (name : ν) (content : List UInt8) :
    totalSize P (d.insert name content) =
      totalSize P d + if P name then content.length - d.sizeOf name else 0 := by
  rw [totalSize, GoMap.weight_insert, ← totalSize, totalSize_erase]
  split_ifs <;> omega

theorem totalSize_erase_of_not (hname : P name = false) :
    totalSize P (d.erase name) = totalSize P d := by
  rw [totalSize_erase, hname]
  simp

theorem totalSize_congr (h : ∀ name, P name = true → d.lookup name = d'.lookup name) :
    totalSize P d = totalSize P d' :=
  GoMap.weight_congr P h

theorem totalSize_rename {old new : ν} (h : d.rename old new = some d') (hold : P old = false)
    (hnew : P new = true) : totalSize P d' = totalSize P d + (d.sizeOf old - d.sizeOf new) := by
  have hne : new ≠ old := by
    rintro rfl
    simp [hold] at hnew
  obtain ⟨content, hcontent, rfl⟩ := Option.map_eq_some_iff.mp h
  rw [totalSize_insert, totalSize_erase_of_not hold, hnew, if_pos rfl, sizeOf, sizeOf, sizeOf,
    lookup_erase_eq, if_neg hne, hcontent, Option.getD_some]

end Directory

end TinyKV
