import Mathlib.Data.List.Induction
import Mathlib.Data.Nat.Notation

/-!
# Writes to a map

A write sets a key to a value, or deletes it.
-/

namespace TinyKV.Writes

open List

universe u v

variable {κ : Type u} {ν : Type v} [DecidableEq κ] {ws : List (κ × Option ν)}

/-- The last of the writes to a key: a value, or that there is none. -/
def last (ws : List (κ × Option ν)) (k : κ) : Option (Option ν) :=
  (ws.filter fun w => w.1 = k).getLast?.map Prod.snd

def valueAfter (v : Option ν) (ws : List (κ × Option ν)) (k : κ) : Option ν := (last ws k).getD v

theorem last_concat (ws : List (κ × Option ν)) (w : κ × Option ν) (k : κ) :
    last (ws ++ [w]) k = if w.1 = k then some w.2 else last ws k := by
  unfold last
  by_cases hk : w.1 = k
  · simp [hk]
  · simp [hk]

theorem last_map (f : Option ν → Option ν) (ws : List (κ × Option ν)) (k : κ) :
    last (ws.map fun w => (w.1, f w.2)) k = (last ws k).map f := by
  induction ws using List.reverseRecOn with
  | nil => rfl
  | append_singleton ws w ih =>
    rw [map_append, map_singleton, last_concat, last_concat, ih]
    split_ifs <;> rfl

theorem valueAfter_concat (v : Option ν) (ws : List (κ × Option ν)) (w : κ × Option ν) (k : κ) :
    valueAfter v (ws ++ [w]) k = if w.1 = k then w.2 else valueAfter v ws k := by
  unfold valueAfter
  rw [last_concat]
  split_ifs <;> rfl

theorem valueAfter_of_notMem {v : Option ν} {k : κ} (h : k ∉ ws.map Prod.fst) :
    valueAfter v ws k = v := by
  induction ws using List.reverseRecOn with
  | nil => rfl
  | append_singleton ws w ih =>
    simp only [map_append, map_singleton, mem_append, mem_singleton,
      not_or] at h
    rw [valueAfter_concat, if_neg (Ne.symm h.2), ih h.1]

theorem valueAfter_of_forall {v x : Option ν} {k : κ} (hmem : k ∈ ws.map Prod.fst)
    (h : ∀ w ∈ ws, w.1 = k → w.2 = x) : valueAfter v ws k = x := by
  induction ws using List.reverseRecOn with
  | nil => simp at hmem
  | append_singleton ws w ih =>
    rw [valueAfter_concat]
    split_ifs with hk
    · exact h w (by simp) hk
    · have hmem' : k ∈ ws.map Prod.fst := by simpa [Ne.symm hk] using hmem
      exact ih hmem' fun w' hw' => h w' (mem_append_left _ hw')

end TinyKV.Writes
