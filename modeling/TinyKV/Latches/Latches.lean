import TinyKV.Go
import TinyKV.GoMap

/-!
# `Latches` of `kv/transaction/latches/latches.go`

`latchMap` has a pointer to a wait group for every key that is latched, the same for keys that were
latched together.
-/

namespace TinyKV

open List

structure WaitGroup where
  adds : ℕ := 0
  dones : ℕ := 0
deriving DecidableEq, Repr

def WaitGroup.add (wg : WaitGroup) (delta : ℕ) : WaitGroup := { wg with adds := wg.adds + delta }

def WaitGroup.done (wg : WaitGroup) : Go WaitGroup :=
  if wg.dones < wg.adds then .ok { wg with dones := wg.dones + 1 }
  else .error (.text "sync: negative WaitGroup counter")

def WaitGroup.Open (wg : WaitGroup) : Prop := wg.adds = wg.dones

instance (wg : WaitGroup) : Decidable wg.Open := inferInstanceAs (Decidable (_ = _))

abbrev LatchKey := List UInt8

structure Latches where
  latchMap : AList fun _ : LatchKey => ℕ := ∅
  groups : List WaitGroup := []
deriving DecidableEq

def newLatches : Latches := {}

namespace Latches

def acquireLatches (l : Latches) (keysToLatch : List LatchKey) : Option ℕ × Latches :=
  match keysToLatch.findSome? fun key => l.latchMap.lookup key with
  | some latchWg => (some latchWg, l)
  | none =>
    let wg := l.groups.length
    (none, {
      latchMap := keysToLatch.foldl (fun m key => m.insert key wg) l.latchMap
      groups := l.groups ++ [WaitGroup.add {} 1] })

def done (l : Latches) (wg : Option ℕ) : Go Latches := do
  let ptr ← Go.deref wg
  let group ← Go.deref l.groups[ptr]?
  let group ← group.done
  return { l with groups := l.groups.set ptr group }

def releaseLatch (st : Latches × Bool) (key : LatchKey) : Go (Latches × Bool) := do
  let l ← if st.2 then st.1.done (st.1.latchMap.lookup key) else pure st.1
  return ({ l with latchMap := l.latchMap.erase key }, false)

def releaseLatches (l : Latches) (keysToUnlatch : List LatchKey) : Go Latches := do
  let (l, _) ← keysToUnlatch.foldlM releaseLatch (l, true)
  return l

/-- How often `Done` has been called on a group. -/
def dones (l : Latches) (g : ℕ) : ℕ := (l.groups[g]?).elim 0 WaitGroup.dones

variable {l l' : Latches} {keys : List LatchKey} {g : ℕ}

theorem of_acquireLatches_some (h : l.acquireLatches keys = (some g, l')) :
    l' = l ∧ ∃ k ∈ keys, l.latchMap.lookup k = some g := by
  unfold acquireLatches at h
  cases hfind : keys.findSome? fun key => l.latchMap.lookup key with
  | none =>
    rw [hfind] at h
    cases h
  | some wg =>
    rw [hfind] at h
    obtain ⟨rfl, rfl⟩ : wg = g ∧ l = l' := by simpa using h
    exact ⟨rfl, exists_of_findSome?_eq_some hfind⟩

theorem of_acquireLatches_none (h : l.acquireLatches keys = (none, l')) :
    (∀ k ∈ keys, l.latchMap.lookup k = none) ∧ l'.groups = l.groups ++ [⟨1, 0⟩] ∧
      ∀ k, l'.latchMap.lookup k =
        if k ∈ keys then some l.groups.length else l.latchMap.lookup k := by
  unfold acquireLatches at h
  cases hfind : keys.findSome? fun key => l.latchMap.lookup key with
  | some wg =>
    rw [hfind] at h
    cases h
  | none =>
    rw [hfind] at h
    obtain rfl := (Prod.ext_iff.mp h).2
    refine ⟨findSome?_eq_none_iff.mp hfind, rfl, fun k => ?_⟩
    simp [GoMap.lookup_foldl_insert]

theorem foldlM_releaseLatch_false (l : Latches) (keys : List LatchKey) :
    keys.foldlM releaseLatch (l, false) =
      .ok ({ l with latchMap := keys.foldl (fun m key => m.erase key) l.latchMap }, false) := by
  induction keys generalizing l with
  | nil => rfl
  | cons key keys ih =>
    have hpass : releaseLatch (l, false) key =
        .ok ({ l with latchMap := l.latchMap.erase key }, false) := rfl
    rw [foldlM_cons, hpass, Go.ok_bind, ih, foldl_cons]

theorem releaseLatches_nil (l : Latches) : l.releaseLatches [] = .ok l := rfl

theorem releaseLatches_eq (hne : keys ≠ []) (hkeys : ∀ k ∈ keys, l.latchMap.lookup k = some g)
    (hg : l.groups[g]? = some ⟨1, 0⟩) :
    l.releaseLatches keys = .ok {
      latchMap := keys.foldl (fun m key => m.erase key) l.latchMap
      groups := l.groups.set g ⟨1, 1⟩ } := by
  cases keys with
  | nil => exact absurd rfl hne
  | cons key keys =>
    have hpass : releaseLatch (l, true) key = .ok
        ({ latchMap := l.latchMap.erase key, groups := l.groups.set g ⟨1, 1⟩ }, false) := by
      simp [releaseLatch, done, hkeys key mem_cons_self, hg, WaitGroup.done]
    simp only [releaseLatches, foldlM_cons, hpass, Go.ok_bind, foldlM_releaseLatch_false,
      foldl_cons, Go.pure_eq_ok]

end Latches

end TinyKV
