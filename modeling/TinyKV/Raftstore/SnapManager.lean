import TinyKV.Raftstore.SnapBuilder
import TinyKV.Raftstore.SnapMeta

/-!
# The manager of the snapshots

`SnapManager` of `kv/raftstore/snap/snap_manager.go`, and what `doSnapshot` of
`kv/raftstore/runner/region_task.go` does with it.
-/

namespace TinyKV

open List

inductive SnapEntry
  | generating
  | sending
  | receiving
  | applying
deriving DecidableEq, Repr

structure SnapKeyWithSending where
  snapKey : SnapKey
  isSending : Bool
deriving DecidableEq, Repr

namespace SnapKeyWithSending

def less (i j : SnapKeyWithSending) : Bool :=
  if i.snapKey.regionID = j.snapKey.regionID then
    if i.snapKey.term = j.snapKey.term then
      if i.snapKey.index = j.snapKey.index then !i.isSending
      else i.snapKey.index < j.snapKey.index
    else i.snapKey.term < j.snapKey.term
  else i.snapKey.regionID < j.snapKey.regionID

end SnapKeyWithSending

structure SnapManager where
  dir : SnapDir
  registry : AList fun _ : SnapKey => List SnapEntry
  maxTotalSize : UInt64

namespace SnapManager

def newSnapManager (files : Directory FileName) (maxTotalSize : UInt64) : SnapManager where
  dir := ⟨files, 0⟩
  registry := ∅
  maxTotalSize := if 0 < maxTotalSize then maxTotalSize else UInt64.ofNat (2 ^ 64 - 1)

def initFile (d : SnapDir) (name : FileName) (content : Bytes) : SnapDir :=
  if name.tmp then { d with files := d.files.erase name }
  else if name.cf.isSome then { d with sizeTrack := int64 (d.sizeTrack + content.length) }
  else d

def init (sm : SnapManager) : SnapManager :=
  { sm with dir := sm.dir.files.entries.foldl (fun d fi => initFile d fi.1 fi.2) sm.dir }

def hasRegistered (sm : SnapManager) (key : SnapKey) : Bool := (sm.registry.lookup key).isSome

def register (sm : SnapManager) (key : SnapKey) (entry : SnapEntry) : SnapManager :=
  let entries := (sm.registry.lookup key).getD []
  if entry ∈ entries then sm
  else { sm with registry := sm.registry.insert key (entries ++ [entry]) }

def deregister (sm : SnapManager) (key : SnapKey) (entry : SnapEntry) : SnapManager :=
  let entries := (sm.registry.lookup key).getD []
  if entry ∈ entries then
    let entries := entries.erase entry
    { sm with
      registry := if 0 < entries.length then sm.registry.insert key entries
        else sm.registry.erase key }
  else sm

def deleteSnapshot (registry : AList fun _ : SnapKey => List SnapEntry) : SnapshotDeleter :=
  fun d key snapshot checkEntry =>
    match registry.lookup key with
    | none => (snapshot.delete d, true)
    | some entries =>
      -- An entry of the caller itself counts as well.
      if checkEntry then if 0 < entries.length then (d, false) else (snapshot.delete d, true)
      else (d, false)

def listIdleSnap (sm : SnapManager) : List SnapKeyWithSending :=
  (((sm.dir.files.keys.filter fun name => name.cf.isNone && !name.tmp).map fun name =>
      (⟨name.key, name.isSending⟩ : SnapKeyWithSending)).filter fun key =>
    !sm.hasRegistered key.snapKey).insertionSort fun i j => i.less j = true

def getTotalSnapSize (sm : SnapManager) : UInt64 := UInt64.ofInt sm.dir.sizeTrack

def getSnapshotForSending (F : Formats) (sm : SnapManager) (key : SnapKey) : Except SnapErr Snap :=
  Snap.newSnapForSending F sm.dir key

def getSnapshotForApplying (F : Formats) (sm : SnapManager) (key : SnapKey) :
    Except SnapErr Snap := do
  let snap ← Snap.newSnapForApplying F sm.dir key
  if snap.existsOn sm.dir.files then return snap else .error (.notExists key)

structure SnapWithModTime where
  key : SnapKey
  snap : Snap
  modTime : ℕ

def loadIdleSnaps (F : Formats) (modTime : SnapKey → ℕ) (sm : SnapManager) :
    List SnapKeyWithSending → Except SnapErr (List SnapWithModTime)
  | [] => .ok []
  | idleSnap :: idleSnaps =>
    if !idleSnap.isSending then loadIdleSnaps F modTime sm idleSnaps
    else
      match sm.getSnapshotForSending F idleSnap.snapKey with
      | .error _ => loadIdleSnaps F modTime sm idleSnaps
      | .ok snap =>
        if sm.dir.files.fileExists snap.metaFile.path then do
          let snaps ← loadIdleSnaps F modTime sm idleSnaps
          return ⟨idleSnap.snapKey, snap, modTime idleSnap.snapKey⟩ :: snaps
        else .error (.notExist snap.metaFile.path)

def deleteOldest (sm : SnapManager) : List SnapWithModTime → SnapManager × Option SnapErr
  | [] =>
    if sm.maxTotalSize < sm.getTotalSnapSize then (sm, some .tooManySnapshots) else (sm, none)
  | oldest :: snaps =>
    if sm.maxTotalSize < sm.getTotalSnapSize then
      deleteOldest
        { sm with dir := (deleteSnapshot sm.registry sm.dir oldest.key oldest.snap false).1 } snaps
    else (sm, none)

def deleteOldIdleSnaps (F : Formats) (modTime : SnapKey → ℕ) (sm : SnapManager) :
    SnapManager × Option SnapErr :=
  match sm.loadIdleSnaps F modTime sm.listIdleSnap with
  | .error err => (sm, some err)
  | .ok snaps => sm.deleteOldest (snaps.insertionSort fun i j => i.modTime ≤ j.modTime)

def getSnapshotForBuilding (F : Formats) (modTime : SnapKey → ℕ) (sm : SnapManager)
    (key : SnapKey) : SnapManager × Except SnapErr Snap :=
  match if sm.maxTotalSize < sm.getTotalSnapSize then sm.deleteOldIdleSnaps F modTime
    else (sm, none) with
  | (sm, some err) => (sm, .error err)
  | (sm, none) =>
    let r := Snap.newSnapForBuilding F (deleteSnapshot sm.registry) sm.dir key
    ({ sm with dir := r.1 }, r.2)

def doSnapshot (F : Formats) (errs : BuildErrs) (modTime : SnapKey → ℕ) (sm : SnapManager)
    (key : SnapKey) (dbSnap : Badger) (region : Region) :
    Go (SnapManager × Except SnapErr Snap.Built) :=
  match (sm.register key .generating).getSnapshotForBuilding F modTime key with
  | (sm, .error err) => .ok (sm.deregister key .generating, .error err)
  | (sm, .ok s) => do
    let (dir, built) ← s.build F errs (deleteSnapshot sm.registry) sm.dir dbSnap region
    return (({ sm with dir := dir } : SnapManager).deregister key .generating, built)

end SnapManager

namespace Snap

variable {isSending : Bool} {key : SnapKey} {d : SnapDir} {s : Snap} {F : Formats}
  {name : FileName} {cfFiles : List CFFile} {holdTmpFiles : Bool} {z : CFSizes}
  {m : Option SnapshotMeta}

/-- The files of the `Snap` have the names of those of a snapshot. -/
structure Named (isSending : Bool) (key : SnapKey) (s : Snap) : Prop where
  cfFiles : ∀ cfFile ∈ s.cfFiles, ∃ cf,
    cfFile.path = cfPath isSending key cf ∧ cfFile.tmpPath = cfTmpPath isSending key cf
  path : s.metaFile.path = metaPath isSending key
  tmpPath : s.metaFile.tmpPath = metaTmpPath isSending key

theorem named_ofSizes (isSending : Bool) (key : SnapKey) (m : Option SnapshotMeta) (z : CFSizes) :
    Named isSending key (ofSizes isSending key m z) := by
  refine ⟨fun cfFile hmem => ?_, rfl, rfl⟩
  obtain ⟨cf, -, rfl⟩ := mem_map.mp hmem
  exact ⟨cf, rfl, rfl⟩

theorem lookup_foldl_deleteCFFile
    (h : ∀ cfFile ∈ cfFiles, name ≠ CFFile.path cfFile ∧ name ≠ cfFile.tmpPath) :
    (cfFiles.foldl (deleteCFFile holdTmpFiles) d).files.lookup name = d.files.lookup name := by
  induction cfFiles generalizing d with
  | nil => rfl
  | cons cfFile cfFiles ih =>
    obtain ⟨⟨hpath, htmp⟩, h⟩ := forall_mem_cons.mp h
    rw [foldl_cons, ih h]
    unfold deleteCFFile
    dsimp only
    rw [Directory.lookup_erase_eq, if_neg hpath]
    split_ifs
    · rw [Directory.lookup_erase_eq, if_neg htmp]
    · rfl

theorem Named.lookup_delete (h : Named isSending key s) (hname : name.key ≠ key) :
    (s.delete d).files.lookup name = d.files.lookup name := by
  have hne : ∀ name' : FileName, name'.key = key → name ≠ name' := by
    rintro name' hkey rfl
    exact hname hkey
  have hcfFiles : ∀ cfFile ∈ s.cfFiles, name ≠ cfFile.path ∧ name ≠ cfFile.tmpPath := by
    intro cfFile hmem
    obtain ⟨cf, hpath, htmp⟩ := h.cfFiles cfFile hmem
    rw [hpath, htmp]
    exact ⟨hne _ rfl, hne _ rfl⟩
  have hpath : name ≠ s.metaFile.path := hne _ (congrArg FileName.key h.path)
  have htmp : name ≠ s.metaFile.tmpPath := hne _ (congrArg FileName.key h.tmpPath)
  unfold delete
  dsimp only
  split_ifs
  · rw [Directory.lookup_erase_eq, if_neg htmp, Directory.lookup_erase_eq, if_neg hpath,
      lookup_foldl_deleteCFFile hcfFiles]
  · rw [Directory.lookup_erase_eq, if_neg hpath, lookup_foldl_deleteCFFile hcfFiles]

theorem named_of_newSnapForSending (h : newSnapForSending F d key = .ok s) : Named true key s := by
  cases hmeta : d.files.fileExists (metaPath true key) with
  | false =>
    rw [newSnapForSending_eq_ofKey h hmeta, ofKey_eq]
    exact named_ofSizes true key none _
  | true =>
    obtain ⟨m, z, rfl, -, -⟩ := newSnapForSending_eq_ok h hmeta
    refine ⟨fun cfFile hmem => ?_, rfl, rfl⟩
    obtain ⟨cf, -, rfl⟩ := mem_map.mp hmem
    refine ⟨cf, ?_⟩
    unfold sentFile
    split_ifs <;> exact ⟨rfl, rfl⟩

structure Intact (F : Formats) (files : Directory FileName) (isSending : Bool) (key : SnapKey)
    (z : CFSizes) : Prop where
  metaFile : ∃ content, files.lookup (metaPath isSending key) = some content ∧
    F.unmarshal content = some z.toMeta
  present : ∀ cf, z.size cf ≠ 0 → files.fileExists (cfPath isSending key cf) = true
  agree : SizesAgree files isSending key z

def Corrupted (F : Formats) (files : Directory FileName) (isSending : Bool) (key : SnapKey) :
    Prop :=
  files.fileExists (metaPath isSending key) = true ∧ ∀ z, ¬Intact F files isSending key z

theorem corrupted_of_file {files : Directory FileName} {content : Bytes}
    (hmeta : files.lookup (metaPath isSending key) = some content)
    (hunmarshal : F.unmarshal content = some z.toMeta) (cf : Cf)
    (hfile : (z.size cf ≠ 0 ∧ files.lookup (cfPath isSending key cf) = none) ∨ ∃ content,
      files.lookup (cfPath isSending key cf) = some content ∧ UInt64.ofNat content.length ≠ z.size
      cf) : Corrupted F files isSending key := by
  refine ⟨Directory.fileExists_iff.mpr ⟨content, hmeta⟩, fun z' hz => ?_⟩
  obtain ⟨content', hmeta', hunmarshal'⟩ := hz.metaFile
  -- The metadata that is read is the same, and so are the declared sizes.
  obtain rfl : content = content' := Option.some.inj (hmeta.symm.trans hmeta')
  obtain rfl : z = z' := CFSizes.toMeta_inj (Option.some.inj (hunmarshal.symm.trans hunmarshal'))
  rcases hfile with ⟨hsize, hnone⟩ | ⟨content, hcontent, hsize⟩
  · have hexists := hz.present cf hsize
    rw [Directory.fileExists_eq_false.mpr hnone] at hexists
    exact absurd hexists (by simp)
  · exact hsize (hz.agree cf content hcontent)

theorem Corrupted.congr {files files' : Directory FileName} (h : Corrupted F files isSending key)
    (hfiles : ∀ name, name.key = key → files'.lookup name = files.lookup name) :
    Corrupted F files' isSending key := by
  have hcf : ∀ cf, files'.lookup (cfPath isSending key cf) =
      files.lookup (cfPath isSending key cf) := fun cf => hfiles _ rfl
  refine ⟨?_, fun z hz => h.2 z ⟨?_, fun cf hsize => ?_, fun cf content hcontent => ?_⟩⟩
  · rw [Directory.fileExists, hfiles _ rfl]
    exact h.1
  · rw [← hfiles _ rfl]
    exact hz.metaFile
  · rw [Directory.fileExists, ← hcf]
    exact hz.present cf hsize
  · rw [← hcf] at hcontent
    exact hz.agree cf content hcontent

theorem Corrupted.loadSnapMeta {files : Directory FileName} (h : Corrupted F files isSending key) :
    ((ofKey isSending key).loadSnapMeta F files).2 ≠ none := by
  intro hnone
  rw [ofKey_eq] at hnone
  obtain ⟨m, z, hs, hread, rfl, hagree, hexists⟩ :=
    loadSnapMeta_eq_none (Prod.ext_iff.mpr ⟨rfl, hnone⟩)
  rw [hs] at hexists
  refine h.2 z ⟨?_, (existsOn_ofSizes.mp hexists).1, hagree⟩
  unfold readSnapshotMeta at hread
  split at hread
  · cases hread
  · rename_i content hcontent
    refine ⟨content, hcontent, ?_⟩
    split at hread
    · cases hread
    · rename_i hunmarshal
      cases hread
      exact hunmarshal

variable {deleter : SnapshotDeleter}

theorem retryDelete_of_refused (h : deleter d key s true = (d, false)) (n : ℕ) :
    retryDelete deleter key s n d = (d, false) := by
  induction n with
  | zero => rfl
  | succ n ih =>
    rw [retryDelete, h]
    exact ih

theorem newSnap_of_refused (h : ∀ s, deleter d key s true = (d, false)) :
    newSnap F (some deleter) d key isSending = (d, (newSnap F none d key isSending).2) := by
  unfold newSnap
  dsimp only
  split_ifs
  · cases (ofKey isSending key).loadSnapMeta F d.files with
    | mk s err =>
      cases err with
      | none => rfl
      | some err => simp only [retryDeleteSnapshot, retryDelete_of_refused (h s)]
  · rfl

theorem Corrupted.newSnapForBuilding (h : Corrupted F d.files true key)
    (hrefused : ∀ s, deleter d key s true = (d, false)) :
    ∃ err, newSnapForBuilding F deleter d key = (d, .error err) := by
  have hload := h.loadSnapMeta
  have hnew : ∃ err, (newSnap F none d key true).2 = .error err := by
    unfold newSnap
    dsimp only
    rw [if_pos (show d.files.fileExists (ofKey true key).metaFile.path = true from h.1)]
    split
    · rename_i hnone
      rw [hnone] at hload
      exact absurd rfl hload
    · rename_i err _
      exact ⟨err, rfl⟩
  obtain ⟨err, hnew⟩ := hnew
  exact ⟨err, by rw [Snap.newSnapForBuilding, newSnap_of_refused hrefused, hnew]⟩

end Snap

namespace SnapManager

open Snap

variable {F : Formats} {modTime : SnapKey → ℕ} {sm : SnapManager} {key : SnapKey}

section

variable (sm key) (entry : SnapEntry)

theorem lookup_register :
    ∃ first entries, (sm.register key entry).registry.lookup key = some (first :: entries) := by
  unfold register
  dsimp only
  split_ifs with hmem
  · cases hentries : sm.registry.lookup key with
    | none => simp [hentries] at hmem
    | some entries =>
      cases entries with
      | nil => simp [hentries] at hmem
      | cons first entries => exact ⟨first, entries, rfl⟩
  · cases (sm.registry.lookup key).getD [] with
    | nil => exact ⟨entry, [], AList.lookup_insert _⟩
    | cons first entries => exact ⟨first, entries ++ [entry], AList.lookup_insert _⟩

@[simp]
theorem dir_register : (sm.register key entry).dir = sm.dir := by
  unfold register
  dsimp only
  split_ifs <;> rfl

@[simp]
theorem dir_deregister : (sm.deregister key entry).dir = sm.dir := by
  unfold deregister
  dsimp only
  split_ifs <;> rfl

end

variable {entries : List SnapEntry}

theorem deleteSnapshot_of_registered {registry : AList fun _ : SnapKey => List SnapEntry}
    {entry : SnapEntry} {d : SnapDir} {s : Snap} {checkEntry : Bool}
    (h : registry.lookup key = some (entry :: entries)) :
    deleteSnapshot registry d key s checkEntry = (d, false) := by
  cases checkEntry <;> simp [deleteSnapshot, h]

theorem mem_listIdleSnap {idleSnap : SnapKeyWithSending} (h : idleSnap ∈ sm.listIdleSnap) :
    sm.registry.lookup idleSnap.snapKey = none ∧
      sm.dir.files.fileExists (metaPath idleSnap.isSending idleSnap.snapKey) = true := by
  rw [listIdleSnap, mem_insertionSort, mem_filter, mem_map] at h
  obtain ⟨⟨name, hmem, rfl⟩, hregistered⟩ := h
  obtain ⟨hkeys, hmeta⟩ := mem_filter.mp hmem
  obtain ⟨isSending, key, cf, tmp⟩ := name
  obtain ⟨rfl, rfl⟩ : cf = none ∧ tmp = false := by simpa using hmeta
  refine ⟨by simpa [hasRegistered] using hregistered, ?_⟩
  exact AList.lookup_isSome.mpr (AList.mem_keys.mpr hkeys)

variable {snaps : List SnapWithModTime}

theorem mem_loadIdleSnaps {idleSnaps : List SnapKeyWithSending}
    (h : sm.loadIdleSnaps F modTime idleSnaps = .ok snaps) :
    ∀ snap ∈ snaps, ∃ idleSnap ∈ idleSnaps, idleSnap.isSending = true ∧
      snap.key = idleSnap.snapKey ∧ newSnapForSending F sm.dir snap.key = .ok snap.snap := by
  induction idleSnaps generalizing snaps with
  | nil =>
    cases h
    simp
  | cons idleSnap idleSnaps ih =>
    have hrest : ∀ snaps, sm.loadIdleSnaps F modTime idleSnaps = .ok snaps → ∀ snap ∈ snaps,
        ∃ idle ∈ idleSnap :: idleSnaps, idle.isSending = true ∧ snap.key = idle.snapKey ∧
          newSnapForSending F sm.dir snap.key = .ok snap.snap := by
      intro snaps hsnaps snap hmem
      obtain ⟨idle, hidle, hspec⟩ := ih hsnaps snap hmem
      exact ⟨idle, mem_cons_of_mem _ hidle, hspec⟩
    rw [loadIdleSnaps] at h
    split_ifs at h with hsending
    · exact hrest snaps h
    · cases hsnap : sm.getSnapshotForSending F idleSnap.snapKey with
      | error err =>
        rw [hsnap] at h
        exact hrest snaps h
      | ok s =>
        rw [hsnap] at h
        dsimp only at h
        split_ifs at h
        cases hsnaps : sm.loadIdleSnaps F modTime idleSnaps with
        | error err =>
          rw [hsnaps] at h
          cases h
        | ok snaps' =>
          rw [hsnaps] at h
          cases h
          intro snap hmem
          rcases mem_cons.mp hmem with rfl | hmem
          · exact ⟨idleSnap, mem_cons_self, by simpa using hsending, rfl, hsnap⟩
          · exact hrest snaps' hsnaps snap hmem

theorem mem_idleSnaps (h : sm.loadIdleSnaps F modTime sm.listIdleSnap = .ok snaps) :
    ∀ snap ∈ snaps, sm.registry.lookup snap.key = none ∧
      sm.dir.files.fileExists (metaPath true snap.key) = true ∧
      newSnapForSending F sm.dir snap.key = .ok snap.snap := by
  intro snap hmem
  obtain ⟨idleSnap, hidle, hsending, hkey, hnew⟩ := mem_loadIdleSnaps h snap hmem
  obtain ⟨hregistered, hmeta⟩ := mem_listIdleSnap hidle
  rw [← hkey] at hregistered hmeta
  rw [hsending] at hmeta
  exact ⟨hregistered, hmeta, hnew⟩

theorem deleteOldest_invariant {I : SnapManager → Prop}
    (hstep : ∀ sm : SnapManager, ∀ snap ∈ snaps, I sm → I { sm with dir := (deleteSnapshot
      sm.registry sm.dir snap.key snap.snap false).1 }) (hsm : I sm) :
    I (sm.deleteOldest snaps).1 := by
  induction snaps generalizing sm with
  | nil =>
    rw [deleteOldest]
    split_ifs <;> exact hsm
  | cons oldest snaps ih =>
    rw [deleteOldest]
    split_ifs
    · exact ih (fun sm snap hmem => hstep sm snap (mem_cons_of_mem _ hmem))
        (hstep sm oldest mem_cons_self hsm)
    · exact hsm

theorem deleteOldIdleSnaps_registered (hkey : sm.registry.lookup key ≠ none) :
    (sm.deleteOldIdleSnaps F modTime).1.registry = sm.registry ∧
      ∀ name, name.key = key →
        (sm.deleteOldIdleSnaps F modTime).1.dir.files.lookup name = sm.dir.files.lookup name := by
  unfold deleteOldIdleSnaps
  cases hsnaps : sm.loadIdleSnaps F modTime sm.listIdleSnap with
  | error err => exact ⟨rfl, fun name _ => rfl⟩
  | ok snaps =>
    refine deleteOldest_invariant (I := fun sm' => sm'.registry = sm.registry ∧
      ∀ name, name.key = key → sm'.dir.files.lookup name = sm.dir.files.lookup name) ?_
      ⟨rfl, fun name _ => rfl⟩
    rintro sm' snap hmem ⟨hregistry, hfiles⟩
    obtain ⟨hidle, -, hnew⟩ := mem_idleSnaps hsnaps snap ((mem_insertionSort _).mp hmem)
    refine ⟨hregistry, fun name hname => ?_⟩
    -- Only idle snapshots are deleted, so that it is another one.
    have hne : name.key ≠ snap.key := by
      rintro heq
      rw [← heq, hname] at hidle
      exact hkey hidle
    rw [← hfiles name hname, deleteSnapshot, hregistry, hidle]
    exact (named_of_newSnapForSending hnew).lookup_delete hne

theorem getSnapshotForBuilding_eq (F : Formats) (modTime : SnapKey → ℕ) (sm : SnapManager)
    (key : SnapKey) :
    ∃ sm₁, (sm₁ = sm ∨ sm₁ = (sm.deleteOldIdleSnaps F modTime).1) ∧
      ((∃ err, sm.getSnapshotForBuilding F modTime key = (sm₁, .error err)) ∨
        sm.getSnapshotForBuilding F modTime key =
          ({ sm₁ with
              dir := (newSnapForBuilding F (deleteSnapshot sm₁.registry) sm₁.dir key).1 },
            (newSnapForBuilding F (deleteSnapshot sm₁.registry) sm₁.dir key).2)) := by
  unfold getSnapshotForBuilding
  split_ifs
  · obtain ⟨sm₁, err⟩ := sm.deleteOldIdleSnaps F modTime
    refine ⟨sm₁, Or.inr rfl, ?_⟩
    cases err with
    | none => exact Or.inr rfl
    | some err => exact Or.inl ⟨err, rfl⟩
  · exact ⟨sm, Or.inl rfl, Or.inr rfl⟩

theorem registered_of_room {sm₁ : SnapManager} (hkey : sm.registry.lookup key = some entries)
    (hroom : sm₁ = sm ∨ sm₁ = (sm.deleteOldIdleSnaps F modTime).1) :
    sm₁.registry = sm.registry ∧
      ∀ name, name.key = key → sm₁.dir.files.lookup name = sm.dir.files.lookup name := by
  rcases hroom with rfl | rfl
  · exact ⟨rfl, fun name _ => rfl⟩
  · exact deleteOldIdleSnaps_registered (by simp [hkey])

theorem getSnapshotForBuilding_of_registered (modTime : SnapKey → ℕ) {entry : SnapEntry}
    (hregistry : sm.registry.lookup key = some (entry :: entries))
    (hcorrupted : Corrupted F sm.dir.files true key) :
    ∃ sm' err, sm.getSnapshotForBuilding F modTime key = (sm', .error err) ∧
      sm'.registry = sm.registry ∧
      ∀ name, name.key = key → sm'.dir.files.lookup name = sm.dir.files.lookup name := by
  obtain ⟨sm₁, hroom, hget⟩ := getSnapshotForBuilding_eq F modTime sm key
  have hframe := registered_of_room hregistry hroom
  rcases hget with ⟨err, hget⟩ | hget
  · exact ⟨sm₁, err, hget, hframe⟩
  · have hrefused : ∀ s, deleteSnapshot sm₁.registry sm₁.dir key s true = (sm₁.dir, false) :=
      fun s => deleteSnapshot_of_registered ((congrArg (AList.lookup key) hframe.1).trans hregistry)
    obtain ⟨err, hnew⟩ := (hcorrupted.congr hframe.2).newSnapForBuilding hrefused
    rw [hnew] at hget
    exact ⟨sm₁, err, hget, hframe⟩

/-- The corrupted files of a snapshot whose only entry is that of `doSnapshot` are not deleted:
`GetSnapshotForBuilding` returns an error and leaves them. -/
theorem getSnapshotForBuilding_corrupted (F : Formats) (modTime : SnapKey → ℕ) (sm : SnapManager)
    (key : SnapKey) (hregistry : sm.registry.lookup key = some [.generating])
    (hcorrupted : Corrupted F sm.dir.files true key) :
    ∃ sm' err, sm.getSnapshotForBuilding F modTime key = (sm', .error err) ∧
      ∀ name, name.key = key → sm'.dir.files.lookup name = sm.dir.files.lookup name := by
  obtain ⟨sm', err, hget, -, hfiles⟩ :=
    getSnapshotForBuilding_of_registered modTime hregistry hcorrupted
  exact ⟨sm', err, hget, hfiles⟩

theorem getSnapshotForBuilding_corrupted_missing :
    let key : SnapKey := ⟨1, 6, 9⟩
    let z : CFSizes := ⟨fun | .default => 1 | _ => 0, fun _ => 0⟩
    let F : Formats := ⟨fun _ => 0, fun _ => [7], fun _ => some z.toMeta, fun _ => [], fun _ => []⟩
    let sm := ((newSnapManager (AList.insert (metaPath true key) [7] ∅) 0).init.register key
      .generating)
    ∃ sm' err, sm.getSnapshotForBuilding F (fun _ => 0) key = (sm', .error err) ∧
      ∀ name, name.key = key → sm'.dir.files.lookup name = sm.dir.files.lookup name := by
  intro key z F sm
  have hmeta : sm.dir.files.lookup (metaPath true key) = some [7] := by decide
  exact getSnapshotForBuilding_corrupted F (fun _ => 0) sm key (by decide)
    (corrupted_of_file hmeta (show F.unmarshal [7] = some z.toMeta from rfl) .default
      (Or.inl ⟨by decide, by decide⟩))

theorem getSnapshotForBuilding_refused :
    let key : SnapKey := ⟨1, 6, 9⟩
    let z : CFSizes := ⟨fun | .default => 1 | _ => 0, fun _ => 0⟩
    let F : Formats := ⟨fun _ => 0, fun _ => [7], fun _ => some z.toMeta, fun _ => [], fun _ => []⟩
    let idle := (newSnapManager (AList.insert (metaPath true key) [7] ∅) 0).init
    let sm := idle.register key .generating
    sm.registry.lookup key = some [.generating] ∧ Corrupted F sm.dir.files true key ∧
      (sm.getSnapshotForBuilding F (fun _ => 0) key).2.map (fun _ => ()) =
        .error (.corrupted true key) ∧
      (sm.getSnapshotForBuilding F (fun _ => 0) key).1.dir.files.lookup (metaPath true key) =
        some [7] ∧
      (idle.getSnapshotForBuilding F (fun _ => 0) key).2.map (fun _ => ()) = .ok () := by
  intro key z F idle sm
  have hmeta : sm.dir.files.lookup (metaPath true key) = some [7] := by decide
  exact ⟨by decide, corrupted_of_file hmeta (show F.unmarshal [7] = some z.toMeta from rfl) .default
    (Or.inl ⟨by decide, by decide⟩), by decide +kernel, by decide +kernel, by decide +kernel⟩

end SnapManager

end TinyKV
