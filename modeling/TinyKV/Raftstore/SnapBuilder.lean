import TinyKV.Raftstore.Keys
import TinyKV.Raftstore.Snap

/-!
# Building a snapshot

`kv/raftstore/snap/snap_builder.go`, and `Build` of `snap.go`.
-/

namespace TinyKV

open List

def CFFile.pairs (cfFile : CFFile) : List (Bytes × Bytes) :=
  (cfFile.sstWriter.map SstWriter.pairs).getD []

def CFFile.add (cfFile : CFFile) (cfKey val : Bytes) : CFFile :=
  { cfFile with
    sstWriter := cfFile.sstWriter.map fun w => { w with pairs := w.pairs ++ [(cfKey, val)] }
    kvCount := cfFile.kvCount + 1
    size := cfFile.size + UInt64.ofNat (cfKey.length + val.length) }

def CFFile.flush (F : Formats) (files : Directory FileName) (cfFile : CFFile) :
    Directory FileName × CFFile :=
  match cfFile.sstWriter with
  | none => (files, cfFile)
  | some w =>
    (files.write w.file (F.blocks w.pairs),
      { cfFile with sstWriter := some { w with
        file := { w.file with offset := w.file.offset + (F.blocks w.pairs).length } } })

structure BuildErrs where
  value : Bytes → Option BadgerErr := fun _ => none
  add : Bytes → Option BadgerErr := fun _ => none

structure SnapBuilder where
  region : Region
  txn : Badger
  cfFiles : List CFFile
  kvCount : ℕ := 0
  size : ℤ := 0

def newSnapBuilder (cfFiles : List CFFile) (dbSnap : Badger) (region : Region) : SnapBuilder where
  region := region
  cfFiles := cfFiles
  txn := dbSnap

namespace SnapBuilder

def addItem (errs : BuildErrs) (key val : Bytes) (cfFile : CFFile) :
    Except (CFFile × SnapErr) CFFile :=
  let cfKey := keyWithCF cfFile.cf key
  match errs.value cfKey with
  | some err => .error (cfFile, .badger err)
  | none =>
    match errs.add cfKey with
    | some err => .error (cfFile, .badger err)
    | none => .ok (cfFile.add cfKey val)

def addItems (errs : BuildErrs) (b : SnapBuilder) (cfFile : CFFile) :
    Except (CFFile × SnapErr) CFFile :=
  let it := (newCFIterator cfFile.cf b.txn).seek b.region.startKey
  BadgerIterator.forLoopM it.start
    (fun key val cfFile =>
      if exceedEndKey key b.region.endKey then .ok (.done cfFile)
      else .yield <$> addItem errs key val cfFile)
    it.rest cfFile

def buildCFFile (F : Formats) (errs : BuildErrs) (b : SnapBuilder) (files : Directory FileName)
    (cfFile : CFFile) : Go (Directory FileName × CFFile × Option SnapErr) := do
  let _ ← Go.deref cfFile.sstWriter
  match b.addItems errs cfFile with
  | .error (cfFile, err) =>
    let (files, cfFile) := cfFile.flush F files
    return (files, cfFile, some err)
  | .ok cfFile =>
    let (files, cfFile) := cfFile.flush F files
    return (files, cfFile, none)

structure BuildLoop where
  files : Directory FileName
  cfFiles : List CFFile
  kvCount : ℕ := 0
  size : ℤ := 0
  err : Option SnapErr := none

def BuildLoop.push (cfFile : CFFile) (r : BuildLoop) : BuildLoop :=
  { r with
    cfFiles := cfFile :: r.cfFiles
    kvCount := cfFile.kvCount + r.kvCount
    size := toInt cfFile.size.toNat + r.size }

def buildLoop (F : Formats) (errs : BuildErrs) (b : SnapBuilder) (files : Directory FileName) :
    List CFFile → Go BuildLoop
  | [] => .ok { files := files, cfFiles := [] }
  | cfFile :: cfFiles => do
    match ← buildCFFile F errs b files cfFile with
    | (files, cfFile, some err) =>
      return { files := files, cfFiles := cfFile :: cfFiles, err := some err }
    | (files, cfFile, none) => BuildLoop.push cfFile <$> buildLoop F errs b files cfFiles

def build (F : Formats) (errs : BuildErrs) (files : Directory FileName) (b : SnapBuilder) :
    Go (Directory FileName × SnapBuilder × Option SnapErr) := do
  let r ← buildLoop F errs b files b.cfFiles
  return (r.files,
    { b with
      cfFiles := r.cfFiles
      kvCount := b.kvCount + r.kvCount
      size := b.size + r.size },
    r.err)

end SnapBuilder

namespace Snap

def validate (_ : Snap) : Option SnapErr := none

def calcCRC32 (F : Formats) (files : Directory FileName) (path : FileName) :
    Except SnapErr UInt32 :=
  match files.lookup path with
  | some content => .ok (F.crc32 content)
  | none => .error (.notExist path)

def saveBuiltFile (F : Formats) (d : SnapDir) (cfFile : CFFile) :
    Go (SnapDir × CFFile × Option SnapErr) := do
  let w ← Go.deref cfFile.sstWriter
  let files := if 0 < cfFile.kvCount then d.files.write w.file (F.index w.pairs) else d.files
  match getFileSize files cfFile.tmpPath with
  | .error err => return ({ d with files := files }, cfFile, some err)
  | .ok size =>
    if 0 < size then
      match files.rename cfFile.tmpPath cfFile.path with
      | none => return ({ d with files := files }, cfFile, some (.notExist cfFile.tmpPath))
      | some files =>
        let d : SnapDir := ⟨files, int64 (d.sizeTrack + toInt size.toNat)⟩
        match calcCRC32 F files cfFile.path with
        | .error err => return (d, { cfFile with size := size }, some err)
        | .ok checksum => return (d, { cfFile with size := size, checksum := checksum }, none)
    else return ({ d with files := files.erase cfFile.tmpPath }, cfFile, none)

def saveCFFiles (F : Formats) (d : SnapDir) :
    List CFFile → Go (SnapDir × List CFFile × Option SnapErr)
  | [] => .ok (d, [], none)
  | cfFile :: cfFiles => do
    match ← saveBuiltFile F d cfFile with
    | (d, cfFile, some err) => return (d, cfFile :: cfFiles, some err)
    | (d, cfFile, none) =>
      let (d, cfFiles, err) ← saveCFFiles F d cfFiles
      return (d, cfFile :: cfFiles, err)

structure Built where
  fileSize : UInt64
  snapshotMeta : Option SnapshotMeta
  stat : Option (ℕ × UInt64) := none
deriving DecidableEq, Repr

def buildNew (F : Formats) (errs : BuildErrs) (d : SnapDir) (s : Snap) (dbSnap : Badger)
    (region : Region) : Go (SnapDir × Except SnapErr Built) := do
  match ← (newSnapBuilder s.cfFiles dbSnap region).build F errs d.files with
  | (files, _, some err) => return ({ d with files := files }, .error err)
  | (files, builder, none) =>
    match ← saveCFFiles F { d with files := files } builder.cfFiles with
    | (d, _, some err) => return (d, .error err)
    | (d, cfFiles, none) =>
      match genSnapshotMeta cfFiles with
      | .error err => return (d, .error err)
      | .ok snapshotMeta =>
        let s := { s with
          cfFiles := cfFiles
          metaFile := { s.metaFile with snapshotMeta := some snapshotMeta } }
        match ← s.saveMetaFile F d.files with
        | (files, some err) => return ({ d with files := files }, .error err)
        | (files, none) =>
          return ({ d with files := files },
            .ok ⟨s.totalSize, some snapshotMeta, some (builder.kvCount, s.totalSize)⟩)

def build (F : Formats) (errs : BuildErrs) (deleter : SnapshotDeleter) (d : SnapDir) (s : Snap)
    (dbSnap : Badger) (region : Region) : Go (SnapDir × Except SnapErr Built) :=
  if s.existsOn d.files then
    match s.validate with
    | none => .ok (d, .ok { fileSize := s.totalSize, snapshotMeta := s.metaFile.snapshotMeta })
    | some err =>
      match retryDeleteSnapshot deleter d s.key s with
      | (d, false) => .ok (d, .error err)
      | (d, true) =>
        let (files, s) := s.initForBuilding d.files
        s.buildNew F errs { d with files := files } dbSnap region
  else s.buildNew F errs d dbSnap region

end Snap

/-- The pairs are those of the column family in the region, in the order of their keys. -/
structure Exports (source : Badger) (region : Region) (cf : Cf) (pairs : List (Bytes × Bytes)) :
    Prop where
  sorted : pairs.Pairwise fun p q => p.1 < q.1
  mem_iff : ∀ raw val, (raw, val) ∈ pairs ↔
    ∃ key, raw = keyWithCF cf.name key ∧ region.Contains key ∧ source.find raw = some val

def ingest (db : Badger) (cfFiles : List CFFile) : Badger :=
  db.writeAll ((cfFiles.flatMap CFFile.pairs).map fun p => (p.1, some p.2))

section

variable {source : Badger} {region : Region}

theorem exports_rangeItems (source : Badger) (region : Region) (cf : Cf) :
    Exports source region cf
      ((BadgerIterator.rangeItems cf.name source region.startKey region.endKey).map
        fun p => (keyWithCF cf.name p.1, p.2)) := by
  constructor
  · refine pairwise_map.mpr (BadgerIterator.sorted_rangeItems.imp fun hlt => ?_)
    exact (append_lt_append_left_iff _ _ _).mpr hlt
  · intro raw val
    simp only [mem_map, Prod.exists, Prod.mk.injEq, BadgerIterator.mem_rangeItems,
      Region.contains_iff, Badger.find_eq_some]
    constructor
    · rintro ⟨key, _, ⟨hrange, hmem⟩, rfl, rfl⟩
      exact ⟨key, rfl, hrange, hmem⟩
    · rintro ⟨key, rfl, hrange, hmem⟩
      exact ⟨key, val, ⟨hrange, hmem⟩, rfl, rfl⟩

namespace SnapBuilder

variable {F : Formats} {errs : BuildErrs} {files : Directory FileName} {b : SnapBuilder}
  {cfFile cfFile' : CFFile}

theorem addItem_eq_ok {key val : Bytes} (h : addItem errs key val cfFile = .ok cfFile') :
    cfFile' = cfFile.add (keyWithCF cfFile.cf key) val := by
  unfold addItem at h
  dsimp only at h
  split at h
  next => cases h
  next =>
    split at h
    next => cases h
    next => exact (Except.ok.inj h).symm

theorem pairs_add {w : SstWriter} (hw : cfFile.sstWriter = some w) (cfKey val : Bytes) :
    (cfFile.add cfKey val).pairs = cfFile.pairs ++ [(cfKey, val)] := by
  simp [CFFile.pairs, CFFile.add, hw]

theorem pairs_foldlM_addItem {items : List (Bytes × Bytes)} {w : SstWriter}
    (hw : cfFile.sstWriter = some w)
    (h : items.foldlM (fun cfFile p => addItem errs p.1 p.2 cfFile) cfFile = .ok cfFile') :
    cfFile'.cf = cfFile.cf ∧ (∃ w', cfFile'.sstWriter = some w') ∧
      cfFile'.pairs = cfFile.pairs ++ items.map fun p => (keyWithCF cfFile.cf p.1, p.2) := by
  induction items generalizing cfFile w with
  | nil =>
    cases h
    exact ⟨rfl, ⟨w, hw⟩, by simp⟩
  | cons p items ih =>
    rw [foldlM_cons] at h
    cases hp : addItem errs p.1 p.2 cfFile with
    | error err =>
      rw [hp] at h
      cases h
    | ok cfFile₁ =>
      rw [hp] at h
      obtain rfl := addItem_eq_ok hp
      obtain ⟨hcf, hw', hpairs⟩ := ih (by rw [CFFile.add, hw, Option.map_some]) h
      refine ⟨hcf, hw', ?_⟩
      rw [hpairs, pairs_add hw, append_assoc]
      rfl

theorem addItems_eq (errs : BuildErrs) (b : SnapBuilder) (cfFile : CFFile) :
    b.addItems errs cfFile =
      (BadgerIterator.rangeItems cfFile.cf b.txn b.region.startKey b.region.endKey).foldlM
        (fun cfFile p => addItem errs p.1 p.2 cfFile) cfFile :=
  BadgerIterator.forLoopM_seek (addItem errs) cfFile.cf b.txn b.region.startKey b.region.endKey
    cfFile

theorem flush_spec (F : Formats) (files : Directory FileName) (cfFile : CFFile) :
    (cfFile.flush F files).2.cf = cfFile.cf ∧ (cfFile.flush F files).2.pairs = cfFile.pairs := by
  unfold CFFile.flush CFFile.pairs
  cases hw : cfFile.sstWriter with
  | none => exact ⟨rfl, by rw [hw]⟩
  | some w => exact ⟨rfl, rfl⟩

theorem exports_of_buildCFFile {cf : Cf} {w : SstWriter} {files' : Directory FileName}
    (hcf : cfFile.cf = cf.name) (hw : cfFile.sstWriter = some w) (hempty : w.pairs = [])
    (h : buildCFFile F errs b files cfFile = .ok (files', cfFile', none)) :
    Exports b.txn b.region cf cfFile'.pairs := by
  unfold buildCFFile at h
  rw [hw, Go.deref_some, Go.ok_bind] at h
  cases hitems : b.addItems errs cfFile with
  | error r => simp [hitems] at h
  | ok cfFile₁ =>
    simp only [hitems, Go.pure_eq_ok, Except.ok.injEq, Prod.mk.injEq, and_true] at h
    obtain ⟨-, rfl⟩ := h
    rw [addItems_eq] at hitems
    obtain ⟨-, -, hpairs⟩ := pairs_foldlM_addItem hw hitems
    have hnil : cfFile.pairs = [] := by rw [CFFile.pairs, hw, Option.map_some, hempty]; rfl
    rw [(flush_spec F files cfFile₁).2, hpairs, hnil, nil_append, hcf]
    exact exports_rangeItems b.txn b.region cf

variable {families : List Cf}

theorem exports_of_buildLoop {cfFiles : List CFFile} {r : BuildLoop}
    (hfiles : List.Forall₂ (fun cf cfFile => cfFile.cf = Cf.name cf ∧
      ∃ w, cfFile.sstWriter = some w ∧ w.pairs = []) families cfFiles)
    (h : buildLoop F errs b files cfFiles = .ok r) (herr : r.err = none) :
    List.Forall₂ (fun cf cfFile => Exports b.txn b.region cf (CFFile.pairs cfFile)) families
      r.cfFiles := by
  induction hfiles generalizing files r with
  | nil =>
    cases h
    exact .nil
  | @cons cf cfFile families cfFiles hfile _ ih =>
    obtain ⟨hcf, w, hw, hempty⟩ := hfile
    rw [buildLoop, Go.bind_eq_ok] at h
    obtain ⟨⟨files', cfFile', _ | err⟩, hbuild, h⟩ := h
    · obtain ⟨r', hrest, rfl⟩ := Go.map_eq_ok.mp h
      exact .cons (exports_of_buildCFFile hcf hw hempty hbuild) (ih hrest herr)
    · cases h
      cases herr

theorem exports_of_build {b' : SnapBuilder} {files' : Directory FileName}
    (hfiles : List.Forall₂ (fun cf cfFile => cfFile.cf = Cf.name cf ∧ ∃ w, cfFile.sstWriter = some
      w ∧ w.pairs = []) families b.cfFiles) (h : b.build F errs files = .ok (files', b', none)) :
    List.Forall₂ (fun cf cfFile => Exports b.txn b.region cf (CFFile.pairs cfFile)) families
      b'.cfFiles := by
  obtain ⟨r, hr, heq⟩ := Go.bind_eq_ok.mp h
  simp only [Go.pure_eq_ok, Except.ok.injEq, Prod.mk.injEq] at heq
  obtain ⟨-, rfl, herr⟩ := heq
  exact exports_of_buildLoop hfiles hr herr

variable (hvalue : ∀ key, errs.value key = none) (hadd : ∀ key, errs.add key = none)
include hvalue hadd

theorem foldlM_addItem_succeeds (items : List (Bytes × Bytes)) (cfFile : CFFile) :
    ∃ cfFile', items.foldlM (fun cfFile p => addItem errs p.1 p.2 cfFile) cfFile = .ok cfFile' := by
  induction items generalizing cfFile with
  | nil => exact ⟨cfFile, rfl⟩
  | cons p items ih =>
    obtain ⟨cfFile', h⟩ := ih (cfFile.add (keyWithCF cfFile.cf p.1) p.2)
    refine ⟨cfFile', ?_⟩
    rw [foldlM_cons, addItem, hvalue, hadd]
    exact h

theorem buildLoop_succeeds (files : Directory FileName) {cfFiles : List CFFile}
    (hw : List.Forall₂ (fun _ cfFile => ∃ w, CFFile.sstWriter cfFile = some w) families cfFiles) :
    ∃ r, buildLoop F errs b files cfFiles = .ok r ∧ r.err = none := by
  induction hw generalizing files with
  | nil => exact ⟨_, rfl, rfl⟩
  | @cons _ cfFile _ cfFiles hfile _ ih =>
    obtain ⟨w, hw₀⟩ := hfile
    obtain ⟨cfFile', hitems⟩ := foldlM_addItem_succeeds hvalue hadd
      (BadgerIterator.rangeItems cfFile.cf b.txn b.region.startKey b.region.endKey) cfFile
    obtain ⟨r, hr, herr⟩ := ih (cfFile'.flush F files).1
    refine ⟨r.push (cfFile'.flush F files).2, ?_, herr⟩
    have hbuild : buildCFFile F errs b files cfFile =
        .ok ((cfFile'.flush F files).1, (cfFile'.flush F files).2, none) := by
      rw [buildCFFile, hw₀, Go.deref_some, Go.ok_bind, addItems_eq, hitems]
      rfl
    rw [buildLoop, hbuild, Go.ok_bind]
    exact Go.map_eq_ok.mpr ⟨r, hr, rfl⟩

theorem build_succeeds (files : Directory FileName)
    (hw : List.Forall₂ (fun _ cfFile => ∃ w, CFFile.sstWriter cfFile = some w) families b.cfFiles) :
    ∃ files' b', b.build F errs files = .ok (files', b', none) := by
  obtain ⟨r, hr, herr⟩ := buildLoop_succeeds (F := F) (b := b) hvalue hadd files hw
  refine ⟨r.files, { b with
    cfFiles := r.cfFiles
    kvCount := b.kvCount + r.kvCount
    size := b.size + r.size }, Go.bind_eq_ok.mpr ⟨r, hr, ?_⟩⟩
  rw [herr, Go.pure_eq_ok]

end SnapBuilder

def Region.Holds (region : Region) (raw : Bytes) : Prop :=
  ∃ cf key, raw = keyWithCF (Cf.name cf) key ∧ region.Contains key

variable {families : List Cf} {cfFiles : List CFFile}

theorem mem_flatMap_pairs (h : List.Forall₂ (fun cf cfFile =>
      Exports source region cf (CFFile.pairs cfFile)) families cfFiles) {raw val : Bytes} :
    (raw, val) ∈ cfFiles.flatMap CFFile.pairs ↔
      (∃ cf ∈ families, ∃ key, raw = keyWithCF (Cf.name cf) key ∧ region.Contains key) ∧
        source.find raw = some val := by
  induction h with
  | nil => simp
  | cons hcf _ ih =>
    rw [flatMap_cons, mem_append, ih, hcf.mem_iff, exists_mem_cons_iff,
      or_and_right]
    refine or_congr_left ⟨?_, ?_⟩
    · rintro ⟨key, hraw, hrange, hfind⟩
      exact ⟨⟨key, hraw, hrange⟩, hfind⟩
    · rintro ⟨⟨key, hraw, hrange⟩, hfind⟩
      exact ⟨key, hraw, hrange, hfind⟩

section

variable
  (h : List.Forall₂ (fun cf cfFile => Exports source region cf (CFFile.pairs cfFile)) cfs cfFiles)
include h

theorem mem_ingested {raw val : Bytes} :
    (raw, some val) ∈ (cfFiles.flatMap CFFile.pairs).map (fun p => (p.1, some p.2)) ↔
      region.Holds raw ∧ source.find raw = some val := by
  simp only [mem_map, Prod.exists, Prod.mk.injEq, Option.some.injEq, mem_flatMap_pairs h,
    mem_cfs, true_and, Region.Holds]
  constructor
  · rintro ⟨_, _, hmem, rfl, rfl⟩
    exact hmem
  · intro hmem
    exact ⟨raw, val, hmem, rfl, rfl⟩

theorem find_ingest (db : Badger) {raw : Bytes} (hraw : region.Holds raw) {val : Bytes}
    (hval : source.find raw = some val) : (ingest db cfFiles).find raw = some val := by
  have hmem := (mem_ingested h).mpr ⟨hraw, hval⟩
  rw [ingest, Badger.find_writeAll]
  refine Writes.valueAfter_of_forall (mem_map_of_mem hmem) fun w hw hwraw => ?_
  obtain ⟨⟨raw', val'⟩, hmem', rfl⟩ := mem_map.mp hw
  obtain rfl : raw' = raw := hwraw
  exact ((mem_flatMap_pairs h).mp hmem').2.symm.trans hval

theorem find_ingest_of_not (db : Badger) {raw : Bytes}
    (hraw : ¬ (region.Holds raw ∧ source.find raw ≠ none)) :
    (ingest db cfFiles).find raw = db.find raw := by
  rw [ingest, Badger.find_writeAll]
  refine Writes.valueAfter_of_notMem fun hmem => hraw ?_
  obtain ⟨⟨raw', _ | val⟩, hw, rfl⟩ := mem_map.mp hmem
  · simp at hw
  · obtain ⟨hin, hval⟩ := (mem_ingested h).mp hw
    exact ⟨hin, by simp [hval]⟩

end

theorem not_holds_of_local (region : Region) (key : Bytes) :
    ¬ region.Holds (localPrefix :: key) := by
  rintro ⟨cf, key', hraw, -⟩
  have hhead : some localPrefix = cf.name.head? := by rw [← head?_keyWithCF cf key', ← hraw]; rfl
  cases cf <;> exact absurd hhead (by decide)

/-- The builder adds the pairs of the region to the tables of the column families. If the range is
then deleted in any engine and the tables are ingested, it agrees with the source on the keys of the
region, and its other keys are as before. -/
theorem transfer_region (F : Formats) (errs : BuildErrs) (files : Directory FileName)
    (source : Badger) (region : Region) (cfFiles : List CFFile)
    (hfiles : List.Forall₂ (fun cf cfFile => cfFile.cf = Cf.name cf ∧
      ∃ w, cfFile.sstWriter = some w ∧ w.pairs = []) cfs cfFiles) :
    ((∀ key, errs.value key = none ∧ errs.add key = none) →
      ∃ files' b, (newSnapBuilder cfFiles source region).build F errs files =
        .ok (files', b, none)) ∧
    ∀ files' b, (newSnapBuilder cfFiles source region).build F errs files =
        .ok (files', b, none) →
      List.Forall₂ (fun cf cfFile => Exports source region cf (CFFile.pairs cfFile)) cfs
        b.cfFiles ∧
      ∀ (target : Badger) (writeErrs : WriteErrs),
        (deleteRange writeErrs.call writeErrs.commit target region.startKey region.endKey).2 =
          none →
        ∀ target', ingest (deleteRange writeErrs.call writeErrs.commit target region.startKey
            region.endKey).1 b.cfFiles = target' →
          (∀ raw, region.Holds raw → target'.find raw = source.find raw) ∧
          (∀ raw, ¬ region.Holds raw → target'.find raw = target.find raw) ∧
          ∀ key, target'.find (localPrefix :: key) = target.find (localPrefix :: key) := by
  constructor
  · intro herrs
    refine SnapBuilder.build_succeeds (fun key => (herrs key).1) (fun key => (herrs key).2) files
      (hfiles.imp fun _ _ hfile => ?_)
    obtain ⟨-, w, hw, -⟩ := hfile
    exact ⟨w, hw⟩
  · intro files' b hbuild
    have hexports := SnapBuilder.exports_of_build hfiles hbuild
    refine ⟨hexports, ?_⟩
    rintro target writeErrs hdelete _ rfl
    have hother : ∀ raw, ¬ region.Holds raw →
        (ingest (deleteRange writeErrs.call writeErrs.commit target region.startKey
          region.endKey).1 b.cfFiles).find raw = target.find raw := by
      intro raw hraw
      rw [find_ingest_of_not hexports _ fun h => hraw h.1]
      exact find_deleteRange_of_not hdelete hraw
    refine ⟨fun raw hraw => ?_, hother, fun key => hother _ (not_holds_of_local region key)⟩
    cases hfind : source.find raw with
    | some val => exact find_ingest hexports _ hraw hfind
    | none =>
      -- The key is not ingested, so that it stays deleted.
      rw [find_ingest_of_not hexports _ fun h => h.2 hfind]
      obtain ⟨cf, key, rfl, hrange⟩ := hraw
      exact find_deleteRange_eq_none hdelete cf hrange

theorem transfer_region_two :
    let region : Region := ⟨[1], [4]⟩
    let source := Badger.empty.writeAll [(keyWithCF Cf.default.name [2], some [7])]
    let target := Badger.empty.writeAll
      [(keyWithCF Cf.default.name [2], some [8]), (keyWithCF Cf.write.name [3], some [9])]
    let F : Formats := ⟨fun _ => 0, fun _ => [], fun _ => none, fun _ => [], fun _ => []⟩
    let cfFiles := cfs.map fun cf =>
      { newCFFile true ⟨1, 6, 9⟩ cf with
        sstWriter := some { file := ⟨⟨true, ⟨1, 6, 9⟩, some cf, true⟩, 0⟩ } }
    ∃ files' b, (newSnapBuilder cfFiles source region).build F {} ∅ = .ok (files', b, none) ∧
      (ingest (deleteRange (fun _ => none) none target [1] [4]).1 b.cfFiles).find
        (keyWithCF Cf.default.name [2]) = some [7] ∧
      (ingest (deleteRange (fun _ => none) none target [1] [4]).1 b.cfFiles).find
        (keyWithCF Cf.write.name [3]) = none := by
  intro region source target F cfFiles
  obtain ⟨hsucceeds, htransfer⟩ := transfer_region F {} ∅ source region cfFiles
    (.cons ⟨rfl, _, rfl, rfl⟩ (.cons ⟨rfl, _, rfl, rfl⟩ (.cons ⟨rfl, _, rfl, rfl⟩ .nil)))
  obtain ⟨files', b, hbuild⟩ := hsucceeds fun _ => ⟨rfl, rfl⟩
  obtain ⟨hregion, -⟩ := (htransfer files' b hbuild).2 target {} (deleteRange_succeeds _ _ _) _ rfl
  exact ⟨files', b, hbuild, (hregion _ ⟨.default, [2], rfl, by decide⟩).trans (by decide),
    (hregion _ ⟨.write, [3], rfl, by decide⟩).trans (by decide)⟩

end

end TinyKV
