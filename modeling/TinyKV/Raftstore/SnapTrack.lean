import TinyKV.Raftstore.SnapManager
import TinyKV.Raftstore.SnapReceive

/-!
# The tracked size

`saveCFFiles` and `Save` add the size of a file to the tracked size when they rename it, and
`Delete` subtracts the recorded size.
-/

namespace TinyKV

open List

def FileName.isCFFile (name : FileName) : Bool := name.cf.isSome && !name.tmp

theorem FileName.tmp_of_isCFFile {name : FileName} (h : name.isCFFile = true) :
    name.tmp = false := by
  simpa using (Bool.and_eq_true_iff.mp h).2

theorem FileName.ne_of_tmp {name tmpName : FileName} (h : name.tmp = false)
    (htmp : tmpName.tmp = true) : name ≠ tmpName := by
  rintro rfl
  rw [h] at htmp
  cases htmp

def SnapDir.Tracked (d : SnapDir) : Prop :=
  d.sizeTrack = int64 (d.files.totalSize FileName.isCFFile)

namespace SnapDir

variable {d : SnapDir} {files : Directory FileName} {old new : FileName}

theorem Tracked.congr (h : d.Tracked)
    (hfiles : ∀ name, name.isCFFile = true → files.lookup name = d.files.lookup name) :
    (⟨files, d.sizeTrack⟩ : SnapDir).Tracked :=
  h.trans (congrArg int64 (Directory.totalSize_congr fun name hname => (hfiles name hname).symm))

def TmpOnly (files files' : Directory FileName) : Prop :=
  ∀ name, name.tmp = false → files'.lookup name = files.lookup name

theorem TmpOnly.refl (files : Directory FileName) : TmpOnly files files := fun _ _ => rfl

theorem TmpOnly.trans {files₁ files₂ files₃ : Directory FileName} (h : TmpOnly files₁ files₂)
    (h' : TmpOnly files₂ files₃) : TmpOnly files₁ files₃ :=
  fun name hname => (h' name hname).trans (h name hname)

theorem tmpOnly_write (files : Directory FileName) {h : Directory.Handle FileName} (b : Bytes)
    (hname : h.name.tmp = true) : TmpOnly files (files.write h b) := by
  intro name hnot
  rw [Directory.lookup_write, if_neg (FileName.ne_of_tmp hnot hname)]

theorem tmpOnly_erase (files : Directory FileName) {tmpName : FileName}
    (hname : tmpName.tmp = true) : TmpOnly files (files.erase tmpName) := by
  intro name hnot
  rw [Directory.lookup_erase_eq, if_neg (FileName.ne_of_tmp hnot hname)]

theorem tmpOnly_openFile (files : Directory FileName) {tmpName : FileName}
    (hname : tmpName.tmp = true) : TmpOnly files (files.openFile tmpName) := by
  intro name hnot
  rw [Directory.lookup_openFile, if_neg (FileName.ne_of_tmp hnot hname)]

theorem Tracked.tmpOnly (h : d.Tracked) (hfiles : TmpOnly d.files files) :
    (⟨files, d.sizeTrack⟩ : SnapDir).Tracked :=
  h.congr fun name hname => hfiles name (FileName.tmp_of_isCFFile hname)

theorem Tracked.rename (h : d.Tracked) (hrename : d.files.rename old new = some files)
    (hold : old.isCFFile = false) (hnew : new.isCFFile = true) (hnone : d.files.lookup new = none)
    {content : Bytes} (hcontent : d.files.lookup old = some content) {size : UInt64}
    (hsize : UInt64.ofNat content.length = size) :
    (⟨files, int64 (d.sizeTrack + toInt size.toNat)⟩ : SnapDir).Tracked := by
  have htotal := Directory.totalSize_rename hrename hold hnew
  rw [Directory.sizeOf, Directory.sizeOf, hnone, hcontent] at htotal
  rw [Tracked, h, ← hsize, int64_add_toInt, htotal]
  simp

end SnapDir

namespace Snap

variable {isSending : Bool} {key : SnapKey} {d d' : SnapDir} {s : Snap} {F : Formats}
  {cfFile : CFFile} {cfFiles : List CFFile} {holdTmpFiles : Bool} {z : CFSizes}
  {files files' : Directory FileName} {err : Option SnapErr}

def Sized (files : Directory FileName) (cfFile : CFFile) : Prop :=
  cfFile.path.isCFFile = true ∧ cfFile.tmpPath.isCFFile = false ∧
    ∀ content, files.lookup cfFile.path = some content →
      UInt64.ofNat content.length = cfFile.size

theorem Sized.mono (h : Sized files cfFile)
    (hfiles : ∀ name content, files'.lookup name = some content →
      files.lookup name = some content) : Sized files' cfFile :=
  ⟨h.1, h.2.1, fun content hcontent => h.2.2 content (hfiles _ _ hcontent)⟩

variable {name : FileName} {content : Bytes}

theorem lookup_of_deleteCFFile
    (h : (deleteCFFile holdTmpFiles d cfFile).files.lookup name = some content) :
    d.files.lookup name = some content := by
  unfold deleteCFFile at h
  dsimp only at h
  rw [Directory.lookup_erase_eq] at h
  split_ifs at h with hpath hhold
  · rw [Directory.lookup_erase_eq] at h
    split_ifs at h
    exact h
  · exact h

theorem tracked_deleteCFFile (hsized : Sized d.files cfFile) (h : d.Tracked) :
    (deleteCFFile holdTmpFiles d cfFile).Tracked := by
  obtain ⟨hpath, htmp, hsize⟩ := hsized
  have hne : cfFile.path ≠ cfFile.tmpPath := by
    intro heq
    rw [heq, htmp] at hpath
    exact absurd hpath (by simp)
  unfold deleteCFFile
  dsimp only
  -- Deleting the temporary file before changes neither the size nor the file itself.
  generalize hrest : (if holdTmpFiles then d.files.erase cfFile.tmpPath else d.files) = rest
  have hlookup : AList.lookup cfFile.path rest = d.files.lookup cfFile.path := by
    rw [← hrest]
    split_ifs
    · rw [Directory.lookup_erase_eq, if_neg hne]
    · rfl
  have htotal : Directory.totalSize FileName.isCFFile rest =
      d.files.totalSize FileName.isCFFile := by
    rw [← hrest]
    split_ifs
    · exact Directory.totalSize_erase_of_not htmp
    · rfl
  rw [SnapDir.Tracked, Directory.totalSize_erase, htotal, if_pos hpath, Directory.sizeOf, hlookup,
    h, Directory.fileExists, hlookup]
  cases hcontent : d.files.lookup cfFile.path with
  | none => simp
  | some content =>
    rw [← hsize content hcontent]
    exact int64_sub_toInt _ _

theorem tracked_foldl_deleteCFFile (hsized : ∀ cfFile ∈ cfFiles, Sized d.files cfFile)
    (h : d.Tracked) : (cfFiles.foldl (deleteCFFile holdTmpFiles) d).Tracked := by
  induction cfFiles generalizing d with
  | nil => exact h
  | cons cfFile cfFiles ih =>
    obtain ⟨hfirst, hsized⟩ := forall_mem_cons.mp hsized
    refine ih (fun f hf => (hsized f hf).mono ?_) (tracked_deleteCFFile hfirst h)
    exact fun name content => lookup_of_deleteCFFile

theorem lookup_of_foldl_deleteCFFile
    (h : (cfFiles.foldl (deleteCFFile holdTmpFiles) d).files.lookup name = some content) :
    d.files.lookup name = some content := by
  induction cfFiles generalizing d with
  | nil => exact h
  | cons cfFile cfFiles ih => exact lookup_of_deleteCFFile (ih h)

theorem lookup_of_delete (h : (s.delete d).files.lookup name = some content) :
    d.files.lookup name = some content := by
  unfold delete at h
  dsimp only at h
  split_ifs at h
  · rw [Directory.lookup_erase_eq, Directory.lookup_erase_eq] at h
    split_ifs at h
    exact lookup_of_foldl_deleteCFFile h
  · rw [Directory.lookup_erase_eq] at h
    split_ifs at h
    exact lookup_of_foldl_deleteCFFile h

theorem tracked_delete (hnamed : Named isSending key s)
    (hsized : ∀ cfFile ∈ s.cfFiles, Sized d.files cfFile) (h : d.Tracked) :
    (s.delete d).Tracked := by
  have hfold : (s.cfFiles.foldl (deleteCFFile s.holdTmpFiles) d).Tracked :=
    tracked_foldl_deleteCFFile hsized h
  refine hfold.congr fun name hname => ?_
  have hpath : name ≠ s.metaFile.path := by
    rintro rfl
    simp [hnamed.path, FileName.isCFFile, metaPath] at hname
  have htmp : name ≠ s.metaFile.tmpPath := by
    rintro rfl
    simp [hnamed.tmpPath, FileName.isCFFile, metaTmpPath] at hname
  split_ifs
  · rw [Directory.lookup_erase_eq, if_neg htmp, Directory.lookup_erase_eq, if_neg hpath]
  · rw [Directory.lookup_erase_eq, if_neg hpath]

variable {cf : Cf}

theorem SizesAgree.sized (h : SizesAgree files isSending key z)
    (hpath : cfFile.path = cfPath isSending key cf)
    (htmp : cfFile.tmpPath = cfTmpPath isSending key cf) (hsize : cfFile.size = z.size cf) :
    Sized files cfFile := by
  refine ⟨?_, ?_, fun content hcontent => ?_⟩
  · rw [hpath]
    rfl
  · rw [htmp]
    rfl
  · rw [hpath] at hcontent
    rw [hsize]
    exact h cf content hcontent

theorem sized_of_newSnapForSending (h : newSnapForSending F d key = .ok s)
    (hmeta : d.files.fileExists (metaPath true key) = true) :
    ∀ cfFile ∈ s.cfFiles, Sized d.files cfFile := by
  obtain ⟨m, z, rfl, hagree, -⟩ := newSnapForSending_eq_ok h hmeta
  intro cfFile hmem
  obtain ⟨cf, -, rfl⟩ := mem_map.mp hmem
  unfold sentFile
  split_ifs <;> exact hagree.sized rfl rfl rfl

theorem sized_of_absent (h : ∀ cf, files.lookup (cfPath isSending key cf) = none)
    (hnamed : Named isSending key s) : ∀ cfFile ∈ s.cfFiles, Sized files cfFile := by
  intro cfFile hmem
  obtain ⟨cf, hpath, htmp⟩ := hnamed.cfFiles cfFile hmem
  refine ⟨by rw [hpath]; rfl, by rw [htmp]; rfl, fun content hcontent => ?_⟩
  rw [hpath, h cf] at hcontent
  cases hcontent

theorem getFileSize_eq_ok {path : FileName} {size : UInt64}
    (h : getFileSize files path = .ok size) :
    ∃ content, files.lookup path = some content ∧ UInt64.ofNat content.length = size := by
  unfold getFileSize at h
  split at h
  · rename_i content hcontent
    cases h
    exact ⟨content, hcontent, rfl⟩
  · cases h

/-- A file of a snapshot that is built: its table is written to its temporary file. -/
structure BuildFile (key : SnapKey) (cf : Cf) (cfFile : CFFile) : Prop where
  path : cfFile.path = cfPath true key cf
  tmpPath : cfFile.tmpPath = cfTmpPath true key cf
  sstWriter : ∀ w, cfFile.sstWriter = some w → w.file.name = cfTmpPath true key cf

theorem BuildFile.add (h : BuildFile key cf cfFile) (cfKey val : Bytes) :
    BuildFile key cf (cfFile.add cfKey val) := by
  refine ⟨h.path, h.tmpPath, fun w hw => ?_⟩
  obtain ⟨w', hw', rfl⟩ := Option.map_eq_some_iff.mp hw
  exact h.sstWriter w' hw'

variable {errs : BuildErrs}

theorem BuildFile.foldlM {items : List (Bytes × Bytes)} (h : BuildFile key cf cfFile) :
    (∀ cfFile', items.foldlM (fun cfFile p => SnapBuilder.addItem errs p.1 p.2 cfFile) cfFile =
        .ok cfFile' → BuildFile key cf cfFile') ∧
      ∀ cfFile' err, items.foldlM (fun cfFile p => SnapBuilder.addItem errs p.1 p.2 cfFile) cfFile =
        .error (cfFile', err) → BuildFile key cf cfFile' := by
  induction items generalizing cfFile with
  | nil =>
    refine ⟨fun cfFile' heq => ?_, fun cfFile' err heq => ?_⟩
    · cases heq
      exact h
    · cases heq
  | cons p items ih =>
    rw [foldlM_cons]
    cases hp : SnapBuilder.addItem errs p.1 p.2 cfFile with
    | ok cfFile₁ =>
      obtain rfl := SnapBuilder.addItem_eq_ok hp
      exact ih (h.add _ _)
    | error e =>
      refine ⟨fun cfFile' heq => ?_, fun cfFile' err heq => ?_⟩
      · cases heq
      · cases heq
        unfold SnapBuilder.addItem at hp
        dsimp only at hp
        split at hp
        · cases hp
          exact h
        · split at hp
          · cases hp
            exact h
          · cases hp

theorem BuildFile.flush (h : BuildFile key cf cfFile) (F : Formats) (files : Directory FileName) :
    BuildFile key cf (cfFile.flush F files).2 ∧ SnapDir.TmpOnly files (cfFile.flush F files).1 := by
  unfold CFFile.flush
  split
  · exact ⟨h, SnapDir.TmpOnly.refl files⟩
  · rename_i w hw
    refine ⟨⟨h.path, h.tmpPath, fun w' hw' => ?_⟩, ?_⟩
    · cases hw'
      exact h.sstWriter w hw
    · refine SnapDir.tmpOnly_write files _ ?_
      rw [h.sstWriter w hw]
      rfl

theorem BuildFile.buildCFFile {b : SnapBuilder} {cfFile' : CFFile} (h : BuildFile key cf cfFile)
    (hbuild : b.buildCFFile F errs files cfFile = .ok (files', cfFile', err)) :
    BuildFile key cf cfFile' ∧ SnapDir.TmpOnly files files' := by
  obtain ⟨w, -, hbuild⟩ := Go.bind_eq_ok.mp hbuild
  rw [SnapBuilder.addItems_eq] at hbuild
  split at hbuild
  · rename_i cfFile₁ err' hitems
    cases hbuild
    exact (h.foldlM.2 cfFile₁ err' hitems).flush F files
  · rename_i cfFile₁ hitems
    cases hbuild
    exact (h.foldlM.1 cfFile₁ hitems).flush F files

theorem buildLoop_frame {families : List Cf} {b : SnapBuilder}
    {r : SnapBuilder.BuildLoop} (h : List.Forall₂ (BuildFile key) families cfFiles)
    (hbuild : b.buildLoop F errs files cfFiles = .ok r) :
    List.Forall₂ (BuildFile key) families r.cfFiles ∧ SnapDir.TmpOnly files r.files := by
  induction h generalizing files r with
  | nil =>
    cases hbuild
    exact ⟨.nil, SnapDir.TmpOnly.refl files⟩
  | cons hfirst hrest ih =>
    obtain ⟨⟨files₁, cfFile₁, err₁⟩, hfile, hbuild⟩ := Go.bind_eq_ok.mp hbuild
    obtain ⟨hfirst', hfiles⟩ := hfirst.buildCFFile hfile
    cases err₁ with
    | some err =>
      cases hbuild
      exact ⟨.cons hfirst' hrest, hfiles⟩
    | none =>
      obtain ⟨r', hr', rfl⟩ := Go.map_eq_ok.mp hbuild
      obtain ⟨hrest', hfiles'⟩ := ih hr'
      exact ⟨.cons hfirst' hrest', hfiles.trans hfiles'⟩

theorem BuildFile.saveBuiltFile {cfFile' : CFFile} (h : BuildFile key cf cfFile)
    (hnone : d.files.lookup (cfPath true key cf) = none) (htracked : d.Tracked)
    (hsave : saveBuiltFile F d cfFile = .ok (d', cfFile', err)) :
    d'.Tracked ∧ ∀ name, name.tmp = false → name ≠ cfPath true key cf →
      d'.files.lookup name = d.files.lookup name := by
  obtain ⟨w, hw, hsave⟩ := Go.bind_eq_ok.mp hsave
  have hwriter : w.file.name = cfTmpPath true key cf := h.sstWriter w (Go.deref_eq_ok.mp hw)
  generalize hfiles : (if 0 < cfFile.kvCount then d.files.write w.file (F.index w.pairs)
    else d.files) = files at hsave
  have hlookup : SnapDir.TmpOnly d.files files := by
    rw [← hfiles]
    split_ifs
    · exact SnapDir.tmpOnly_write _ _ (by rw [hwriter]; rfl)
    · exact SnapDir.TmpOnly.refl _
  have hfinished := htracked.tmpOnly hlookup
  dsimp only at hsave
  cases hsize : getFileSize files cfFile.tmpPath with
  | error err' =>
    rw [hsize] at hsave
    cases hsave
    exact ⟨hfinished, fun name hname _ => hlookup name hname⟩
  | ok size =>
    rw [hsize] at hsave
    dsimp only at hsave
    split_ifs at hsave with hpos
    · cases hrename : files.rename cfFile.tmpPath cfFile.path with
      | none =>
        rw [hrename] at hsave
        cases hsave
        exact ⟨hfinished, fun name hname _ => hlookup name hname⟩
      | some files₁ =>
        rw [hrename] at hsave
        obtain ⟨content, hcontent, hlength⟩ := getFileSize_eq_ok hsize
        have hrenamed := hfinished.rename hrename (by rw [h.tmpPath]; rfl) (by rw [h.path]; rfl)
          (by rw [h.path, hlookup _ rfl, hnone]) hcontent hlength
        have hother : ∀ name, name.tmp = false → name ≠ cfPath true key cf →
            files₁.lookup name = d.files.lookup name := by
          intro name hname hne
          rw [Directory.lookup_rename hrename, h.path, if_neg hne, h.tmpPath,
            if_neg (FileName.ne_of_tmp hname rfl), hlookup _ hname]
        -- The file is renamed and counted before its checksum is computed.
        dsimp only at hsave
        split at hsave <;> cases hsave <;> exact ⟨hrenamed, hother⟩
    · cases hsave
      have hother := hlookup.trans
        (SnapDir.tmpOnly_erase files (show cfFile.tmpPath.tmp = true by rw [h.tmpPath]; rfl))
      exact ⟨htracked.tmpOnly hother, fun name hname _ => hother name hname⟩

theorem tracked_saveCFFiles {families : List Cf} {cfFiles' : List CFFile}
    (h : List.Forall₂ (BuildFile key) families cfFiles) (hnodup : families.Nodup)
    (hnone : ∀ cf ∈ families, d.files.lookup (cfPath true key cf) = none) (htracked : d.Tracked)
    (hsave : saveCFFiles F d cfFiles = .ok (d', cfFiles', err)) : d'.Tracked := by
  induction h generalizing d cfFiles' with
  | nil =>
    cases hsave
    exact htracked
  | @cons cf cfFile families cfFiles hfirst _ ih =>
    obtain ⟨hnotMem, hnodup⟩ := nodup_cons.mp hnodup
    obtain ⟨hfirstNone, hnone⟩ := forall_mem_cons.mp hnone
    obtain ⟨⟨d₁, cfFile₁, err₁⟩, hfile, hsave⟩ := Go.bind_eq_ok.mp hsave
    obtain ⟨htracked₁, hother⟩ := hfirst.saveBuiltFile hfirstNone htracked hfile
    cases err₁ with
    | some err =>
      cases hsave
      exact htracked₁
    | none =>
      obtain ⟨⟨d₂, cfFiles₂, err₂⟩, hrest, hsave⟩ := Go.bind_eq_ok.mp hsave
      cases hsave
      refine ih hnodup (fun cf' hmem => ?_) htracked₁ hrest
      rw [hother _ rfl, hnone cf' hmem]
      intro heq
      obtain rfl : cf' = cf := Option.some.inj (congrArg FileName.cf heq)
      exact hnotMem hmem

/-- A `Snap` that is open to be built. -/
structure Building (key : SnapKey) (s : Snap) : Prop where
  cfFiles : List.Forall₂ (BuildFile key) cfs s.cfFiles
  metaFile : MetaNamed s.metaFile

theorem tracked_saveMetaFile (hsave : s.saveMetaFile F d.files = .ok (files, err))
    (hmeta : MetaNamed s.metaFile) (htracked : d.Tracked) :
    (⟨files, d.sizeTrack⟩ : SnapDir).Tracked := by
  refine htracked.congr fun name hname => lookup_saveMetaFile_cf hmeta hsave ?_
  intro hcf
  simp [FileName.isCFFile, hcf] at hname

theorem Building.buildNew {dbSnap : Badger} {region : Region}
    {r : Except SnapErr Built} (h : Building key s)
    (hnone : ∀ cf, d.files.lookup (cfPath true key cf) = none) (htracked : d.Tracked)
    (hbuild : s.buildNew F errs d dbSnap region = .ok (d', r)) : d'.Tracked := by
  obtain ⟨⟨files, b, err⟩, hbuilder, hbuild⟩ := Go.bind_eq_ok.mp hbuild
  obtain ⟨loop, hloop, hb⟩ := Go.bind_eq_ok.mp hbuilder
  cases hb
  obtain ⟨hcfFiles, hfiles⟩ := buildLoop_frame h.cfFiles hloop
  have hbuilt := htracked.tmpOnly hfiles
  cases hloopErr : loop.err with
  | some err =>
    rw [hloopErr] at hbuild
    cases hbuild
    exact hbuilt
  | none =>
    rw [hloopErr] at hbuild
    obtain ⟨⟨d₁, cfFiles₁, err₁⟩, hsave, hbuild⟩ := Go.bind_eq_ok.mp hbuild
    have hsaved : d₁.Tracked := tracked_saveCFFiles hcfFiles (by decide)
      (fun cf _ => (hfiles _ rfl).trans (hnone cf)) hbuilt hsave
    cases err₁ with
    | some err =>
      cases hbuild
      exact hsaved
    | none =>
      dsimp only at hbuild
      split at hbuild
      · cases hbuild
        exact hsaved
      · obtain ⟨⟨files₂, err₂⟩, hmeta, hbuild⟩ := Go.bind_eq_ok.mp hbuild
        have htracked₂ := tracked_saveMetaFile hmeta
          ⟨h.metaFile.path, h.metaFile.tmpPath, h.metaFile.file⟩ hsaved
        cases err₂ <;> cases hbuild <;> exact htracked₂

theorem tmpOnly_foldl_openFile (files : Directory FileName)
    (h : ∀ cfFile ∈ cfFiles, (CFFile.tmpPath cfFile).tmp = true) :
    SnapDir.TmpOnly files
      (cfFiles.foldl (fun files cfFile => files.openFile cfFile.tmpPath) files) := by
  induction cfFiles generalizing files with
  | nil => exact SnapDir.TmpOnly.refl files
  | cons cfFile cfFiles ih =>
    obtain ⟨hfirst, h⟩ := forall_mem_cons.mp h
    exact (SnapDir.tmpOnly_openFile files hfirst).trans (ih _ h)

theorem building_initForBuilding (hmeta : files.fileExists (metaPath true key) = false) :
    Building key ((ofKey true key).initForBuilding files).2 ∧
      SnapDir.TmpOnly files ((ofKey true key).initForBuilding files).1 ∧
      ((ofKey true key).initForBuilding files).2.existsOn
        ((ofKey true key).initForBuilding files).1 = false := by
  have hnot : ¬(ofKey true key).existsOn files = true := by
    rw [existsOn_eq_false hmeta]
    simp
  have hfiles : SnapDir.TmpOnly files ((ofKey true key).initForBuilding files).1 := by
    rw [initForBuilding, if_neg hnot]
    refine (SnapDir.tmpOnly_openFile files rfl).trans (tmpOnly_foldl_openFile _ ?_)
    intro cfFile hmem
    obtain ⟨cf, -, rfl⟩ := mem_map.mp hmem
    rfl
  refine ⟨?_, hfiles, ?_⟩
  · rw [initForBuilding, if_neg hnot]
    refine ⟨?_, rfl, rfl, fun h hopen => ?_⟩
    · rw [forall₂_map_right_iff, show (ofKey true key).cfFiles = cfs.map (newCFFile true key)
        from rfl, forall₂_map_right_iff, forall₂_same]
      intro cf _
      refine ⟨rfl, rfl, fun w hw => ?_⟩
      cases hw
      rfl
    · cases hopen
      rfl
  · have hpath : ((ofKey true key).initForBuilding files).2.metaFile.path = metaPath true key := by
      rw [initForBuilding, if_neg hnot]
      rfl
    refine existsOn_eq_false ?_
    rw [hpath, Directory.fileExists, hfiles _ rfl]
    exact hmeta

theorem newSnapForBuilding_cases {deleter : SnapshotDeleter}
    (hrefused : ∀ s, deleter d key s true = (d, false)) :
    (∃ err, newSnapForBuilding F deleter d key = (d, .error err)) ∨
    (∃ s, newSnapForBuilding F deleter d key = (d, .ok s) ∧ s.existsOn d.files = true) ∨
    d.files.fileExists (metaPath true key) = false ∧
      newSnapForBuilding F deleter d key =
        (⟨((ofKey true key).initForBuilding d.files).1, d.sizeTrack⟩,
          .ok ((ofKey true key).initForBuilding d.files).2) := by
  unfold newSnapForBuilding
  rw [newSnap_of_refused hrefused]
  cases hnew : (newSnap F none d key true).2 with
  | error err => exact Or.inl ⟨err, rfl⟩
  | ok s =>
    rcases newSnap_eq_ok hnew with ⟨hmeta, rfl⟩ | ⟨m, z, rfl, -, hexists⟩
    · exact Or.inr (Or.inr ⟨hmeta, rfl⟩)
    · refine Or.inr (Or.inl ⟨_, ?_, hexists⟩)
      simp only [initForBuilding, hexists, if_true]

structure Unsaved (files : Directory FileName) (cfFile : CFFile) : Prop where
  path : cfFile.path.isCFFile = true
  tmpPath : cfFile.tmpPath.isCFFile = false
  absent : files.lookup cfFile.path = none
  length : cfFile.writtenSize = cfFile.size → ∀ content,
    files.lookup cfFile.tmpPath = some content → UInt64.ofNat content.length = cfFile.size

theorem tracked_saveFiles
    (hapart : (cfFiles.map fun cfFile => (cfFile.path, cfFile.tmpPath)).Pairwise Apart)
    (hcfFiles : ∀ cfFile ∈ cfFiles, CFFile.size cfFile ≠ 0 → Unsaved d.files cfFile)
    (htracked : d.Tracked) (hsave : saveFiles F d cfFiles = .ok (d', err)) : d'.Tracked := by
  induction cfFiles generalizing d with
  | nil =>
    cases hsave
    exact htracked
  | cons cfFile cfFiles ih =>
    rw [map_cons, pairwise_cons] at hapart
    obtain ⟨hfirst, hcfFiles⟩ := forall_mem_cons.mp hcfFiles
    obtain ⟨⟨d₁, err₁⟩, hfile, hsave⟩ := Go.bind_eq_ok.mp hsave
    rcases saveCFFile_eq_ok hfile with ⟨rfl, -⟩ | ⟨hsize, hfull, -, files, hrename, rfl⟩
    · cases err₁ with
      | some err =>
        cases hsave
        exact htracked
      | none => exact ih hapart.2 hcfFiles htracked hsave
    · have hunsaved := hfirst hsize
      obtain ⟨content, hcontent, -⟩ := Option.map_eq_some_iff.mp hrename
      have htracked₁ := htracked.rename hrename hunsaved.tmpPath hunsaved.path hunsaved.absent
        hcontent (hunsaved.length hfull content hcontent)
      cases err₁ with
      | some err =>
        cases hsave
        exact htracked₁
      | none =>
        -- The files that are left have other names than those of the renamed file.
        refine ih hapart.2 (fun g hg hsize => ?_) htracked₁ hsave
        have hg' := hcfFiles g hg hsize
        obtain ⟨h₁, h₂, h₃⟩ := hapart.1 (g.path, g.tmpPath) (mem_map.mpr ⟨g, hg, rfl⟩)
        have hne : g.path ≠ cfFile.tmpPath := by
          intro heq
          have hpath := hg'.path
          rw [heq, hunsaved.tmpPath] at hpath
          cases hpath
        refine ⟨hg'.path, hg'.tmpPath, ?_, ?_⟩
        · rw [Directory.lookup_rename hrename, if_neg (Ne.symm h₁), if_neg hne, hg'.absent]
        · rw [Directory.lookup_rename hrename, if_neg (Ne.symm h₂), if_neg h₃]
          exact hg'.length

def Attempt.Clear (files : Directory FileName) (key : SnapKey) (a : Attempt) : Prop :=
  a.saves = true →
    (files.fileExists (metaPath false key) = true ∧ ∀ q ∈ a.cfFiles, q.2.1.size ≠ 0 →
      files.fileExists (cfPath false key q.1) = true) ∨
    ∀ q ∈ a.cfFiles, q.2.1.size ≠ 0 → files.fileExists (cfPath false key q.1) = false ∧
      ((files.lookup (cfTmpPath false key q.1)).getD []).length ≤ q.2.1.size.toNat

section

variable {p : Bytes}
  (h : Receiving (openedFiles d.files key z).lookup (cfs.map (receivedFile key z)) p files s)
include h

theorem tracked_received (htracked : d.Tracked) : (⟨files, d.sizeTrack⟩ : SnapDir).Tracked := by
  refine htracked.congr fun name hname => ?_
  have htmp := FileName.tmp_of_isCFFile hname
  rw [lookup_received_of_not h, lookup_openedFiles_of_not htmp]
  rintro cf rfl
  cases htmp

theorem unsaved_wroteFile {cf : Cf} (hsize : z.size cf ≠ 0)
    (habsent : d.files.fileExists (cfPath false key cf) = false)
    (htmp : ((d.files.lookup (cfTmpPath false key cf)).getD []).length ≤ (z.size cf).toNat) :
    Unsaved files (wroteFile key z p cf) := by
  obtain ⟨hpath, htmpPath, hcf⟩ := wroteFile_spec key z p cf
  refine ⟨by rw [hpath]; rfl, by rw [htmpPath]; rfl, ?_, fun hfull content hcontent => ?_⟩
  · rw [hpath, lookup_received_of_not h (by simp [cfPath, cfTmpPath]),
      lookup_openedFiles_of_not rfl]
    exact Directory.fileExists_eq_false.mp habsent
  · rw [htmpPath, lookup_received_cf h hsize] at hcontent
    cases hcontent
    rw [Directory.length_written, length_partOf hsize hfull, max_eq_right htmp, hcf,
      UInt64.ofNat_toNat]

end

theorem tracked_receive {a : Attempt} {result : ReceiveResult} (hclear : a.Clear d.files key)
    (htracked : d.Tracked) (h : receive F d key a = .ok (d', result)) : d'.Tracked := by
  rcases received_of_receive h with ⟨rfl, -⟩ | ⟨z, hmeta, hagree, hnot, hreceived⟩
  · exact htracked
  cases hreceived with
  | brokenOff hreceiving htrack _ =>
    have hbroken := tracked_received hreceiving htracked
    rwa [← htrack] at hbroken
  | @saves s files err hsaves hreceiving hmetaFile hsave _ =>
    obtain ⟨⟨d₁, err₁⟩, hfiles, hend⟩ := Go.bind_eq_ok.mp hsave
    rw [hreceiving.cfFiles, wroteFiles_receivedFile] at hfiles
    have hsaved : d₁.Tracked := by
      refine tracked_saveFiles (by rw [names_wroteFile]; exact apart_cfs false key) ?_
        (tracked_received hreceiving htracked) hfiles
      intro cfFile hmem hsize
      obtain ⟨cf, -, rfl⟩ := mem_map.mp hmem
      rw [(wroteFile_spec key z _ cf).2.2] at hsize
      rcases hclear hsaves with ⟨hexists, hpresent⟩ | habsent
      · -- The snapshot would exist.
        rw [forall_mem_cfFiles hmeta] at hpresent
        rw [existsOn_ofSizes.mpr ⟨hpresent, hexists⟩] at hnot
        cases hnot
      · rw [forall_mem_cfFiles hmeta] at habsent
        obtain ⟨hpath, htmp⟩ := habsent cf hsize
        exact unsaved_wroteFile hreceiving hsize hpath htmp
    cases err₁ with
    | some err =>
      cases hend
      exact hsaved
    | none =>
      obtain ⟨⟨files₂, err₂⟩, hsaveMeta, hend⟩ := Go.bind_eq_ok.mp hend
      cases hend
      refine tracked_saveMetaFile hsaveMeta ?_ hsaved
      rw [hmetaFile]
      exact metaNamed_ofReceived key a.snapshotMeta z

end Snap

end TinyKV
