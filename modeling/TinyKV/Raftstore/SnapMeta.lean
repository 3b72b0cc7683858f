import TinyKV.Raftstore.Snap

/-!
# Opening a snapshot

What the constructors of `kv/raftstore/snap/snap.go` return.
-/

namespace TinyKV

open List

def cfPath (isSending : Bool) (key : SnapKey) (cf : Cf) : FileName :=
  ⟨isSending, key, some cf, false⟩

def cfTmpPath (isSending : Bool) (key : SnapKey) (cf : Cf) : FileName :=
  ⟨isSending, key, some cf, true⟩

/-- The name of the file with the metadata. -/
def metaPath (isSending : Bool) (key : SnapKey) : FileName := ⟨isSending, key, none, false⟩

def metaTmpPath (isSending : Bool) (key : SnapKey) : FileName := ⟨isSending, key, none, true⟩

/-- The sizes and checksums of the files of a snapshot. -/
@[ext]
structure CFSizes where
  size : Cf → UInt64
  checksum : Cf → UInt32

def CFSizes.toMeta (z : CFSizes) : SnapshotMeta :=
  ⟨cfs.map fun cf => ⟨cf.name, z.size cf, z.checksum cf⟩⟩

theorem CFSizes.toMeta_inj {z z' : CFSizes} (h : z.toMeta = z'.toMeta) : z = z' := by
  have hmap := map_inj_left.mp (SnapshotMeta.mk.inj h)
  refine CFSizes.ext (funext fun cf => ?_) (funext fun cf => ?_)
  · exact (SnapshotCFFile.mk.inj (hmap cf (mem_cfs cf))).2.1
  · exact (SnapshotCFFile.mk.inj (hmap cf (mem_cfs cf))).2.2

namespace Snap

def sizedFile (isSending : Bool) (key : SnapKey) (z : CFSizes) (cf : Cf) : CFFile :=
  { newCFFile isSending key cf with size := z.size cf, checksum := z.checksum cf }

section

variable (isSending : Bool) (key : SnapKey) (z : CFSizes) (cf : Cf)

@[simp]
theorem sizedFile_path : (sizedFile isSending key z cf).path = cfPath isSending key cf := rfl

@[simp]
theorem sizedFile_tmpPath :
    (sizedFile isSending key z cf).tmpPath = cfTmpPath isSending key cf := rfl

@[simp]
theorem sizedFile_size : (sizedFile isSending key z cf).size = z.size cf := rfl

end

def ofSizes (isSending : Bool) (key : SnapKey) (snapshotMeta : Option SnapshotMeta)
    (z : CFSizes) : Snap :=
  { ofKey isSending key with
    cfFiles := cfs.map (sizedFile isSending key z)
    metaFile := { (ofKey isSending key).metaFile with snapshotMeta := snapshotMeta } }

def SizesAgree (files : Directory FileName) (isSending : Bool) (key : SnapKey) (z : CFSizes) :
    Prop :=
  ∀ cf content, files.lookup (cfPath isSending key cf) = some content →
    UInt64.ofNat content.length = z.size cf

variable {isSending : Bool} {key : SnapKey} {snapshotMeta : SnapshotMeta} {m : Option SnapshotMeta}
  {z : CFSizes} {files : Directory FileName} {s : Snap} {F : Formats} {d : SnapDir}

theorem existsOn_eq_false (h : files.fileExists s.metaFile.path = false) :
    s.existsOn files = false := by
  rw [existsOn, h, Bool.and_false]

theorem existsOn_ofSizes : (ofSizes isSending key m z).existsOn files = true ↔
    (∀ cf, z.size cf ≠ 0 → files.fileExists (cfPath isSending key cf) = true) ∧
      files.fileExists (metaPath isSending key) = true := by
  have hall : ((cfs.map (sizedFile isSending key z)).all fun cfFile =>
      cfFile.size = 0 || files.fileExists cfFile.path) = true ↔
      ∀ cf, z.size cf ≠ 0 → files.fileExists (cfPath isSending key cf) = true := by
    rw [all_map, all_eq_true]
    refine ⟨fun h cf hsize => ?_, fun h cf _ => ?_⟩
    · simpa [hsize] using h cf (mem_cfs cf)
    · by_cases hsize : z.size cf = 0
      · simp [hsize]
      · simpa [hsize] using h cf hsize
  rw [existsOn, Bool.and_eq_true]
  exact and_congr_left' hall

theorem setCFMeta_eq_ok {i : ℕ} {cfFile cfFile' : CFFile} {cfMeta : SnapshotCFFile}
    (h : setCFMeta files i cfFile cfMeta = .ok cfFile') :
    cfMeta.cf = cfFile.cf ∧
      cfFile' = { cfFile with size := cfMeta.size, checksum := cfMeta.checksum } ∧
      ∀ content, files.lookup cfFile.path = some content →
        UInt64.ofNat content.length = cfMeta.size := by
  unfold setCFMeta at h
  split_ifs at h with hcf hexists
  · cases hcheck : checkFileSize files cfFile.path cfMeta.size with
    | some err =>
      rw [hcheck] at h
      cases h
    | none =>
      rw [hcheck] at h
      cases h
      refine ⟨not_not.mp hcf, rfl, fun content hcontent => ?_⟩
      by_contra hne
      simp [checkFileSize, getFileSize, hcontent, hne] at hcheck
  · cases h
    refine ⟨not_not.mp hcf, rfl, fun content hcontent => ?_⟩
    exact absurd (Directory.fileExists_iff.mpr ⟨content, hcontent⟩) hexists

theorem setCFMetas_cons {i : ℕ} {cfFile : CFFile} {cfFiles cfFiles' : List CFFile}
    {cfMeta : SnapshotCFFile} {cfMetas : List SnapshotCFFile}
    (h : setCFMetas files i (cfFile :: cfFiles) (cfMeta :: cfMetas) = (cfFiles', none)) :
    ∃ cfFile' rest, setCFMeta files i cfFile cfMeta = .ok cfFile' ∧
      setCFMetas files (i + 1) cfFiles cfMetas = (rest, none) ∧ cfFiles' = cfFile' :: rest := by
  unfold setCFMetas at h
  cases hset : setCFMeta files i cfFile cfMeta with
  | error err => simp [hset] at h
  | ok cfFile' =>
    simp only [hset, Prod.mk.injEq] at h
    exact ⟨cfFile', _, rfl, Prod.ext rfl h.2, h.1.symm⟩

theorem setSnapshotMeta_ofSizes {s' : Snap}
    (h : (ofSizes isSending key m z).setSnapshotMeta files snapshotMeta = (s', none)) :
    ∃ z' : CFSizes, snapshotMeta = z'.toMeta ∧ s' = ofSizes isSending key (some snapshotMeta) z' ∧
      SizesAgree files isSending key z' := by
  obtain ⟨cfMetas⟩ := snapshotMeta
  unfold setSnapshotMeta at h
  split_ifs at h with hlength
  · simp at h
  · rw [not_not] at hlength
    obtain ⟨m₁, m₂, m₃, rfl⟩ := length_eq_three.mp hlength
    cases hset : setCFMetas files 0 (ofSizes isSending key m z).cfFiles [m₁, m₂, m₃] with
    | mk cfFiles err =>
      cases err with
      | some err => simp [hset] at h
      | none =>
        simp only [hset, Prod.mk.injEq, and_true] at h
        subst h
        obtain ⟨f₁, _, h₁, hset₁, rfl⟩ := setCFMetas_cons hset
        obtain ⟨f₂, _, h₂, hset₂, rfl⟩ := setCFMetas_cons hset₁
        obtain ⟨f₃, _, h₃, hset₃, rfl⟩ := setCFMetas_cons hset₂
        obtain ⟨hcf₁, rfl, hsize₁⟩ := setCFMeta_eq_ok h₁
        obtain ⟨hcf₂, rfl, hsize₂⟩ := setCFMeta_eq_ok h₂
        obtain ⟨hcf₃, rfl, hsize₃⟩ := setCFMeta_eq_ok h₃
        cases hset₃
        obtain ⟨cf₁, size₁, checksum₁⟩ := m₁
        obtain ⟨cf₂, size₂, checksum₂⟩ := m₂
        obtain ⟨cf₃, size₃, checksum₃⟩ := m₃
        obtain rfl : cf₁ = Cf.default.name := hcf₁
        obtain rfl : cf₂ = Cf.write.name := hcf₂
        obtain rfl : cf₃ = Cf.lock.name := hcf₃
        refine ⟨⟨@Cf.rec (fun _ => UInt64) size₁ size₂ size₃,
          @Cf.rec (fun _ => UInt32) checksum₁ checksum₂ checksum₃⟩, rfl, rfl, ?_⟩
        rintro (_ | _ | _) content hcontent
        · exact hsize₁ content hcontent
        · exact hsize₂ content hcontent
        · exact hsize₃ content hcontent

theorem ofKey_eq (isSending : Bool) (key : SnapKey) :
    ofKey isSending key = ofSizes isSending key none ⟨fun _ => 0, fun _ => 0⟩ := rfl

theorem loadSnapMeta_eq_none {s' : Snap}
    (h : (ofSizes isSending key m z).loadSnapMeta F files = (s', none)) :
    ∃ snapshotMeta z', s' = ofSizes isSending key (some snapshotMeta) z' ∧
      (ofSizes isSending key m z).readSnapshotMeta F files = .ok snapshotMeta ∧
      snapshotMeta = z'.toMeta ∧ SizesAgree files isSending key z' ∧ s'.existsOn files = true := by
  unfold loadSnapMeta at h
  cases hread : (ofSizes isSending key m z).readSnapshotMeta F files with
  | error err => simp [hread] at h
  | ok snapshotMeta =>
    cases hset : (ofSizes isSending key m z).setSnapshotMeta files snapshotMeta with
    | mk s₁ err =>
      cases err with
      | some err => simp [hread, hset] at h
      | none =>
        simp only [hread, hset] at h
        split_ifs at h with hexists
        · cases h
          obtain ⟨z', hmeta, rfl, hagree⟩ := setSnapshotMeta_ofSizes hset
          exact ⟨snapshotMeta, z', rfl, rfl, hmeta, hagree, hexists⟩
        · simp at h

theorem newSnap_eq_ok (h : (newSnap F none d key isSending).2 = .ok s) :
    (d.files.fileExists (metaPath isSending key) = false ∧ s = ofKey isSending key) ∨
    ∃ snapshotMeta z, s = ofSizes isSending key (some snapshotMeta) z ∧
      SizesAgree d.files isSending key z ∧ s.existsOn d.files = true := by
  unfold newSnap at h
  dsimp only at h
  split_ifs at h with hexists
  · right
    cases hload : (ofKey isSending key).loadSnapMeta F d.files with
    | mk s' err =>
      cases err with
      | some err => simp [hload] at h
      | none =>
        simp only [hload, Except.ok.injEq] at h
        subst h
        rw [ofKey_eq] at hload
        obtain ⟨snapshotMeta, z, hs, -, -, hagree, hexists'⟩ := loadSnapMeta_eq_none hload
        exact ⟨snapshotMeta, z, hs, hagree, hexists'⟩
  · left
    cases h
    exact ⟨Bool.eq_false_iff.mpr hexists, rfl⟩

theorem newSnap_eq_ofSizes (h : (newSnap F none d key isSending).2 = .ok s) :
    ∃ m z, s = ofSizes isSending key m z := by
  rcases newSnap_eq_ok h with ⟨-, rfl⟩ | ⟨m, z, rfl, -, -⟩
  · exact ⟨none, _, ofKey_eq isSending key⟩
  · exact ⟨some m, z, rfl⟩

def receivedFile (key : SnapKey) (z : CFSizes) (cf : Cf) : CFFile :=
  openForReceiving (sizedFile false key z cf)

@[simp]
theorem size_receivedFile (key : SnapKey) (z : CFSizes) (cf : Cf) :
    (receivedFile key z cf).size = z.size cf := by
  unfold receivedFile openForReceiving
  split_ifs <;> rfl

@[simp]
theorem path_receivedFile (key : SnapKey) (z : CFSizes) (cf : Cf) :
    (receivedFile key z cf).path = cfPath false key cf := by
  unfold receivedFile openForReceiving
  split_ifs <;> rfl

@[simp]
theorem tmpPath_receivedFile (key : SnapKey) (z : CFSizes) (cf : Cf) :
    (receivedFile key z cf).tmpPath = cfTmpPath false key cf := by
  unfold receivedFile openForReceiving
  split_ifs <;> rfl

theorem receivedFile_of_ne {cf : Cf} (h : z.size cf ≠ 0) :
    receivedFile key z cf =
      { sizedFile false key z cf with
        file := some ⟨cfTmpPath false key cf, 0⟩, writeDigest := some [] } := if_neg h

def ofReceived (key : SnapKey) (snapshotMeta : SnapshotMeta) (z : CFSizes) : Snap :=
  { ofSizes false key (some snapshotMeta) z with
    metaFile := {
      snapshotMeta := some snapshotMeta
      path := metaPath false key
      file := some ⟨metaTmpPath false key, 0⟩
      tmpPath := metaTmpPath false key }
    holdTmpFiles := true
    cfFiles := cfs.map (receivedFile key z) }

theorem newSnapForReceiving_eq_ok {d' : SnapDir}
    (h : newSnapForReceiving F d key snapshotMeta = .ok (d', s)) :
    ∃ z, snapshotMeta = z.toMeta ∧ SizesAgree d.files false key z ∧
      (((ofSizes false key (some snapshotMeta) z).existsOn d.files = true ∧ d' = d ∧
          s = ofSizes false key (some snapshotMeta) z) ∨
        (ofSizes false key (some snapshotMeta) z).existsOn d.files = false ∧
          d' = { d with
            files := openTmpFiles (d.files.openFile (metaTmpPath false key))
              (cfs.map (sizedFile false key z)) } ∧
          s = ofReceived key snapshotMeta z) := by
  unfold newSnapForReceiving at h
  cases hnew : (newSnap F none d key false).2 with
  | error err =>
    rw [hnew] at h
    cases h
  | ok s₀ =>
    obtain ⟨m, z₀, rfl⟩ := newSnap_eq_ofSizes hnew
    rw [hnew] at h
    cases hset : (ofSizes false key m z₀).setSnapshotMeta d.files snapshotMeta with
    | mk s₁ err =>
      cases err with
      | some err =>
        simp only [bind, Except.bind, hset] at h
        cases h
      | none =>
        obtain ⟨z, hmeta, rfl, hagree⟩ := setSnapshotMeta_ofSizes hset
        refine ⟨z, hmeta, hagree, ?_⟩
        simp only [bind, Except.bind, hset] at h
        split_ifs at h with hexists
        · cases h
          exact Or.inl ⟨hexists, rfl, rfl⟩
        · cases h
          refine Or.inr ⟨Bool.eq_false_iff.mpr hexists, rfl, ?_⟩
          simp only [ofReceived, ofSizes, map_map]
          rfl

def sentFile (key : SnapKey) (z : CFSizes) (cf : Cf) : CFFile :=
  if z.size cf = 0 then sizedFile true key z cf
  else { sizedFile true key z cf with file := some ⟨cfPath true key cf, 0⟩ }

theorem newSnapForSending_eq_ok (h : newSnapForSending F d key = .ok s)
    (hmeta : d.files.fileExists (metaPath true key) = true) :
    ∃ m z, s = { ofSizes true key (some m) z with cfFiles := cfs.map (sentFile key z) } ∧
      SizesAgree d.files true key z ∧
      ∀ cf, z.size cf ≠ 0 → d.files.fileExists (cfPath true key cf) = true := by
  unfold newSnapForSending at h
  cases hnew : (newSnap F none d key true).2 with
  | error err =>
    rw [hnew] at h
    cases h
  | ok s₀ =>
    rw [hnew] at h
    rcases newSnap_eq_ok hnew with ⟨hnone, -⟩ | ⟨m, z, rfl, hagree, hexists⟩
    · simp [hmeta] at hnone
    · obtain ⟨hfiles, -⟩ := existsOn_ofSizes.mp hexists
      have hopen : (cfs.map (sizedFile true key z)).mapM (openForSending d.files) =
          .ok (cfs.map (sentFile key z)) := by
        have hfile : ∀ cf, openForSending d.files (sizedFile true key z cf) =
            .ok (sentFile key z cf) := by
          intro cf
          unfold openForSending sentFile
          rw [sizedFile_size, sizedFile_path]
          split_ifs with hzero hthere
          · rfl
          · rfl
          · exact absurd (hfiles cf hzero) hthere
        simp only [cfs, map_cons, map_nil, mapM_cons, mapM_nil, hfile]
        rfl
      refine ⟨m, z, ?_, hagree, hfiles⟩
      simp only [bind, Except.bind, hexists, if_true] at h
      rw [show (ofSizes true key (some m) z).cfFiles = cfs.map (sizedFile true key z) from rfl,
        hopen] at h
      cases h
      rfl

theorem newSnapForSending_eq_ofKey (h : newSnapForSending F d key = .ok s)
    (hmeta : d.files.fileExists (metaPath true key) = false) : s = ofKey true key := by
  have hnot := existsOn_eq_false (show d.files.fileExists (ofKey true key).metaFile.path = false
    from hmeta)
  have hnew : (newSnap F none d key true).2 = .ok (ofKey true key) := by
    unfold newSnap
    dsimp only
    rw [if_neg]
    exact Bool.eq_false_iff.mp hmeta
  unfold newSnapForSending at h
  rw [hnew] at h
  simp only [bind, Except.bind, hnot, Bool.false_eq_true, if_false] at h
  cases h
  rfl

end Snap

end TinyKV
