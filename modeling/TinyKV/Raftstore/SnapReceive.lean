import TinyKV.Machine
import TinyKV.Raftstore.SnapWrite

/-!
# Receiving a snapshot again

A snapshot is received by `NewSnapForReceiving`, calls of `Write`, and `Save`, as `recvSnap` of
`kv/storage/raft_storage/snap_runner.go` does it.
-/

namespace TinyKV

open List

namespace Snap

structure Attempt where
  snapshotMeta : SnapshotMeta
  chunks : List Bytes
  saves : Bool
deriving DecidableEq, Repr

inductive ReceiveResult
  | refused (err : SnapErr)
  | brokenOff
  | failed (err : SnapErr)
  | saved
deriving DecidableEq, Repr

def receive (F : Formats) (d : SnapDir) (key : SnapKey) (a : Attempt) :
    Go (SnapDir × ReceiveResult) :=
  match newSnapForReceiving F d key a.snapshotMeta with
  | .error err => .ok (d, .refused err)
  | .ok (d, s) => do
    let (files, s, _) ← s.writes d.files a.chunks
    if a.saves then
      match ← s.save F { d with files := files } with
      | (d, none) => return (d, .saved)
      | (d, some err) => return (d, .failed err)
    else return ({ d with files := files }, .brokenOff)

def receiving (F : Formats) (key : SnapKey) : Machine SnapDir Attempt where
  step d a := ((receive F d key a).toOption).map Prod.fst

variable {F : Formats} {d d' : SnapDir} {key : SnapKey} {s s' : Snap} {b p : Bytes}
  {files files' : Directory FileName} {fs : List CFFile} {err : Option SnapErr} {z : CFSizes}
  {a : Attempt} {old : FileName → Option Bytes}

structure Closed (s : Snap) : Prop where
  cfFiles : ∀ cfFile ∈ s.cfFiles, cfFile.file = none ∧ cfFile.writtenSize = 0
  metaFile : s.metaFile.file = none

theorem writeLoop_closed {r : WriteLoop} (h : ∀ cfFile ∈ fs, CFFile.file cfFile = none)
    (hr : writeLoop files b fs = .ok r) : r.files = files ∧ r.cfFiles = fs := by
  induction fs generalizing b r with
  | nil =>
    cases hr
    exact ⟨rfl, rfl⟩
  | cons cfFile fs ih =>
    obtain ⟨hfile, h⟩ := forall_mem_cons.mp h
    have hwrite : ∀ b, writeCFFile files cfFile b = .ok (.error .invalidFile) := by
      intro b
      rw [writeCFFile, hfile]
    rw [writeLoop] at hr
    split_ifs at hr
    · obtain ⟨r', hr', rfl⟩ := Go.map_eq_ok.mp hr
      obtain ⟨hfiles, hcfFiles⟩ := ih h hr'
      exact ⟨hfiles, by rw [WriteLoop.push, hcfFiles]⟩
    · obtain ⟨part, -, hr⟩ := Go.bind_eq_ok.mp hr
      rw [hwrite, Go.ok_bind] at hr
      cases hr
      exact ⟨rfl, rfl⟩
    · rw [hwrite, Go.ok_bind] at hr
      cases hr
      exact ⟨rfl, rfl⟩

theorem Closed.write (h : Closed s) {r : WriteResult} (hr : s.write files b = .ok r) :
    r.files = files ∧ Closed r.snap := by
  unfold Snap.write at hr
  split_ifs at hr
  · cases hr
    exact ⟨rfl, h⟩
  · obtain ⟨loop, hloop, hr⟩ := Go.bind_eq_ok.mp hr
    cases hr
    obtain ⟨hfiles, hcfFiles⟩ := writeLoop_closed
      (fun cfFile hmem => (h.cfFiles cfFile (mem_of_mem_drop hmem)).1) hloop
    refine ⟨hfiles, ?_, h.metaFile⟩
    simpa only [hcfFiles, take_append_drop] using h.cfFiles

theorem Closed.writes (h : Closed s) {bs : List Bytes} {results : List (ℕ × Option SnapErr)}
    (hr : s.writes files bs = .ok (files', s', results)) : files' = files ∧ Closed s' := by
  induction bs generalizing files s results with
  | nil =>
    cases hr
    exact ⟨rfl, h⟩
  | cons b bs ih =>
    obtain ⟨r, hwrite, hr⟩ := Go.bind_eq_ok.mp hr
    obtain ⟨⟨files₁, s₁, results₁⟩, hrest, hr⟩ := Go.bind_eq_ok.mp hr
    cases hr
    obtain ⟨hfiles, hclosed⟩ := h.write hwrite
    obtain ⟨rfl, hclosed'⟩ := ih hclosed hrest
    exact ⟨hfiles, hclosed'⟩

theorem saveFiles_closed (h : ∀ cfFile ∈ fs, CFFile.writtenSize cfFile = 0)
    (hsave : saveFiles F d fs = .ok (d', err)) : d' = d := by
  induction fs generalizing d with
  | nil =>
    cases hsave
    rfl
  | cons cfFile fs ih =>
    obtain ⟨hwritten, h⟩ := forall_mem_cons.mp h
    obtain ⟨⟨d₁, err₁⟩, hfile, hsave⟩ := Go.bind_eq_ok.mp hsave
    rcases saveCFFile_eq_ok hfile with ⟨rfl, -⟩ | ⟨hsize, hfull, -⟩
    · cases err₁ with
      | none => exact ih h hsave
      | some err => cases hsave; rfl
    · exact absurd (hfull.symm.trans hwritten) hsize

theorem Closed.save (h : Closed s) (hsave : s.save F d = .ok (d', err)) : d' = d ∧ err ≠ none := by
  obtain ⟨⟨d₁, err₁⟩, hfiles, hsave⟩ := Go.bind_eq_ok.mp hsave
  obtain rfl := saveFiles_closed (fun cfFile hmem => (h.cfFiles cfFile hmem).2) hfiles
  cases err₁ with
  | some err =>
    cases hsave
    exact ⟨rfl, by simp⟩
  | none =>
    obtain ⟨⟨files, err₂⟩, hmeta, hsave⟩ := Go.bind_eq_ok.mp hsave
    cases hsave
    obtain ⟨snapshotMeta, -, hmeta⟩ := Go.bind_eq_ok.mp hmeta
    rw [h.metaFile] at hmeta
    cases hmeta
    exact ⟨rfl, by simp⟩

def openedFiles (files : Directory FileName) (key : SnapKey) (z : CFSizes) : Directory FileName :=
  openTmpFiles (files.openFile (metaTmpPath false key)) (cfs.map (sizedFile false key z))

theorem receiving_ofReceived (files : Directory FileName) (key : SnapKey)
    (snapshotMeta : SnapshotMeta) (z : CFSizes) :
    Receiving files.lookup (cfs.map (receivedFile key z)) [] files
      (ofReceived key snapshotMeta z) := by
  refine receiving_of_opened (s := ofReceived key snapshotMeta z) rfl fun cfFile hmem hsize => ?_
  obtain ⟨cf, -, rfl⟩ := mem_map.mp hmem
  rw [size_receivedFile] at hsize
  rw [receivedFile_of_ne hsize]
  rfl

inductive Received (F : Formats) (d : SnapDir) (key : SnapKey) (a : Attempt) (z : CFSizes)
    (d' : SnapDir) (result : ReceiveResult) : Prop
  | brokenOff {s : Snap}
    (hreceiving : Receiving (openedFiles d.files key z).lookup (cfs.map (receivedFile key z))
      a.chunks.flatten d'.files s)
    (htrack : d'.sizeTrack = d.sizeTrack) (hresult : result ≠ .saved)
  | saves {s : Snap} {files : Directory FileName} {err : Option SnapErr} (hsaves : a.saves = true)
    (hreceiving : Receiving (openedFiles d.files key z).lookup (cfs.map (receivedFile key z))
      a.chunks.flatten files s)
    (hmeta : s.metaFile = (ofReceived key a.snapshotMeta z).metaFile)
    (hsave : s.save F ⟨files, d.sizeTrack⟩ = .ok (d', err)) (hresult : result = .saved ↔ err = none)

theorem received_of_receive {result : ReceiveResult} (h : receive F d key a = .ok (d', result)) :
    (d' = d ∧ result ≠ .saved) ∨
    ∃ z, a.snapshotMeta = z.toMeta ∧ SizesAgree d.files false key z ∧
      (ofSizes false key (some a.snapshotMeta) z).existsOn d.files = false ∧
      Received F d key a z d' result := by
  unfold receive at h
  cases hnew : newSnapForReceiving F d key a.snapshotMeta with
  | error err =>
    rw [hnew] at h
    cases h
    exact Or.inl ⟨rfl, by simp⟩
  | ok r =>
    obtain ⟨d₁, s₁⟩ := r
    rw [hnew] at h
    obtain ⟨⟨files, s₂, results⟩, hwrites, hend⟩ := Go.bind_eq_ok.mp h
    dsimp only at hend hwrites
    obtain ⟨z, hmeta, hagree, ⟨-, rfl, rfl⟩ | ⟨hnot, rfl, rfl⟩⟩ := newSnapForReceiving_eq_ok hnew
    · -- The snapshot is already there, so that no file is open.
      left
      have hclosed : Closed (ofSizes false key (some a.snapshotMeta) z) := by
        refine ⟨fun cfFile hmem => ?_, rfl⟩
        obtain ⟨cf, -, rfl⟩ := mem_map.mp hmem
        exact ⟨rfl, rfl⟩
      obtain ⟨rfl, hclosed⟩ := hclosed.writes hwrites
      split_ifs at hend
      · obtain ⟨⟨d₂, err⟩, hsave, hend⟩ := Go.bind_eq_ok.mp hend
        obtain ⟨rfl, herr⟩ := hclosed.save hsave
        cases err with
        | none => exact absurd rfl herr
        | some err =>
          cases hend
          exact ⟨rfl, by simp⟩
      · cases hend
        exact ⟨rfl, by simp⟩
    · right
      refine ⟨z, hmeta, hagree, hnot, ?_⟩
      rcases (receiving_ofReceived (openedFiles d.files key z) key a.snapshotMeta z).writes
        a.chunks with ⟨herror, -⟩ | ⟨files', s', results', hok, hreceiving, hmetaFile, -⟩
      · exact absurd (herror.symm.trans hwrites) (by simp)
      · cases hok.symm.trans hwrites
        rw [nil_append] at hreceiving
        split_ifs at hend with hsaves
        · obtain ⟨⟨d₂, err⟩, hsave, hend⟩ := Go.bind_eq_ok.mp hend
          cases err with
          | none =>
            cases hend
            exact .saves hsaves hreceiving hmetaFile hsave (by simp)
          | some err =>
            cases hend
            exact .saves hsaves hreceiving hmetaFile hsave (by simp)
        · cases hend
          exact .brokenOff hreceiving rfl (by simp)

def partOf (z : CFSizes) (p : Bytes) : Cf → Bytes
  | .default => p.take (z.size .default).toNat
  | .write => (p.drop (z.size .default).toNat).take (z.size .write).toNat
  | .lock =>
    ((p.drop (z.size .default).toNat).drop (z.size .write).toNat).take (z.size .lock).toNat

theorem cut_eq (z : CFSizes) (p : Bytes) :
    cut (cfs.map fun cf => (z.size cf).toNat) p = cfs.map (partOf z p) := rfl

theorem length_partOf_le (z : CFSizes) (p : Bytes) (cf : Cf) :
    (partOf z p cf).length ≤ (z.size cf).toNat := by
  cases cf <;> exact length_take_le _ _

theorem parts_receivedFile (key : SnapKey) (z : CFSizes) (p : Bytes) :
    parts (cfs.map (receivedFile key z)) p = cfs.map (partOf z p) := by
  rw [← cut_eq, parts, map_map]
  congr 1
  exact map_congr_left fun cf _ => congrArg UInt64.toNat (size_receivedFile key z cf)

def wroteFile (key : SnapKey) (z : CFSizes) (p : Bytes) (cf : Cf) : CFFile :=
  if z.size cf = 0 then receivedFile key z cf else (receivedFile key z cf).wrote (partOf z p cf)

theorem wroteFiles_receivedFile (key : SnapKey) (z : CFSizes) (p : Bytes) :
    wroteFiles (cfs.map (receivedFile key z)) p = cfs.map (wroteFile key z p) := by
  simp only [cfs, map_cons, map_nil, wroteFiles, size_receivedFile, wroteFile, partOf]

theorem wroteFile_spec (key : SnapKey) (z : CFSizes) (p : Bytes) (cf : Cf) :
    (wroteFile key z p cf).path = cfPath false key cf ∧
      (wroteFile key z p cf).tmpPath = cfTmpPath false key cf ∧
      (wroteFile key z p cf).size = z.size cf := by
  unfold wroteFile
  split_ifs
  · exact ⟨path_receivedFile key z cf, tmpPath_receivedFile key z cf, size_receivedFile key z cf⟩
  · exact ⟨path_receivedFile key z cf, tmpPath_receivedFile key z cf, size_receivedFile key z cf⟩

theorem apart_cfs (isSending : Bool) (key : SnapKey) :
    (cfs.map fun cf => (cfPath isSending key cf, cfTmpPath isSending key cf)).Pairwise Apart := by
  have hnodup : cfs.Nodup := by decide
  refine pairwise_map.mpr (hnodup.imp fun hne => ?_)
  simp [Apart, cfPath, cfTmpPath, hne, hne.symm]

variable {name : FileName}

theorem lookup_openedFiles_of_not (h : name.tmp = false) :
    (openedFiles files key z).lookup name = files.lookup name := by
  rw [openedFiles, lookup_openTmpFiles, if_neg, Directory.lookup_openFile, if_neg]
  · rintro rfl
    simp [metaTmpPath] at h
  · rintro ⟨cfFile, hmem, -, rfl⟩
    obtain ⟨cf, -, rfl⟩ := mem_map.mp hmem
    simp [cfTmpPath] at h

theorem lookup_openedFiles_cf {cf : Cf} (h : z.size cf ≠ 0) :
    (openedFiles files key z).lookup (cfTmpPath false key cf) =
      some ((files.lookup (cfTmpPath false key cf)).getD []) := by
  have hthere : ∃ cfFile ∈ cfs.map (sizedFile false key z), cfFile.size ≠ 0 ∧
      cfTmpPath false key cf = cfFile.tmpPath :=
    ⟨_, mem_map_of_mem (mem_cfs cf), h, rfl⟩
  rw [openedFiles, lookup_openTmpFiles, if_pos hthere, Directory.lookup_openFile,
    if_neg (by simp [cfTmpPath, metaTmpPath])]

theorem lookup_openedFiles_meta :
    (openedFiles files key z).lookup (metaTmpPath false key) =
      some ((files.lookup (metaTmpPath false key)).getD []) := by
  rw [openedFiles, lookup_openTmpFiles, if_neg, Directory.lookup_openFile, if_pos rfl]
  rintro ⟨cfFile, hmem, -, heq⟩
  obtain ⟨cf, -, rfl⟩ := mem_map.mp hmem
  simp [cfTmpPath, metaTmpPath] at heq

theorem lookup_received_cf (h : Receiving (openedFiles d.files key z).lookup
      (cfs.map (receivedFile key z)) p files s) {cf : Cf} (hsize : z.size cf ≠ 0) :
    files.lookup (cfTmpPath false key cf) =
      some (Directory.written ((d.files.lookup (cfTmpPath false key cf)).getD [])
        (partOf z p cf)) := by
  have hnodup : ((cfs.map (receivedFile key z)).map CFFile.tmpPath).Nodup := by
    rw [map_map]
    refine List.Nodup.map_on (fun cf _ cf' _ heq => ?_) (by decide)
    rw [Function.comp_apply, Function.comp_apply, tmpPath_receivedFile,
      tmpPath_receivedFile] at heq
    exact Option.some.inj (FileName.mk.inj heq).2.2.1
  have hmem : (receivedFile key z cf, partOf z p cf) ∈
      (cfs.map (receivedFile key z)).zip (parts (cfs.map (receivedFile key z)) p) := by
    rw [parts_receivedFile, zip_map', mem_map]
    exact ⟨cf, mem_cfs cf, rfl⟩
  have hcontents := wroteContents_of_mem (openedFiles d.files key z).lookup p hnodup _ hmem
    (by rwa [size_receivedFile])
  rw [tmpPath_receivedFile, lookup_openedFiles_cf hsize, Option.map_some] at hcontents
  rw [h.lookup]
  exact hcontents

theorem lookup_received_of_not (h : Receiving (openedFiles d.files key z).lookup
      (cfs.map (receivedFile key z)) p files s) (hname : ∀ cf, name ≠ cfTmpPath false key cf) :
    files.lookup name = (openedFiles d.files key z).lookup name := by
  rw [h.lookup, wroteContents_of_notMem]
  rw [map_map, mem_map]
  rintro ⟨cf, -, hcf⟩
  exact hname cf (hcf.symm.trans (tmpPath_receivedFile key z cf))

theorem length_partOf {cf : Cf} (hsize : z.size cf ≠ 0)
    (hfull : (wroteFile key z p cf).writtenSize = (wroteFile key z p cf).size) :
    (partOf z p cf).length = (z.size cf).toNat := by
  rw [(wroteFile_spec key z p cf).2.2, wroteFile, if_neg hsize] at hfull
  have hlt := lt_of_le_of_lt (length_partOf_le z p cf) (z.size cf).toNat_lt
  rw [← hfull]
  exact (UInt64.toNat_ofNat_of_lt' hlt).symm

theorem names_wroteFile (key : SnapKey) (z : CFSizes) (p : Bytes) :
    (cfs.map (wroteFile key z p)).map (fun cfFile => (cfFile.path, cfFile.tmpPath)) =
      cfs.map fun cf => (cfPath false key cf, cfTmpPath false key cf) := by
  rw [map_map]
  refine map_congr_left fun cf _ => ?_
  obtain ⟨hpath, htmp, -⟩ := wroteFile_spec key z p cf
  rw [Function.comp_apply, hpath, htmp]

theorem lookup_saved_of_not (hsave : saveFiles F d (cfs.map (wroteFile key z p)) = .ok (d', err))
    (hname : ∀ cf, z.size cf ≠ 0 → name ≠ cfPath false key cf ∧ name ≠ cfTmpPath false key cf) :
    d'.files.lookup name = d.files.lookup name := by
  refine lookup_saveFiles_of_not hsave fun cfFile hmem hsize => ?_
  obtain ⟨cf, -, rfl⟩ := mem_map.mp hmem
  obtain ⟨hpath, htmp, hcf⟩ := wroteFile_spec key z p cf
  rw [hpath, htmp]
  exact hname cf (by rwa [← hcf])

theorem lookup_saved_cf (hsave : saveFiles F d (cfs.map (wroteFile key z p)) = .ok (d', none))
    {cf : Cf} (hsize : z.size cf ≠ 0) :
    d'.files.lookup (cfPath false key cf) = d.files.lookup (cfTmpPath false key cf) := by
  have h := lookup_saveFiles hsave (by rw [names_wroteFile]; exact apart_cfs false key) _
    (mem_map_of_mem (mem_cfs cf)) (by rwa [(wroteFile_spec key z p cf).2.2])
  rwa [(wroteFile_spec key z p cf).1, (wroteFile_spec key z p cf).2.1] at h

theorem lookup_saveMetaFile {snapshotMeta : SnapshotMeta}
    (hmeta : s.metaFile = (ofReceived key snapshotMeta z).metaFile)
    (hsave : s.saveMetaFile F files = .ok (files', none)) :
    files'.lookup (metaPath false key) =
      (files.lookup (metaTmpPath false key)).map
        (Directory.written · (F.marshal snapshotMeta)) := by
  unfold saveMetaFile at hsave
  rw [hmeta] at hsave
  obtain ⟨m, hm, hsave⟩ := Go.bind_eq_ok.mp hsave
  cases hm
  simp only [ofReceived] at hsave
  split at hsave
  · cases hsave
  · rename_i hrename
    cases hsave
    rw [Directory.lookup_rename hrename, if_pos rfl, Directory.lookup_write, if_pos rfl]
    exact congrArg (Option.map · _) (funext fun old => Directory.overwrite_zero old _)

theorem metaNamed_ofReceived (key : SnapKey) (snapshotMeta : SnapshotMeta) (z : CFSizes) :
    MetaNamed (ofReceived key snapshotMeta z).metaFile := by
  refine ⟨rfl, rfl, fun h hopen => ?_⟩
  cases hopen
  rfl

/-- What is there when an attempt has saved the snapshot. -/
structure Saved (F : Formats) (files : Directory FileName) (key : SnapKey) (a : Attempt)
    (z : CFSizes) (files' : Directory FileName) : Prop where
  snapshotMeta : a.snapshotMeta = z.toMeta
  agree : SizesAgree files false key z
  length : ∀ cf, z.size cf ≠ 0 → (partOf z a.chunks.flatten cf).length = (z.size cf).toNat
  written : ∀ cf, z.size cf ≠ 0 → files'.lookup (cfPath false key cf) =
    some (Directory.written ((files.lookup (cfTmpPath false key cf)).getD [])
      (partOf z a.chunks.flatten cf))
  empty : ∀ cf, z.size cf = 0 →
    files'.lookup (cfPath false key cf) = files.lookup (cfPath false key cf)
  metaFile : files'.lookup (metaPath false key) =
    some (Directory.written ((files.lookup (metaTmpPath false key)).getD [])
      (F.marshal a.snapshotMeta))

theorem saved_of_receive (h : receive F d key a = .ok (d', .saved)) :
    ∃ z, Saved F d.files key a z d'.files := by
  obtain ⟨-, hnot⟩ | ⟨z, hmeta, hagree, -, hreceived⟩ := received_of_receive h
  · exact absurd rfl hnot
  cases hreceived with
  | brokenOff _ _ hnot => exact absurd rfl hnot
  | @saves s files err _ hreceiving hmetaFile hsave hresult =>
    obtain rfl := hresult.mp rfl
    obtain ⟨⟨d₁, _ | err⟩, hfiles, hend⟩ := Go.bind_eq_ok.mp hsave
    · obtain ⟨⟨files₁, err⟩, hsaveMeta, hend⟩ := Go.bind_eq_ok.mp hend
      cases hend
      rw [hreceiving.cfFiles, wroteFiles_receivedFile] at hfiles
      have hother : ∀ cf, files₁.lookup (cfPath false key cf) =
          d₁.files.lookup (cfPath false key cf) := fun cf =>
        lookup_saveMetaFile_cf (hmetaFile ▸ metaNamed_ofReceived key a.snapshotMeta z) hsaveMeta
          (by simp [cfPath])
      refine ⟨z, hmeta, hagree, fun cf hsize => ?_, fun cf hsize => ?_, fun cf hsize => ?_, ?_⟩
      · refine length_partOf hsize
          (full_of_saveFiles hfiles _ (mem_map_of_mem (mem_cfs cf)) ?_)
        rwa [(wroteFile_spec key z _ cf).2.2]
      · rw [hother, lookup_saved_cf hfiles hsize]
        exact lookup_received_cf hreceiving hsize
      · rw [hother, lookup_saved_of_not hfiles,
          lookup_received_of_not hreceiving (by simp [cfPath, cfTmpPath]),
          lookup_openedFiles_of_not rfl]
        intro cf' hsize'
        have hne : cf ≠ cf' := fun heq => hsize' (heq ▸ hsize)
        simp [cfPath, cfTmpPath, hne]
      · rw [lookup_saveMetaFile hmetaFile hsaveMeta,
          lookup_saved_of_not hfiles (by simp [metaTmpPath, cfPath, cfTmpPath]),
          lookup_received_of_not hreceiving (by simp [metaTmpPath, cfTmpPath]),
          lookup_openedFiles_meta]
        rfl
    · cases hend

def Attempt.cfFiles (a : Attempt) : List (Cf × SnapshotCFFile × Bytes) :=
  cfs.zip (a.snapshotMeta.cfFiles.zip
    (cut (a.snapshotMeta.cfFiles.map fun cfMeta => cfMeta.size.toNat) a.chunks.flatten))

/-- The files hold exactly what the attempt has written. -/
structure HoldsExactly (F : Formats) (files : Directory FileName) (key : SnapKey) (a : Attempt) :
    Prop where
  written : ∀ q ∈ a.cfFiles, q.2.1.size ≠ 0 →
    files.lookup (cfPath false key q.1) = some q.2.2 ∧ q.2.2.length = q.2.1.size.toNat
  empty : ∀ q ∈ a.cfFiles, q.2.1.size = 0 → ∀ content,
    files.lookup (cfPath false key q.1) = some content → content = []
  metaFile : files.lookup (metaPath false key) = some (F.marshal a.snapshotMeta)

/-- What the attempt writes covers what it finds. -/
structure Covers (F : Formats) (files : Directory FileName) (key : SnapKey) (a : Attempt) :
    Prop where
  tmpFile : ∀ q ∈ a.cfFiles, q.2.1.size ≠ 0 →
    ((files.lookup (cfTmpPath false key q.1)).getD []).length ≤ q.2.1.size.toNat
  empty : ∀ q ∈ a.cfFiles, q.2.1.size = 0 → ∀ content,
    files.lookup (cfPath false key q.1) = some content → content.length < 2 ^ 64
  metaFile : ((files.lookup (metaTmpPath false key)).getD []).length ≤
    (F.marshal a.snapshotMeta).length

theorem forall_mem_cfFiles (hmeta : a.snapshotMeta = z.toMeta)
    {P : Cf × SnapshotCFFile × Bytes → Prop} : (∀ q ∈ a.cfFiles, P q) ↔
      ∀ cf, P (cf, ⟨cf.name, z.size cf, z.checksum cf⟩, partOf z a.chunks.flatten cf) := by
  have hcfFiles : a.cfFiles = cfs.map fun cf =>
      (cf, ⟨cf.name, z.size cf, z.checksum cf⟩, partOf z a.chunks.flatten cf) := by
    rw [Attempt.cfFiles, hmeta]
    rfl
  rw [hcfFiles, forall_mem_map]
  exact ⟨fun h cf => h cf (mem_cfs cf), fun h cf _ => h cf⟩

theorem Saved.holdsExactly_iff (h : Saved F files key a z files') :
    HoldsExactly F files' key a ↔ Covers F files key a := by
  have hforall := @forall_mem_cfFiles z a h.snapshotMeta
  constructor
  · rintro ⟨hwritten, hempty, hmetaFile⟩
    rw [hforall] at hwritten hempty
    refine ⟨hforall.mpr fun cf hsize => ?_, hforall.mpr fun cf hsize content hcontent => ?_, ?_⟩
    · have heq := (h.written cf hsize).symm.trans (hwritten cf hsize).1
      have hle := Directory.written_eq_iff.mp (Option.some.inj heq)
      rwa [h.length cf hsize] at hle
    · rw [hempty cf hsize content ((h.empty cf hsize).trans hcontent)]
      decide
    · exact Directory.written_eq_iff.mp (Option.some.inj (h.metaFile.symm.trans hmetaFile))
  · rintro ⟨htmp, hempty, hmetaFile⟩
    rw [hforall] at htmp hempty
    refine ⟨hforall.mpr fun cf hsize => ⟨?_, h.length cf hsize⟩,
      hforall.mpr fun cf hsize content hcontent => ?_, ?_⟩
    · have hle := htmp cf hsize
      rw [← h.length cf hsize] at hle
      rw [h.written cf hsize, Directory.written_eq_iff.mpr hle]
    · rw [h.empty cf hsize] at hcontent
      have hlength : UInt64.ofNat content.length = 0 := (h.agree cf content hcontent).trans hsize
      have hzero := congrArg UInt64.toNat hlength
      rw [UInt64.toNat_ofNat_of_lt' (hempty cf hsize content hcontent)] at hzero
      exact length_eq_zero_iff.mp hzero
    · rw [h.metaFile, Directory.written_eq_iff.mpr hmetaFile]

/-- Over any attempts to receive a snapshot: those that save it leave exactly what they have written
if and only if each of them covers what it found. -/
theorem receive_exact_iff (F : Formats) (key : SnapKey) (d : SnapDir) (attempts : List Attempt) :
    (receiving F key).Along (fun d a d' => receive F d key a = .ok (d', .saved) →
        HoldsExactly F d'.files key a) d attempts ↔
      (receiving F key).Along (fun d a d' => receive F d key a = .ok (d', .saved) →
        Covers F d.files key a) d attempts := by
  refine Machine.along_congr fun d a d' => forall_congr' fun h => ?_
  obtain ⟨z, hsaved⟩ := saved_of_receive h
  exact hsaved.holdsExactly_iff

theorem receive_stale_tail :
    let F : Formats := ⟨fun b => b.foldl (fun sum c => sum + c.toUInt32) 0,
      fun m => m.cfFiles.map fun cfMeta => cfMeta.size.toUInt8, fun _ => none, fun _ => [],
      fun _ => []⟩
    let key : SnapKey := ⟨1, 6, 9⟩
    let first : Attempt :=
      ⟨CFSizes.toMeta ⟨fun | .default => 2 | _ => 0, fun | .default => 3 | _ => 0⟩, [[1, 2]], false⟩
    let second : Attempt :=
      ⟨CFSizes.toMeta ⟨fun | .default => 1 | _ => 0, fun | .default => 7 | _ => 0⟩, [[7]], true⟩
    ∃ d₁ d₂, receive F ⟨∅, 0⟩ key first = .ok (d₁, .brokenOff) ∧
      receive F d₁ key second = .ok (d₂, .saved) ∧
      d₂.files.lookup (cfPath false key .default) = some [7, 2] ∧
      ¬(receiving F key).Along (fun d a d' => receive F d key a = .ok (d', .saved) →
        HoldsExactly F d'.files key a) ⟨∅, 0⟩ [first, second] := by
  intro F key first second
  have hends : ((receive F ⟨∅, 0⟩ key first).bind fun r =>
      (receive F r.1 key second).map fun r' =>
        (r.2, r'.2, r'.1.files.lookup (cfPath false key .default))) =
      .ok (.brokenOff, .saved, some [7, 2]) := by decide +kernel
  obtain ⟨⟨d₁, result₁⟩, h₁, hends⟩ := Go.bind_eq_ok.mp hends
  obtain ⟨⟨d₂, result₂⟩, h₂, hends⟩ := Go.map_eq_ok.mp hends
  obtain ⟨rfl, rfl, hlookup⟩ : result₁ = .brokenOff ∧ result₂ = .saved ∧
      d₂.files.lookup (cfPath false key .default) = some [7, 2] := by simpa using hends
  refine ⟨d₁, d₂, h₁, h₂, hlookup, fun h => ?_⟩
  have hrun : (receiving F key).run ⟨∅, 0⟩ [first] = some d₁ :=
    Machine.run_cons.mpr ⟨d₁, congrArg (fun r => r.toOption.map Prod.fst) h₁, rfl⟩
  have hstep : (receiving F key).step d₁ second = some d₂ :=
    congrArg (fun r => r.toOption.map Prod.fst) h₂
  have hexact := h [first] second [] d₁ d₂ rfl hrun hstep h₂
  have hwritten := hexact.written (.default, ⟨Cf.default.name, 1, 7⟩, [7]) (by decide) (by decide)
  exact absurd (hlookup.symm.trans hwritten.1) (by decide)

end Snap

end TinyKV
