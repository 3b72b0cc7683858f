import TinyKV.Directory
import TinyKV.Storage.DeleteRange

/-!
# Snapshots on disk

`kv/raftstore/snap/snap.go`.
-/

namespace TinyKV

structure SnapKey where
  regionID : UInt64
  term : UInt64
  index : UInt64
deriving DecidableEq, Repr

structure FileName where
  isSending : Bool
  key : SnapKey
  cf : Option Cf
  tmp : Bool
deriving DecidableEq, Repr

structure SnapshotCFFile where
  cf : Bytes
  size : UInt64
  checksum : UInt32
deriving DecidableEq, Repr

structure SnapshotMeta where
  cfFiles : List SnapshotCFFile
deriving DecidableEq, Repr

structure Formats where
  crc32 : Bytes → UInt32
  marshal : SnapshotMeta → Bytes
  unmarshal : Bytes → Option SnapshotMeta
  blocks : List (Bytes × Bytes) → Bytes
  index : List (Bytes × Bytes) → Bytes

inductive SnapErr
  | notExist (name : FileName)
  | invalidFile
  | eof
  | unmarshal
  | badger (err : BadgerErr)
  | cfNumber (expect got : ℕ)
  | invalidCF (i : ℕ) (expect got : Bytes)
  | invalidSize (size : UInt64) (path : FileName) (expected : UInt64)
  | corrupted (isSending : Bool) (key : SnapKey)
  | encodeCF (cf : Bytes)
  | sizeMismatch (path : FileName) (cf : Bytes) (real expected : UInt64)
  | checksumMismatch (path : FileName) (cf : Bytes) (real expected : UInt32)
  | notExists (key : SnapKey)
  | tooManySnapshots
deriving DecidableEq, Repr

structure SstWriter where
  file : Directory.Handle FileName
  pairs : List (Bytes × Bytes) := []
deriving DecidableEq, Repr

structure CFFile where
  cf : Bytes
  path : FileName
  tmpPath : FileName
  sstWriter : Option SstWriter := none
  file : Option (Directory.Handle FileName) := none
  kvCount : ℕ := 0
  size : UInt64 := 0
  writtenSize : UInt64 := 0
  checksum : UInt32 := 0
  writeDigest : Option Bytes := none
deriving DecidableEq, Repr

structure MetaFile where
  snapshotMeta : Option SnapshotMeta := none
  path : FileName
  file : Option (Directory.Handle FileName) := none
  tmpPath : FileName
deriving DecidableEq, Repr

structure Snap where
  key : SnapKey
  isSending : Bool
  cfFiles : List CFFile
  cfIndex : ℕ := 0
  metaFile : MetaFile
  holdTmpFiles : Bool := false
deriving DecidableEq, Repr

structure SnapDir where
  files : Directory FileName
  sizeTrack : ℤ
deriving DecidableEq

abbrev SnapshotDeleter := SnapDir → SnapKey → Snap → Bool → SnapDir × Bool

def getFileSize (files : Directory FileName) (path : FileName) : Except SnapErr UInt64 :=
  match files.lookup path with
  | some content => .ok (UInt64.ofNat content.length)
  | none => .error (.notExist path)

def checkFileSize (files : Directory FileName) (path : FileName) (expectedSize : UInt64) :
    Option SnapErr :=
  match getFileSize files path with
  | .error err => some err
  | .ok size =>
    if size ≠ expectedSize then some (.invalidSize size path expectedSize) else none

def newCFFile (isSending : Bool) (key : SnapKey) (cf : Cf) : CFFile where
  cf := cf.name
  path := ⟨isSending, key, some cf, false⟩
  tmpPath := ⟨isSending, key, some cf, true⟩

namespace Snap

def ofKey (isSending : Bool) (key : SnapKey) : Snap where
  key := key
  isSending := isSending
  cfFiles := cfs.map (newCFFile isSending key)
  metaFile := { path := ⟨isSending, key, none, false⟩, tmpPath := ⟨isSending, key, none, true⟩ }

def existsOn (s : Snap) (files : Directory FileName) : Bool :=
  s.cfFiles.all (fun cfFile => cfFile.size = 0 || files.fileExists cfFile.path) &&
    files.fileExists s.metaFile.path

def totalSize (s : Snap) : UInt64 := s.cfFiles.foldl (fun total cf => total + cf.size) 0

def readSnapshotMeta (F : Formats) (files : Directory FileName) (s : Snap) :
    Except SnapErr SnapshotMeta :=
  match files.lookup s.metaFile.path with
  | none => .error (.notExist s.metaFile.path)
  | some buf =>
    match F.unmarshal buf with
    | none => .error .unmarshal
    | some snapshotMeta => .ok snapshotMeta

def setCFMeta (files : Directory FileName) (i : ℕ) (cfFile : CFFile) (cfMeta : SnapshotCFFile) :
    Except SnapErr CFFile :=
  if cfMeta.cf ≠ cfFile.cf then .error (.invalidCF i cfFile.cf cfMeta.cf)
  else
    match if files.fileExists cfFile.path then checkFileSize files cfFile.path cfMeta.size
      else none with
    | some err => .error err
    | none => .ok { cfFile with size := cfMeta.size, checksum := cfMeta.checksum }

def setCFMetas (files : Directory FileName) :
    ℕ → List CFFile → List SnapshotCFFile → List CFFile × Option SnapErr
  | i, cfFile :: cfFiles, cfMeta :: cfMetas =>
    match setCFMeta files i cfFile cfMeta with
    | .error err => (cfFile :: cfFiles, some err)
    | .ok cfFile =>
      let r := setCFMetas files (i + 1) cfFiles cfMetas
      (cfFile :: r.1, r.2)
  | _, cfFiles, _ => (cfFiles, none)

def setSnapshotMeta (files : Directory FileName) (s : Snap) (snapshotMeta : SnapshotMeta) :
    Snap × Option SnapErr :=
  if snapshotMeta.cfFiles.length ≠ s.cfFiles.length then
    (s, some (.cfNumber s.cfFiles.length snapshotMeta.cfFiles.length))
  else
    match setCFMetas files 0 s.cfFiles snapshotMeta.cfFiles with
    | (cfFiles, some err) => ({ s with cfFiles := cfFiles }, some err)
    | (cfFiles, none) =>
      ({ s with
        cfFiles := cfFiles
        metaFile := { s.metaFile with snapshotMeta := some snapshotMeta } }, none)

def loadSnapMeta (F : Formats) (files : Directory FileName) (s : Snap) : Snap × Option SnapErr :=
  match s.readSnapshotMeta F files with
  | .error err => (s, some err)
  | .ok snapshotMeta =>
    match s.setSnapshotMeta files snapshotMeta with
    | (s, some err) => (s, some err)
    | (s, none) =>
      if s.existsOn files then (s, none) else (s, some (.corrupted s.isSending s.key))

def genSnapshotMeta (cfFiles : List CFFile) : Except SnapErr SnapshotMeta :=
  match cfFiles.find? fun cfFile => cfs.all fun cf => cf.name ≠ cfFile.cf with
  | some cfFile => .error (.encodeCF cfFile.cf)
  | none => .ok ⟨cfFiles.map fun cfFile => ⟨cfFile.cf, cfFile.size, cfFile.checksum⟩⟩

def deleteCFFile (holdTmpFiles : Bool) (d : SnapDir) (cfFile : CFFile) : SnapDir :=
  let files : Directory FileName :=
    if holdTmpFiles then d.files.erase cfFile.tmpPath else d.files
  { files := files.erase cfFile.path
    sizeTrack := if files.fileExists cfFile.path then
        int64 (d.sizeTrack - toInt cfFile.size.toNat)
      else d.sizeTrack }

def delete (d : SnapDir) (s : Snap) : SnapDir :=
  let d := s.cfFiles.foldl (deleteCFFile s.holdTmpFiles) d
  let files := d.files.erase s.metaFile.path
  { d with files := if s.holdTmpFiles then files.erase s.metaFile.tmpPath else files }

def retryDelete (deleter : SnapshotDeleter) (key : SnapKey) (s : Snap) :
    ℕ → SnapDir → SnapDir × Bool
  | 0, d => (d, false)
  | n + 1, d =>
    match deleter d key s true with
    | (d, true) => (d, true)
    | (d, false) => retryDelete deleter key s n d

def retryDeleteSnapshot (deleter : SnapshotDeleter) (d : SnapDir) (key : SnapKey) (s : Snap) :
    SnapDir × Bool :=
  retryDelete deleter key s 6 d

def newSnap (F : Formats) (toBuild : Option SnapshotDeleter) (d : SnapDir) (key : SnapKey)
    (isSending : Bool) : SnapDir × Except SnapErr Snap :=
  let s := ofKey isSending key
  if d.files.fileExists s.metaFile.path then
    match s.loadSnapMeta F d.files with
    | (s, none) => (d, .ok s)
    | (s, some err) =>
      match toBuild with
      | none => (d, .error err)
      | some deleter =>
        match retryDeleteSnapshot deleter d key s with
        -- The error that is returned is that of loading.
        | (d, false) => (d, .error err)
        | (d, true) => (d, .ok s)
  else (d, .ok s)

def initForBuilding (files : Directory FileName) (s : Snap) : Directory FileName × Snap :=
  if s.existsOn files then (files, s)
  else
    (s.cfFiles.foldl (fun files cfFile => files.openFile cfFile.tmpPath)
        (files.openFile s.metaFile.tmpPath),
      { s with
        metaFile := { s.metaFile with file := some ⟨s.metaFile.tmpPath, 0⟩ }
        holdTmpFiles := true
        cfFiles := s.cfFiles.map fun cfFile =>
          { cfFile with sstWriter := some { file := ⟨cfFile.tmpPath, 0⟩ } } })

def newSnapForBuilding (F : Formats) (deleter : SnapshotDeleter) (d : SnapDir) (key : SnapKey) :
    SnapDir × Except SnapErr Snap :=
  match newSnap F (some deleter) d key true with
  | (d, .error err) => (d, .error err)
  | (d, .ok s) =>
    let r := s.initForBuilding d.files
    ({ d with files := r.1 }, .ok r.2)

def openForSending (files : Directory FileName) (cfFile : CFFile) : Except SnapErr CFFile :=
  if cfFile.size = 0 then .ok cfFile
  else if files.fileExists cfFile.path then .ok { cfFile with file := some ⟨cfFile.path, 0⟩ }
  else .error (.notExist cfFile.path)

def newSnapForSending (F : Formats) (d : SnapDir) (key : SnapKey) : Except SnapErr Snap := do
  let s ← (newSnap F none d key true).2
  if s.existsOn d.files then
    let cfFiles ← s.cfFiles.mapM (openForSending d.files)
    return { s with cfFiles := cfFiles }
  else return s

def openForReceiving (cfFile : CFFile) : CFFile :=
  if cfFile.size = 0 then cfFile
  else { cfFile with file := some ⟨cfFile.tmpPath, 0⟩, writeDigest := some [] }

def openTmpFiles (files : Directory FileName) (cfFiles : List CFFile) : Directory FileName :=
  cfFiles.foldl
    (fun files cfFile => if cfFile.size = 0 then files else files.openFile cfFile.tmpPath) files

def newSnapForReceiving (F : Formats) (d : SnapDir) (key : SnapKey) (snapshotMeta : SnapshotMeta) :
    Except SnapErr (SnapDir × Snap) := do
  let s ← (newSnap F none d key false).2
  match s.setSnapshotMeta d.files snapshotMeta with
  | (_, some err) => .error err
  | (s, none) =>
    if s.existsOn d.files then return (d, s)
    else
      -- The files are opened with `O_CREATE` and without `O_TRUNC`.
      return ({ d with
          files := openTmpFiles (d.files.openFile s.metaFile.tmpPath) s.cfFiles },
        { s with
          metaFile := { s.metaFile with file := some ⟨s.metaFile.tmpPath, 0⟩ }
          holdTmpFiles := true
          cfFiles := s.cfFiles.map openForReceiving })

def newSnapForApplying (F : Formats) (d : SnapDir) (key : SnapKey) : Except SnapErr Snap :=
  (newSnap F none d key false).2

/-- What the loop in `Read` leads to, for the files from `cfIndex` on. -/
structure ReadLoop where
  cfFiles : List CFFile
  cfIndex : ℕ
  result : Except SnapErr Bytes

def ReadLoop.push (cfFile : CFFile) (r : ReadLoop) : ReadLoop :=
  { r with cfFiles := cfFile :: r.cfFiles, cfIndex := r.cfIndex + 1 }

def readLoop (files : Directory FileName) (n got : ℕ) : List CFFile → ReadLoop
  | [] => ⟨[], 0, .error .eof⟩
  | cfFile :: cfFiles =>
    if cfFile.size = 0 then (readLoop files n got cfFiles).push cfFile
    else
      match cfFile.file with
      | none => ⟨cfFile :: cfFiles, 0, .error .invalidFile⟩
      | some h =>
        let b := (files.following h).take (min n (max 1 got))
        if b.length = 0 then (readLoop files n got cfFiles).push cfFile
        else
          ⟨{ cfFile with file := some { h with offset := h.offset + b.length } } :: cfFiles, 0,
            .ok b⟩

def read (files : Directory FileName) (s : Snap) (n got : ℕ) : Snap × Except SnapErr Bytes :=
  if n = 0 then (s, .ok [])
  else
    let r := readLoop files n got (s.cfFiles.drop s.cfIndex)
    ({ s with
      cfFiles := s.cfFiles.take s.cfIndex ++ r.cfFiles
      cfIndex := s.cfIndex + r.cfIndex }, r.result)

/-- What the loop in `Write` leads to, for the files from `cfIndex` on. -/
structure WriteLoop where
  files : Directory FileName
  cfFiles : List CFFile
  cfIndex : ℕ
  nextBuf : Bytes
  err : Option SnapErr := none

def WriteLoop.push (cfFile : CFFile) (r : WriteLoop) : WriteLoop :=
  { r with cfFiles := cfFile :: r.cfFiles, cfIndex := r.cfIndex + 1 }

def writeCFFile (files : Directory FileName) (cfFile : CFFile) (b : Bytes) :
    Go (Except SnapErr (Directory FileName × CFFile)) :=
  match cfFile.file with
  | none => .ok (.error .invalidFile)
  | some h => do
    let digest ← Go.deref cfFile.writeDigest
    return .ok (files.write h b,
      { cfFile with
        file := some { h with offset := h.offset + b.length }
        writtenSize := cfFile.writtenSize + UInt64.ofNat b.length
        writeDigest := some (digest ++ b) })

def writeLoop (files : Directory FileName) (nextBuf : Bytes) : List CFFile → Go WriteLoop
  | [] => .ok { files := files, cfFiles := [], cfIndex := 0, nextBuf := nextBuf }
  | cfFile :: cfFiles =>
    let left := cfFile.size - cfFile.writtenSize
    if cfFile.size = 0 ∨ left = 0 then WriteLoop.push cfFile <$> writeLoop files nextBuf cfFiles
    else if toInt left.toNat < nextBuf.length then do
      let part ← Go.slice nextBuf 0 left.toNat
      match ← writeCFFile files cfFile part with
      | .error err => return ⟨files, cfFile :: cfFiles, 0, nextBuf, some err⟩
      | .ok (files, cfFile) =>
        let nextBuf ← Go.slice nextBuf left.toNat nextBuf.length
        WriteLoop.push cfFile <$> writeLoop files nextBuf cfFiles
    else do
      match ← writeCFFile files cfFile nextBuf with
      | .error err => return ⟨files, cfFile :: cfFiles, 0, nextBuf, some err⟩
      | .ok (files, cfFile) => return ⟨files, cfFile :: cfFiles, 0, [], none⟩

structure WriteResult where
  files : Directory FileName
  snap : Snap
  n : ℕ
  err : Option SnapErr := none

def write (files : Directory FileName) (s : Snap) (b : Bytes) : Go WriteResult :=
  if b.length = 0 then .ok { files := files, snap := s, n := 0 }
  else do
    let r ← writeLoop files b (s.cfFiles.drop s.cfIndex)
    return {
      files := r.files
      snap := { s with
        cfFiles := s.cfFiles.take s.cfIndex ++ r.cfFiles
        cfIndex := s.cfIndex + r.cfIndex }
      n := if r.err.isSome then 0 else b.length - r.nextBuf.length
      err := r.err }

def saveCFFile (F : Formats) (d : SnapDir) (cfFile : CFFile) : Go (SnapDir × Option SnapErr) :=
  if cfFile.size = 0 then .ok (d, none)
  else if cfFile.writtenSize ≠ cfFile.size then
    .ok (d, some (.sizeMismatch cfFile.path cfFile.cf cfFile.writtenSize cfFile.size))
  else do
    -- The checksum is that of the bytes that `Write` was given, not that of the file.
    let digest ← Go.deref cfFile.writeDigest
    if cfFile.checksum ≠ F.crc32 digest then
      return (d, some (.checksumMismatch cfFile.path cfFile.cf (F.crc32 digest) cfFile.checksum))
    match d.files.rename cfFile.tmpPath cfFile.path with
    | none => return (d, some (.notExist cfFile.tmpPath))
    | some files => return (⟨files, int64 (d.sizeTrack + toInt cfFile.size.toNat)⟩, none)

def saveFiles (F : Formats) (d : SnapDir) : List CFFile → Go (SnapDir × Option SnapErr)
  | [] => .ok (d, none)
  | cfFile :: cfFiles => do
    match ← saveCFFile F d cfFile with
    | (d, some err) => return (d, some err)
    | (d, none) => saveFiles F d cfFiles

def saveMetaFile (F : Formats) (files : Directory FileName) (s : Snap) :
    Go (Directory FileName × Option SnapErr) := do
  let snapshotMeta ← Go.deref s.metaFile.snapshotMeta
  match s.metaFile.file with
  | none => return (files, some .invalidFile)
  | some h =>
    let files := files.write h (F.marshal snapshotMeta)
    match files.rename s.metaFile.tmpPath s.metaFile.path with
    | none => return (files, some (.notExist s.metaFile.tmpPath))
    | some files => return (files, none)

def save (F : Formats) (d : SnapDir) (s : Snap) : Go (SnapDir × Option SnapErr) := do
  match ← saveFiles F d s.cfFiles with
  | (d, some err) => return (d, some err)
  | (d, none) =>
    let (files, err) ← s.saveMetaFile F d.files
    return ({ d with files := files }, err)

end Snap

end TinyKV
