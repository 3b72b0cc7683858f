import TinyKV.Raftstore.SnapWrite

/-!
# Sending and receiving a snapshot

`Read` of `kv/raftstore/snap/snap.go` goes through the files of the column families, in whatever
portions it is called (`Sending.read`).
-/

namespace TinyKV

open List

namespace Snap

variable {cfFile : CFFile} {fs : List CFFile} {files : Directory FileName} {s : Snap}

def remaining (files : Directory FileName) (cfFile : CFFile) : Bytes :=
  if cfFile.size = 0 then [] else (cfFile.file.map files.following).getD []

def Readable (cfFile : CFFile) : Prop := cfFile.size ≠ 0 → ∃ h, cfFile.file = some h

structure ReadsOn (files : Directory FileName) (fs : List CFFile) (r : ReadLoop) : Prop where
  readable : ∀ cfFile ∈ r.cfFiles, Readable cfFile
  finished : ∀ cfFile ∈ r.cfFiles.take r.cfIndex, remaining files cfFile = []
  cfIndex_le : r.cfIndex ≤ r.cfFiles.length
  result : (r.result = .error .eof ∧ fs.flatMap (remaining files) = [] ∧
      r.cfFiles.flatMap (remaining files) = []) ∨
    ∃ b, b ≠ [] ∧ r.result = .ok b ∧
      b ++ r.cfFiles.flatMap (remaining files) = fs.flatMap (remaining files)

theorem ReadsOn.push {r : ReadLoop} (h : ReadsOn files fs r) (hreadable : Readable cfFile)
    (hend : remaining files cfFile = []) : ReadsOn files (cfFile :: fs) (r.push cfFile) where
  readable := forall_mem_cons.mpr ⟨hreadable, h.readable⟩
  finished := forall_mem_cons.mpr ⟨hend, h.finished⟩
  cfIndex_le := Nat.succ_le_succ h.cfIndex_le
  result := by
    rw [ReadLoop.push, flatMap_cons, flatMap_cons, hend, nil_append,
      nil_append]
    exact h.result

theorem readLoop_readsOn (files : Directory FileName) {n : ℕ} (hn : 0 < n) (got : ℕ)
    {fs : List CFFile} (hfs : ∀ cfFile ∈ fs, Readable cfFile) :
    ReadsOn files fs (readLoop files n got fs) := by
  induction fs with
  | nil => exact ⟨by simp [readLoop], by simp [readLoop], le_rfl, Or.inl ⟨rfl, rfl, rfl⟩⟩
  | cons cfFile fs ih =>
    obtain ⟨hreadable, hfs⟩ := forall_mem_cons.mp hfs
    rw [readLoop]
    split_ifs with hsize
    · exact (ih hfs).push hreadable (if_pos hsize)
    · obtain ⟨h, hfile⟩ := hreadable hsize
      have hremaining : remaining files cfFile = files.following h := by
        rw [remaining, if_neg hsize, hfile]
        rfl
      rw [hfile]
      dsimp only
      split_ifs with hb
      · refine (ih hfs).push hreadable ?_
        rw [hremaining]
        simpa [hn.ne'] using hb
      · refine ⟨forall_mem_cons.mpr ⟨fun _ => ⟨_, rfl⟩, hfs⟩, by simp, by simp, Or.inr
          ⟨_, fun hnil => hb (by rw [hnil]; rfl), rfl, ?_⟩⟩
        have hstart := List.take_prefix (min n (max 1 got)) (files.following h)
        rw [flatMap_cons, flatMap_cons, hremaining, remaining, if_neg hsize,
          Option.map_some, Option.getD_some, Directory.following_add, ← append_assoc,
          prefix_iff_eq_append.mp hstart]

theorem readLoop_append (files : Directory FileName) (n got : ℕ) {fs₁ : List CFFile}
    (h : ∀ cfFile ∈ fs₁, Readable cfFile ∧ remaining files cfFile = []) (fs₂ : List CFFile) :
    readLoop files n got (fs₁ ++ fs₂) =
      { readLoop files n got fs₂ with
        cfFiles := fs₁ ++ (readLoop files n got fs₂).cfFiles
        cfIndex := fs₁.length + (readLoop files n got fs₂).cfIndex } := by
  induction fs₁ with
  | nil => simp
  | cons cfFile fs₁ ih =>
    obtain ⟨⟨hreadable, hend⟩, h⟩ := forall_mem_cons.mp h
    rw [cons_append, readLoop]
    split_ifs with hsize
    · rw [ih h]
      simp [ReadLoop.push, Nat.add_right_comm]
    · obtain ⟨handle, hfile⟩ := hreadable hsize
      rw [remaining, if_neg hsize, hfile, Option.map_some, Option.getD_some] at hend
      rw [hfile]
      dsimp only
      rw [hend, if_pos (by simp), ih h]
      simp [ReadLoop.push, Nat.add_right_comm]

/-- The snapshot is being sent: the files are open, and those that are left behind are at their
end. -/
structure Sending (files : Directory FileName) (s : Snap) : Prop where
  readable : ∀ cfFile ∈ s.cfFiles, Readable cfFile
  finished : ∀ cfFile ∈ s.cfFiles.take s.cfIndex, remaining files cfFile = []
  cfIndex_le : s.cfIndex ≤ s.cfFiles.length

theorem Sending.read (h : Sending files s) {n : ℕ} (hn : 0 < n) (got : ℕ) :
    Sending files (s.read files n got).1 ∧
    (((s.read files n got).2 = .error .eof ∧ s.cfFiles.flatMap (remaining files) = [] ∧
        (s.read files n got).1.cfFiles.flatMap (remaining files) = []) ∨
      ∃ b, b ≠ [] ∧ (s.read files n got).2 = .ok b ∧
        b ++ (s.read files n got).1.cfFiles.flatMap (remaining files) =
          s.cfFiles.flatMap (remaining files)) := by
  have happend := readLoop_append files n got (fun cfFile hmem =>
    ⟨h.readable cfFile (mem_of_mem_take hmem), h.finished cfFile hmem⟩)
    (s.cfFiles.drop s.cfIndex)
  rw [take_append_drop, length_take_of_le h.cfIndex_le] at happend
  have hreads := readLoop_readsOn files hn got h.readable
  rw [happend] at hreads
  rw [Snap.read, if_neg hn.ne']
  exact ⟨⟨hreads.readable, hreads.finished, hreads.cfIndex_le⟩, hreads.result⟩

def reads (files : Directory FileName) (s : Snap) : List (ℕ × ℕ) → List (Except SnapErr Bytes)
  | [] => []
  | (n, got) :: calls => (s.read files n got).2 :: reads files (s.read files n got).1 calls

theorem Sending.reads (h : Sending files s) {calls : List (ℕ × ℕ)}
    (hcalls : ∀ call ∈ calls, 0 < call.1) :
    ∃ (chunks : List Bytes) (k : ℕ) (rest : Bytes), s.reads files calls =
        chunks.map .ok ++ List.replicate k (.error SnapErr.eof) ∧
      (∀ c ∈ chunks, c ≠ []) ∧ chunks.flatten ++ rest = s.cfFiles.flatMap (remaining files) ∧
      (0 < k → rest = []) := by
  induction calls generalizing s with
  | nil => exact ⟨[], 0, _, rfl, by simp, rfl, by simp⟩
  | cons call calls ih =>
    obtain ⟨hn, hcalls⟩ := forall_mem_cons.mp hcalls
    obtain ⟨hsending, hresult⟩ := h.read hn call.2
    obtain ⟨chunks, k, rest, hreads, hchunks, hflatten, hrest⟩ := ih hsending hcalls
    rw [Snap.reads, hreads]
    rcases hresult with ⟨heof, hnil, hnil'⟩ | ⟨b, hb, hok, hsplit⟩
    · -- Nothing is left, so that no call returns anything any more.
      rw [hnil', append_eq_nil_iff, flatten_eq_nil_iff] at hflatten
      obtain rfl : chunks = [] := by
        cases chunks with
        | nil => rfl
        | cons c chunks =>
          exact absurd (hflatten.1 c mem_cons_self) (hchunks c mem_cons_self)
      refine ⟨[], k + 1, [], ?_, by simp, hnil.symm, fun _ => rfl⟩
      rw [heof]
      rfl
    · refine ⟨b :: chunks, k, rest, ?_, ?_, ?_, hrest⟩
      · rw [hok]
        rfl
      · exact forall_mem_cons.mpr ⟨hb, hchunks⟩
      · rw [flatten_cons, append_assoc, hflatten, hsplit]

structure Sends (files : Directory FileName) (s : Snap) (contents : List Bytes) : Prop where
  cfIndex : s.cfIndex = 0
  cfFiles : List.Forall₂ (fun cfFile content =>
    content.length ≤ maxInt ∧ cfFile.size = UInt64.ofNat content.length ∧
      (content ≠ [] → cfFile.file = some ⟨cfFile.path, 0⟩ ∧
        files.lookup cfFile.path = some content)) s.cfFiles contents

structure Receives (files : Directory FileName) (s : Snap) (contents : List Bytes) : Prop where
  cfIndex : s.cfIndex = 0
  nodup : (s.cfFiles.map CFFile.tmpPath).Nodup
  cfFiles : List.Forall₂ (fun cfFile content =>
    content.length ≤ maxInt ∧ cfFile.size = UInt64.ofNat content.length ∧
      cfFile.writtenSize = 0 ∧
      (content ≠ [] → cfFile.file = some ⟨cfFile.tmpPath, 0⟩ ∧ cfFile.writeDigest = some [] ∧
        files.lookup cfFile.tmpPath = some [])) s.cfFiles contents

section

variable {size : UInt64} {content : Bytes} (hle : content.length ≤ maxInt)
  (hsize : size = UInt64.ofNat content.length)
include hle hsize

theorem toNat_size : size.toNat = content.length := by
  rw [hsize]
  refine UInt64.toNat_ofNat_of_lt' (hle.trans_lt ?_)
  decide

theorem size_eq_zero_iff : size = 0 ↔ content = [] := by
  rw [← UInt64.toNat_inj, toNat_size hle hsize]
  exact length_eq_zero_iff

end

section

variable {contents : List Bytes}

theorem Sends.sending (h : Sends files s contents) :
    Sending files s ∧ s.cfFiles.flatMap (remaining files) = contents.flatten := by
  obtain ⟨hindex, hfiles⟩ := h
  refine ⟨⟨?_, by simp [hindex], by simp [hindex]⟩, ?_⟩
  · generalize s.cfFiles = fs at hfiles ⊢
    induction hfiles with
    | nil => simp
    | cons hfile _ ih =>
      obtain ⟨hle, hsize, hopen⟩ := hfile
      refine forall_mem_cons.mpr ⟨fun hne => ?_, ih⟩
      exact ⟨_, (hopen fun hnil => hne ((size_eq_zero_iff hle hsize).mpr hnil)).1⟩
  · generalize s.cfFiles = fs at hfiles ⊢
    induction hfiles with
    | nil => rfl
    | cons hfile _ ih =>
      obtain ⟨hle, hsize, hopen⟩ := hfile
      rw [flatMap_cons, flatten_cons, ih]
      congr 1
      unfold remaining
      split_ifs with hzero
      · exact ((size_eq_zero_iff hle hsize).mp hzero).symm
      · obtain ⟨hfile, hlookup⟩ := hopen fun hnil => hzero ((size_eq_zero_iff hle hsize).mpr hnil)
        rw [hfile, Option.map_some, Option.getD_some, Directory.following, hlookup]
        rfl

theorem Receives.sizes_eq (h : Receives files s contents) :
    sizes s.cfFiles = contents.flatten.length := by
  obtain ⟨-, -, hfiles⟩ := h
  unfold sizes
  generalize s.cfFiles = fs at hfiles ⊢
  induction hfiles with
  | nil => rfl
  | cons hfile _ ih =>
    rw [map_cons, sum_cons, flatten_cons, length_append, ih,
      toNat_size hfile.1 hfile.2.1]

theorem Receives.receiving (h : Receives files s contents) :
    Receiving files.lookup s.cfFiles [] files s := by
  obtain ⟨hindex, -, hfiles⟩ := h
  refine receiving_of_opened hindex ?_
  generalize s.cfFiles = fs at hfiles ⊢
  induction hfiles with
  | nil => simp
  | @cons cfFile content _ _ hfile _ ih =>
    refine forall_mem_cons.mpr ⟨fun hzero => ?_, ih⟩
    obtain ⟨hle, hsize, hwritten, hopen⟩ := hfile
    obtain ⟨hfile, hdigest, -⟩ := hopen fun hnil => hzero ((size_eq_zero_iff hle hsize).mpr hnil)
    obtain ⟨cf, path, tmpPath, writer, file, count, size, written, checksum, digest⟩ := cfFile
    simp only at hfile hdigest hwritten
    subst hfile hdigest hwritten
    rfl

theorem parts_flatten (h : List.Forall₂ (fun cfFile content => content.length ≤ maxInt ∧
      CFFile.size cfFile = UInt64.ofNat content.length) fs contents) :
    parts fs contents.flatten = contents := by
  induction h with
  | nil => rfl
  | cons hfile _ ih =>
    rw [parts_cons, toNat_size hfile.1 hfile.2, flatten_cons, take_left, drop_left,
      ih]

theorem wroteFiles_flatten (h : List.Forall₂ (fun cfFile content => content.length ≤ maxInt ∧
      CFFile.size cfFile = UInt64.ofNat content.length ∧ cfFile.writtenSize = 0 ∧
      (content ≠ [] → files.lookup cfFile.tmpPath = some content)) fs contents) :
    List.Forall₂ (fun cfFile content => CFFile.writtenSize cfFile = cfFile.size ∧
      (content ≠ [] → files.lookup cfFile.tmpPath = some content))
      (wroteFiles fs contents.flatten) contents := by
  induction h with
  | nil => exact .nil
  | @cons cfFile content _ _ hfile _ ih =>
    obtain ⟨hle, hsize, hwritten, hlookup⟩ := hfile
    rw [wroteFiles, toNat_size hle hsize, flatten_cons, take_left, drop_left]
    refine .cons ?_ ih
    by_cases hzero : cfFile.size = 0
    · rw [if_pos hzero]
      exact ⟨hwritten.trans hzero.symm, hlookup⟩
    · rw [if_neg hzero]
      exact ⟨hsize.symm, hlookup⟩

theorem Receives.received {files' : Directory FileName} {s' : Snap} (h : Receives files s contents)
    (hreceiving : Receiving files.lookup s.cfFiles contents.flatten files' s') :
    List.Forall₂ (fun cfFile content => CFFile.writtenSize cfFile = cfFile.size ∧
      (content ≠ [] → files'.lookup cfFile.tmpPath = some content)) s'.cfFiles contents := by
  rw [hreceiving.cfFiles]
  obtain ⟨hlength, hzip⟩ := forall₂_iff_zip.mp h.cfFiles
  have hparts : parts s.cfFiles contents.flatten = contents :=
    parts_flatten (h.cfFiles.imp fun _ _ hfile => ⟨hfile.1, hfile.2.1⟩)
  have hcontents := wroteContents_of_mem files.lookup contents.flatten h.nodup
  rw [hparts] at hcontents
  refine wroteFiles_flatten (forall₂_iff_zip.mpr ⟨hlength, fun {cfFile content} hmem => ?_⟩)
  obtain ⟨hle, hsize, hwritten, hopen⟩ := hzip hmem
  refine ⟨hle, hsize, hwritten, fun hne => ?_⟩
  rw [hreceiving.lookup, hcontents _ hmem fun hzero => hne ((size_eq_zero_iff hle hsize).mp hzero),
    (hopen hne).2.2]
  simp [Directory.written]

theorem Receives.size_le (h : Receives files s contents) :
    ∀ cfFile ∈ s.cfFiles, cfFile.size.toNat ≤ maxInt := by
  obtain ⟨-, -, hfiles⟩ := h
  generalize s.cfFiles = fs at hfiles ⊢
  induction hfiles with
  | nil => simp
  | cons hfile _ ih =>
    refine forall_mem_cons.mpr ⟨?_, ih⟩
    rw [toNat_size hfile.1 hfile.2.1]
    exact hfile.1

end

theorem length_reads (files : Directory FileName) (s : Snap) (calls : List (ℕ × ℕ)) :
    (s.reads files calls).length = calls.length := by
  induction calls generalizing s with
  | nil => rfl
  | cons call calls ih => rw [Snap.reads, length_cons, length_cons, ih]

theorem length_le_length_flatten {chunks : List Bytes} (h : ∀ c ∈ chunks, c ≠ []) :
    chunks.length ≤ chunks.flatten.length := by
  induction chunks with
  | nil => simp
  | cons c chunks ih =>
    obtain ⟨hc, h⟩ := forall_mem_cons.mp h
    have hpos := length_pos_iff.mpr hc
    have hrest := ih h
    rw [flatten_cons, length_append, length_cons]
    omega

def contentsOf (files : Directory FileName) (isSending : Bool) (key : SnapKey) : List Bytes :=
  cfs.map fun cf => (files.lookup (cfPath isSending key cf)).getD []

theorem sends_of_newSnapForSending {F : Formats} {d : SnapDir} {key : SnapKey}
    (h : newSnapForSending F d key = .ok s) (hmeta : d.files.fileExists (metaPath true key) = true)
    (hle : ∀ cf, ((d.files.lookup (cfPath true key cf)).getD []).length ≤ maxInt) :
    Sends d.files s (contentsOf d.files true key) := by
  obtain ⟨m, z, rfl, hagree, hfiles⟩ := newSnapForSending_eq_ok h hmeta
  refine ⟨rfl, ?_⟩
  unfold contentsOf
  rw [forall₂_map_left_iff, forall₂_map_right_iff, forall₂_same]
  intro cf _
  have hsize : (sentFile key z cf).size = z.size cf := by unfold sentFile; split_ifs <;> rfl
  have hpath : (sentFile key z cf).path = cfPath true key cf := by
    unfold sentFile
    split_ifs <;> rfl
  rw [hsize, hpath]
  have hle := hle cf
  cases hlookup : d.files.lookup (cfPath true key cf) with
  | none =>
    refine ⟨Nat.zero_le _, ?_, fun hne => absurd rfl hne⟩
    by_contra hzero
    exact absurd (hfiles cf hzero) (by simp [Directory.fileExists, hlookup])
  | some content =>
    rw [hlookup, Option.getD_some] at hle
    have hsize := (hagree cf content hlookup).symm
    refine ⟨hle, hsize, fun hne => ⟨?_, rfl⟩⟩
    have hzero : z.size cf ≠ 0 := fun hzero =>
      hne ((size_eq_zero_iff hle hsize).mp hzero)
    rw [sentFile, if_neg hzero]

theorem receives_of_newSnapForReceiving {F : Formats} {d d' : SnapDir} {key : SnapKey} {z : CFSizes}
    (h : newSnapForReceiving F d key z.toMeta = .ok (d', s)) (hopen : s.metaFile.file ≠ none)
    (hempty : ∀ cf, (d.files.lookup (cfTmpPath false key cf)).getD [] = []) (contents : Cf → Bytes)
    (hle : ∀ cf, (contents cf).length ≤ maxInt)
    (hsize : ∀ cf, z.size cf = UInt64.ofNat (contents cf).length) :
    Receives d'.files s (cfs.map contents) := by
  obtain ⟨z', hz, -, ⟨-, -, rfl⟩ | ⟨-, rfl, rfl⟩⟩ := newSnapForReceiving_eq_ok h
  · exact absurd rfl hopen
  · obtain rfl := CFSizes.toMeta_inj hz
    refine ⟨rfl, ?_, ?_⟩
    · have htmp : (ofReceived key z.toMeta z).cfFiles.map CFFile.tmpPath =
          cfs.map (cfTmpPath false key) := by
        rw [ofReceived, map_map]
        exact map_congr_left fun cf _ => tmpPath_receivedFile key z cf
      rw [htmp]
      exact List.Nodup.map (fun cf cf' heq => Option.some.inj (FileName.mk.inj heq).2.2.1)
        (by decide)
    · rw [ofReceived, forall₂_map_left_iff, forall₂_map_right_iff, forall₂_same]
      intro cf _
      rw [size_receivedFile, tmpPath_receivedFile]
      refine ⟨hle cf, hsize cf, ?_, fun hne => ?_⟩
      · unfold receivedFile openForReceiving
        split_ifs <;> rfl
      · have hzero : z.size cf ≠ 0 := fun hzero =>
          hne ((size_eq_zero_iff (hle cf) (hsize cf)).mp hzero)
        rw [receivedFile_of_ne hzero]
        refine ⟨rfl, rfl, ?_⟩
        have hthere : ∃ cfFile ∈ cfs.map (sizedFile false key z), cfFile.size ≠ 0 ∧
            cfTmpPath false key cf = cfFile.tmpPath :=
          ⟨_, mem_map_of_mem (mem_cfs cf), hzero, rfl⟩
        rw [lookup_openTmpFiles, if_pos hthere, Directory.lookup_openFile,
          if_neg (by simp [cfTmpPath, metaTmpPath]), hempty]

/-- A snapshot is received as it is sent, in whatever portions: when all of the contents have been
written, the files hold them, and if less is written, `Save` returns an error. -/
theorem stream_lossless {sent received : Directory FileName} {sender receiver : Snap}
    {contents : List Bytes} (hsends : Sends sent sender contents)
    (hreceives : Receives received receiver contents) :
    (∀ calls : List (ℕ × ℕ), (∀ call ∈ calls, 1 ≤ call.1) →
      ∃ (chunks : List Bytes) (k : ℕ) (rest : Bytes), sender.reads sent calls =
          chunks.map .ok ++ List.replicate k (.error SnapErr.eof) ∧
        (∀ c ∈ chunks, c ≠ []) ∧ chunks.flatten ++ rest = contents.flatten ∧
        (0 < k → rest = []) ∧ (contents.flatten.length < calls.length → 0 < k)) ∧
    (∀ chunks : List Bytes, (∀ c ∈ chunks, c ≠ []) → chunks.flatten = contents.flatten →
      ∃ received' receiver', receiver.writes received chunks =
          .ok (received', receiver', chunks.map fun c => (c.length, none)) ∧
        List.Forall₂ (fun cfFile content => CFFile.writtenSize cfFile = cfFile.size ∧
          (content ≠ [] → received'.lookup cfFile.tmpPath = some content))
          receiver'.cfFiles contents) ∧
    ∀ chunks : List Bytes, (∀ c ∈ chunks, c ≠ []) →
      chunks.flatten.length < contents.flatten.length →
      ∃ received' receiver' results, receiver.writes received chunks =
          .ok (received', receiver', results) ∧
        ∀ F sizeTrack, ∃ d' err, receiver'.save F ⟨received', sizeTrack⟩ = .ok (d', some err) := by
  refine ⟨fun calls hcalls => ?_, fun chunks _ hflatten => ?_, fun chunks _ hlt => ?_⟩
  · obtain ⟨hsending, hremaining⟩ := hsends.sending
    obtain ⟨chunks, k, rest, hreads, hne, hsplit, hrest⟩ := hsending.reads hcalls
    rw [hremaining] at hsplit
    refine ⟨chunks, k, rest, hreads, hne, hsplit, hrest, fun hlong => ?_⟩
    have hlength := congrArg List.length hreads
    rw [length_reads, length_append, length_map, length_replicate] at hlength
    have hsplit' := congrArg List.length hsplit
    rw [length_append] at hsplit'
    have hchunks := length_le_length_flatten hne
    omega
  · rcases hreceives.receiving.writes chunks with ⟨-, f, hf, hmax⟩ | ⟨received', receiver',
      results, hwrites, hreceiving, -, hresults⟩
    · exact absurd hmax (Nat.not_lt.mpr (hreceives.size_le f hf))
    · refine ⟨received', receiver', ?_, hreceives.received ?_⟩
      · rw [hwrites, hresults]
        rw [hreceives.sizes_eq, hflatten, length_nil, Nat.zero_add]
      · rwa [nil_append, hflatten] at hreceiving
  · rcases hreceives.receiving.writes chunks with ⟨-, f, hf, hmax⟩ | ⟨received', receiver',
      results, hwrites, hreceiving, -, -⟩
    · exact absurd hmax (Nat.not_lt.mpr (hreceives.size_le f hf))
    · refine ⟨received', receiver', results, hwrites, fun F sizeTrack => ?_⟩
      exact hreceiving.save_of_lt F _ (by rwa [nil_append, hreceives.sizes_eq])

theorem stream_lossless_two :
    let key : SnapKey := ⟨1, 6, 9⟩
    let z : CFSizes := ⟨fun | .default => 3 | .write => 0 | .lock => 1, fun _ => 0⟩
    let F : Formats := ⟨fun _ => 0, fun _ => [7], fun _ => some z.toMeta, fun _ => [], fun _ => []⟩
    let d : SnapDir := ⟨((AList.insert (cfPath true key .default) [1, 2, 3] ∅).insert
      (cfPath true key .lock) [4]).insert (metaPath true key) [7], 4⟩
    ∃ sender d' receiver, newSnapForSending F d key = .ok sender ∧
      newSnapForReceiving F ⟨∅, 0⟩ key z.toMeta = .ok (d', receiver) ∧
      (∃ (chunks : List Bytes) (k : ℕ) (rest : Bytes), sender.reads d.files
          [(2, 1), (2, 2), (4, 2), (1, 1), (5, 5)] =
          chunks.map .ok ++ List.replicate k (.error SnapErr.eof) ∧
        (∀ c ∈ chunks, c ≠ []) ∧ chunks.flatten ++ rest = [1, 2, 3, 4] ∧
        (0 < k → rest = []) ∧ (4 < 5 → 0 < k)) ∧
      ∃ received' receiver', receiver.writes d'.files [[1], [2, 3, 4]] =
          .ok (received', receiver', [(1, none), (3, none)]) ∧
        List.Forall₂ (fun cfFile content => CFFile.writtenSize cfFile = cfFile.size ∧
          (content ≠ [] → received'.lookup cfFile.tmpPath = some content))
          receiver'.cfFiles [[1, 2, 3], [], [4]] := by
  intro key z F d
  refine ⟨_, _, _, rfl, rfl, ?_⟩
  obtain ⟨hreads, hwrites, -⟩ := stream_lossless
    (sends_of_newSnapForSending (show newSnapForSending F d key = .ok _ from rfl) (by decide)
      (by rintro (_ | _ | _) <;> decide))
    (receives_of_newSnapForReceiving
      (show newSnapForReceiving F ⟨∅, 0⟩ key z.toMeta = .ok _ from rfl) (by decide)
      (by rintro (_ | _ | _) <;> decide)
      (fun cf => (d.files.lookup (cfPath true key cf)).getD [])
      (by rintro (_ | _ | _) <;> decide) (by rintro (_ | _ | _) <;> decide))
  exact ⟨hreads _ (by decide), hwrites _ (by decide) (by decide)⟩

end Snap

end TinyKV
