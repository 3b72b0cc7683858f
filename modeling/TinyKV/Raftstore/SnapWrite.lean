import TinyKV.Raftstore.SnapMeta

/-!
# Writing a snapshot

`Write` and `Save` of `kv/raftstore/snap/snap.go`.
-/

namespace TinyKV

open List

def CFFile.wrote (cfFile : CFFile) (b : Bytes) : CFFile :=
  { cfFile with
    file := some ⟨cfFile.tmpPath, b.length⟩
    writtenSize := UInt64.ofNat b.length
    writeDigest := some b }

def CFFile.Finished (cfFile : CFFile) : Prop :=
  cfFile.size = 0 ∨ cfFile.size - cfFile.writtenSize = 0

namespace Snap

def cut : List ℕ → Bytes → List Bytes
  | [], _ => []
  | n :: ns, p => p.take n :: cut ns (p.drop n)

def parts (cfFiles : List CFFile) (p : Bytes) : List Bytes :=
  cut (cfFiles.map fun cfFile => cfFile.size.toNat) p

theorem parts_cons (cfFile : CFFile) (cfFiles : List CFFile) (p : Bytes) :
    parts (cfFile :: cfFiles) p =
      p.take cfFile.size.toNat :: parts cfFiles (p.drop cfFile.size.toNat) := rfl

def wroteFiles : List CFFile → Bytes → List CFFile
  | [], _ => []
  | cfFile :: cfFiles, p =>
    (if cfFile.size = 0 then cfFile else cfFile.wrote (p.take cfFile.size.toNat)) ::
      wroteFiles cfFiles (p.drop cfFile.size.toNat)

def wroteContents (old : FileName → Option Bytes) :
    List CFFile → Bytes → FileName → Option Bytes
  | [], _ => old
  | cfFile :: cfFiles, p =>
    wroteContents
      (fun name =>
        if name = cfFile.tmpPath ∧ cfFile.size ≠ 0 then
          (old name).map (Directory.written · (p.take cfFile.size.toNat))
        else old name)
      cfFiles (p.drop cfFile.size.toNat)

def sizes (cfFiles : List CFFile) : ℕ := (cfFiles.map fun cfFile => cfFile.size.toNat).sum

variable {cfFile : CFFile} {cfFiles fs : List CFFile} {files : Directory FileName} {b p : Bytes}
  {old : FileName → Option Bytes} {s : Snap}

theorem wroteContents_nil (old : FileName → Option Bytes) (fs : List CFFile) :
    wroteContents old fs [] = old := by
  induction fs generalizing old with
  | nil => rfl
  | cons cfFile fs ih =>
    rw [wroteContents, drop_nil, ih]
    funext name
    simp

theorem wroteContents_of_notMem {name : FileName} (h : name ∉ fs.map CFFile.tmpPath) :
    wroteContents old fs p name = old name := by
  induction fs generalizing old p with
  | nil => rfl
  | cons cfFile fs ih =>
    rw [map_cons, mem_cons, not_or] at h
    rw [wroteContents, ih h.2, if_neg fun h' => h.1 h'.1]

theorem wroteContents_of_mem (old : FileName → Option Bytes) (p : Bytes)
    (hnodup : (fs.map CFFile.tmpPath).Nodup) :
    ∀ q ∈ fs.zip (parts fs p), q.1.size ≠ 0 →
      wroteContents old fs p q.1.tmpPath = (old q.1.tmpPath).map (Directory.written · q.2) := by
  induction fs generalizing old p with
  | nil => simp
  | cons cfFile fs ih =>
    rw [map_cons, nodup_cons] at hnodup
    intro q hq hsize
    rw [parts_cons, zip_cons_cons, mem_cons] at hq
    rcases hq with rfl | hq
    · rw [wroteContents, wroteContents_of_notMem hnodup.1, if_pos ⟨rfl, hsize⟩]
    · have hne : q.1.tmpPath ≠ cfFile.tmpPath := fun heq =>
        hnodup.1 (heq ▸ mem_map_of_mem (of_mem_zip hq).1)
      rw [wroteContents, ih _ _ hnodup.2 q hq hsize, if_neg fun h => hne h.1]

theorem toNat_left (cfFile : CFFile) {b : Bytes} (h : b.length ≤ cfFile.size.toNat) :
    ((cfFile.wrote b).size - (cfFile.wrote b).writtenSize).toNat =
      cfFile.size.toNat - b.length := by
  have hlength : (UInt64.ofNat b.length).toNat = b.length :=
    UInt64.toNat_ofNat_of_lt' (h.trans_lt cfFile.size.toNat_lt)
  rw [CFFile.wrote, UInt64.toNat_sub_of_le _ _ (by rw [UInt64.le_iff_toNat_le, hlength]; exact h),
    hlength]

theorem finished_wrote {cfFile : CFFile} {q : Bytes} (h : cfFile.size.toNat ≤ q.length) :
    (if cfFile.size = 0 then cfFile else cfFile.wrote (q.take cfFile.size.toNat)).Finished := by
  split_ifs with hsize
  · exact Or.inl hsize
  · have hleft := toNat_left cfFile (b := q.take cfFile.size.toNat) (length_take_le _ _)
    rw [length_take_of_le h, Nat.sub_self] at hleft
    exact Or.inr (UInt64.toNat_inj.mp hleft)

theorem writeCFFile_wrote (files : Directory FileName) (cfFile : CFFile) (b c : Bytes) :
    writeCFFile files (cfFile.wrote b) c =
      .ok (.ok (files.write ⟨cfFile.tmpPath, b.length⟩ c, cfFile.wrote (b ++ c))) := by
  simp [writeCFFile, CFFile.wrote]

theorem lookup_write_wrote (h : ∀ name, files.lookup name = wroteContents old (cfFile :: fs) p name)
    (hsize : cfFile.size ≠ 0) (hp : p.length ≤ cfFile.size.toNat) (c : Bytes) (name : FileName) :
    (files.write ⟨cfFile.tmpPath, p.length⟩ c).lookup name =
      if name = cfFile.tmpPath ∧ cfFile.size ≠ 0 then
        (old name).map (Directory.written · (p ++ c))
      else old name := by
  have hfiles : ∀ name, files.lookup name =
      if name = cfFile.tmpPath ∧ cfFile.size ≠ 0 then (old name).map (Directory.written · p)
      else old name := by
    intro name
    rw [h, wroteContents, take_of_length_le hp, drop_eq_nil_of_le hp,
      wroteContents_nil]
  rw [Directory.lookup_write, hfiles]
  by_cases hname : name = cfFile.tmpPath
  · rw [if_pos hname, if_pos ⟨hname, hsize⟩, if_pos ⟨hname, hsize⟩, Option.map_map]
    exact congrArg (Option.map · (old name)) (funext fun c₀ => Directory.overwrite_written c₀ p c)
  · rw [if_neg hname, if_neg fun h => hname h.1, if_neg fun h => hname h.1]

/-- What the loop in `Write` has done when it is left. -/
structure Wrote (old : FileName → Option Bytes) (fs : List CFFile) (p b : Bytes) (r : WriteLoop) :
    Prop where
  cfFiles : r.cfFiles = wroteFiles fs (p ++ b)
  lookup : ∀ name, r.files.lookup name = wroteContents old fs (p ++ b) name
  nextBuf : r.nextBuf = b.drop (sizes fs - p.length)
  finished : ∀ cfFile ∈ r.cfFiles.take r.cfIndex, cfFile.Finished
  cfIndex_le : r.cfIndex ≤ r.cfFiles.length
  err : r.err = none

theorem Wrote.push {q c : Bytes} {r : WriteLoop}
    (h : Wrote (fun name =>
        if name = cfFile.tmpPath ∧ cfFile.size ≠ 0 then
          (old name).map (Directory.written · ((p ++ b).take cfFile.size.toNat))
        else old name) fs q c r)
    (hstream : (p ++ b).drop cfFile.size.toNat = q ++ c)
    (hnext : c.drop (sizes fs - q.length) = b.drop (sizes (cfFile :: fs) - p.length))
    (hfull : cfFile.size.toNat ≤ (p ++ b).length) :
    Wrote old (cfFile :: fs) p b (r.push
      (if cfFile.size = 0 then cfFile else cfFile.wrote ((p ++ b).take cfFile.size.toNat))) where
  cfFiles := by rw [WriteLoop.push, h.cfFiles, wroteFiles, hstream]
  lookup name := by
    rw [wroteContents, hstream]
    exact h.lookup name
  nextBuf := h.nextBuf.trans hnext
  finished := by
    intro f hf
    rw [WriteLoop.push, take_succ_cons, mem_cons] at hf
    rcases hf with rfl | hf
    · exact finished_wrote hfull
    · exact h.finished f hf
  cfIndex_le := Nat.succ_le_succ h.cfIndex_le
  err := h.err

theorem writeLoop_of_lt (files : Directory FileName) (b : Bytes) (rest : List CFFile)
    (hlt : p.length < cfFile.size.toNat) :
    writeLoop files b (cfFile.wrote p :: rest) =
      if toInt (cfFile.size.toNat - p.length) < b.length then
        if cfFile.size.toNat - p.length ≤ b.length then
          WriteLoop.push (cfFile.wrote (p ++ b.take (cfFile.size.toNat - p.length))) <$>
            writeLoop (files.write ⟨cfFile.tmpPath, p.length⟩
              (b.take (cfFile.size.toNat - p.length))) (b.drop (cfFile.size.toNat - p.length)) rest
        else .error .sliceOutOfRange
      else .ok ⟨files.write ⟨cfFile.tmpPath, p.length⟩ b, cfFile.wrote (p ++ b) :: rest, 0, [],
        none⟩ := by
  have hleft := toNat_left cfFile hlt.le
  have hnot : ¬ ((cfFile.wrote p).size = 0 ∨
      (cfFile.wrote p).size - (cfFile.wrote p).writtenSize = 0) := by
    rintro (hzero | hzero)
    · have hsize : cfFile.size.toNat = 0 := congrArg UInt64.toNat hzero
      omega
    · rw [hzero, UInt64.toNat_zero] at hleft
      omega
  rw [writeLoop, if_neg hnot, hleft]
  split_ifs with hmore hle
  · have hpart : Go.slice b 0 (cfFile.size.toNat - p.length) =
        .ok (b.take (cfFile.size.toNat - p.length)) := Go.slice_eq_ok (Nat.zero_le _) hle
    have hnext : Go.slice b (cfFile.size.toNat - p.length) b.length =
        .ok (b.drop (cfFile.size.toNat - p.length)) := by
      rw [Go.slice_eq_ok hle le_rfl, take_length]
    rw [hpart, Go.ok_bind, writeCFFile_wrote, Go.ok_bind, hnext]
    rfl
  · have hpart : Go.slice b 0 (cfFile.size.toNat - p.length) = .error .sliceOutOfRange :=
      if_neg fun h => hle h.2
    rw [hpart]
    rfl
  · rw [writeCFFile_wrote]
    rfl

def WritesOn (old : FileName → Option Bytes) (fs : List CFFile) (p b : Bytes) (x : Go WriteLoop) :
    Prop :=
  (x = .error .sliceOutOfRange ∧ ∃ cfFile ∈ fs, maxInt < cfFile.size.toNat) ∨
    ∃ r, x = .ok r ∧ Wrote old fs p b r

theorem WritesOn.push {q c : Bytes} {x : Go WriteLoop}
    (h : WritesOn (fun name => if name = cfFile.tmpPath ∧ cfFile.size ≠ 0 then (old name).map
      (Directory.written · ((p ++ b).take cfFile.size.toNat)) else old name) fs q c x)
    (hstream : (p ++ b).drop cfFile.size.toNat = q ++ c)
    (hnext : c.drop (sizes fs - q.length) = b.drop (sizes (cfFile :: fs) - p.length))
    (hfull : cfFile.size.toNat ≤ (p ++ b).length) :
    WritesOn old (cfFile :: fs) p b (WriteLoop.push
      (if cfFile.size = 0 then cfFile else cfFile.wrote ((p ++ b).take cfFile.size.toNat)) <$>
        x) := by
  rcases h with ⟨herror, f, hf, hmax⟩ | ⟨r, hr, hwrote⟩
  · left
    rw [herror]
    exact ⟨rfl, f, mem_cons_of_mem _ hf, hmax⟩
  · right
    exact ⟨_, Go.map_eq_ok.mpr ⟨r, hr, rfl⟩, hwrote.push hstream hnext hfull⟩

theorem sizes_cons (cfFile : CFFile) (fs : List CFFile) :
    sizes (cfFile :: fs) = cfFile.size.toNat + sizes fs := by
  simp [sizes]

theorem writeLoop_of_le (files : Directory FileName) (b : Bytes) (fs : List CFFile)
    (hpast : cfFile.size.toNat ≤ p.length) :
    writeLoop files b (wroteFiles (cfFile :: fs) p) =
      WriteLoop.push (if cfFile.size = 0 then cfFile
        else cfFile.wrote (p.take cfFile.size.toNat)) <$>
        writeLoop files b (wroteFiles fs (p.drop cfFile.size.toNat)) := by
  rw [wroteFiles, writeLoop]
  exact if_pos (finished_wrote hpast)

theorem wrote_of_fits (hfiles : ∀ name, files.lookup name = wroteContents old (cfFile :: fs) p name)
    (hsize : cfFile.size ≠ 0) (hlength : (p ++ b).length ≤ cfFile.size.toNat) :
    Wrote old (cfFile :: fs) p b
      ⟨files.write ⟨cfFile.tmpPath, p.length⟩ b, cfFile.wrote (p ++ b) :: wroteFiles fs [], 0, [],
        none⟩ where
  cfFiles := by
    rw [wroteFiles, if_neg hsize, take_of_length_le hlength, drop_eq_nil_of_le hlength]
  lookup name := by
    rw [length_append] at hlength
    rw [wroteContents, take_of_length_le (by rwa [length_append]),
      drop_eq_nil_of_le (by rwa [length_append]), wroteContents_nil]
    exact lookup_write_wrote hfiles hsize (by omega) b name
  nextBuf := by
    rw [length_append] at hlength
    rw [drop_eq_nil_of_le]
    rw [sizes_cons]
    omega
  finished := by simp
  cfIndex_le := by simp
  err := rfl

theorem writeLoop_wrote (files : Directory FileName) (old : FileName → Option Bytes)
    (fs : List CFFile) (p b : Bytes)
    (hfiles : ∀ name, files.lookup name = wroteContents old fs p name) :
    WritesOn old fs p b (writeLoop files b (wroteFiles fs p)) := by
  induction fs generalizing files old p b with
  | nil =>
    refine Or.inr ⟨_, rfl, rfl, hfiles, ?_, by simp, le_rfl, rfl⟩
    simp [sizes]
  | cons cfFile fs ih =>
    by_cases hpast : cfFile.size.toNat ≤ p.length
    · -- The stream is already past the file, which is left behind.
      have htake : (p ++ b).take cfFile.size.toNat = p.take cfFile.size.toNat :=
        take_append_of_le_length hpast
      have hrest := ih files _ (p.drop cfFile.size.toNat) b hfiles
      rw [writeLoop_of_le files b fs hpast]
      rw [← htake] at hrest ⊢
      refine hrest.push (drop_append_of_le_length hpast) ?_ (hpast.trans (by simp))
      rw [sizes_cons, length_drop]
      congr 1
      omega
    · have hlt := Nat.lt_of_not_le hpast
      have hsize : cfFile.size ≠ 0 := by
        intro hzero
        rw [hzero, UInt64.toNat_zero] at hlt
        omega
      have htake : p.take cfFile.size.toNat = p := take_of_length_le hlt.le
      have hdrop : p.drop cfFile.size.toNat = [] := drop_eq_nil_of_le hlt.le
      rw [wroteFiles, if_neg hsize, htake, hdrop, writeLoop_of_lt files b _ hlt]
      split_ifs with hmore hle
      · -- The rest of the file is written, and the loop goes on.
        have htake' : (p ++ b).take cfFile.size.toNat =
            p ++ b.take (cfFile.size.toNat - p.length) := by
          rw [take_append, htake]
        have hdrop' : (p ++ b).drop cfFile.size.toNat =
            [] ++ b.drop (cfFile.size.toNat - p.length) := by
          rw [drop_append, hdrop]
        have hlookup : ∀ name, (files.write ⟨cfFile.tmpPath, p.length⟩
            (b.take (cfFile.size.toNat - p.length))).lookup name =
            wroteContents (fun name =>
              if name = cfFile.tmpPath ∧ cfFile.size ≠ 0 then
                (old name).map (Directory.written · ((p ++ b).take cfFile.size.toNat))
              else old name) fs [] name := by
          intro name
          rw [wroteContents_nil, htake']
          exact lookup_write_wrote hfiles hsize hlt.le _ name
        have hpush := (ih _ _ [] (b.drop (cfFile.size.toNat - p.length)) hlookup).push hdrop' ?_ ?_
        · rwa [if_neg hsize, htake'] at hpush
        · rw [drop_drop, sizes_cons]
          congr 1
          simp only [length_nil]
          omega
        · simp only [length_append]
          omega
      · -- A length that is negative as a number of type `int`.
        left
        refine ⟨rfl, cfFile, mem_cons_self, ?_⟩
        unfold toInt at hmore
        unfold maxInt
        split_ifs at hmore <;> omega
      · right
        refine ⟨_, rfl, wrote_of_fits hfiles hsize ?_⟩
        have hbound := cfFile.size.toNat_lt
        unfold toInt at hmore
        rw [length_append]
        split_ifs at hmore <;> omega

theorem writeLoop_append (files : Directory FileName) (b : Bytes) {fs₁ : List CFFile}
    (h : ∀ cfFile ∈ fs₁, CFFile.Finished cfFile) (fs₂ : List CFFile) :
    writeLoop files b (fs₁ ++ fs₂) =
      (fun r => { r with cfFiles := fs₁ ++ r.cfFiles, cfIndex := fs₁.length + r.cfIndex }) <$>
        writeLoop files b fs₂ := by
  induction fs₁ with
  | nil =>
    rw [nil_append]
    cases writeLoop files b fs₂ with
    | error e => rfl
    | ok r => simp
  | cons cfFile fs₁ ih =>
    have hfinished : cfFile.size = 0 ∨ cfFile.size - cfFile.writtenSize = 0 :=
      h cfFile mem_cons_self
    rw [cons_append, writeLoop, if_pos hfinished,
      ih fun f hf => h f (mem_cons_of_mem _ hf)]
    cases writeLoop files b fs₂ with
    | error e => rfl
    | ok r => simp [WriteLoop.push, Nat.add_right_comm]

theorem write_eq (files : Directory FileName) (hb : b ≠ [])
    (hfinished : ∀ cfFile ∈ s.cfFiles.take s.cfIndex, cfFile.Finished)
    (hle : s.cfIndex ≤ s.cfFiles.length) :
    s.write files b = (fun r => {
      files := r.files
      snap := { s with cfFiles := r.cfFiles, cfIndex := r.cfIndex }
      n := if r.err.isSome then 0 else b.length - r.nextBuf.length
      err := r.err : WriteResult }) <$> writeLoop files b s.cfFiles := by
  have happend := writeLoop_append files b hfinished (s.cfFiles.drop s.cfIndex)
  rw [take_append_drop] at happend
  rw [happend, write, if_neg (by simpa using hb)]
  cases writeLoop files b (s.cfFiles.drop s.cfIndex) with
  | error e => rfl
  | ok r => simp [length_take_of_le hle]

def writes (files : Directory FileName) (s : Snap) :
    List Bytes → Go (Directory FileName × Snap × List (ℕ × Option SnapErr))
  | [] => .ok (files, s, [])
  | b :: bs => do
    let r ← s.write files b
    let (files, s, results) ← writes r.files r.snap bs
    return (files, s, (r.n, r.err) :: results)

structure Receiving (old : FileName → Option Bytes) (fs : List CFFile) (p : Bytes)
    (files : Directory FileName) (s : Snap) : Prop where
  cfFiles : s.cfFiles = wroteFiles fs p
  lookup : ∀ name, files.lookup name = wroteContents old fs p name
  finished : ∀ cfFile ∈ s.cfFiles.take s.cfIndex, cfFile.Finished
  cfIndex_le : s.cfIndex ≤ s.cfFiles.length

theorem Receiving.write (h : Receiving old fs p files s) (b : Bytes) :
    (s.write files b = .error .sliceOutOfRange ∧ ∃ cfFile ∈ fs, maxInt < cfFile.size.toNat) ∨
    ∃ r, s.write files b = .ok r ∧ Receiving old fs (p ++ b) r.files r.snap ∧
      r.snap.metaFile = s.metaFile ∧ r.err = none ∧ r.n = min b.length (sizes fs - p.length) := by
  by_cases hb : b = []
  · subst hb
    right
    refine ⟨_, rfl, ?_, rfl, rfl, by simp⟩
    rwa [append_nil]
  · rw [write_eq files hb h.finished h.cfIndex_le, h.cfFiles]
    rcases writeLoop_wrote files old fs p b h.lookup with ⟨herror, hmax⟩ | ⟨r, hr, hwrote⟩
    · left
      rw [herror]
      exact ⟨rfl, hmax⟩
    · right
      refine ⟨_, Go.map_eq_ok.mpr ⟨r, hr, rfl⟩, ?_, rfl, hwrote.err, ?_⟩
      · exact ⟨hwrote.cfFiles, hwrote.lookup, hwrote.finished, hwrote.cfIndex_le⟩
      · have hnext : r.nextBuf.length = b.length - (sizes fs - p.length) := by
          rw [hwrote.nextBuf, length_drop]
        simp only [hwrote.err, hnext, Option.isSome_none, Bool.false_eq_true, if_false]
        exact Nat.sub_sub_eq_min _ _

theorem Receiving.writes (h : Receiving old fs p files s) (bs : List Bytes) :
    (s.writes files bs = .error .sliceOutOfRange ∧ ∃ cfFile ∈ fs, maxInt < cfFile.size.toNat) ∨
    ∃ files' s' results, s.writes files bs = .ok (files', s', results) ∧
      Receiving old fs (p ++ bs.flatten) files' s' ∧ s'.metaFile = s.metaFile ∧
      (p.length + bs.flatten.length ≤ sizes fs → results = bs.map fun b => (b.length, none)) := by
  induction bs generalizing p files s with
  | nil =>
    right
    refine ⟨files, s, [], rfl, ?_, rfl, fun _ => rfl⟩
    rwa [flatten_nil, append_nil]
  | cons b bs ih =>
    unfold Snap.writes
    rcases h.write b with ⟨herror, hmax⟩ | ⟨r, hr, hreceiving, hmeta, herr, hn⟩
    · left
      rw [herror]
      exact ⟨rfl, hmax⟩
    · rw [hr, Go.ok_bind]
      rcases ih hreceiving with ⟨herror, hmax⟩ | ⟨files', s', results, hrest, hreceiving', hmeta',
        hresults⟩
      · left
        rw [herror]
        exact ⟨rfl, hmax⟩
      · right
        refine ⟨files', s', (r.n, r.err) :: results, ?_, ?_, hmeta'.trans hmeta, fun hle => ?_⟩
        · rw [hrest]
          rfl
        · rwa [flatten_cons, ← append_assoc]
        · rw [flatten_cons, length_append] at hle
          rw [hresults (by rw [length_append]; omega), map_cons, herr, hn]
          congr 2
          omega

theorem receiving_of_opened (hindex : s.cfIndex = 0)
    (hopen : ∀ cfFile ∈ s.cfFiles, cfFile.size ≠ 0 → cfFile.wrote [] = cfFile) :
    Receiving files.lookup s.cfFiles [] files s := by
  refine ⟨?_, fun name => by rw [wroteContents_nil], by simp [hindex], by simp [hindex]⟩
  generalize s.cfFiles = fs at hopen ⊢
  induction fs with
  | nil => rfl
  | cons cfFile fs ih =>
    obtain ⟨hfile, hopen⟩ := forall_mem_cons.mp hopen
    rw [wroteFiles, take_nil, drop_nil, ← ih hopen]
    split_ifs with hsize
    · rfl
    · rw [hfile hsize]

theorem lookup_openTmpFiles (files : Directory FileName) (fs : List CFFile) (name : FileName) :
    (openTmpFiles files fs).lookup name =
      if ∃ cfFile ∈ fs, cfFile.size ≠ 0 ∧ name = cfFile.tmpPath then
        some ((files.lookup name).getD [])
      else files.lookup name := by
  unfold openTmpFiles
  induction fs generalizing files with
  | nil => simp
  | cons cfFile fs ih =>
    rw [foldl_cons, ih]
    by_cases hfile : cfFile.size ≠ 0 ∧ name = cfFile.tmpPath
    · obtain ⟨hsize, rfl⟩ := hfile
      rw [if_neg hsize, Directory.lookup_openFile, if_pos rfl]
      simp [hsize]
    · have hlookup : (if cfFile.size = 0 then files
          else files.openFile cfFile.tmpPath).lookup name = files.lookup name := by
        split_ifs with hsize
        · rfl
        · rw [Directory.lookup_openFile, if_neg fun h => hfile ⟨hsize, h⟩]
      rw [hlookup]
      simp only [mem_cons, exists_eq_or_imp, hfile, false_or]

section

variable {F : Formats} {d d' : SnapDir} {err : Option SnapErr}

theorem saveCFFile_eq_ok (h : saveCFFile F d cfFile = .ok (d', err)) :
    (d' = d ∧ (err = none → cfFile.size = 0)) ∨
    cfFile.size ≠ 0 ∧ cfFile.writtenSize = cfFile.size ∧ err = none ∧
      ∃ files, d.files.rename cfFile.tmpPath cfFile.path = some files ∧
        d' = ⟨files, int64 (d.sizeTrack + toInt cfFile.size.toNat)⟩ := by
  unfold saveCFFile at h
  split_ifs at h with hsize hwritten
  · cases h
    exact Or.inl ⟨rfl, fun _ => hsize⟩
  · cases h
    exact Or.inl ⟨rfl, by simp⟩
  · obtain ⟨digest, -, h⟩ := Go.bind_eq_ok.mp h
    split_ifs at h with hchecksum
    · cases h
      exact Or.inl ⟨rfl, by simp⟩
    · cases hrename : d.files.rename cfFile.tmpPath cfFile.path with
      | none =>
        rw [hrename] at h
        cases h
        exact Or.inl ⟨rfl, by simp⟩
      | some files =>
        rw [hrename] at h
        cases h
        exact Or.inr ⟨hsize, not_not.mp hwritten, rfl, files, rfl, rfl⟩

theorem full_of_saveFiles (h : saveFiles F d cfFiles = .ok (d', none)) :
    ∀ cfFile ∈ cfFiles, CFFile.size cfFile ≠ 0 → cfFile.writtenSize = cfFile.size := by
  induction cfFiles generalizing d with
  | nil => simp
  | cons cfFile cfFiles ih =>
    obtain ⟨⟨d₁, _ | err⟩, hfile, h⟩ := Go.bind_eq_ok.mp h
    · intro f hf hsize
      rcases mem_cons.mp hf with rfl | hf
      · rcases saveCFFile_eq_ok hfile with ⟨-, hzero⟩ | ⟨-, hfull, -⟩
        · exact absurd (hzero rfl) hsize
        · exact hfull
      · exact ih h f hf hsize
    · cases h

theorem lookup_saveFiles_of_not {name : FileName} (h : saveFiles F d cfFiles = .ok (d', err))
    (hname : ∀ cfFile ∈ cfFiles, CFFile.size cfFile ≠ 0 → name ≠ cfFile.path ∧ name ≠
      cfFile.tmpPath) : d'.files.lookup name = d.files.lookup name := by
  induction cfFiles generalizing d with
  | nil =>
    cases h
    rfl
  | cons cfFile cfFiles ih =>
    obtain ⟨hfirst, hname⟩ := forall_mem_cons.mp hname
    obtain ⟨⟨d₁, err₁⟩, hfile, h⟩ := Go.bind_eq_ok.mp h
    have hlookup : d₁.files.lookup name = d.files.lookup name := by
      rcases saveCFFile_eq_ok hfile with ⟨rfl, -⟩ | ⟨hsize, -, -, files, hrename, rfl⟩
      · rfl
      · obtain ⟨hpath, htmp⟩ := hfirst hsize
        rw [Directory.lookup_rename hrename, if_neg hpath, if_neg htmp]
    cases err₁ with
    | none => exact (ih h hname).trans hlookup
    | some err =>
      cases h
      exact hlookup

def Apart (f g : FileName × FileName) : Prop := f.1 ≠ g.1 ∧ f.1 ≠ g.2 ∧ g.2 ≠ f.2

theorem lookup_saveFiles (h : saveFiles F d cfFiles = .ok (d', none))
    (hapart : (cfFiles.map fun cfFile => (cfFile.path, cfFile.tmpPath)).Pairwise Apart) :
    ∀ cfFile ∈ cfFiles, CFFile.size cfFile ≠ 0 →
      d'.files.lookup cfFile.path = d.files.lookup cfFile.tmpPath := by
  induction cfFiles generalizing d with
  | nil => simp
  | cons cfFile cfFiles ih =>
    rw [map_cons, pairwise_cons] at hapart
    obtain ⟨⟨d₁, _ | err⟩, hfile, h⟩ := Go.bind_eq_ok.mp h
    · have hother : ∀ g ∈ cfFiles, cfFile.path ≠ g.path ∧ cfFile.path ≠ g.tmpPath ∧
          g.tmpPath ≠ cfFile.tmpPath := fun g hg =>
        hapart.1 (g.path, g.tmpPath) (mem_map.mpr ⟨g, hg, rfl⟩)
      intro g hg hsize
      rcases mem_cons.mp hg with rfl | hg
      · rcases saveCFFile_eq_ok hfile with ⟨-, hzero⟩ | ⟨-, -, -, files, hrename, rfl⟩
        · exact absurd (hzero rfl) hsize
        · rw [lookup_saveFiles_of_not h fun f hf _ => ⟨(hother f hf).1, (hother f hf).2.1⟩,
            Directory.lookup_rename hrename, if_pos rfl]
      · rw [ih h hapart.2 g hg hsize]
        rcases saveCFFile_eq_ok hfile with ⟨rfl, -⟩ | ⟨-, -, -, files, hrename, rfl⟩
        · rfl
        · rw [Directory.lookup_rename hrename, if_neg (hother g hg).2.1.symm,
            if_neg (hother g hg).2.2]
    · cases h

/-- The files with the metadata do not have the name of a file of a column family. -/
structure MetaNamed (m : MetaFile) : Prop where
  path : m.path.cf = none
  tmpPath : m.tmpPath.cf = none
  file : ∀ h, m.file = some h → h.name.cf = none

theorem lookup_saveMetaFile_cf {name : FileName} {files files' : Directory FileName} {s : Snap}
    (hmeta : MetaNamed s.metaFile) (hsave : s.saveMetaFile F files = .ok (files', err))
    (hname : name.cf ≠ none) : files'.lookup name = files.lookup name := by
  have hne : ∀ name' : FileName, name'.cf = none → name ≠ name' := by
    rintro name' hcf rfl
    exact hname hcf
  unfold saveMetaFile at hsave
  obtain ⟨snapshotMeta, -, hsave⟩ := Go.bind_eq_ok.mp hsave
  split at hsave
  · cases hsave
    rfl
  · rename_i h hopen
    have hwrite := Directory.lookup_write files h (F.marshal snapshotMeta) name
    rw [if_neg (hne _ (hmeta.file h hopen))] at hwrite
    dsimp only at hsave
    split at hsave
    · cases hsave
      exact hwrite
    · rename_i hrename
      cases hsave
      rw [Directory.lookup_rename hrename, if_neg (hne _ hmeta.path), if_neg (hne _ hmeta.tmpPath),
        hwrite]

theorem saveCFFile_returns (F : Formats) (d : SnapDir)
    (h : cfFile.size ≠ 0 → ∃ digest, cfFile.writeDigest = some digest) :
    ∃ d' err, saveCFFile F d cfFile = .ok (d', err) := by
  unfold saveCFFile
  split_ifs with hsize hwritten
  · exact ⟨d, none, rfl⟩
  · exact ⟨d, _, rfl⟩
  · obtain ⟨digest, hdigest⟩ := h hsize
    rw [hdigest, Go.deref_some, Go.ok_bind]
    split_ifs with hchecksum
    · exact ⟨d, _, rfl⟩
    · cases d.files.rename cfFile.tmpPath cfFile.path with
      | none => exact ⟨d, _, rfl⟩
      | some files => exact ⟨_, none, rfl⟩

theorem saveFiles_returns (F : Formats) (d : SnapDir) (fs : List CFFile) (p : Bytes) :
    ∃ d' err, saveFiles F d (wroteFiles fs p) = .ok (d', err) := by
  induction fs generalizing d p with
  | nil => exact ⟨d, none, rfl⟩
  | cons cfFile fs ih =>
    rw [wroteFiles, saveFiles]
    generalize hwrote : (if cfFile.size = 0 then cfFile
      else cfFile.wrote (p.take cfFile.size.toNat)) = wrote
    have hdigest : wrote.size ≠ 0 → ∃ digest, wrote.writeDigest = some digest := by
      rw [← hwrote]
      split_ifs with hsize
      · exact fun h => absurd hsize h
      · exact fun _ => ⟨_, rfl⟩
    obtain ⟨d₁, err, hfile⟩ := saveCFFile_returns F d hdigest
    rw [hfile, Go.ok_bind]
    cases err with
    | none => exact ih d₁ _
    | some err => exact ⟨d₁, some err, rfl⟩

theorem sizes_le_of_full (h : ∀ cfFile ∈ wroteFiles fs p, CFFile.size cfFile ≠ 0 →
      cfFile.writtenSize = cfFile.size) : sizes fs ≤ p.length := by
  induction fs generalizing p with
  | nil => simp [sizes]
  | cons cfFile fs ih =>
    have hsum := sizes_cons cfFile fs
    rw [wroteFiles] at h
    have hrest := ih fun f hf => h f (mem_cons_of_mem _ hf)
    rw [length_drop] at hrest
    have hfirst := h _ mem_cons_self
    by_cases hsize : cfFile.size = 0
    · have hzero : cfFile.size.toNat = 0 := by rw [hsize]; rfl
      omega
    · rw [if_neg hsize] at hfirst
      have hlength : ((UInt64.ofNat (p.take cfFile.size.toNat).length)).toNat =
          cfFile.size.toNat := congrArg UInt64.toNat (hfirst hsize)
      rw [UInt64.toNat_ofNat_of_lt' ((length_take_le _ _).trans_lt cfFile.size.toNat_lt),
        length_take] at hlength
      omega

theorem Receiving.save_of_lt (h : Receiving old fs p files s) (F : Formats) (d : SnapDir)
    (hlt : p.length < sizes fs) : ∃ d' err, s.save F d = .ok (d', some err) := by
  unfold save
  rw [h.cfFiles]
  obtain ⟨d', err, hfiles⟩ := saveFiles_returns F d fs p
  rw [hfiles, Go.ok_bind]
  cases err with
  | none => exact absurd hlt (Nat.not_lt.mpr (sizes_le_of_full (full_of_saveFiles hfiles)))
  | some err => exact ⟨d', err, rfl⟩

end

end Snap

end TinyKV
