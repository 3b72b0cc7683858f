import TinyKV.Raftstore.SnapTrack

/-!
# The size of the snapshots

`Init` adds up the sizes of the files of the column families, and the operations of `SnapManager`
keep the tracked size up to date.
-/

namespace TinyKV

open List

namespace SnapManager

open Snap

variable {F : Formats} {modTime : SnapKey → ℕ} {sm sm' : SnapManager} {key : SnapKey}

variable {registry : AList fun _ : SnapKey => List SnapEntry}

theorem tracked_deleteSnapshot {d : SnapDir} {s : Snap} {isSending checkEntry : Bool}
    (hnamed : Named isSending key s) (hsized : ∀ cfFile ∈ s.cfFiles, Sized d.files cfFile)
    (h : d.Tracked) : (deleteSnapshot registry d key s checkEntry).1.Tracked := by
  have hdelete := tracked_delete hnamed hsized h
  unfold deleteSnapshot
  split
  · exact hdelete
  · split_ifs
    · exact h
    · exact hdelete
    · exact h

theorem lookup_of_deleteSnapshot {d : SnapDir}
    {s : Snap} {checkEntry : Bool} {name : FileName} {content : Bytes}
    (h : (deleteSnapshot registry d key s checkEntry).1.files.lookup name = some content) :
    d.files.lookup name = some content := by
  unfold deleteSnapshot at h
  split at h
  · exact lookup_of_delete h
  · split_ifs at h
    · exact h
    · exact lookup_of_delete h
    · exact h

theorem tracked_deleteOldIdleSnaps (h : sm.dir.Tracked) :
    (sm.deleteOldIdleSnaps F modTime).1.dir.Tracked := by
  unfold deleteOldIdleSnaps
  cases hsnaps : sm.loadIdleSnaps F modTime sm.listIdleSnap with
  | error err => exact h
  | ok snaps =>
    -- The sizes were read before the first deletion, and stay right for the files that are left.
    refine (deleteOldest_invariant (I := fun sm' => sm'.dir.Tracked ∧ ∀ name content,
      sm'.dir.files.lookup name = some content → sm.dir.files.lookup name = some content) ?_
      ⟨h, fun _ _ hcontent => hcontent⟩).1
    rintro sm' snap hmem ⟨htracked, hfiles⟩
    obtain ⟨-, hmeta, hnew⟩ := mem_idleSnaps hsnaps snap ((mem_insertionSort _).mp hmem)
    have hsized := sized_of_newSnapForSending hnew hmeta
    refine ⟨tracked_deleteSnapshot (named_of_newSnapForSending hnew)
      (fun cfFile hcfFile => (hsized cfFile hcfFile).mono hfiles) htracked, ?_⟩
    exact fun name content hcontent => hfiles name content (lookup_of_deleteSnapshot hcontent)

/-- The snapshot that is built here has metadata, or no file of a column family is there. -/
def BuildClear (files : Directory FileName) (key : SnapKey) : Prop :=
  files.fileExists (metaPath true key) = true ∨
    ∀ cf ∈ cfs, files.fileExists (cfPath true key cf) = false

theorem tracked_doSnapshot {errs : BuildErrs} {dbSnap : Badger} {region : Region}
    {r : Except SnapErr Built} (hclear : BuildClear sm.dir.files key) (htracked : sm.dir.Tracked)
    (h : sm.doSnapshot F errs modTime key dbSnap region = .ok (sm', r)) : sm'.dir.Tracked := by
  obtain ⟨first, entries, hregistry⟩ := lookup_register sm key .generating
  unfold doSnapshot at h
  obtain ⟨sm₁, hroom, hget⟩ :=
    getSnapshotForBuilding_eq F modTime (sm.register key .generating) key
  obtain ⟨hregistry₁, hfiles⟩ := registered_of_room hregistry hroom
  rw [dir_register] at hfiles
  have htracked₁ : sm₁.dir.Tracked := by
    rcases hroom with rfl | rfl
    · rwa [dir_register]
    · exact tracked_deleteOldIdleSnaps (by rwa [dir_register])
  rcases hget with ⟨err, hget⟩ | hget
  · rw [hget] at h
    cases h
    rwa [dir_deregister]
  · rw [← hregistry₁] at hregistry
    -- The snapshot is registered by now, so that nothing of it is deleted.
    have hrefused : ∀ s, deleteSnapshot sm₁.registry sm₁.dir key s true = (sm₁.dir, false) :=
      fun s => deleteSnapshot_of_registered hregistry
    rcases newSnapForBuilding_cases (F := F) hrefused with
      ⟨err, hnew⟩ | ⟨s, hnew, hexists⟩ | ⟨hmeta, hnew⟩
    · rw [hget, hnew] at h
      cases h
      rwa [dir_deregister]
    · rw [hget, hnew] at h
      obtain ⟨⟨dir, built⟩, hbuild, hend⟩ := Go.bind_eq_ok.mp h
      cases hend
      rw [Snap.build, if_pos hexists] at hbuild
      cases hbuild
      rwa [dir_deregister]
    · rw [hget, hnew] at h
      obtain ⟨⟨dir, built⟩, hbuild, hend⟩ := Go.bind_eq_ok.mp h
      cases hend
      obtain ⟨hbuilding, hopened, hnot⟩ := building_initForBuilding hmeta
      rw [Snap.build, if_neg (by simp [hnot])] at hbuild
      rw [dir_deregister]
      refine hbuilding.buildNew (fun cf => ?_) ?_ hbuild
      · rw [Directory.fileExists, hfiles _ rfl] at hmeta
        rcases hclear with hexists | habsent
        · rw [Directory.fileExists, hmeta] at hexists
          cases hexists
        · rw [hopened _ rfl, hfiles _ rfl]
          exact Directory.fileExists_eq_false.mp (habsent cf (mem_cfs cf))
      · exact htracked₁.tmpOnly hopened

theorem tracked_deleteSent {s : Snap} (hclear : BuildClear sm.dir.files key)
    (htracked : sm.dir.Tracked) (h : sm.getSnapshotForSending F key = .ok s) :
    (deleteSnapshot sm.registry sm.dir key s false).1.Tracked := by
  have hnamed := named_of_newSnapForSending h
  refine tracked_deleteSnapshot hnamed ?_ htracked
  rcases hclear with hmeta | habsent
  · exact sized_of_newSnapForSending h hmeta
  · exact sized_of_absent (fun cf => Directory.fileExists_eq_false.mp (habsent cf (mem_cfs cf)))
      hnamed

theorem tracked_deleteApplied {s : Snap} (htracked : sm.dir.Tracked)
    (h : sm.getSnapshotForApplying F key = .ok s) :
    (deleteSnapshot sm.registry sm.dir key s false).1.Tracked := by
  unfold getSnapshotForApplying newSnapForApplying at h
  cases hnew : (newSnap F none sm.dir key false).2 with
  | error err =>
    rw [hnew] at h
    cases h
  | ok s₀ =>
    rw [hnew] at h
    simp only [bind, Except.bind] at h
    split_ifs at h with hexists
    cases h
    rcases newSnap_eq_ok hnew with ⟨hmeta, rfl⟩ | ⟨m, z, rfl, hagree, -⟩
    · rw [existsOn_eq_false hmeta] at hexists
      cases hexists
    · refine tracked_deleteSnapshot (named_ofSizes false key (some m) z) (fun cfFile hmem => ?_)
        htracked
      obtain ⟨cf, -, rfl⟩ := mem_map.mp hmem
      exact hagree.sized rfl rfl rfl

theorem foldl_initFile (fis : List (Sigma fun _ : FileName => Bytes)) {d : SnapDir} {t : ℤ}
    (h : d.sizeTrack = int64 t) :
    (fis.foldl (fun d fi => initFile d fi.1 fi.2) d).sizeTrack =
        int64 (t + (fis.map fun fi => if fi.1.isCFFile then (fi.2.length : ℤ) else 0).sum) ∧
      (fis.foldl (fun d fi => initFile d fi.1 fi.2) d).files.totalSize FileName.isCFFile =
        d.files.totalSize FileName.isCFFile := by
  induction fis generalizing d t with
  | nil => simp [h]
  | cons fi fis ih =>
    obtain ⟨name, content⟩ := fi
    rw [foldl_cons, map_cons, sum_cons, ← add_assoc]
    have hsize : (initFile d name content).sizeTrack =
        int64 (t + if name.isCFFile then (content.length : ℤ) else 0) := by
      unfold initFile FileName.isCFFile
      cases name.tmp with
      | true => simp [h]
      | false =>
        cases name.cf with
        | none => simp [h]
        | some cf => simp [h, int64_add_int64]
    obtain ⟨htrack, htotal⟩ := ih hsize
    refine ⟨htrack, htotal.trans ?_⟩
    unfold initFile
    split_ifs with htmp
    · exact Directory.totalSize_erase_of_not (by simp [FileName.isCFFile, htmp])
    · rfl
    · rfl

theorem tracked_init (files : Directory FileName) (maxTotalSize : UInt64) :
    (newSnapManager files maxTotalSize).init.dir.Tracked := by
  obtain ⟨htrack, htotal⟩ := foldl_initFile files.entries
    (show (newSnapManager files maxTotalSize).dir.sizeTrack = int64 0 from rfl)
  rw [SnapDir.Tracked]
  exact htrack.trans (congrArg int64 ((zero_add _).trans htotal.symm))

inductive Operation
  | register (key : SnapKey) (entry : SnapEntry)
  | deregister (key : SnapKey) (entry : SnapEntry)
  | doSnapshot (errs : BuildErrs) (modTime : SnapKey → ℕ) (key : SnapKey) (dbSnap : Badger)
    (region : Region)
  | receive (key : SnapKey) (a : Attempt)
  | delete (key : SnapKey) (isSending : Bool)

def snapshots (F : Formats) : Machine SnapManager Operation where
  step sm
    | .register key entry => some (sm.register key entry)
    | .deregister key entry => some (sm.deregister key entry)
    | .doSnapshot errs modTime key dbSnap region =>
      (sm.doSnapshot F errs modTime key dbSnap region).toOption.map Prod.fst
    | .receive key a =>
      (Snap.receive F sm.dir key a).toOption.map fun r => { sm with dir := r.1 }
    | .delete key isSending =>
      match if isSending then sm.getSnapshotForSending F key
        else sm.getSnapshotForApplying F key with
      | .error _ => some sm
      | .ok s => some { sm with dir := (deleteSnapshot sm.registry sm.dir key s false).1 }

def Operation.Clear (sm : SnapManager) : Operation → Prop
  | .register _ _ => True
  | .deregister _ _ => True
  | .doSnapshot _ _ key _ _ => BuildClear sm.dir.files key
  | .receive key a => a.Clear sm.dir.files key
  | .delete key isSending => isSending = true → BuildClear sm.dir.files key

theorem tracked_step {e : Operation} (hclear : e.Clear sm) (htracked : sm.dir.Tracked)
    (h : (snapshots F).step sm e = some sm') : sm'.dir.Tracked := by
  cases e with
  | register key entry =>
    cases h
    rwa [dir_register]
  | deregister key entry =>
    cases h
    rwa [dir_deregister]
  | doSnapshot errs modTime key dbSnap region =>
    obtain ⟨⟨sm₁, r⟩, hdo, rfl⟩ := Option.map_eq_some_iff.mp h
    exact tracked_doSnapshot hclear htracked (Go.eq_ok_of_toOption hdo)
  | receive key a =>
    obtain ⟨⟨d', result⟩, hreceive, rfl⟩ := Option.map_eq_some_iff.mp h
    exact tracked_receive hclear htracked (Go.eq_ok_of_toOption hreceive)
  | delete key isSending =>
    dsimp only [snapshots] at h
    split at h
    · cases h
      exact htracked
    · rename_i s hget
      cases h
      cases isSending with
      | true => exact tracked_deleteSent (hclear rfl) htracked hget
      | false => exact tracked_deleteApplied htracked hget

/-- From `Init` on, the tracked size is that of the files of the column families after every
operation of a run in which each operation is clear. -/
theorem size_tracked (F : Formats) (files : Directory FileName) (maxTotalSize : UInt64)
    (operations : List Operation)
    (hclear : (snapshots F).Along (fun sm e _ => e.Clear sm)
      (newSnapManager files maxTotalSize).init operations) :
    (snapshots F).Throughout (fun sm => sm.dir.sizeTrack =
        int64 (sm.dir.files.totalSize FileName.isCFFile))
      (newSnapManager files maxTotalSize).init operations := by
  rintro operations₁ operations₂ sm rfl hrun
  exact hclear.left.run_invariant (I := fun sm => sm.dir.Tracked)
    (fun sm e sm' htracked hstep hP => tracked_step hP htracked hstep)
    (tracked_init files maxTotalSize) hrun

instance decidableBuildClear (files : Directory FileName) (key : SnapKey) :
    Decidable (BuildClear files key) := by
  unfold BuildClear
  infer_instance

instance decidableAttemptClear (files : Directory FileName) (key : SnapKey) (a : Attempt) :
    Decidable (a.Clear files key) := by
  unfold Attempt.Clear
  infer_instance

instance decidableClear (sm : SnapManager) : (e : Operation) → Decidable (e.Clear sm)
  | .register _ _ => isTrue trivial
  | .deregister _ _ => isTrue trivial
  | .doSnapshot _ _ key _ _ => decidableBuildClear sm.dir.files key
  | .receive key a => decidableAttemptClear sm.dir.files key a
  | .delete key isSending =>
    inferInstanceAs (Decidable (isSending = true → BuildClear sm.dir.files key))

theorem size_tracked_three :
    let F : Formats := ⟨fun _ => 0, fun m => m.cfFiles.map fun cfMeta => cfMeta.size.toUInt8,
      fun buf => match buf with
        | [x, y, z] => some (CFSizes.toMeta ⟨fun
          | .default => x.toUInt64 | .write => y.toUInt64 | .lock => z.toUInt64, fun _ => 0⟩)
        | _ => none,
      fun pairs => pairs.flatMap fun p => p.2, fun _ => [0]⟩
    let a : Attempt := ⟨CFSizes.toMeta ⟨fun | .default => 2 | _ => 0, fun _ => 0⟩, [[7, 7]], true⟩
    let db := Badger.empty.writeAll [(keyWithCF Cf.default.name [2], some [7, 8, 9])]
    let operations : List Operation := [.receive ⟨1, 6, 9⟩ a,
      .doSnapshot {} (fun _ => 0) ⟨2, 6, 9⟩ db ⟨[1], [4]⟩, .delete ⟨1, 6, 9⟩ false]
    (((snapshots F).run (newSnapManager ∅ 0).init operations).map fun sm => sm.dir.sizeTrack) =
        some 4 ∧
      (snapshots F).Throughout (fun sm => sm.dir.sizeTrack =
        int64 (sm.dir.files.totalSize FileName.isCFFile)) (newSnapManager ∅ 0).init operations := by
  intro F a db operations
  exact ⟨by decide +kernel, size_tracked F ∅ 0 operations (by decide +kernel)⟩

theorem size_saved_twice :
    let F : Formats := ⟨fun b => b.foldl (fun sum c => sum + c.toUInt32) 0,
      fun m => m.cfFiles.map fun cfMeta => cfMeta.size.toUInt8, fun _ => none, fun _ => [],
      fun _ => []⟩
    let key : SnapKey := ⟨1, 6, 9⟩
    let snapshotMeta := CFSizes.toMeta ⟨fun | .default => 2 | .write => 1 | .lock => 0, fun
      | .default => 3 | .write => 5 | .lock => 0⟩
    let first : Operation := .receive key ⟨snapshotMeta, [[1, 2, 4]], true⟩
    let second : Operation := .receive key ⟨snapshotMeta, [[1, 2, 5]], true⟩
    (Snap.receive F ⟨∅, 0⟩ key ⟨snapshotMeta, [[1, 2, 4]], true⟩).map (fun r => r.2) =
        .ok (.failed (.checksumMismatch (cfPath false key .write) Cf.write.name 4 5)) ∧
      (((snapshots F).run (newSnapManager ∅ 0).init [first, second]).map fun sm =>
        (sm.dir.sizeTrack, sm.dir.files.totalSize FileName.isCFFile)) = some (5, 3) ∧
      ¬(snapshots F).Throughout (fun sm => sm.dir.sizeTrack =
        int64 (sm.dir.files.totalSize FileName.isCFFile)) (newSnapManager ∅ 0).init
        [first, second] := by
  intro F key snapshotMeta first second
  have hsizes : (((snapshots F).run (newSnapManager ∅ 0).init [first, second]).map fun sm =>
      (sm.dir.sizeTrack, sm.dir.files.totalSize FileName.isCFFile)) = some (5, 3) := by
    decide +kernel
  refine ⟨by decide +kernel, hsizes, fun h => ?_⟩
  obtain ⟨sm, hrun, hsm⟩ := Option.map_eq_some_iff.mp hsizes
  obtain ⟨htrack, htotal⟩ := Prod.mk.inj hsm
  have hequal := h [first, second] [] sm rfl hrun
  dsimp only at hequal
  rw [htrack, htotal] at hequal
  exact absurd hequal (by decide)

end SnapManager

end TinyKV
