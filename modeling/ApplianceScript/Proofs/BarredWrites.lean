import ApplianceScript.Proofs.MadeDirectories
import Mathlib

namespace ApplianceScript

namespace Disk

/-- The directory of the path cannot be made: it or one above it is a file, or the attempt fails for
some other reason. -/
inductive Barred (disk : Disk) (path : Path) : Prop
  | file {ancestor : Path} (above : ancestor ∈ path.parents) (found : disk.isFile ancestor = true)
  | refused {failure : Failure}
      (attempt : (disk.ensureDirectory (stagingDirectory path)).1 = .error failure)

variable {disk ready : Disk} {path : Path} {index : Nat} {front back : List (Path × ByteArray)}

theorem not_isDirectory_of_isFile {after : Disk} (hg : Grows disk after)
    (hf : disk.isFile path = true) : after.isDirectory path = false := by
  obtain ⟨l, content, hlocate, hfile⟩ := isFile_iff.mp hf
  rw [← Bool.not_eq_true, isDirectory_iff]
  rintro ⟨found, hfound, hdirectory⟩
  obtain rfl := locate_unique hg.current hlocate hfound
  rw [hasDirectory_iff] at hdirectory
  rcases hg.added l with hsame | ⟨hnone, _⟩
  · cases hdirectory.symm.trans (hsame.trans hfile)
  · cases hnone.symm.trans hfile

theorem Barred.exists_failure (hp : path.Spelled) (h : disk.Barred path) :
    ∃ failure, (disk.ensureDirectory (stagingDirectory path)).1 = .error failure := by
  cases h with
  | refused attempt => exact ⟨_, attempt⟩
  | @file ancestor above found =>
    have hgrows : Grows disk (disk.ensureDirectory (stagingDirectory path)).2 :=
      grows_ensureDirectory (spelled_stagingDirectory hp)
    obtain ⟨_, _, hlocate, _⟩ := isFile_iff.mp found
    cases hensure : disk.ensureDirectory (stagingDirectory path) with
    | mk result after =>
      cases result with
      | error failure => exact ⟨failure, rfl⟩
      | ok _ =>
        rw [hensure] at hgrows
        have hmade := isDirectory_of_ensureDirectory (isEmpty_stagingDirectory path) hensure
        have habove := isDirectory_of_stagingDirectory hmade above (locate_eq_ok_iff.mp hlocate).1
        cases habove.symm.trans (not_isDirectory_of_isFile hgrows found)

theorem stage_error_of_ensureDirectory {failure : Failure} (content : ByteArray)
    (h : (disk.ensureDirectory (stagingDirectory path)).1 = .error failure) :
    (disk.stage index path content).1 = .error failure := by
  unfold stage
  simp only
  generalize disk.ensureDirectory (stagingDirectory path) = result at h
  obtain ⟨_ | _, after⟩ := result
  · obtain rfl := Except.error.inj h
    rfl
  · cases h

theorem stageAll_error_of_stage {content : ByteArray} {failure : Failure}
    (h : (disk.stage index path content).1 = .error failure) (rest : List (Path × ByteArray)) :
    (disk.stageAll index ((path, content) :: rest)).1 = .error failure := by
  rw [stageAll]
  generalize disk.stage index path content = result at h
  obtain ⟨_ | _, after⟩ := result
  · obtain rfl := Except.error.inj h
    rfl
  · cases h

theorem stageAll_append_error {staged : List Staged} {failure : Failure}
    (h : disk.stageAll index front = (.ok staged, ready))
    (hb : (ready.stageAll (index + front.length) back).1 = .error failure) :
    (disk.stageAll index (front ++ back)).1 = .error failure := by
  induction front generalizing disk index staged with
  | nil =>
    obtain ⟨_, rfl⟩ := Prod.mk.inj h
    exact hb
  | cons file rest ih =>
    obtain ⟨path, content⟩ := file
    rw [stageAll] at h
    rw [List.cons_append, stageAll]
    generalize disk.stage index path content = result at h ⊢
    obtain ⟨_ | s, after⟩ := result
    · cases congrArg Prod.fst h
    · simp only at h ⊢
      cases hrest : after.stageAll (index + 1) rest with
      | mk result later =>
        cases result with
        | error _ =>
          rw [hrest] at h
          cases congrArg Prod.fst h
        | ok more =>
          rw [hrest] at h
          obtain ⟨_, rfl⟩ := Prod.mk.inj h
          have hall := ih hrest (by rwa [Nat.add_assoc, Nat.add_comm 1])
          generalize after.stageAll (index + 1) (rest ++ back) = result at hall
          obtain ⟨_ | _, last⟩ := result
          · exact hall
          · cases hall

theorem writeAll_of_barred {content : ByteArray} {staged : List Staged}
    (spelled : ∀ file ∈ front ++ (path, content) :: back, file.1.Spelled)
    (named : disk.NamesSpelled) (turn : disk.stageAll 0 front = (.ok staged, ready))
    (barred : ready.Barred path) :
    ∃ failure after, disk.writeAll (front ++ (path, content) :: back) = (.error failure, after) ∧
      ∀ location, after.lookup location = disk.lookup location ∨
        MadeAt (front ++ (path, content) :: back) disk after location := by
  obtain ⟨failure, hensure⟩ := barred.exists_failure (spelled (path, content) (by simp))
  have hstage : (ready.stage (0 + front.length) path content).1 = .error failure :=
    stage_error_of_ensureDirectory content hensure
  have hfailed := stageAll_append_error turn (stageAll_error_of_stage hstage back)
  have hmade := makesOnly_stageAll spelled (named.freshFrom 0)
  rcases stageAll_spec spelled (named.freshFrom 0) with
    ⟨failure', after, hstage, hgrows⟩ | ⟨_, _, hstage, _⟩
  · refine ⟨failure', after, by rw [writeAll, hstage], fun location => ?_⟩
    rw [hstage] at hmade
    exact (hgrows.added location).eq_or_madeAt hmade
  · rw [hstage] at hfailed
    cases hfailed

end Disk

namespace Sample

def scriptOrBlocker : Disk :=
  { current := ["m"]
    entries := [(["m"], .directory), (["m", "install.conf"], .file "old".toUTF8),
      (["m", "blocker"], .file "".toUTF8)] }

def placeableFiles : List (Path × ByteArray) :=
  [(.ofText "out/scripts/install.conf", "new".toUTF8)]

def blockedFiles : List (Path × ByteArray) :=
  placeableFiles ++ (.ofText "blocker/scripts/uninstall.conf", "rm".toUTF8) :: []

def firstStaged : Disk :=
  { current := ["m"]
    entries := [(["m"], .directory), (["m", "install.conf"], .file "old".toUTF8),
      (["m", "blocker"], .file "".toUTF8), (["m", "out"], .directory),
      (["m", "out", "scripts"], .directory),
      (["m", "out", "scripts", Disk.temporaryName 0], .file "new".toUTF8)] }

theorem namesSpelled_scriptOrBlocker : scriptOrBlocker.NamesSpelled := by
  unfold Disk.NamesSpelled scriptOrBlocker
  decide

theorem stageAll_placeable : scriptOrBlocker.stageAll 0 placeableFiles =
    (.ok [⟨["m", "out", "scripts", Disk.temporaryName 0], .ofText "out/scripts/install.conf"⟩],
      firstStaged) := by
  cbv

end Sample

namespace Disk

theorem sample_blocker_keeps_files :
    (∀ file ∈ Sample.blockedFiles, file.1.Spelled) ∧ Sample.scriptOrBlocker.NamesSpelled ∧
      (∃ staged, Sample.scriptOrBlocker.stageAll 0 Sample.placeableFiles =
        (.ok staged, Sample.firstStaged)) ∧
      Sample.firstStaged.Barred (.ofText "blocker/scripts/uninstall.conf") ∧
      ∃ failure after, Sample.scriptOrBlocker.writeAll Sample.blockedFiles =
          (.error failure, after) ∧
        ∀ location, after.lookup location = Sample.scriptOrBlocker.lookup location ∨
          MadeAt Sample.blockedFiles Sample.scriptOrBlocker after location := by
  have hspelled : ∀ file ∈ Sample.blockedFiles, file.1.Spelled := by
    simp [Sample.blockedFiles, Sample.placeableFiles, Path.spelled_ofText]
  have hbarred : Sample.firstStaged.Barred (.ofText "blocker/scripts/uninstall.conf") := by
    have hparents : (Path.ofText "blocker/scripts/uninstall.conf").parents =
        [.ofText "blocker/scripts", .ofText "blocker", .ofText ""] := by cbv
    have habove : Path.ofText "blocker" ∈
        (Path.ofText "blocker/scripts/uninstall.conf").parents := by simp [hparents]
    exact .file habove rfl
  exact ⟨hspelled, Sample.namesSpelled_scriptOrBlocker, ⟨_, Sample.stageAll_placeable⟩, hbarred,
    writeAll_of_barred hspelled Sample.namesSpelled_scriptOrBlocker Sample.stageAll_placeable
      hbarred⟩

end Disk

end ApplianceScript
