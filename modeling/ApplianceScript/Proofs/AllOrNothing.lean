import ApplianceScript.Proofs.ParsedPaths
import ApplianceScript.Proofs.Replacement
import ApplianceScript.Proofs.RunOutcome
import Mathlib

namespace ApplianceScript

def ScriptFiles.entry (files : ScriptFiles) (scripts : Scripts) (direction : Direction) :
    Path × ByteArray :=
  (files.path direction, content scripts direction)

namespace Invocation

/-- The scripts are ready to be written, but only the install script can be put in place. -/
def HalfWrites (invocation : Invocation) (disk : Disk) (scripts : Scripts) (location : Location) :
    Prop :=
  ∃ files, invocation.prepare disk = .ok (files, scripts) ∧
    disk.HalfWritable (files.entry scripts .install) (files.entry scripts .uninstall) location

variable {invocation : Invocation} {disk : Disk}

theorem spelled_of_prepare (hp : invocation.searchPath.Spelled)
    (ho : ∀ path ∈ invocation.output, path.Spelled) (hd : disk.NamesSpelled) {files : ScriptFiles}
    {scripts : Scripts} (h : invocation.prepare disk = .ok (files, scripts))
    (direction : Direction) : (files.path direction).Spelled := by
  obtain ⟨settings, _, hsettings, _, _, rfl⟩ := invocation.prepare_eq_ok_iff.mp h
  apply Settings.spelled_scriptFiles _ hp
  obtain ⟨_, loaded, hload, hchanged⟩ := (Run.on_settings_eq_ok_iff ..).mp hsettings
  rw [Settings.outputDirectory_withOverrides hchanged]
  cases houtput : invocation.output with
  | none => exact Settings.spelled_of_load hload
  | some output => exact hd.currentDirectory.join (ho output houtput)

theorem HalfWrites.unique {scripts others : Scripts} {location other : Location}
    (h : invocation.HalfWrites disk scripts location)
    (ho : invocation.HalfWrites disk others other) : scripts = others ∧ location = other := by
  obtain ⟨_, hprepare, hhalf⟩ := h
  obtain ⟨_, hprepareo, hhalfo⟩ := ho
  rw [hprepare] at hprepareo
  cases hprepareo
  exact ⟨rfl, hhalf.unique hhalfo⟩

theorem error_cases {arguments : List String} (hi : CommandLine.parse arguments = .ok invocation)
    (hd : disk.NamesSpelled) {color : Bool} {failure : Failure}
    (hf : (invocation.run color disk).1 = .error failure) :
    (∃ scripts location, invocation.HalfWrites disk scripts location ∧
        (invocation.run color disk).2.disk.lookup location =
          some (.file (ScriptFiles.content scripts .install)) ∧
        ∀ other ≠ location, disk.KeptAt (invocation.run color disk).2.disk other) ∨
      ((∀ scripts location, ¬ invocation.HalfWrites disk scripts location) ∧
        disk.OnlyDirectoriesAdded (invocation.run color disk).2.disk) := by
  obtain ⟨hp, ho⟩ := CommandLine.spelled_of_parse hi
  have hrun := invocation.run_eq color disk
  rw [hf] at hrun
  cases hprepare : invocation.prepare disk with
  | error failure =>
    simp only [hprepare] at hrun
    have hdisk : (invocation.run color disk).2.disk = disk := congrArg Prod.snd hrun
    rw [hdisk]
    refine .inr ⟨?_, .refl disk⟩
    rintro scripts location ⟨files, hok, _⟩
    cases hprepare.symm.trans hok
  | ok prepared =>
    obtain ⟨files, scripts⟩ := prepared
    have hspelled := spelled_of_prepare hp ho hd hprepare
    simp only [hprepare] at hrun
    split_ifs at hrun
    · cases congrArg Prod.fst hrun
    · rcases Disk.writeAll_pair_error (hspelled .install) (hspelled .uninstall) (hd.freshFrom 0)
        hrun.symm with ⟨location, hhalf, hwritten, hkept⟩ | ⟨hnot, hadded⟩
      · exact .inl ⟨scripts, location, ⟨files, hprepare, hhalf⟩, hwritten, hkept⟩
      · refine .inr ⟨?_, hadded⟩
        rintro others location ⟨files', hok, hhalf⟩
        rw [hprepare] at hok
        cases hok
        exact hnot location hhalf

theorem only_directories_added_iff {arguments : List String} {invocation : Invocation} {disk : Disk}
    {color : Bool} {failure : Failure} (parsed : CommandLine.parse arguments = .ok invocation)
    (spelled : disk.NamesSpelled) (failed : (invocation.run color disk).1 = .error failure) :
    (disk.OnlyDirectoriesAdded (invocation.run color disk).2.disk ↔
        ∀ scripts location, invocation.HalfWrites disk scripts location →
          disk.lookup location = some (.file (ScriptFiles.content scripts .install))) ∧
      ∀ scripts location, invocation.HalfWrites disk scripts location →
        (invocation.run color disk).2.disk.lookup location =
            some (.file (ScriptFiles.content scripts .install)) ∧
          ∀ other ≠ location, disk.KeptAt (invocation.run color disk).2.disk other := by
  rcases error_cases parsed spelled failed with
    ⟨scripts, location, hhalf, hwritten, hkept⟩ | ⟨hnot, hadded⟩
  · constructor
    · constructor
      · intro hall others other ho
        obtain ⟨rfl, rfl⟩ := hhalf.unique ho
        rcases hall location with hsame | ⟨_, hdirectory⟩
        · exact hsame.symm.trans hwritten
        · cases hwritten.symm.trans hdirectory
      · intro hbefore other
        by_cases ho : other = location
        · subst ho
          exact .inl (hwritten.trans (hbefore scripts other hhalf).symm)
        · exact hkept other ho
    · intro others other ho
      obtain ⟨rfl, rfl⟩ := hhalf.unique ho
      exact ⟨hwritten, hkept⟩
  · constructor
    · exact iff_of_true hadded fun scripts location hhalf => absurd hhalf (hnot scripts location)
    · intro scripts location hhalf
      exact absurd hhalf (hnot scripts location)

end Invocation

namespace Sample

def invocation : Invocation := { searchPath := .ofText "m" }

def files : ScriptFiles := ⟨.ofText "m/output", "install.conf", "uninstall.conf"⟩

def bareText : String := "name: Core\nversion:\n  major: 2\n  minor: 1\n"

def bareCore : ConfigModule := { name := "Core", version := some ⟨2, 1⟩ }

def bareCatalog : Catalog := ⟨[bareCore], by decide⟩

def barePlan : Plan :=
  { catalog := bareCatalog
    installOrder := ["Core"]
    elementOrders := [("Core", ⟨[]⟩)]
    placeholders := ⟨[]⟩
    version := ⟨2, 1⟩ }

def bareScripts : Scripts :=
  ⟨Banner.start "Core" ++ Banner.finish "Core", Banner.start "Core" ++ Banner.finish "Core"⟩

def tree (moduleFile script : ByteArray) : Disk :=
  { current := []
    entries := [
      (["m"], .directory),
      (["m", "core.yaml"], .file moduleFile),
      (["m", "output"], .directory),
      (["m", "output", "install.conf"], .file script),
      (["m", "output", "uninstall.conf"], .directory)] }

def before : Disk := tree bareText.toUTF8 "old\n".toUTF8

def failure : Failure :=
  .ofIo "Failed to rename temp file to: m/output/uninstall.conf" IoErrorKind.isADirectory.error

theorem parse_invocation : CommandLine.parse ["m"] = .ok invocation := by rfl

theorem namesSpelled_before : before.NamesSpelled := by
  unfold Disk.NamesSpelled before tree
  decide

theorem load_bareCore {disk : Disk} {path : Path} (hl : disk.locate (.ofText "m") = .ok ["m"])
    (hd : disk.hasDirectory ["m"] = true)
    (hf : Library.files disk ["m"] (.ofText "m") ["yaml"] = [⟨path, bareText.toUTF8⟩]) :
    Library.load disk (.ofText "m") ["yaml"] = .ok bareCatalog := by
  have hmodule : ConfigModule.ofContentWith ConfigModule.parseYaml? path bareText.toUTF8 =
      .ok bareCore := by
    rw [ConfigModule.ofContentWith, Disk.decodeText_toUTF8]
    cbv
  simp only [Library.load, Library.loadWith, hl, hd, if_true, hf, Library.extend, hmodule]
  rfl

section Tree

variable (moduleFile script install uninstall : ByteArray)

theorem on_settings_tree :
    (Run.Step.on (Run.settings invocation) { disk := tree moduleFile script }).1 = .ok {} := by
  have hload : Settings.load (tree moduleFile script) (.ofText "m") none = .ok {} := by
    unfold Settings.load
    rfl
  have hchanged : ({} : Settings).withOverrides none none = .ok {} := by rfl
  exact (Run.on_settings_eq_ok_iff ..).mpr ⟨rfl, {}, hload, hchanged⟩

theorem files_tree : Library.files (tree moduleFile script) ["m"] (.ofText "m") ["yaml"] =
    [⟨.ofText "m/core.yaml", moduleFile⟩] := by
  have hbelow : (tree moduleFile script).below ["m"] = [(["core.yaml"], .file moduleFile),
      (["output"], .directory), (["output", "install.conf"], .file script),
      (["output", "uninstall.conf"], .directory)] := by
    apply List.mergeSort_of_pairwise
    change List.Pairwise _ [(["core.yaml"], Entry.file moduleFile), (["output"], .directory),
      (["output", "install.conf"], .file script), (["output", "uninstall.conf"], .directory)]
    simp only [List.pairwise_cons, List.mem_cons, List.not_mem_nil, or_false, forall_eq_or_imp,
      forall_eq, List.Pairwise.nil, and_true, IsEmpty.forall_iff, implies_true]
    exact ⟨⟨by decide, by decide, by decide⟩, ⟨by decide, by decide⟩, by decide⟩
  have hyaml : Library.hasExtension ["yaml"] "core.yaml" = true := by cbv
  have hconf : Library.hasExtension ["yaml"] "install.conf" = false := by cbv
  rw [Library.files, hbelow]
  simp only [List.filterMap_cons, List.filterMap_nil, List.getLast?_singleton,
    List.getLast?_cons_cons, Option.getD_some, hyaml, hconf, if_true, Bool.false_eq_true, if_false]
  rfl

theorem load_tree : Library.load (tree bareText.toUTF8 script) (.ofText "m") ["yaml"] =
    .ok bareCatalog :=
  load_bareCore rfl rfl (files_tree ..)

theorem compile_bareCatalog :
    (Session.fresh bareCatalog 4).compile.1 = .ok bareScripts := by
  have hbuild : (Plan.buildBy [] 4 bareCatalog).result = .ok barePlan := by cbv
  have hwidth : max 4 1 = 4 := by rfl
  unfold Session.compile Session.plan Session.fresh Session.freshBy
  simp only [hwidth, hbuild]
  rfl

theorem prepare_tree :
    invocation.prepare (tree bareText.toUTF8 script) = .ok (files, bareScripts) := by
  exact invocation.prepare_eq_ok_iff.mpr
    ⟨{}, bareCatalog, on_settings_tree .., load_tree script, compile_bareCatalog, rfl⟩

def treeAfter : Disk :=
  { current := []
    entries := [
      (["m"], .directory),
      (["m", "core.yaml"], .file moduleFile),
      (["m", "output"], .directory),
      (["m", "output", "uninstall.conf"], .directory),
      (["m", "output", "install.conf"], .file install)] }

theorem writeAll_tree : (tree moduleFile script).writeAll
    [(files.path .install, install), (files.path .uninstall, uninstall)] =
      (.error failure, treeAfter moduleFile install) := by
  rfl

end Tree

theorem run_before : (invocation.run false before).1 = .error failure ∧
    ¬ before.OnlyDirectoriesAdded (invocation.run false before).2.disk := by
  have hprepare : invocation.prepare before = .ok (files, bareScripts) := prepare_tree _
  have hshows : invocation.onlyShows = false := by rfl
  have hrun := invocation.run_eq false before
  simp only [hprepare, hshows, Bool.false_eq_true, if_false] at hrun
  have hwritten := hrun.trans (writeAll_tree ..)
  obtain ⟨hfailed, hdisk⟩ := Prod.mk.inj hwritten
  refine ⟨hfailed, ?_⟩
  rw [hdisk]
  intro hadded
  have hne : ScriptFiles.content bareScripts .install ≠ "old\n".toUTF8 := by
    intro heq
    exact absurd (String.toByteArray_inj.mp heq) (by decide +kernel)
  rcases hadded ["m", "output", "install.conf"] with hsame | ⟨hnone, _⟩
  · exact hne (Entry.file.inj (Option.some.inj hsame))
  · cases hnone

end Sample

namespace Invocation

theorem not_only_directories_added :
    ¬ ∀ (arguments : List String) (invocation : Invocation) (disk : Disk) (color : Bool)
      (failure : Failure), CommandLine.parse arguments = .ok invocation → disk.NamesSpelled →
      (invocation.run color disk).1 = .error failure →
      disk.OnlyDirectoriesAdded (invocation.run color disk).2.disk := by
  intro hall
  obtain ⟨hfailed, hchanged⟩ := Sample.run_before
  exact hchanged (hall ["m"] Sample.invocation Sample.before false Sample.failure
    Sample.parse_invocation Sample.namesSpelled_before hfailed)

theorem sample_half_writes :
    CommandLine.parse ["m"] = .ok Sample.invocation ∧ Sample.before.NamesSpelled ∧
      (Sample.invocation.run false Sample.before).1 = .error Sample.failure ∧
      ∃ scripts location, Sample.invocation.HalfWrites Sample.before scripts location ∧
        Sample.before.lookup location ≠ some (.file (ScriptFiles.content scripts .install)) := by
  obtain ⟨hfailed, hchanged⟩ := Sample.run_before
  refine ⟨Sample.parse_invocation, Sample.namesSpelled_before, hfailed, ?_⟩
  have hiff := (only_directories_added_iff Sample.parse_invocation Sample.namesSpelled_before
    hfailed).1
  have hnot := mt hiff.mpr hchanged
  push Not at hnot
  exact hnot

end Invocation

end ApplianceScript
