import ApplianceScript.Proofs.AllOrNothing
import ApplianceScript.Proofs.LibraryFiles
import ApplianceScript.Proofs.LoneArgument
import ApplianceScript.Proofs.RepeatedWrites
import ApplianceScript.Proofs.RunOutcome

namespace ApplianceScript

namespace Disk

variable {disk : Disk} {path : Path} {directory : Location} {name : String}

theorem pieces_join (path : Path) (names : List String) :
    (path.join ⟨false, names⟩).pieces = (path.join ⟨false, []⟩).pieces ++ names := by
  simp [Path.join]

theorem splitLast_join (path : Path) (hn : name ≠ "") :
    splitLast (path.join ⟨false, [name]⟩) = some ((path.join ⟨false, []⟩).pieces, name) := by
  rw [splitLast, pieces_join, List.reverse_append, List.reverse_singleton, List.singleton_append,
    List.dropWhile_cons_of_neg (by simpa using hn)]
  simp

theorem find_join (hl : disk.locate path = .ok directory) (hd : disk.hasDirectory directory = true)
    (hn : Plain name) :
    disk.find (path.join ⟨false, [name]⟩) = match disk.lookup (directory ++ [name]) with
      | some entry => .ok entry
      | none => .error .notFound := by
  have hfront : disk.follow (disk.origin path) (path.join ⟨false, []⟩).pieces = .ok directory := by
    rw [locate] at hl
    split_ifs at hl
    simp only [Path.join, Bool.false_eq_true, if_false, List.append_nil]
    split_ifs with hslash
    · obtain ⟨front, hpieces⟩ := List.getLast?_eq_some_iff.mp hslash
      rw [hpieces, List.dropLast_concat]
      rw [hpieces, follow_append] at hl
      obtain ⟨middle, hmiddle, hlast⟩ := bind_eq_ok_iff.mp hl
      obtain rfl := eq_of_follow_idle (.inl rfl) hlast
      exact hmiddle
    · exact hl
  have hnonempty : (path.join ⟨false, [name]⟩).isEmpty = false := by
    rw [Bool.eq_false_iff]
    intro hempty
    simp only [Path.isEmpty, Bool.and_eq_true, decide_eq_true_eq] at hempty
    have hlast := congrArg List.getLast? hempty.2
    rw [pieces_join, List.getLast?_concat] at hlast
    exact hn.ne_empty (Option.some.inj hlast)
  have horigin : disk.origin (path.join ⟨false, [name]⟩) = disk.origin path := rfl
  have hlocate : disk.locate (path.join ⟨false, [name]⟩) = disk.follow directory [name] := by
    rw [locate, hnonempty, horigin, pieces_join, follow_append, hfront]
    rfl
  cases hlookup : disk.lookup (directory ++ [name]) with
  | none =>
    rw [find, hlocate, follow_name hn hd, hlookup]
    rfl
  | some entry => exact find_of_locate (by rw [hlocate, follow_name hn hd, hlookup]) hlookup

theorem isFile_join_iff (hl : disk.locate path = .ok directory)
    (hd : disk.hasDirectory directory = true) (hn : Plain name) :
    disk.isFile (path.join ⟨false, [name]⟩) = true ↔
      ∃ content, disk.lookup (directory ++ [name]) = some (.file content) := by
  rw [isFile, find_join hl hd hn]
  cases disk.lookup (directory ++ [name]) with
  | none => simp
  | some entry => cases entry <;> simp

end Disk

def ScriptFiles.standard (searchPath : Path) : ScriptFiles :=
  ({} : Settings).scriptFiles searchPath

namespace ScriptFiles

variable {searchPath : Path} {disk after : Disk} {scripts : Scripts} {directory : Location}

theorem name_standard (searchPath : Path) (direction : Direction) :
    (standard searchPath).name direction = match direction with
      | .install => "install.conf"
      | .uninstall => "uninstall.conf" := by
  cases direction <;> rfl

theorem splitLast_standard (searchPath : Path) (direction : Direction) :
    ∃ before, Disk.splitLast ((standard searchPath).path direction) =
      some (before, (standard searchPath).name direction) := by
  have hn : Spelled ((standard searchPath).name direction) ∧
      (standard searchPath).name direction ≠ "" := by
    rw [name_standard]
    cases direction <;> decide
  rw [path, Path.ofText_of_spelled hn.1]
  exact ⟨_, Disk.splitLast_join _ hn.2⟩

theorem hasExtension_standard (searchPath : Path) (direction : Direction) :
    Library.hasExtension ["yaml"] ((standard searchPath).name direction) = false := by
  rw [name_standard]
  cases direction <;> cbv

theorem name_standard_ne (searchPath : Path) (direction : Direction) :
    (standard searchPath).name direction ≠ Settings.standardFileName := by
  rw [name_standard]
  cases direction <;> decide

theorem exists_direction {file : Path × ByteArray}
    (hm : file ∈ [.install, .uninstall].map ((standard searchPath).entry scripts)) :
    ∃ direction, file.1 = (standard searchPath).path direction := by
  obtain ⟨direction, _, rfl⟩ := List.mem_map.mp hm
  exact ⟨direction, rfl⟩

section Written

variable (hp : searchPath.Spelled) (hd : disk.NamesSpelled)
  (h : (standard searchPath).write disk scripts = (.ok (), after))
  (hl : disk.locate searchPath = .ok directory) (hdirectory : disk.hasDirectory directory = true)

include hp in
theorem spelled_standard {file : Path × ByteArray}
    (hm : file ∈ [.install, .uninstall].map ((standard searchPath).entry scripts)) :
    file.1.Spelled := by
  obtain ⟨direction, hfile⟩ := exists_direction hm
  rw [hfile]
  exact Settings.spelled_scriptFiles (Path.spelled_ofText "output") hp direction

include hp hd h

theorem write_again : (standard searchPath).write after scripts = (.ok (), after) :=
  Disk.writeAll_again (fun _ => spelled_standard hp) (hd.freshFrom 0) h

include hl hdirectory

theorem locate_after :
    after.locate searchPath = .ok directory ∧ after.hasDirectory directory = true := by
  have hgrown := Disk.hasDirectory_of_writeAll (fun _ => spelled_standard hp) (hd.freshFrom 0) h
  have hcurrent := Disk.current_of_writeAll (fun _ => spelled_standard hp) (hd.freshFrom 0) h
  have horigin : after.origin searchPath = disk.origin searchPath := by
    rw [Disk.origin, Disk.origin, hcurrent]
  refine ⟨?_, hgrown directory hdirectory⟩
  unfold Disk.locate at hl ⊢
  split_ifs at hl ⊢
  rw [horigin]
  exact Disk.follow_of_hasDirectory hgrown hl hdirectory

theorem load_after :
    Library.load after searchPath ["yaml"] = Library.load disk searchPath ["yaml"] := by
  obtain ⟨hlafter, hdafter⟩ := locate_after hp hd h hl hdirectory
  refine Library.load_congr ?_ hl hdirectory hlafter hdafter
  refine Library.candidates_writeAll (fun _ => spelled_standard hp) (hd.freshFrom 0) ?_ h
  intro file hm
  obtain ⟨direction, hfile⟩ := exists_direction hm
  obtain ⟨before, hsplit⟩ := splitLast_standard searchPath direction
  exact ⟨before, _, hfile ▸ hsplit, hasExtension_standard searchPath direction⟩

theorem isFile_after
    (hunset : disk.isFile (searchPath.join (.ofText Settings.standardFileName)) = false) :
    after.isFile (searchPath.join (.ofText Settings.standardFileName)) = false := by
  obtain ⟨hlafter, hdafter⟩ := locate_after hp hd h hl hdirectory
  obtain ⟨locations, htargets, _, hkept⟩ :=
    Disk.exists_replaceable_of_writeAll (fun _ => spelled_standard hp) (hd.freshFrom 0) h
  have hplain : Disk.Plain Settings.standardFileName :=
    ⟨by decide, by decide, by decide, by decide⟩
  have hnot : directory ++ [Settings.standardFileName] ∉ locations := by
    intro hm
    obtain ⟨file, hfile, hr⟩ := exists_of_forall₂_of_mem htargets.flip hm
    obtain ⟨direction, hpath⟩ := exists_direction hfile
    obtain ⟨_, hsplit⟩ := splitLast_standard searchPath direction
    obtain ⟨_, hlocation⟩ := Disk.Replaceable.exists_directory hr (hpath ▸ hsplit)
    exact name_standard_ne searchPath direction (List.append_singleton_inj.mp hlocation).2.symm
  rw [Bool.eq_false_iff] at hunset ⊢
  intro hset
  apply hunset
  obtain ⟨content, hcontent⟩ := (Disk.isFile_join_iff hlafter hdafter hplain).mp hset
  refine (Disk.isFile_join_iff hl hdirectory hplain).mpr ⟨content, ?_⟩
  rcases hkept _ hnot with hsame | ⟨_, hmade⟩
  · exact hsame.symm.trans hcontent
  · cases hcontent.symm.trans hmade

end Written

end ScriptFiles

namespace Invocation

theorem on_settings_unset_iff {searchPath : Path} {disk : Disk}
    (hunset : disk.isFile (searchPath.join (.ofText Settings.standardFileName)) = false)
    {settings : Settings} :
    (Run.Step.on (Run.settings { searchPath }) { disk }).1 = .ok settings ↔
      disk.isDirectory searchPath = true ∧ settings = {} := by
  have hload : Settings.load disk searchPath none = .ok {} := by simp [Settings.load, hunset]
  have hkept : ({} : Settings).withOverrides none none = .ok {} := by rfl
  rw [Run.on_settings_eq_ok_iff, hload]
  apply and_congr_right'
  constructor
  · rintro ⟨loaded, hloaded, hchanged⟩
    obtain rfl := Except.ok.inj hloaded
    exact (Except.ok.inj (hkept.symm.trans hchanged)).symm
  · rintro rfl
    exact ⟨{}, rfl, hkept⟩

theorem on_deliver_write {searchPath : Path} {color : Bool} {files : ScriptFiles} {plan : Plan}
    {scripts : Scripts} {before after : Disk}
    (h : files.write before scripts = (.ok (), after)) (told : String)
    (warnings : List CycleWarning) :
    Run.Step.on (Run.deliver { searchPath } color files plan scripts)
        { disk := before, told, warnings } =
      (.ok (), { disk := after, warnings
                 told := told ++ Run.summary plan scripts ++ Run.writtenEnd color files }) := by
  rw [Run.on_deliver]
  simp only [h, Bool.false_eq_true, if_false]
  rfl

theorem run_again {argument : String} {invocation : Invocation} {disk : Disk} {color : Bool}
    (parsed : CommandLine.parse [argument] = .ok invocation) (spelled : disk.NamesSpelled)
    (unset : disk.isFile
      (invocation.searchPath.join (.ofText Settings.standardFileName)) = false)
    (succeeded : (invocation.run color disk).1 = .ok ()) :
    invocation.run color (invocation.run color disk).2.disk = invocation.run color disk := by
  have hp := (CommandLine.spelled_of_parse parsed).1
  obtain rfl := CommandLine.parse_singleton parsed
  generalize Path.ofText argument = searchPath at *
  cases hprepare : Invocation.prepare { searchPath } disk with
  | error failure =>
    have hfailed := (run_of_prepare_error { searchPath } color hprepare).1
    cases succeeded.symm.trans hfailed
  | ok prepared =>
    obtain ⟨files, scripts⟩ := prepared
    obtain ⟨settings, catalog, hsettings, hload, hcompiled, rfl⟩ :=
      (prepare_eq_ok_iff { searchPath }).mp hprepare
    obtain ⟨hsearched, rfl⟩ := (on_settings_unset_iff unset).mp hsettings
    obtain ⟨directory, hl, hdirectory⟩ := Disk.isDirectory_iff.mp hsearched
    obtain ⟨plan, warnings, hrun⟩ := run_of_compile_ok { searchPath } color hcompiled
    have hwrite : (ScriptFiles.standard searchPath).write disk scripts =
        (.ok (), (Invocation.run { searchPath } color disk).2.disk) := by
      have hends := run_eq { searchPath } color disk
      have hshows : onlyShows { searchPath } = false := rfl
      simp only [hprepare, succeeded, hshows, Bool.false_eq_true, if_false] at hends
      exact hends.symm
    generalize (Invocation.run { searchPath } color disk).2.disk = after at hwrite ⊢
    -- The second run reads what the first one read, although it reads another disk.
    have hsearched := Disk.isDirectory_iff.mpr
      ⟨directory, ScriptFiles.locate_after hp spelled hwrite hl hdirectory⟩
    have hunset := ScriptFiles.isFile_after hp spelled hwrite hl hdirectory unset
    have hreload := (ScriptFiles.load_after hp spelled hwrite hl hdirectory).trans hload
    have hresettings := (on_settings_unset_iff hunset).mpr ⟨hsearched, rfl⟩
    have hrewrite := ScriptFiles.write_again hp spelled hwrite
    calc Invocation.run { searchPath } color after
        = _ := (hrun after hresettings hreload).trans (on_deliver_write hrewrite _ _)
      _ = Invocation.run { searchPath } color disk :=
        ((hrun disk hsettings hload).trans (on_deliver_write hwrite _ _)).symm

end Invocation

namespace Sample

def moduleInOutput : Disk :=
  { current := []
    entries := [(["m"], .directory), (["m", "output"], .directory),
      (["m", "output", "core.yaml"], .file bareText.toUTF8)] }

theorem namesSpelled_moduleInOutput : moduleInOutput.NamesSpelled := by
  unfold Disk.NamesSpelled moduleInOutput
  decide

theorem unset_moduleInOutput :
    moduleInOutput.isFile (invocation.searchPath.join (.ofText Settings.standardFileName)) =
      false := by
  rfl

theorem files_moduleInOutput : Library.files moduleInOutput ["m"] (.ofText "m") ["yaml"] =
    [⟨.ofText "m/output/core.yaml", bareText.toUTF8⟩] := by
  have hbelow : moduleInOutput.below ["m"] = [(["output"], .directory),
      (["output", "core.yaml"], .file bareText.toUTF8)] := by
    apply List.mergeSort_of_pairwise
    exact List.pairwise_pair.mpr (by decide)
  have hyaml : Library.hasExtension ["yaml"] "core.yaml" = true := by cbv
  rw [Library.files, hbelow]
  simp only [List.filterMap_cons, List.filterMap_nil, List.getLast?_singleton,
    List.getLast?_cons_cons, Option.getD_some, hyaml, if_true]
  rfl

theorem run_moduleInOutput : (invocation.run false moduleInOutput).1 = .ok () := by
  have hprepare : invocation.prepare moduleInOutput = .ok (files, bareScripts) :=
    invocation.prepare_eq_ok_iff.mpr ⟨{}, bareCatalog,
      (Invocation.on_settings_unset_iff unset_moduleInOutput).mpr ⟨rfl, rfl⟩,
      load_bareCore rfl rfl files_moduleInOutput, compile_bareCatalog, rfl⟩
  have hends := congrArg Prod.fst (invocation.run_eq false moduleInOutput)
  rw [hprepare] at hends
  rw [hends]
  rfl

end Sample

namespace Invocation

theorem sample_module_among_scripts :
    CommandLine.parse ["m"] = .ok Sample.invocation ∧ Sample.moduleInOutput.NamesSpelled ∧
      Sample.moduleInOutput.isFile
        (Sample.invocation.searchPath.join (.ofText Settings.standardFileName)) = false ∧
      (Sample.invocation.run false Sample.moduleInOutput).1 = .ok () ∧
      Sample.invocation.run false (Sample.invocation.run false Sample.moduleInOutput).2.disk =
        Sample.invocation.run false Sample.moduleInOutput :=
  ⟨Sample.parse_invocation, Sample.namesSpelled_moduleInOutput, Sample.unset_moduleInOutput,
    Sample.run_moduleInOutput,
    run_again Sample.parse_invocation Sample.namesSpelled_moduleInOutput
      Sample.unset_moduleInOutput Sample.run_moduleInOutput⟩

end Invocation

end ApplianceScript
