import ApplianceScript.CommandLine
import ApplianceScript.Proofs.StagedFiles
import ApplianceScript.Proofs.Traversal
import ApplianceScript.Run

namespace ApplianceScript

namespace CommandLine.Progress

structure Spelled (progress : Progress) : Prop where
  searchPath : ∀ path ∈ progress.searchPath, path.Spelled
  output : ∀ path ∈ progress.output, path.Spelled

theorem spelled_of_fill {old filled : Option Path} {text : String}
    (h : fill old (pathValue text) = .ok filled) : ∀ path ∈ filled, path.Spelled := by
  intro path hp
  unfold fill pathValue at h
  cases old with
  | some _ => cases h
  | none =>
    simp only at h
    split_ifs at h
    · cases h
    · obtain rfl := Except.ok.inj h
      obtain rfl := Option.some.inj hp
      exact Path.spelled_ofText text

variable {progress next : Progress}

theorem Spelled.store (hp : progress.Spelled) {slot : Slot} {text : String}
    (h : progress.store slot text = .ok next) : next.Spelled := by
  unfold Progress.store at h
  cases slot with
  | searchPath =>
    obtain ⟨filled, hfill, hnext⟩ := bind_eq_ok_iff.mp h
    obtain rfl := Except.ok.inj hnext
    exact ⟨spelled_of_fill hfill, hp.output⟩
  | config =>
    obtain ⟨_, _, hnext⟩ := bind_eq_ok_iff.mp h
    obtain rfl := Except.ok.inj hnext
    exact ⟨hp.searchPath, hp.output⟩
  | output =>
    obtain ⟨filled, hfill, hnext⟩ := bind_eq_ok_iff.mp h
    obtain rfl := Except.ok.inj hnext
    exact ⟨hp.searchPath, spelled_of_fill hfill⟩
  | maxParallel =>
    obtain ⟨_, _, hnext⟩ := bind_eq_ok_iff.mp h
    obtain rfl := Except.ok.inj hnext
    exact ⟨hp.searchPath, hp.output⟩

theorem Spelled.settle (hp : progress.Spelled) (h : progress.settle = .ok next) :
    next.Spelled := by
  unfold Progress.settle at h
  split at h
  · obtain rfl := Except.ok.inj h
    exact hp
  · cases h
  · have hrest : ({ progress with pending := none } : Progress).Spelled :=
      ⟨hp.searchPath, hp.output⟩
    exact hrest.store h

theorem Spelled.turnOn (hp : progress.Spelled) {switch : Switch}
    (h : progress.turnOn switch = .ok next) : next.Spelled := by
  obtain ⟨settled, hsettled, h⟩ := bind_eq_ok_iff.mp h
  have hs := hp.settle hsettled
  split at h
  · cases h
  · cases h
  · split_ifs at h
    obtain rfl := Except.ok.inj h
    exact ⟨hs.searchPath, hs.output⟩

theorem Spelled.takeOption (hp : progress.Spelled) {slot : Slot} {attached : Option String}
    (h : progress.takeOption slot attached = .ok next) : next.Spelled := by
  obtain ⟨settled, hsettled, h⟩ := bind_eq_ok_iff.mp h
  have hs := hp.settle hsettled
  cases attached with
  | some text => exact hs.store h
  | none =>
    obtain rfl := Except.ok.inj h
    exact ⟨hs.searchPath, hs.output⟩

theorem Spelled.takeLong (hp : progress.Spelled) {argument : List Char}
    (h : progress.takeLong argument = .ok next) : next.Spelled := by
  unfold Progress.takeLong at h
  simp only at h
  split at h
  · cases h
  · exact hp.takeOption h
  · cases h
  · exact hp.turnOn h

theorem Spelled.takeLetters (hp : progress.Spelled) {letters : List Char}
    (h : progress.takeLetters letters = .ok next) : next.Spelled := by
  induction letters generalizing progress with
  | nil =>
    obtain rfl := Except.ok.inj h
    exact hp
  | cons c rest ih =>
    unfold Progress.takeLetters at h
    split at h
    · cases h
    · split at h <;> rename_i hturn
      · exact ih (hp.turnOn hturn) h
      · cases h
    · split at h <;> exact hp.takeOption h

theorem Spelled.takeSearchPath (hp : progress.Spelled) {argument : String}
    (h : progress.takeSearchPath argument = .ok next) : next.Spelled := by
  unfold Progress.takeSearchPath at h
  split_ifs at h
  obtain ⟨settled, hsettled, h⟩ := bind_eq_ok_iff.mp h
  have hs := hp.settle hsettled
  obtain rfl := Except.ok.inj h
  exact ⟨hs.searchPath, hs.output⟩

theorem Spelled.take (hp : progress.Spelled) {argument : String}
    (h : progress.take argument = .ok next) : next.Spelled := by
  unfold Progress.take at h
  split_ifs at h
  · exact hp.takeSearchPath h
  · split at h
    · obtain rfl := Except.ok.inj h
      exact ⟨hp.searchPath, hp.output⟩
    · exact hp.takeLong h
    · exact hp.takeLetters h
    · unfold takeValue at h
      split at h
      · obtain rfl := Except.ok.inj h
        exact ⟨hp.searchPath, hp.output⟩
      · exact hp.takeSearchPath h

end CommandLine.Progress

theorem CommandLine.spelled_of_parse {arguments : List String} {invocation : Invocation}
    (h : parse arguments = .ok invocation) :
    invocation.searchPath.Spelled ∧ ∀ path ∈ invocation.output, path.Spelled := by
  obtain ⟨progress, htaken, h⟩ := bind_eq_ok_iff.mp h
  have hempty : Progress.Spelled {} := ⟨by simp, by simp⟩
  have hp : progress.Spelled :=
    foldlM_preserves (fun _ _ _ hb hc => Progress.Spelled.take hb hc) hempty htaken
  obtain ⟨settled, hsettled, h⟩ := bind_eq_ok_iff.mp h
  have hs := hp.settle hsettled
  simp only at h
  split_ifs at h
  cases hpath : settled.searchPath with
  | none => simp [hpath] at h
  | some searchPath =>
    simp only [hpath] at h
    obtain rfl := Except.ok.inj h
    exact ⟨hs.searchPath searchPath hpath, hs.output⟩

namespace Settings

theorem spelled_of_assign {settings changed : Settings} {entry : Entry}
    (hs : settings.outputDirectory.Spelled) (h : settings.assign entry = some changed) :
    changed.outputDirectory.Spelled := by
  unfold assign at h
  split at h
  · obtain rfl := Option.some.inj h
    exact Path.spelled_ofText _
  · obtain rfl := Option.some.inj h
    exact hs
  · obtain rfl := Option.some.inj h
    exact hs
  · obtain rfl := Option.some.inj h
    exact hs
  · split_ifs at h
    obtain rfl := Option.some.inj h
    exact hs
  · cases h

theorem spelled_of_foldlM_assign {entries : List Entry} {settings changed : Settings}
    (hs : settings.outputDirectory.Spelled) (h : entries.foldlM assign settings = some changed) :
    changed.outputDirectory.Spelled := by
  induction entries generalizing settings with
  | nil =>
    obtain rfl := Option.some.inj h
    exact hs
  | cons entry rest ih =>
    rw [List.foldlM_cons] at h
    obtain ⟨next, hnext, hrest⟩ := Option.bind_eq_some_iff.mp h
    exact ih (spelled_of_assign hs hnext) hrest

theorem spelled_of_load {disk : Disk} {searchPath : Path} {named : Option Path}
    {settings : Settings} (h : load disk searchPath named = .ok settings) :
    settings.outputDirectory.Spelled := by
  have hdefault : (({} : Settings).outputDirectory).Spelled := Path.spelled_ofText "output"
  have hfile {path : Path} (h : loadFile disk path = .ok settings) :
      settings.outputDirectory.Spelled := by
    unfold loadFile at h
    split at h
    · cases h
    · split at h <;> rename_i hparse
      · cases h
      · split at h
        · cases h
        · obtain rfl := Except.ok.inj h
          obtain ⟨entries, _, hfold⟩ := Option.bind_eq_some_iff.mp hparse
          exact spelled_of_foldlM_assign hdefault hfold
  unfold load at h
  simp only at h
  split at h
  · exact hfile h
  · split_ifs at h
    · exact hfile h
    · obtain rfl := Except.ok.inj h
      exact hdefault

theorem outputDirectory_withOverrides {settings changed : Settings} {output : Option Path}
    {maxParallel : Option Nat} (h : settings.withOverrides output maxParallel = .ok changed) :
    changed.outputDirectory = output.getD settings.outputDirectory := by
  obtain ⟨_, _, hchanged⟩ := bind_eq_ok_iff.mp h
  obtain rfl := Except.ok.inj hchanged
  rfl

theorem spelled_scriptFiles {settings : Settings} {searchPath : Path}
    (hs : settings.outputDirectory.Spelled) (hp : searchPath.Spelled) (direction : Direction) :
    ((settings.scriptFiles searchPath).path direction).Spelled :=
  (hp.join hs).join (Path.spelled_ofText _)

end Settings

namespace Disk

def NamesSpelled (disk : Disk) : Prop :=
  ∀ location ∈ disk.current :: disk.entries.map (·.1), ∀ name ∈ location, Spelled name

theorem NamesSpelled.freshFrom {disk : Disk} (hd : disk.NamesSpelled) (index : Nat) :
    disk.FreshFrom index := by
  intro directory i _
  rw [lookup_of_ne_nil (by simp), List.lookup_eq_none_iff]
  rintro ⟨location, entry⟩ hm
  rw [bne_iff_ne]
  rintro rfl
  have hname := hd _ (List.mem_cons_of_mem _ (List.mem_map_of_mem hm)) (temporaryName i) (by simp)
  exact not_spelled_temporaryName i hname

theorem NamesSpelled.currentDirectory {disk : Disk} (hd : disk.NamesSpelled) :
    (Run.currentDirectory disk).Spelled :=
  fun name hm => hd disk.current List.mem_cons_self name hm

end Disk

end ApplianceScript
