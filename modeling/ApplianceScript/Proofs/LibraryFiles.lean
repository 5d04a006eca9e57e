import ApplianceScript.Module.Library
import ApplianceScript.Proofs.Lists
import ApplianceScript.Proofs.WrittenFiles
import Mathlib.Data.List.Basic
import Mathlib.Data.List.Lex
import Mathlib.Data.String.Basic

/-!
What of a disk a library sees: the files below its directory whose names have a wanted extension, in
the order of their locations. Whatever else is on the disk does not show, so two disks with the same
module files in the same order make one library. That is what a write leaves behind when none of
the names it writes to has a wanted extension: directories are no module files, and neither are
temporary files.
-/

namespace ApplianceScript

namespace Disk

def walksFirst (a b : Location × Entry) : Bool := !b.1.lex a.1 fun x y => x < y

theorem walksFirst_iff (a b : Location × Entry) : walksFirst a b = true ↔ ¬ b.1 < a.1 := by
  rw [walksFirst, List.lex_eq_decide_lex]
  simp only [decide_eq_true_eq, Bool.not_eq_true', decide_eq_false_iff_not]
  rfl

theorem walksFirst_trans (a b c : Location × Entry) (hab : walksFirst a b = true)
    (hbc : walksFirst b c = true) : walksFirst a c = true := by
  rw [walksFirst_iff, not_lt] at *
  exact hab.trans hbc

theorem walksFirst_total (a b : Location × Entry) : (walksFirst a b || walksFirst b a) = true := by
  rw [Bool.or_eq_true, walksFirst_iff, walksFirst_iff, not_lt, not_lt]
  exact le_total a.1 b.1

def inside? (directory : Location) : Location × Entry → Option (Location × Entry)
  | (location, entry) =>
    if directory.isPrefixOf location && location.length > directory.length then
      some (location.drop directory.length, entry)
    else none

theorem below_eq (disk : Disk) (directory : Location) :
    disk.below directory = (disk.entries.filterMap (inside? directory)).mergeSort walksFirst := rfl

end Disk

namespace Library

def isModuleFile (extensions : List String) : Location × Entry → Bool
  | (location, .file _) => hasExtension extensions (location.getLast?.getD "")
  | (_, .directory) => false

def file? (searchPath : Path) : Location × Entry → Option LibraryFile
  | (names, .file content) => some ⟨searchPath.join ⟨false, names⟩, content⟩
  | (_, .directory) => none

theorem files_eq (disk : Disk) (directory : Location) (searchPath : Path)
    (extensions : List String) :
    files disk directory searchPath extensions =
      ((disk.below directory).filter (isModuleFile extensions)).filterMap (file? searchPath) := by
  rw [files, List.filterMap_filter]
  congr 1
  funext ⟨names, entry⟩
  cases entry with
  | directory => rfl
  | file content => cases h : hasExtension extensions (names.getLast?.getD "") <;>
      simp [isModuleFile, file?, h]

theorem isModuleFile_of_inside? {directory : Location} {found other : Location × Entry}
    (extensions : List String) (h : Disk.inside? directory found = some other) :
    isModuleFile extensions other = isModuleFile extensions found := by
  obtain ⟨location, entry⟩ := found
  simp only [Disk.inside?] at h
  split_ifs at h with hc
  obtain rfl := Option.some.inj h
  simp only [gt_iff_lt, Bool.and_eq_true, decide_eq_true_eq] at hc
  cases entry with
  | directory => rfl
  | file content =>
    rw [isModuleFile, isModuleFile, List.getLast?_drop, if_neg (by omega)]

def candidates (disk : Disk) (extensions : List String) : List (Location × Entry) :=
  disk.entries.filter (isModuleFile extensions)

variable {disk other : Disk} {extensions : List String}

theorem files_congr (h : candidates other extensions = candidates disk extensions)
    (directory : Location) (searchPath : Path) :
    files other directory searchPath extensions = files disk directory searchPath extensions := by
  have hbelow (disk : Disk) : (disk.below directory).filter (isModuleFile extensions) =
      ((candidates disk extensions).filterMap (Disk.inside? directory)).mergeSort
        Disk.walksFirst := by
    rw [Disk.below_eq, filter_mergeSort Disk.walksFirst_trans Disk.walksFirst_total, candidates]
    congr 1
    rw [List.filter_filterMap, List.filterMap_filter]
    congr 1
    funext found
    cases hfound : Disk.inside? directory found with
    | none => simp
    | some other => simp [Option.filter, isModuleFile_of_inside? extensions hfound]
  rw [files_eq, files_eq, hbelow, hbelow, h]

theorem load_congr {searchPath : Path} {directory : Location}
    (h : candidates other extensions = candidates disk extensions)
    (hl : disk.locate searchPath = .ok directory) (hd : disk.hasDirectory directory = true)
    (hlo : other.locate searchPath = .ok directory) (hdo : other.hasDirectory directory = true) :
    load other searchPath extensions = load disk searchPath extensions := by
  simp only [load, loadWith, hl, hlo, hd, hdo, if_true, files_congr h]

section Changes

variable {directory : Location} {name : String} (hn : hasExtension extensions name = false)

include hn

theorem isModuleFile_append (entry : Entry) :
    isModuleFile extensions (directory ++ [name], entry) = false := by
  cases entry with
  | directory => rfl
  | file content => simp [isModuleFile, hn]

theorem candidates_erase :
    candidates (disk.erase (directory ++ [name])) extensions = candidates disk extensions := by
  rw [candidates, candidates, Disk.erase, List.filter_filter]
  apply List.filter_congr
  rintro ⟨location, entry⟩ _
  by_cases hl : location = directory ++ [name]
  · rw [hl, isModuleFile_append hn, Bool.false_and]
  · simp [hl]

theorem candidates_insert (entry : Entry) :
    candidates (disk.insert (directory ++ [name]) entry) extensions =
      candidates disk extensions := by
  have hnew : [(directory ++ [name], entry)].filter (isModuleFile extensions) = [] := by
    simp [isModuleFile_append hn]
  rw [candidates, Disk.insert, List.filter_append, hnew, List.append_nil]
  exact candidates_erase hn

end Changes

theorem candidates_insert_directory {location : Location} (hne : location ≠ [])
    (hnone : disk.lookup location = none) :
    candidates (disk.insert location .directory) extensions = candidates disk extensions := by
  rw [candidates, Disk.insert, List.filter_append, Disk.erase_eq_self hne hnone]
  simp [candidates, isModuleFile]

theorem candidates_ensureDirectory (path : Path) :
    candidates (disk.ensureDirectory path).2 extensions = candidates disk extensions := by
  refine Disk.ensureDirectory_preserves
    (P := fun after => candidates after extensions = candidates disk extensions)
    (fun _ _ before made hmake hbefore => ?_) rfl
  obtain ⟨directory, name, _, hnone, rfl⟩ := Disk.makeDirectory_eq_ok_iff.mp hmake
  exact (candidates_insert_directory (by simp) hnone).trans hbefore

theorem hasExtension_temporaryName (index : Nat) :
    hasExtension extensions (Disk.temporaryName index) = false := by
  have hdot : '.' ∉ (Disk.temporaryName index).toList := by
    intro hm
    simp only [Disk.temporaryName, String.toList_append, List.mem_append,
      Nat.toString_eq_ofList_toDigits, String.toList_ofList] at hm
    rcases hm with hm | hm
    · exact absurd hm (by decide)
    · have hdigit : '.'.isDigit = true := Nat.isDigit_of_mem_toDigits (by decide) (by decide) hm
      exact absurd hdigit (by decide)
  have hall : (Disk.temporaryName index).toList.reverse.dropWhile (· ≠ '.') = [] := by
    rw [List.dropWhile_eq_nil_iff]
    intro c hc
    exact decide_eq_true fun heq => hdot (heq ▸ List.mem_reverse.mp hc)
  rw [hasExtension, Path.extensionOf?, hall]

theorem candidates_stage (index : Nat) (path : Path) (content : ByteArray) :
    candidates (disk.stage index path content).2 extensions = candidates disk extensions := by
  have hensure : candidates (disk.ensureDirectory (Disk.stagingDirectory path)).2 extensions =
      candidates disk extensions := candidates_ensureDirectory _
  unfold Disk.stage
  simp only
  generalize disk.ensureDirectory (Disk.stagingDirectory path) = result at hensure
  obtain ⟨failure | _, ready⟩ := result
  · exact hensure
  · simp only
    cases ready.locate (Disk.stagingDirectory path) with
    | error kind => exact hensure
    | ok directory => exact (candidates_insert (hasExtension_temporaryName index) _).trans hensure

theorem candidates_stageAll {index : Nat} {files : List (Path × ByteArray)} {staged : List Staged}
    {ready : Disk} (h : disk.stageAll index files = (.ok staged, ready)) :
    candidates ready extensions = candidates disk extensions := by
  induction files generalizing disk index staged with
  | nil =>
    obtain ⟨_, rfl⟩ := Prod.mk.inj h
    rfl
  | cons file rest ih =>
    obtain ⟨path, content⟩ := file
    have hstage : candidates (disk.stage index path content).2 extensions =
        candidates disk extensions := candidates_stage index path content
    rw [Disk.stageAll] at h
    generalize disk.stage index path content = result at h hstage
    obtain ⟨failure | s, after⟩ := result
    · cases h
    · simp only at h
      cases hrest : after.stageAll (index + 1) rest with
      | mk result later =>
        cases result with
        | error failure =>
          rw [hrest] at h
          cases h
        | ok more =>
          rw [hrest] at h
          obtain ⟨_, rfl⟩ := Prod.mk.inj h
          exact (ih hrest).trans hstage

theorem candidates_discard {staged : List Staged}
    (hnames : ∀ s ∈ staged, ∃ directory i, s.location = directory ++ [Disk.temporaryName i]) :
    candidates (disk.discard staged) extensions = candidates disk extensions := by
  induction staged generalizing disk with
  | nil => rfl
  | cons s rest ih =>
    obtain ⟨⟨directory, i, hs⟩, hrest⟩ := List.forall_mem_cons.mp hnames
    rw [Disk.discard, List.foldl_cons, ← Disk.discard, ih hrest, hs]
    exact candidates_erase (hasExtension_temporaryName i)

theorem candidates_put {files : List (Location × ByteArray)}
    (hnames : ∀ file ∈ files, ∃ directory name, file.1 = directory ++ [name] ∧
      hasExtension extensions name = false) :
    candidates (disk.put files) extensions = candidates disk extensions := by
  induction files generalizing disk with
  | nil => rfl
  | cons file rest ih =>
    obtain ⟨⟨directory, name, hl, hn⟩, hrest⟩ := List.forall_mem_cons.mp hnames
    rw [Disk.put, List.foldl_cons, ← Disk.put, ih hrest, hl]
    exact candidates_insert hn _

theorem candidates_writeAll {files : List (Path × ByteArray)} {after : Disk}
    (hp : ∀ file ∈ files, file.1.Spelled) (hf : disk.FreshFrom 0)
    (hnames : ∀ file ∈ files, ∃ before name, Disk.splitLast file.1 = some (before, name) ∧
      hasExtension extensions name = false)
    (h : disk.writeAll files = (.ok (), after)) :
    candidates after extensions = candidates disk extensions := by
  obtain ⟨staged, ready, locations, hstage, hholds, htargets, rfl⟩ :=
    Disk.writeAll_eq_put hp hf h
  rw [candidates_put, candidates_discard (hholds.waiting hp).names, candidates_stageAll hstage]
  intro moved hm
  have hreplaced := hholds.replaceable_iff.mp htargets
  obtain ⟨file, hfile, hr⟩ := exists_of_forall₂_of_mem hreplaced.flip (List.of_mem_zip hm).1
  obtain ⟨_, name, hsplit, hn⟩ := hnames file hfile
  obtain ⟨directory, hl⟩ := Disk.Replaceable.exists_directory hr hsplit
  exact ⟨directory, name, hl, hn⟩

end Library

end ApplianceScript
