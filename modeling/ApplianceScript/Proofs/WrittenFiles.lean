import ApplianceScript.Proofs.MovedFiles
import ApplianceScript.Proofs.ParsedPaths
import ApplianceScript.ScriptFiles
import Mathlib.Data.List.TakeWhile

namespace ApplianceScript

namespace Disk

variable {disk after : Disk}

theorem follow_append (location : Location) (front back : List String) :
    disk.follow location (front ++ back) =
      (disk.follow location front >>= fun middle => disk.follow middle back) := by
  induction front generalizing location with
  | nil => rfl
  | cons piece rest ih =>
    simp only [List.cons_append, follow]
    split_ifs with hdirectory hstay hup hlong
    · rfl
    · exact ih location
    · exact ih location.dropLast
    · rfl
    · cases disk.lookup (location ++ [piece]) with
      | none => rfl
      | some entry => exact ih (location ++ [piece])

theorem pieces_of_splitLast {path : Path} {before : List String} {last : String}
    (h : splitLast path = some (before, last)) :
    last ≠ "" ∧ ∃ blanks, path.pieces = before ++ last :: blanks ∧ ∀ piece ∈ blanks, piece = "" := by
  unfold splitLast at h
  split at h <;> rename_i hd
  · cases h
  · obtain ⟨rfl, rfl⟩ := Prod.mk.inj (Option.some.inj h)
    rename_i last before
    have hsplit := List.takeWhile_append_dropWhile (p := fun piece => decide (piece = ""))
      (l := path.pieces.reverse)
    rw [hd] at hsplit
    refine ⟨?_, (path.pieces.reverse.takeWhile (· = "")).reverse, ?_, ?_⟩
    · have hhead := List.head?_dropWhile_not (fun piece => decide (piece = "")) path.pieces.reverse
      simpa [hd] using hhead
    · simpa using (congrArg List.reverse hsplit).symm
    · intro piece hm
      simpa using List.mem_takeWhile_imp (List.mem_reverse.mp hm)

theorem pieces_eq_of_splitLast {path : Path} {before : List String} {last : String}
    (h : splitLast path = some (before, last)) (hlast : path.pieces.getLast? ≠ some "") :
    path.pieces = before ++ [last] ∧ last ≠ "" := by
  obtain ⟨hne, blanks, hpieces, hblanks⟩ := pieces_of_splitLast h
  refine ⟨?_, hne⟩
  rcases List.eq_nil_or_concat blanks with rfl | ⟨front, blank, rfl⟩
  · exact hpieces
  · obtain rfl := hblanks blank (by simp)
    rw [hpieces, List.concat_eq_append, ← List.cons_append, ← List.append_assoc] at hlast
    exact absurd List.getLast?_concat hlast

theorem Replaceable.locate_eq {path : Path} {location : Location}
    (h : disk.Replaceable path location) :
    disk.locate path = match disk.lookup location with
      | some _ => .ok location
      | none => .error .notFound := by
  obtain ⟨directory, name, ht, rfl, hlast, _⟩ := h
  obtain ⟨hempty, before, hsplit, hf, hdirectory, hdot, hdots, hlong⟩ := target_eq_name_iff.mp ht
  obtain ⟨hpieces, hname⟩ := pieces_eq_of_splitLast hsplit hlast
  rw [Disk.locate, hempty, hpieces, follow_append, hf]
  exact follow_name ⟨hname, hdot, hdots, hlong⟩ hdirectory

theorem Replaceable.locate {path : Path} {location : Location}
    (h : disk.Replaceable path location) {entry : Entry} (he : disk.lookup location = some entry) :
    disk.locate path = .ok location := by
  rw [h.locate_eq, he]

theorem Replaceable.eq_of_locate {path : Path} {location found : Location}
    (h : disk.Replaceable path location) (hl : disk.locate path = .ok found) :
    found = location := by
  rw [h.locate_eq] at hl
  split at hl
  · exact (Except.ok.inj hl).symm
  · cases hl

theorem Replaceable.find {path : Path} {location : Location}
    (h : disk.Replaceable path location) {entry : Entry} (he : disk.lookup location = some entry) :
    disk.find path = .ok entry :=
  find_of_locate (h.locate he) he

def lastFor (files : List (Location × ByteArray)) (location : Location) : Option ByteArray :=
  files.reverse.lookup location

@[simp] theorem lastFor_nil (location : Location) : lastFor [] location = none := rfl

theorem lastFor_cons (first : Location × ByteArray) (rest : List (Location × ByteArray))
    (location : Location) : lastFor (first :: rest) location =
      (lastFor rest location).or (if location = first.1 then some first.2 else none) := by
  rw [lastFor, List.reverse_cons, List.lookup_append, ← lastFor]
  congr 1
  by_cases h : location = first.1
  · rw [if_pos h, h, List.lookup_cons_self]
  · rw [if_neg h, List.lookup_cons, beq_false_of_ne h]
    rfl

theorem lastFor_eq_none {files : List (Location × ByteArray)} {location : Location}
    (hl : location ∉ files.map (·.1)) : lastFor files location = none := by
  rw [lastFor, List.lookup_eq_none_iff]
  intro file hm
  rw [bne_iff_ne]
  rintro rfl
  exact hl (List.mem_map_of_mem (List.mem_reverse.mp hm))

structure Moved (before : Disk) (staged : List Staged) (contents : List ByteArray)
    (locations : List Location) (after : Disk) : Prop where
  current : after.current = before.current
  directories : ∀ l, after.hasDirectory l = before.hasDirectory l
  targets : List.Forall₂ (fun s location => before.Replaceable s.path location) staged locations
  lookup : ∀ l, after.lookup l = match lastFor (locations.zip contents) l with
    | some content => some (.file content)
    | none => if l ∈ staged.map (·.location) then none else before.lookup l

theorem lookup_put {files : List (Location × ByteArray)} (hne : ∀ file ∈ files, file.1 ≠ [])
    (l : Location) :
    (disk.put files).lookup l = match lastFor files l with
      | some content => some (.file content)
      | none => disk.lookup l := by
  induction files generalizing disk with
  | nil => rfl
  | cons file rest ih =>
    obtain ⟨hfile, hrest⟩ := List.forall_mem_cons.mp hne
    rw [put, List.foldl_cons, ← put, ih hrest, lastFor_cons, lookup_insert hfile]
    cases lastFor rest l with
    | some later => rfl
    | none =>
      rw [Option.none_or]
      split_ifs <;> rfl

theorem Waiting.moved {staged : List Staged} {contents : List ByteArray}
    {locations : List Location} (h : disk.Waiting staged contents)
    (htargets : List.Forall₂ (fun s location => disk.Replaceable s.path location) staged
      locations) :
    Moved disk staged contents locations
      ((disk.discard staged).put (locations.zip contents)) := by
  have hfree : ∀ file ∈ locations.zip contents,
      file.1 ≠ [] ∧ (disk.discard staged).hasDirectory file.1 = false := by
    intro file hm
    obtain ⟨s, _, hr⟩ := exists_of_forall₂_of_mem htargets.flip (List.of_mem_zip hm).1
    have hne := Replaceable.ne_nil hr
    obtain ⟨_, _, _, _, _, hfile⟩ := hr
    exact ⟨hne, (h.hasDirectory_discard file.1).trans hfile⟩
  refine ⟨(current_put _).trans (current_discard staged), ?_, htargets, ?_⟩
  · intro l
    rw [hasDirectory_put hfree, h.hasDirectory_discard]
  · intro l
    rw [lookup_put fun file hm => (hfree file hm).1, lookup_discard h.ne_nil]

theorem Holds.waiting {index : Nat} {files : List (Path × ByteArray)} {staged : List Staged}
    (hp : ∀ file ∈ files, file.1.Spelled) (h : Holds disk index files staged after) :
    after.Waiting staged (files.map (·.2)) := by
  refine ⟨?_, ?_, h.nodup, ?_⟩
  · intro s hs
    obtain ⟨file, hfile, hpath, _⟩ := exists_of_forall₂_of_mem h.files hs
    exact hpath ▸ hp file hfile
  · intro s hs
    obtain ⟨directory, i, _, hlocation⟩ := h.names s hs
    exact ⟨directory, i, hlocation⟩
  · rw [List.forall₂_map_right_iff]
    exact h.files.imp fun _ _ hs => hs.2

theorem Holds.replaceable_iff {index : Nat} {files : List (Path × ByteArray)}
    {staged : List Staged} {locations : List Location} {before other : Disk}
    (h : Holds before index files staged after) :
    List.Forall₂ (fun s location => other.Replaceable s.path location) staged locations ↔
      List.Forall₂ (fun file location => other.Replaceable file.1 location) files locations := by
  have hpaths : staged.map (·.path) = files.map (·.1) :=
    map_eq_map_of_forall₂ h.files fun _ _ hs => hs.1
  have hstaged : List.Forall₂ other.Replaceable (staged.map (·.path)) locations ↔ _ :=
    List.forall₂_map_left_iff
  rw [← hstaged, hpaths, List.forall₂_map_left_iff]

theorem Moved.replaceable {staged : List Staged} {contents : List ByteArray}
    {locations : List Location} (h : Moved disk staged contents locations after) :
    List.Forall₂ (fun s location => after.Replaceable s.path location) staged locations :=
  h.targets.imp fun _ _ ht => ht.congr h.current h.directories

theorem Moved.lookup_of_not_mem {staged : List Staged} {contents : List ByteArray}
    {locations : List Location} (h : Moved disk staged contents locations after) {l : Location}
    (hl : l ∉ locations) :
    after.lookup l = if l ∈ staged.map (·.location) then none else disk.lookup l := by
  rw [h.lookup, lastFor_eq_none]
  intro hm
  obtain ⟨file, hfile, rfl⟩ := List.mem_map.mp hm
  exact hl (List.of_mem_zip hfile).1

theorem writeAll_eq_put {files : List (Path × ByteArray)}
    (hp : ∀ file ∈ files, file.1.Spelled) (hf : disk.FreshFrom 0)
    (h : disk.writeAll files = (.ok (), after)) :
    ∃ staged ready locations, disk.stageAll 0 files = (.ok staged, ready) ∧
      Holds disk 0 files staged ready ∧
      List.Forall₂ (fun s location => ready.Replaceable s.path location) staged locations ∧
      after = (ready.discard staged).put (locations.zip (files.map (·.2))) := by
  unfold writeAll at h
  rcases stageAll_spec hp hf with ⟨failure, ready, hstage, _⟩ | ⟨staged, ready, hstage, hholds⟩
  · simp [hstage] at h
  · simp only [hstage] at h
    obtain ⟨locations, htargets, hafter⟩ := (moveAll_eq_ok_iff (hholds.waiting hp)).mp h
    exact ⟨staged, ready, locations, hstage, hholds, htargets, hafter⟩

theorem exists_moved_of_writeAll {files : List (Path × ByteArray)}
    (hp : ∀ file ∈ files, file.1.Spelled) (hf : disk.FreshFrom 0)
    (h : disk.writeAll files = (.ok (), after)) :
    ∃ staged ready locations, Holds disk 0 files staged ready ∧
      Moved ready staged (files.map (·.2)) locations after := by
  obtain ⟨staged, ready, locations, _, hholds, htargets, rfl⟩ := writeAll_eq_put hp hf h
  exact ⟨staged, ready, locations, hholds, (hholds.waiting hp).moved htargets⟩

theorem find_of_writeAll_pair {first second : Path × ByteArray} (hp : first.1.Spelled)
    (hq : second.1.Spelled) (hf : disk.FreshFrom 0)
    (h : disk.writeAll [first, second] = (.ok (), after)) :
    ∃ location other, after.locate first.1 = .ok location ∧ after.locate second.1 = .ok other ∧
      after.find first.1 = .ok (.file (if location = other then second.2 else first.2)) ∧
      after.find second.1 = .ok (.file second.2) := by
  have hspelled : ∀ file ∈ [first, second], file.1.Spelled := by simp [hp, hq]
  obtain ⟨staged, ready, locations, hholds, hmoved⟩ := exists_moved_of_writeAll hspelled hf h
  obtain ⟨s, _, ⟨hs, _⟩, htail, rfl⟩ := List.forall₂_cons_right_iff.mp hholds.files
  obtain ⟨t, _, ⟨ht, _⟩, hnil, rfl⟩ := List.forall₂_cons_right_iff.mp htail
  obtain rfl := List.forall₂_nil_right_iff.mp hnil
  obtain ⟨location, _, hfirst, htail, rfl⟩ := List.forall₂_cons_left_iff.mp hmoved.replaceable
  obtain ⟨other, _, hsecond, hnil, rfl⟩ := List.forall₂_cons_left_iff.mp htail
  obtain rfl := List.forall₂_nil_left_iff.mp hnil
  rw [hs] at hfirst
  rw [ht] at hsecond
  have hother : after.lookup other = some (.file second.2) := by
    simp [hmoved.lookup, lastFor_cons]
  have hlocation : after.lookup location =
      some (.file (if location = other then second.2 else first.2)) := by
    by_cases heq : location = other
    · rw [if_pos heq, heq, hother]
    · simp [hmoved.lookup, lastFor_cons, heq]
  exact ⟨location, other, hfirst.locate hlocation, hsecond.locate hother, hfirst.find hlocation,
    hsecond.find hother⟩

def SameFile (disk : Disk) (path other : Path) : Prop :=
  ∃ location, disk.locate path = .ok location ∧ disk.locate other = .ok location

end Disk

namespace ScriptFiles

theorem find_of_write {settings : Settings} {searchPath : Path} {disk after : Disk}
    {scripts : Scripts} (output : settings.outputDirectory.Spelled) (searched : searchPath.Spelled)
    (spelled : disk.NamesSpelled)
    (written : (settings.scriptFiles searchPath).write disk scripts = (.ok (), after)) :
    after.find ((settings.scriptFiles searchPath).path .uninstall) =
        .ok (.file (content scripts .uninstall)) ∧
      (after.find ((settings.scriptFiles searchPath).path .install) =
          .ok (.file (content scripts .install)) ↔
        ¬ after.SameFile ((settings.scriptFiles searchPath).path .install)
            ((settings.scriptFiles searchPath).path .uninstall) ∨
          content scripts .install = content scripts .uninstall) := by
  have hpath := Settings.spelled_scriptFiles output searched
  obtain ⟨location, other, hlocate, hlocateother, hinstall, huninstall⟩ :=
    Disk.find_of_writeAll_pair (hpath .install) (hpath .uninstall) (spelled.freshFrom 0) written
  refine ⟨huninstall, ?_⟩
  have hsame : after.SameFile ((settings.scriptFiles searchPath).path .install)
      ((settings.scriptFiles searchPath).path .uninstall) ↔ location = other := by
    constructor
    · rintro ⟨l, hl, hlother⟩
      rw [hlocate] at hl
      rw [hlocateother] at hlother
      exact (Except.ok.inj hl).trans (Except.ok.inj hlother).symm
    · rintro rfl
      exact ⟨location, hlocate, hlocateother⟩
  rw [hinstall, hsame, Except.ok.injEq, Entry.file.injEq]
  by_cases heq : location = other
  · simp [heq, eq_comm]
  · simp [heq]

end ScriptFiles

namespace Sample

def respelled : Settings := { uninstallFile := "./install.conf" }

def vlanScripts : Scripts := ⟨["add vlan 20"], ["rm vlan 20"]⟩

def noScripts : Disk :=
  { current := [], entries := [(["m"], .directory), (["m", "output"], .directory)] }

def oneScript : Disk :=
  { current := []
    entries := [(["m"], .directory), (["m", "output"], .directory),
      (["m", "output", "install.conf"], .file (ScriptFiles.content vlanScripts .uninstall))] }

theorem validate_respelled : respelled.validate = .ok () := by rfl

theorem spelled_respelled : respelled.outputDirectory.Spelled := Path.spelled_ofText "output"

theorem namesSpelled_noScripts : noScripts.NamesSpelled := by
  unfold Disk.NamesSpelled noScripts
  decide

theorem write_respelled :
    (respelled.scriptFiles (.ofText "m")).write noScripts vlanScripts = (.ok (), oneScript) := by
  rfl

theorem find_respelled (direction : Direction) :
    oneScript.find ((respelled.scriptFiles (.ofText "m")).path direction) =
      .ok (.file (ScriptFiles.content vlanScripts .uninstall)) := by
  cases direction <;> rfl

end Sample

namespace ScriptFiles

theorem sample_respelled_overwritten :
    Sample.respelled.outputDirectory.Spelled ∧ (Path.ofText "m").Spelled ∧
      Sample.noScripts.NamesSpelled ∧
      (Sample.respelled.scriptFiles (.ofText "m")).write Sample.noScripts Sample.vlanScripts =
        (.ok (), Sample.oneScript) ∧
      Sample.oneScript.find ((Sample.respelled.scriptFiles (.ofText "m")).path .uninstall) =
        .ok (.file (content Sample.vlanScripts .uninstall)) :=
  ⟨Sample.spelled_respelled, Path.spelled_ofText "m", Sample.namesSpelled_noScripts,
    Sample.write_respelled,
    (find_of_write Sample.spelled_respelled (Path.spelled_ofText "m")
      Sample.namesSpelled_noScripts Sample.write_respelled).1⟩

theorem not_find_of_write :
    ¬ ∀ (settings : Settings) (searchPath : Path) (disk after : Disk) (scripts : Scripts),
      settings.validate = .ok () → settings.outputDirectory.Spelled → searchPath.Spelled →
      disk.NamesSpelled →
      (settings.scriptFiles searchPath).write disk scripts = (.ok (), after) →
      ∀ direction, after.find ((settings.scriptFiles searchPath).path direction) =
        .ok (.file (content scripts direction)) := by
  intro hall
  have hinstall := hall Sample.respelled (.ofText "m") Sample.noScripts Sample.oneScript
    Sample.vlanScripts Sample.validate_respelled Sample.spelled_respelled
    (Path.spelled_ofText "m") Sample.namesSpelled_noScripts Sample.write_respelled .install
  rw [Sample.find_respelled] at hinstall
  have hsame : content Sample.vlanScripts .uninstall = content Sample.vlanScripts .install :=
    Entry.file.inj (Except.ok.inj hinstall)
  exact absurd (String.toByteArray_inj.mp hsame) (by decide +kernel)

end ScriptFiles

end ApplianceScript
