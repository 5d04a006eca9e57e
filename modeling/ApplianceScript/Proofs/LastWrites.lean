import ApplianceScript.Proofs.MadeDirectories
import ApplianceScript.Proofs.RepeatedWrites
import Mathlib

namespace ApplianceScript

namespace Disk

variable {disk after : Disk} {files : List (Path × ByteArray)} {locations : List Location}

theorem exists_last_of_mem {r : Path × ByteArray → Location → Prop} {location : Location}
    (h : List.Forall₂ r files locations) (hm : location ∈ locations) :
    ∃ front last back, files = front ++ last :: back ∧ r last location ∧
      lastFor (locations.zip (files.map (·.2))) location = some last.2 ∧
      ∀ later ∈ back, ∃ other ≠ location, r later other := by
  induction h with
  | nil => cases hm
  | @cons file found rest others hfile hrest ih =>
    rw [List.map_cons, List.zip_cons_cons, lastFor_cons]
    by_cases hlater : location ∈ others
    · obtain ⟨front, last, back, rfl, hlast, hfor, hback⟩ := ih hlater
      refine ⟨file :: front, last, back, rfl, hlast, ?_, hback⟩
      rw [hfor, Option.some_or]
    · obtain rfl := (List.mem_cons.mp hm).resolve_right hlater
      refine ⟨[], file, rest, rfl, hfile, ?_, fun later hmem => ?_⟩
      · rw [lastFor_eq_none fun hzip => ?_, if_pos rfl, Option.none_or]
        obtain ⟨pair, hpair, rfl⟩ := List.mem_map.mp hzip
        exact hlater (List.of_mem_zip hpair).1
      · obtain ⟨other, hother, hr⟩ := exists_of_forall₂_of_mem hrest hmem
        exact ⟨other, fun heq => hlater (heq ▸ hother), hr⟩

section Written

variable (hp : ∀ file ∈ files, file.1.Spelled) (hf : disk.FreshFrom 0)
  (h : disk.writeAll files = (.ok (), after))

include hp hf h

theorem makesOnly_writeAll : MakesOnly (files.flatMap (·.1.parents)) disk after := by
  obtain ⟨staged, ready, locations, hstage, hholds, htargets, hafter⟩ := writeAll_eq_put hp hf h
  have hmoved := (hholds.waiting hp).moved htargets
  rw [← hafter] at hmoved
  have hready := makesOnly_stageAll hp hf
  rw [hstage] at hready
  exact hready.congr hmoved.current hmoved.directories

end Written

theorem find_last_of_writeAll (spelled : ∀ file ∈ files, file.1.Spelled)
    (named : disk.NamesSpelled) (written : disk.writeAll files = (.ok (), after)) :
    (∀ file ∈ files, ∃ front last back, files = front ++ last :: back ∧
        after.SameFile last.1 file.1 ∧ (∀ later ∈ back, ¬ after.SameFile later.1 file.1) ∧
        after.find file.1 = .ok (.file last.2)) ∧
      ∀ location, (∀ file ∈ files, after.locate file.1 ≠ .ok location) →
        after.lookup location = disk.lookup location ∨ MadeAt files disk after location := by
  obtain ⟨locations, htargets, hput, hkept⟩ :=
    exists_replaceable_of_writeAll spelled (named.freshFrom 0) written
  have hmade := makesOnly_writeAll spelled (named.freshFrom 0) written
  have hne : ∀ file ∈ locations.zip (files.map (·.2)), file.1 ≠ [] := by
    intro file hm
    obtain ⟨_, _, hr⟩ := exists_of_forall₂_of_mem htargets.flip (List.of_mem_zip hm).1
    exact Replaceable.ne_nil hr
  have hthere {location : Location} {content : ByteArray}
      (hfor : lastFor (locations.zip (files.map (·.2))) location = some content) :
      after.lookup location = some (.file content) := by
    rw [← hput, lookup_put hne, hfor]
  constructor
  · intro file hfile
    obtain ⟨location, hlocation, hr⟩ := exists_of_forall₂_of_mem htargets hfile
    obtain ⟨front, last, back, heq, hlast, hfor, hback⟩ := exists_last_of_mem htargets hlocation
    refine ⟨front, last, back, heq, ?_, ?_, hr.find (hthere hfor)⟩
    · exact ⟨location, hlast.locate (hthere hfor), hr.locate (hthere hfor)⟩
    · rintro later hlater ⟨found, hfound, hsame⟩
      obtain ⟨other, hother, ho⟩ := hback later hlater
      exact hother ((ho.eq_of_locate hfound).symm.trans (hr.eq_of_locate hsame))
  · intro location hnot
    refine (hkept location fun hm => ?_).eq_or_madeAt hmade
    obtain ⟨_, last, _, heq, hlast, hfor, _⟩ := exists_last_of_mem htargets hm
    exact hnot last (by simp [heq]) (hlast.locate (hthere hfor))

end Disk

namespace Sample

def crossedFiles : List (Path × ByteArray) :=
  [(.ofText "a.conf", "1".toUTF8), (.ofText "./out/../a.conf", "2".toUTF8),
    (.ofText "out/b.conf", "3".toUTF8)]

def beforeCrossed : Disk :=
  { current := ["m"]
    entries := [(["m"], .directory), (["m", "a.conf"], .file "0".toUTF8),
      (["m", "c.conf"], .file "9".toUTF8)] }

def afterCrossed : Disk :=
  { current := ["m"]
    entries := [(["m"], .directory), (["m", "c.conf"], .file "9".toUTF8),
      (["m", "out"], .directory), (["m", "a.conf"], .file "2".toUTF8),
      (["m", "out", "b.conf"], .file "3".toUTF8)] }

theorem namesSpelled_beforeCrossed : beforeCrossed.NamesSpelled := by
  unfold Disk.NamesSpelled beforeCrossed
  decide

theorem writeAll_crossed : beforeCrossed.writeAll crossedFiles = (.ok (), afterCrossed) := by
  cbv

theorem locate_crossed : crossedFiles.map (fun file => afterCrossed.locate file.1) =
    [.ok ["m", "a.conf"], .ok ["m", "a.conf"], .ok ["m", "out", "b.conf"]] := by
  cbv

end Sample

namespace Disk

theorem sample_last_spelling_stays :
    (∀ file ∈ Sample.crossedFiles, file.1.Spelled) ∧ Sample.beforeCrossed.NamesSpelled ∧
      Sample.beforeCrossed.writeAll Sample.crossedFiles = (.ok (), Sample.afterCrossed) ∧
      (∃ front last back, Sample.crossedFiles = front ++ last :: back ∧
        Sample.afterCrossed.SameFile last.1 (.ofText "a.conf") ∧
        Sample.afterCrossed.find (.ofText "a.conf") = .ok (.file last.2)) ∧
      MadeAt Sample.crossedFiles Sample.beforeCrossed Sample.afterCrossed ["m", "out"] := by
  have hspelled : ∀ file ∈ Sample.crossedFiles, file.1.Spelled := by
    simp [Sample.crossedFiles, Path.spelled_ofText]
  obtain ⟨hlast, helsewhere⟩ := find_last_of_writeAll hspelled Sample.namesSpelled_beforeCrossed
    Sample.writeAll_crossed
  obtain ⟨front, last, back, heq, hsame, _, hfind⟩ :=
    hlast (.ofText "a.conf", "1".toUTF8) (by simp [Sample.crossedFiles])
  refine ⟨hspelled, Sample.namesSpelled_beforeCrossed, Sample.writeAll_crossed,
    ⟨front, last, back, heq, hsame, hfind⟩, ?_⟩
  have hnot : ∀ file ∈ Sample.crossedFiles,
      Sample.afterCrossed.locate file.1 ≠ .ok ["m", "out"] := by
    intro file hm hout
    have hmem := List.mem_map_of_mem (f := fun file => Sample.afterCrossed.locate file.1) hm
    rw [Sample.locate_crossed, hout] at hmem
    simp at hmem
  have hnew : Sample.afterCrossed.lookup ["m", "out"] ≠ Sample.beforeCrossed.lookup ["m", "out"] :=
    Option.some_ne_none Entry.directory
  exact (helsewhere ["m", "out"] hnot).resolve_left hnew

end Disk

end ApplianceScript
