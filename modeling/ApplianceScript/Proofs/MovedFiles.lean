import ApplianceScript.Proofs.Replacement
import ApplianceScript.Proofs.Traversal
import Mathlib.Data.List.Induction

/-!
Staged files that are moved over their paths.

Moving all of them comes to this: the temporary files are gone, and their contents stand at the
locations that the paths lead to, put there one after the other. It succeeds when every path can be
replaced to begin with, for no move opens or closes the way to another path.
-/

namespace ApplianceScript

namespace Disk

def put (disk : Disk) (files : List (Location × ByteArray)) : Disk :=
  files.foldl (fun disk file => disk.insert file.1 (.file file.2)) disk

variable {disk other after : Disk} {location l : Location} {entry : Entry}

section Entries

theorem erase_comm (disk : Disk) (location l : Location) :
    (disk.erase location).erase l = (disk.erase l).erase location := by
  simp only [erase, List.filter_filter, Bool.and_comm]

theorem erase_erase_self (disk : Disk) (location : Location) :
    (disk.erase location).erase location = disk.erase location := by
  simp only [erase, List.filter_filter, Bool.and_self]

theorem erase_insert_self :
    (disk.insert location entry).erase location = disk.erase location := by
  have hnew : [(location, entry)].filter (·.1 ≠ location) = [] := by simp
  rw [insert, erase, List.filter_append, hnew, List.append_nil]
  exact erase_erase_self disk location

theorem erase_insert_of_ne (hl : l ≠ location) :
    (disk.insert l entry).erase location = (disk.erase location).insert l entry := by
  have hnew : [(l, entry)].filter (·.1 ≠ location) = [(l, entry)] := by simp [hl]
  rw [insert, erase, List.filter_append, hnew, insert, erase_comm]
  rfl

theorem insert_congr (h : disk.erase location = other.erase location) :
    disk.insert location entry = other.insert location entry := by
  change Disk.mk (disk.erase location).current ((disk.erase location).entries ++ _) =
    Disk.mk (other.erase location).current ((other.erase location).entries ++ _)
  rw [h]

theorem erase_eq_self (hne : location ≠ []) (h : disk.lookup location = none) :
    disk.erase location = disk := by
  rw [lookup_of_ne_nil hne, List.lookup_eq_none_iff] at h
  have hall : disk.entries.filter (·.1 ≠ location) = disk.entries := by
    apply List.filter_eq_self.mpr
    intro found hm
    exact decide_eq_true (bne_iff_ne.mp (h found hm)).symm
  rw [erase, hall]

theorem erase_put_congr {files : List (Location × ByteArray)}
    (h : disk.erase location = other.erase location) :
    (disk.put files).erase location = (other.put files).erase location := by
  induction files generalizing disk other with
  | nil => exact h
  | cons file rest ih =>
    apply ih
    by_cases hf : file.1 = location
    · subst hf
      rw [erase_insert_self, erase_insert_self, h]
    · rw [erase_insert_of_ne hf, erase_insert_of_ne hf, h]

theorem put_put (disk : Disk) (files : List (Location × ByteArray)) :
    (disk.put files).put files = disk.put files := by
  induction files using List.reverseRecOn with
  | nil => rfl
  | append_singleton front last ih =>
    have hsplit (disk : Disk) : disk.put (front ++ [last]) =
        (disk.put front).insert last.1 (.file last.2) := by
      rw [put, List.foldl_append]
      rfl
    rw [hsplit, hsplit, insert_congr (erase_put_congr erase_insert_self), ih]

theorem hasDirectory_insert_file (hne : location ≠ [])
    (hfree : disk.hasDirectory location = false) (content : ByteArray) (l : Location) :
    (disk.insert location (.file content)).hasDirectory l = disk.hasDirectory l := by
  rw [hasDirectory, lookup_insert hne]
  split_ifs with hl
  · rw [hl, hfree]
  · rfl

theorem hasDirectory_put {files : List (Location × ByteArray)}
    (hfree : ∀ file ∈ files, file.1 ≠ [] ∧ disk.hasDirectory file.1 = false) (l : Location) :
    (disk.put files).hasDirectory l = disk.hasDirectory l := by
  induction files generalizing disk with
  | nil => rfl
  | cons file rest ih =>
    obtain ⟨⟨hne, hfile⟩, hrest⟩ := List.forall_mem_cons.mp hfree
    have hsame := hasDirectory_insert_file hne hfile file.2
    rw [put, List.foldl_cons, ← put, ih, hsame]
    exact fun other hm => ⟨(hrest other hm).1, (hsame other.1).trans (hrest other hm).2⟩

theorem current_put (files : List (Location × ByteArray)) :
    (disk.put files).current = disk.current := by
  induction files generalizing disk with
  | nil => rfl
  | cons file rest ih => exact ih

theorem current_discard (staged : List Staged) : (disk.discard staged).current = disk.current := by
  induction staged generalizing disk with
  | nil => rfl
  | cons s rest ih => exact ih

theorem erase_discard (staged : List Staged) (location : Location) :
    (disk.discard staged).erase location = (disk.erase location).discard staged := by
  induction staged generalizing disk with
  | nil => rfl
  | cons s rest ih =>
    rw [discard, discard, List.foldl_cons, List.foldl_cons, ← discard, ← discard, ih, erase_comm]

theorem discard_insert {staged : List Staged} (hl : l ∉ staged.map (·.location)) :
    (disk.insert l entry).discard staged = (disk.discard staged).insert l entry := by
  induction staged generalizing disk with
  | nil => rfl
  | cons s rest ih =>
    obtain ⟨hs, hrest⟩ := List.ne_and_not_mem_of_not_mem_cons hl
    rw [discard, discard, List.foldl_cons, List.foldl_cons, ← discard, ← discard,
      erase_insert_of_ne hs, ih hrest]

end Entries

section Step

variable {s : Staged} {content : ByteArray} (hr : disk.Replaceable s.path location)
  (hfile : disk.lookup s.location = some (.file content)) (hne : s.location ≠ [])

include hr hfile hne

theorem replaceable_moved_iff {path : Path} :
    ((disk.erase s.location).insert location (.file content)).Replaceable path l ↔
      disk.Replaceable path l := by
  have hsame := hasDirectory_moved hr hne hfile
  have hcurrent : ((disk.erase s.location).insert location (.file content)).current =
      disk.current := rfl
  constructor
  · exact fun hmoved => hmoved.congr hcurrent.symm fun l => (hsame l).symm
  · exact fun hbefore => hbefore.congr hcurrent hsame

end Step

structure Waiting (disk : Disk) (staged : List Staged) (contents : List ByteArray) : Prop where
  spelled : ∀ s ∈ staged, s.path.Spelled
  names : ∀ s ∈ staged, ∃ directory i, s.location = directory ++ [temporaryName i]
  nodup : (staged.map (·.location)).Nodup
  files : List.Forall₂ (fun s content => disk.lookup s.location = some (.file content)) staged
    contents

namespace Waiting

variable {staged : List Staged} {contents : List ByteArray} (h : disk.Waiting staged contents)

include h

theorem ne_nil : ∀ s ∈ staged, s.location ≠ [] := by
  intro s hs
  obtain ⟨directory, i, hl⟩ := h.names s hs
  rw [hl]
  exact append_temporaryName_ne_nil directory i

theorem not_mem {path : Path} (hp : path.Spelled) (hr : disk.Replaceable path location) :
    location ∉ staged.map (·.location) := by
  intro hm
  obtain ⟨s, hs, rfl⟩ := List.mem_map.mp hm
  obtain ⟨directory, i, hl⟩ := h.names s hs
  exact hr.ne_temporary hp directory i hl

theorem hasDirectory_discard (l : Location) :
    (disk.discard staged).hasDirectory l = disk.hasDirectory l := by
  rw [hasDirectory, lookup_discard h.ne_nil]
  split_ifs with hl
  · obtain ⟨s, hs, rfl⟩ := List.mem_map.mp hl
    obtain ⟨content, _, hfile⟩ := exists_of_forall₂_of_mem h.files hs
    rw [hasDirectory, hfile]
  · rfl

end Waiting

theorem Waiting.tail {s : Staged} {rest : List Staged} {content : ByteArray}
    {contents : List ByteArray} (h : disk.Waiting (s :: rest) (content :: contents))
    (hr : disk.Replaceable s.path location) :
    ((disk.erase s.location).insert location (.file content)).Waiting rest contents := by
  obtain ⟨_, hprest⟩ := List.forall_mem_cons.mp h.spelled
  obtain ⟨_, hnamesrest⟩ := List.forall_mem_cons.mp h.names
  obtain ⟨hfresh, hnrest⟩ := List.nodup_cons.mp h.nodup
  obtain ⟨_, hfiles⟩ := List.forall₂_cons.mp h.files
  have hnot := h.not_mem (h.spelled s List.mem_cons_self) hr
  have hapart : ∀ t ∈ rest, t.location ≠ location ∧ t.location ≠ s.location := by
    intro t ht
    constructor
    · rintro rfl
      exact hnot (List.mem_map_of_mem (List.mem_cons_of_mem s ht))
    · intro heq
      exact hfresh (List.mem_map.mpr ⟨t, ht, heq⟩)
  refine ⟨hprest, hnamesrest, hnrest, ?_⟩
  refine ((List.forall₂_and_left ..).mpr ⟨hapart, hfiles⟩).imp fun t later ht => ?_
  rw [lookup_moved hr (h.ne_nil s List.mem_cons_self), if_neg ht.1.1, if_neg ht.1.2]
  exact ht.2

theorem moveAll_eq_ok_iff {staged : List Staged} {contents : List ByteArray}
    (h : disk.Waiting staged contents) :
    disk.moveAll staged = (.ok (), after) ↔
      ∃ locations,
        List.Forall₂ (fun s location => disk.Replaceable s.path location) staged locations ∧
        after = (disk.discard staged).put (locations.zip contents) := by
  induction staged generalizing disk contents with
  | nil =>
    simp only [moveAll, List.forall₂_nil_left_iff, exists_eq_left, List.zip_nil_left]
    exact ⟨fun h => (Prod.mk.inj h).2.symm, fun h => h ▸ rfl⟩
  | cons s rest ih =>
    obtain ⟨content, contents, hfile, _, rfl⟩ := List.forall₂_cons_left_iff.mp h.files
    have hne := h.ne_nil s List.mem_cons_self
    have hput {location : Location} (hr : disk.Replaceable s.path location)
        (locations : List Location) :
        (((disk.erase s.location).insert location (.file content)).discard rest).put
            (locations.zip contents) =
          (disk.discard (s :: rest)).put ((location :: locations).zip (content :: contents)) := by
      have hnot := h.not_mem (h.spelled s List.mem_cons_self) hr
      rw [discard_insert (List.not_mem_of_not_mem_cons hnot)]
      rfl
    rw [moveAll]
    constructor
    · intro hmoved
      cases hmove : disk.moveOver s with
      | error kind => simp [hmove] at hmoved
      | ok moved =>
        simp only [hmove] at hmoved
        obtain ⟨location, entry, hr, hentry, rfl⟩ := moveOver_eq_ok_iff.mp hmove
        obtain rfl := Option.some.inj (hfile.symm.trans hentry)
        obtain ⟨locations, htargets, rfl⟩ := (ih (h.tail hr)).mp hmoved
        refine ⟨location :: locations, .cons hr ?_, hput hr locations⟩
        exact htargets.imp fun _ _ ht => (replaceable_moved_iff hr hfile hne).mp ht
    · rintro ⟨_, hall, rfl⟩
      obtain ⟨location, locations, hr, htargets, rfl⟩ := List.forall₂_cons_left_iff.mp hall
      have hmove := moveOver_eq_ok_iff.mpr ⟨location, _, hr, hfile, rfl⟩
      simp only [hmove]
      refine (ih (h.tail hr)).mpr ⟨locations, ?_, (hput hr locations).symm⟩
      exact htargets.imp fun _ _ ht => (replaceable_moved_iff hr hfile hne).mpr ht

end Disk

end ApplianceScript
