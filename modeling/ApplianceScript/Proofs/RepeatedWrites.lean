import ApplianceScript.Proofs.WrittenFiles

namespace ApplianceScript

namespace Disk

variable {disk after : Disk} {location directory : Location}

theorem eq_of_follow_idle {piece : String} (hidle : piece = "" ∨ piece = ".")
    (h : disk.follow location [piece] = .ok directory) : directory = location := by
  unfold follow at h
  split_ifs at h with hdirectory hstay hup hlong
  · exact (Except.ok.inj h).symm
  · simp [hidle] at hstay
  · simp [hidle] at hstay

theorem follow_dropIdle {absolute : Bool} {pieces : List String}
    (h : disk.follow location pieces.reverse = .ok directory) :
    disk.follow location (Path.dropIdle absolute pieces).reverse = .ok directory := by
  induction pieces with
  | nil => exact h
  | cons last more ih =>
    cases more with
    | nil =>
      unfold Path.dropIdle
      split_ifs with hdrop
      · obtain rfl := eq_of_follow_idle (by grind) h
        rfl
      · exact h
    | cons next more =>
      unfold Path.dropIdle
      split_ifs with hdrop
      · apply ih
        rw [List.reverse_cons, follow_append] at h
        obtain ⟨middle, hmiddle, hlast⟩ := bind_eq_ok_iff.mp h
        obtain rfl := eq_of_follow_idle (by simpa using hdrop) hlast
        exact hmiddle
      · exact h

theorem dropIdle_cons {absolute : Bool} {last : String} (hempty : last ≠ "") (hdot : last ≠ ".")
    (above : List String) : Path.dropIdle absolute (last :: above) = last :: above := by
  cases above <;> simp [Path.dropIdle, hempty, hdot]

theorem Replaceable.locate_stagingDirectory {path : Path} (h : disk.Replaceable path location) :
    ∃ directory, disk.locate (stagingDirectory path) = .ok directory ∧
      disk.hasDirectory directory = true := by
  obtain ⟨directory, name, ht, rfl, hlast, _⟩ := h
  obtain ⟨_, before, hsplit, hf, hdirectory, hdot, _⟩ := target_eq_name_iff.mp ht
  obtain ⟨hpieces, hempty⟩ := pieces_eq_of_splitLast hsplit hlast
  refine ⟨directory, ?_, hdirectory⟩
  have hparent : path.parent? = some
      (Path.ofReversed path.absolute (Path.dropIdle path.absolute before.reverse)) := by
    rw [Path.parent?, hpieces, List.reverse_append, List.reverse_singleton, List.singleton_append,
      dropIdle_cons hempty hdot]
  have hkept : disk.follow (disk.origin path)
      (Path.dropIdle path.absolute before.reverse).reverse = .ok directory := by
    apply follow_dropIdle
    rwa [List.reverse_reverse]
  generalize Path.dropIdle path.absolute before.reverse = kept at hparent hkept
  have hfollow : disk.follow (disk.origin path) (Path.ofReversed path.absolute kept).pieces =
      .ok directory := by
    cases kept with
    | nil =>
      obtain rfl := Except.ok.inj hkept
      exact follow_idle (List.forall_mem_singleton.mpr (.inl rfl)) hdirectory
    | cons last above => exact hkept
  rw [stagingDirectory, hparent]
  simp only
  split_ifs with hhere
  · simp only [Path.isEmpty, Bool.and_eq_true, Bool.not_eq_true', decide_eq_true_eq] at hhere
    obtain ⟨hrelative, hnone⟩ := hhere
    rw [hnone] at hfollow
    obtain rfl := eq_of_follow_idle (.inl rfl) hfollow
    have horigin : disk.origin path = disk.origin .here := by
      change path.absolute = false at hrelative
      rw [origin, hrelative]
      rfl
    rw [horigin] at hdirectory ⊢
    exact follow_idle (List.forall_mem_singleton.mpr (.inr rfl)) hdirectory
  · rw [Disk.locate, if_neg hhere]
    exact hfollow

theorem stage_of_locate {path : Path} (hl : disk.locate (stagingDirectory path) = .ok directory)
    (hd : disk.hasDirectory directory = true) (index : Nat) (content : ByteArray) :
    disk.stage index path content = (.ok ⟨directory ++ [temporaryName index], path⟩,
      disk.insert (directory ++ [temporaryName index]) (.file content)) := by
  have hfind := find_of_locate hl (hasDirectory_iff.mp hd)
  have hensure : disk.ensureDirectory (stagingDirectory path) = (.ok (), disk) := by
    simp [ensureDirectory, has, isDirectory, hfind]
  rw [stage, hensure]
  simp only [hl]

theorem stageAll_of_replaceable {files : List (Path × ByteArray)} {index : Nat}
    (hr : ∀ file ∈ files, ∃ location, disk.Replaceable file.1 location)
    (hf : disk.FreshFrom index) :
    ∃ staged ready, disk.stageAll index files = (.ok staged, ready) ∧
      ready.discard staged = disk := by
  induction files generalizing disk index with
  | nil => exact ⟨[], disk, rfl, rfl⟩
  | cons file rest ih =>
    obtain ⟨path, content⟩ := file
    obtain ⟨⟨location, hpath⟩, hrest⟩ := List.forall_mem_cons.mp hr
    obtain ⟨directory, hl, hd⟩ := hpath.locate_stagingDirectory
    have hne := append_temporaryName_ne_nil directory index
    have hnone := hf directory index (Nat.le_refl _)
    have hfree : disk.hasDirectory (directory ++ [temporaryName index]) = false := by
      rw [hasDirectory, hnone]
    have hstill : ∀ file ∈ rest, ∃ location,
        (disk.insert (directory ++ [temporaryName index]) (.file content)).Replaceable file.1
          location := by
      intro file hm
      obtain ⟨location, hfile⟩ := hrest file hm
      have hsame := hasDirectory_insert_file hne hfree content
      have hcurrent : (disk.insert (directory ++ [temporaryName index]) (.file content)).current =
          disk.current := rfl
      exact ⟨location, hfile.congr hcurrent hsame⟩
    obtain ⟨staged, ready, hstage, hdiscard⟩ := ih hstill hf.insert
    refine ⟨⟨directory ++ [temporaryName index], path⟩ :: staged, ready, ?_, ?_⟩
    · rw [stageAll, stage_of_locate hl hd]
      simp only [hstage]
    · rw [discard, List.foldl_cons, ← discard, ← erase_discard, hdiscard, erase_insert_self,
        erase_eq_self hne hnone]

section Write

variable {files : List (Path × ByteArray)} (hp : ∀ file ∈ files, file.1.Spelled)
  (hf : disk.FreshFrom 0) (h : disk.writeAll files = (.ok (), after))

include hp hf h

theorem exists_replaceable_of_writeAll :
    ∃ locations,
      List.Forall₂ (fun file location => after.Replaceable file.1 location) files locations ∧
      after.put (locations.zip (files.map (·.2))) = after ∧
      ∀ l ∉ locations, disk.KeptAt after l := by
  obtain ⟨staged, ready, locations, _, hholds, htargets, rfl⟩ := writeAll_eq_put hp hf h
  have hmoved := (hholds.waiting hp).moved htargets
  refine ⟨locations, hholds.replaceable_iff.mp hmoved.replaceable, put_put _ _, ?_⟩
  intro l hl
  have hkept := hholds.added l
  unfold KeptAt at hkept ⊢
  rw [lookup_discard hholds.ne_nil] at hkept
  rw [hmoved.lookup_of_not_mem hl]
  exact hkept

theorem current_of_writeAll : after.current = disk.current := by
  obtain ⟨_, _, _, hholds, hmoved⟩ := exists_moved_of_writeAll hp hf h
  exact hmoved.current.trans hholds.current

theorem hasDirectory_of_writeAll (l : Location) (hl : disk.hasDirectory l = true) :
    after.hasDirectory l = true := by
  obtain ⟨staged, ready, locations, hholds, hmoved⟩ := exists_moved_of_writeAll hp hf h
  rw [hmoved.directories, ← (hholds.waiting hp).hasDirectory_discard, hasDirectory_iff]
  rw [hasDirectory_iff] at hl
  rcases hholds.added l with hsame | ⟨hnone, _⟩
  · exact hsame.trans hl
  · cases hnone.symm.trans hl

theorem freshFrom_of_writeAll : after.FreshFrom 0 := by
  obtain ⟨staged, ready, locations, hholds, hmoved⟩ := exists_moved_of_writeAll hp hf h
  intro directory i hi
  have hnot : directory ++ [temporaryName i] ∉ locations := by
    intro hm
    have htargets := hholds.replaceable_iff.mp hmoved.replaceable
    obtain ⟨file, hfile, hr⟩ := exists_of_forall₂_of_mem htargets.flip hm
    exact Replaceable.ne_temporary (hp file hfile) hr directory i rfl
  rw [hmoved.lookup_of_not_mem hnot]
  split_ifs with hstaged
  · rfl
  · rw [hholds.temporary directory i hstaged, hf directory i hi]

theorem writeAll_again : after.writeAll files = (.ok (), after) := by
  obtain ⟨locations, htargets, hput, _⟩ := exists_replaceable_of_writeAll hp hf h
  have hfresh := freshFrom_of_writeAll hp hf h
  have hall : ∀ file ∈ files, ∃ location, after.Replaceable file.1 location := by
    intro file hm
    obtain ⟨location, _, hr⟩ := exists_of_forall₂_of_mem htargets hm
    exact ⟨location, hr⟩
  obtain ⟨staged, ready, hstage, hdiscard⟩ := stageAll_of_replaceable hall hfresh
  rcases stageAll_spec hp hfresh with ⟨_, _, hfailed, _⟩ | ⟨_, _, hsame, hholds⟩
  · cases hstage.symm.trans hfailed
  · cases hstage.symm.trans hsame
    have hwaiting := hholds.waiting hp
    -- What is staged takes no directory away, so the paths stay replaceable.
    have hdirectory (l : Location) : ready.hasDirectory l = after.hasDirectory l := by
      rw [← hwaiting.hasDirectory_discard, hdiscard]
    have htargets := hholds.replaceable_iff.mpr
      (htargets.imp fun _ _ hr => hr.congr hholds.current hdirectory)
    rw [writeAll, hstage]
    exact (moveAll_eq_ok_iff hwaiting).mpr ⟨locations, htargets, by rw [hdiscard, hput]⟩

end Write

end Disk

end ApplianceScript
