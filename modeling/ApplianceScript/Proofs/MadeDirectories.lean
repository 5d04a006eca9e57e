import ApplianceScript.Proofs.Ancestors

namespace ApplianceScript

namespace Disk

variable {disk other larger made : Disk} {location l : Location} {path : Path}

theorem hasDirectory_insert_directory (hne : location ≠ []) :
    (disk.insert location .directory).hasDirectory l = true ↔
      l = location ∨ disk.hasDirectory l = true := by
  rw [hasDirectory_iff, hasDirectory_iff, lookup_insert hne]
  split_ifs with hl <;> simp [hl]

theorem exists_insert_of_makeDirectory (h : disk.makeDirectory path = .ok made) :
    ∃ location ≠ [], made = disk.insert location .directory ∧ made.locate path = .ok location := by
  obtain ⟨directory, name, ht, _, rfl⟩ := makeDirectory_eq_ok_iff.mp h
  have hne : directory ++ [name] ≠ [] := by simp
  have hkept (l : Location) (hl : disk.hasDirectory l = true) :
      (disk.insert (directory ++ [name]) .directory).hasDirectory l = true :=
    (hasDirectory_insert_directory hne).mpr (.inr hl)
  exact ⟨_, hne, rfl, locate_of_target (target_of_hasDirectory hkept rfl ht)
    ((hasDirectory_insert_directory hne).mpr (.inl rfl))⟩

theorem isDirectory_of_makeDirectory (h : disk.makeDirectory path = .ok made) :
    made.isDirectory path = true := by
  obtain ⟨location, hne, rfl, hlocate⟩ := exists_insert_of_makeDirectory h
  exact isDirectory_iff.mpr
    ⟨location, hlocate, (hasDirectory_insert_directory hne).mpr (.inl rfl)⟩

theorem isDirectory_of_forgiven {kind : IoErrorKind} {after : Disk}
    (h : (if disk.isDirectory path then (.ok (), disk) else (.error kind, disk)) =
      ((.ok (), after) : Except IoErrorKind Unit × Disk)) : after.isDirectory path = true := by
  split_ifs at h with hd
  · obtain ⟨_, rfl⟩ := Prod.mk.inj h
    exact hd
  · cases congrArg Prod.fst h

theorem isDirectory_of_makeChain {above : List Path} {after : Disk}
    (h : disk.makeChain (path :: above) = (.ok (), after)) (hne : path.isEmpty = false) :
    after.isDirectory path = true := by
  rw [makeChain, if_neg (by simp [hne])] at h
  cases hmake : disk.makeDirectory path with
  | ok made =>
    simp only [hmake] at h
    obtain ⟨_, rfl⟩ := Prod.mk.inj h
    exact isDirectory_of_makeDirectory hmake
  | error kind =>
    cases kind with
    | notFound =>
      simp only [hmake] at h
      generalize disk.makeChain above = result at h
      obtain ⟨_ | _, later⟩ := result
      · cases congrArg Prod.fst h
      · simp only at h
        cases hagain : later.makeDirectory path with
        | ok made =>
          simp only [hagain] at h
          obtain ⟨_, rfl⟩ := Prod.mk.inj h
          exact isDirectory_of_makeDirectory hagain
        | error kind =>
          simp only [hagain] at h
          exact isDirectory_of_forgiven h
    | _ =>
      simp only [hmake] at h
      exact isDirectory_of_forgiven h

theorem isDirectory_of_ensureDirectory {after : Disk} (hne : path.isEmpty = false)
    (h : disk.ensureDirectory path = (.ok (), after)) : after.isDirectory path = true := by
  unfold ensureDirectory at h
  split_ifs at h with hmissing hfile
  · split at h <;> rename_i hmade
    · obtain ⟨_, rfl⟩ := Prod.mk.inj h
      exact isDirectory_of_makeChain hmade hne
    · cases congrArg Prod.fst h
  · cases congrArg Prod.fst h
  · obtain ⟨_, rfl⟩ := Prod.mk.inj h
    simpa using hfile

structure MakesOnly (paths : List Path) (before after : Disk) : Prop where
  current : after.current = before.current
  kept : ∀ l, before.hasDirectory l = true → after.hasDirectory l = true
  made : ∀ l, after.hasDirectory l = true → before.hasDirectory l = true ∨
    ∃ path ∈ paths, after.locate path = .ok l

theorem locate_of_hasDirectory (hd : ∀ l, disk.hasDirectory l = true → larger.hasDirectory l = true)
    (hc : larger.current = disk.current) (h : disk.locate path = .ok l)
    (hl : disk.hasDirectory l = true) : larger.locate path = .ok l := by
  obtain ⟨hne, hfollow⟩ := locate_eq_ok_iff.mp h
  have horigin : larger.origin path = disk.origin path := by rw [origin, origin, hc]
  exact locate_eq_ok_iff.mpr ⟨hne, horigin ▸ follow_of_hasDirectory hd hfollow hl⟩

namespace MakesOnly

variable {paths others : List Path} {middle : Disk}

theorem of_same (hc : other.current = disk.current)
    (hd : ∀ l, other.hasDirectory l = disk.hasDirectory l) : MakesOnly paths disk other :=
  ⟨hc, fun l hl => (hd l).trans hl, fun l hl => .inl ((hd l).symm.trans hl)⟩

theorem refl (disk : Disk) : MakesOnly paths disk disk := of_same rfl fun _ => rfl

theorem mono (h : MakesOnly paths disk other) (hs : paths ⊆ others) :
    MakesOnly others disk other := by
  refine ⟨h.current, h.kept, fun l hl => ?_⟩
  rcases h.made l hl with hbefore | ⟨path, hpath, hlocate⟩
  · exact .inl hbefore
  · exact .inr ⟨path, hs hpath, hlocate⟩

theorem trans (hf : MakesOnly paths disk middle) (hs : MakesOnly paths middle other) :
    MakesOnly paths disk other := by
  refine ⟨hs.current.trans hf.current, fun l hl => hs.kept l (hf.kept l hl), fun l hl => ?_⟩
  rcases hs.made l hl with hmiddle | hmade
  · rcases hf.made l hmiddle with hbefore | ⟨path, hpath, hlocate⟩
    · exact .inl hbefore
    · exact .inr ⟨path, hpath, locate_of_hasDirectory hs.kept hs.current hlocate hmiddle⟩
  · exact .inr hmade

theorem congr (h : MakesOnly paths disk middle) (hc : other.current = middle.current)
    (hd : ∀ l, other.hasDirectory l = middle.hasDirectory l) : MakesOnly paths disk other :=
  h.trans (of_same hc hd)

end MakesOnly

theorem makesOnly_makeDirectory (h : disk.makeDirectory path = .ok made) :
    MakesOnly [path] disk made := by
  obtain ⟨location, hne, rfl, hlocate⟩ := exists_insert_of_makeDirectory h
  refine ⟨rfl, fun l hl => (hasDirectory_insert_directory hne).mpr (.inr hl), fun l hl => ?_⟩
  rcases (hasDirectory_insert_directory hne).mp hl with rfl | hl
  · exact .inr ⟨path, List.mem_singleton_self path, hlocate⟩
  · exact .inl hl

theorem makesOnly_ensureDirectory (disk : Disk) (path : Path) :
    MakesOnly (path :: path.parents) disk (disk.ensureDirectory path).2 := by
  refine ensureDirectory_preserves (fun other hm before made hmake hbefore => ?_) (.refl disk)
  have hmade := makesOnly_makeDirectory hmake
  exact hbefore.trans (hmade.mono (List.cons_subset.mpr ⟨hm, List.nil_subset _⟩))

theorem ensureDirectory_here (disk : Disk) : (disk.ensureDirectory .here).2 = disk := by
  refine ensureDirectory_preserves (P := (· = disk)) (fun other hm before made hmake _ => ?_) rfl
  -- Neither a dot nor the empty path is a name that a directory can be given.
  obtain ⟨directory, name, ht, _⟩ := makeDirectory_eq_ok_iff.mp hmake
  obtain ⟨hne, _, hsplit, _, _, hdot, _⟩ := target_eq_name_iff.mp ht
  have hparents : Path.here.parents = [⟨false, [""]⟩] := by
    simp [Path.here, Path.parents, Path.parentsOf_eq, Path.dropIdle, Path.ofReversed]
  rw [hparents] at hm
  rcases List.mem_cons.mp hm with rfl | hm
  · obtain ⟨_, rfl⟩ := Prod.mk.inj (Option.some.inj hsplit)
    exact absurd rfl hdot
  · rw [List.mem_singleton.mp hm] at hne
    cases hne

theorem makesOnly_stagingDirectory (disk : Disk) (path : Path) :
    MakesOnly path.parents disk (disk.ensureDirectory (stagingDirectory path)).2 := by
  unfold stagingDirectory
  split <;> rename_i hparent
  · split_ifs
    · rw [ensureDirectory_here]
      exact .refl disk
    · rw [Path.parents_of_parent? hparent]
      exact makesOnly_ensureDirectory ..
  · rw [ensureDirectory_here]
    exact .refl disk

section Staging

variable {index : Nat} {files : List (Path × ByteArray)}

theorem makesOnly_stage (hf : disk.FreshFrom index) (hp : path.Spelled) (content : ByteArray) :
    MakesOnly path.parents disk (disk.stage index path content).2 := by
  have hready := makesOnly_stagingDirectory disk path
  have hgrows : Grows disk (disk.ensureDirectory (stagingDirectory path)).2 :=
    grows_ensureDirectory (spelled_stagingDirectory hp)
  unfold stage
  simp only
  generalize disk.ensureDirectory (stagingDirectory path) = result at hready hgrows
  obtain ⟨_ | _, ready⟩ := result
  · exact hready
  · simp only
    cases ready.locate (stagingDirectory path) with
    | error kind => exact hready
    | ok directory =>
      have hfree : ready.hasDirectory (directory ++ [temporaryName index]) = false := by
        rw [hasDirectory, hf.grows hgrows directory index (Nat.le_refl index)]
      exact hready.congr rfl
        (hasDirectory_insert_file (append_temporaryName_ne_nil directory index) hfree content)

theorem hasDirectory_erase (hne : location ≠ []) (hfree : disk.hasDirectory location = false)
    (l : Location) : (disk.erase location).hasDirectory l = disk.hasDirectory l := by
  rw [hasDirectory, lookup_erase hne]
  split_ifs with hl
  · rw [hl, hfree]
  · rfl

theorem makesOnly_stageAll (hp : ∀ file ∈ files, file.1.Spelled) (hf : disk.FreshFrom index) :
    MakesOnly (files.flatMap (·.1.parents)) disk (disk.stageAll index files).2 := by
  induction files generalizing disk index with
  | nil => exact .refl disk
  | cons file rest ih =>
    obtain ⟨path, content⟩ := file
    obtain ⟨hpath, hrest⟩ := List.forall_mem_cons.mp hp
    have hstaged := (makesOnly_stage hf hpath content).mono
      (List.subset_append_left path.parents (rest.flatMap (·.1.parents)))
    rw [List.flatMap_cons]
    obtain ⟨ready, hgrows, ⟨failure, hstage⟩ | ⟨directory, hstage⟩⟩ :=
      stage_eq disk index hpath content
    · rw [hstage] at hstaged
      rw [stageAll, hstage]
      exact hstaged
    · rw [hstage] at hstaged
      have hne := append_temporaryName_ne_nil directory index
      have hnext : (ready.insert (directory ++ [temporaryName index]) (.file content)).FreshFrom
          (index + 1) := (hf.grows hgrows).insert
      have hlater := hstaged.trans ((ih hrest hnext).mono
        (List.subset_append_right path.parents (rest.flatMap (·.1.parents))))
      rw [stageAll, hstage]
      rcases stageAll_spec hrest hnext with ⟨failure, later, hfailed, hkept⟩ | ⟨more, later, hok, _⟩
      · simp only [hfailed] at hlater ⊢
        -- The file staged before the fault is taken away, which no directory shows.
        have hfree : later.hasDirectory (directory ++ [temporaryName index]) = false := by
          rw [hasDirectory, hkept.temporary, lookup_insert hne, if_pos rfl]
        exact hlater.congr rfl (hasDirectory_erase hne hfree)
      · simp only [hok] at hlater ⊢
        exact hlater

end Staging

def MadeAt (files : List (Path × ByteArray)) (before after : Disk) (location : Location) : Prop :=
  before.lookup location = none ∧ after.lookup location = some .directory ∧
    ∃ file ∈ files, ∃ ancestor ∈ file.1.parents, after.locate ancestor = .ok location

theorem KeptAt.eq_or_madeAt {files : List (Path × ByteArray)} (h : disk.KeptAt other location)
    (hm : MakesOnly (files.flatMap (·.1.parents)) disk other) :
    other.lookup location = disk.lookup location ∨ MadeAt files disk other location := by
  rcases h with hsame | ⟨hnone, hdirectory⟩
  · exact .inl hsame
  · right
    refine ⟨hnone, hdirectory, ?_⟩
    rcases hm.made location (hasDirectory_iff.mpr hdirectory) with hbefore | ⟨path, hpath, hlocate⟩
    · cases hnone.symm.trans (hasDirectory_iff.mp hbefore)
    · obtain ⟨file, hfile, habove⟩ := List.mem_flatMap.mp hpath
      exact ⟨file, hfile, path, habove, hlocate⟩

end Disk

end ApplianceScript
