import ApplianceScript.Proofs.DirectoryGrowth

namespace ApplianceScript

namespace Disk

def FreshFrom (disk : Disk) (index : Nat) : Prop :=
  ∀ directory i, index ≤ i → disk.lookup (directory ++ [temporaryName i]) = none

structure Holds (before : Disk) (index : Nat) (files : List (Path × ByteArray))
    (staged : List Staged) (after : Disk) : Prop where
  current : after.current = before.current
  files : List.Forall₂ (fun s file => s.path = file.1 ∧
    after.lookup s.location = some (.file file.2)) staged files
  names : ∀ s ∈ staged, ∃ directory i, index ≤ i ∧ s.location = directory ++ [temporaryName i]
  nodup : (staged.map (·.location)).Nodup
  added : OnlyDirectoriesAdded before (after.discard staged)
  temporary : ∀ directory i, directory ++ [temporaryName i] ∉ staged.map (·.location) →
    after.lookup (directory ++ [temporaryName i]) = before.lookup (directory ++ [temporaryName i])

variable {disk : Disk} {index : Nat}

theorem append_temporaryName_ne_nil (directory : Location) (index : Nat) :
    directory ++ [temporaryName index] ≠ [] := by
  simp

theorem Holds.ne_nil {files : List (Path × ByteArray)} {staged : List Staged} {after : Disk}
    (h : Holds disk index files staged after) : ∀ s ∈ staged, s.location ≠ [] := by
  intro s hs
  obtain ⟨directory, i, _, hl⟩ := h.names s hs
  rw [hl]
  exact append_temporaryName_ne_nil directory i

theorem FreshFrom.grows (hf : disk.FreshFrom index) {larger : Disk} (hg : Grows disk larger) :
    larger.FreshFrom index := by
  intro directory i hi
  rw [hg.temporary]
  exact hf directory i hi

theorem stage_eq (disk : Disk) (index : Nat) {path : Path} (hp : path.Spelled)
    (content : ByteArray) :
    ∃ ready, Grows disk ready ∧
      ((∃ failure, disk.stage index path content = (.error failure, ready)) ∨
        ∃ directory, disk.stage index path content =
          (.ok ⟨directory ++ [temporaryName index], path⟩,
            ready.insert (directory ++ [temporaryName index]) (.file content))) := by
  have hgrows : Grows disk (disk.ensureDirectory (stagingDirectory path)).2 :=
    grows_ensureDirectory (spelled_stagingDirectory hp)
  refine ⟨(disk.ensureDirectory (stagingDirectory path)).2, hgrows, ?_⟩
  unfold stage
  simp only
  generalize disk.ensureDirectory (stagingDirectory path) = result
  obtain ⟨failure | _, ready⟩ := result
  · exact .inl ⟨failure, rfl⟩
  · simp only
    cases hl : ready.locate (stagingDirectory path) with
    | error kind => exact .inl ⟨_, rfl⟩
    | ok directory => exact .inr ⟨directory, rfl⟩

variable {directory : Location} {content : ByteArray} {ready : Disk}

theorem FreshFrom.insert (hf : ready.FreshFrom index) :
    (ready.insert (directory ++ [temporaryName index]) (.file content)).FreshFrom (index + 1) := by
  intro other i hi
  rw [lookup_insert (append_temporaryName_ne_nil directory index), if_neg]
  · exact hf other i (by omega)
  · intro h
    obtain ⟨_, hname⟩ := List.append_singleton_inj.mp h
    rw [temporaryName_inj] at hname
    omega

theorem onlyDirectoriesAdded_erase (hf : ready.FreshFrom index) {after : Disk}
    (h : OnlyDirectoriesAdded
      (ready.insert (directory ++ [temporaryName index]) (.file content)) after) :
    OnlyDirectoriesAdded ready (after.erase (directory ++ [temporaryName index])) := by
  have hne := append_temporaryName_ne_nil directory index
  intro location
  have hl := h location
  unfold KeptAt at hl ⊢
  rw [lookup_insert hne] at hl
  rw [lookup_erase hne]
  split_ifs at hl ⊢ with heq
  · subst heq
    exact .inl (hf directory index (Nat.le_refl _)).symm
  · exact hl

theorem Holds.cons (hf : disk.FreshFrom index) (hg : Grows disk ready) {path : Path}
    {rest : List (Path × ByteArray)} {more : List Staged} {later : Disk}
    (h : Holds (ready.insert (directory ++ [temporaryName index]) (.file content)) (index + 1) rest
      more later) :
    Holds disk index ((path, content) :: rest) (⟨directory ++ [temporaryName index], path⟩ :: more)
      later := by
  have hne := append_temporaryName_ne_nil directory index
  have hnew : directory ++ [temporaryName index] ∉ more.map (·.location) := by
    intro hm
    obtain ⟨s, hs, heq⟩ := List.mem_map.mp hm
    obtain ⟨_, i, hi, hl⟩ := h.names s hs
    obtain ⟨_, hname⟩ := List.append_singleton_inj.mp (heq.symm.trans hl)
    rw [temporaryName_inj] at hname
    omega
  refine ⟨h.current.trans hg.current, .cons ⟨rfl, ?_⟩ h.files, ?_, ?_, ?_, ?_⟩
  · rw [h.temporary _ _ hnew, lookup_insert hne, if_pos rfl]
  · intro s hs
    rcases List.mem_cons.mp hs with rfl | hs
    · exact ⟨directory, index, Nat.le_refl _, rfl⟩
    · obtain ⟨other, i, hi, hl⟩ := h.names s hs
      exact ⟨other, i, by omega, hl⟩
  · exact List.nodup_cons.mpr ⟨hnew, h.nodup⟩
  · have herase := onlyDirectoriesAdded_erase (hf.grows hg) h.added
    apply hg.added.trans
    intro location
    have hl := herase location
    unfold KeptAt at hl ⊢
    rw [lookup_erase hne, lookup_discard h.ne_nil] at hl
    rw [discard, List.foldl_cons, ← discard, lookup_discard h.ne_nil, lookup_erase hne]
    split_ifs at hl ⊢ <;> exact hl
  · intro other i hm
    obtain ⟨hother, hmore⟩ := List.ne_and_not_mem_of_not_mem_cons hm
    rw [h.temporary _ _ hmore, lookup_insert hne, if_neg hother, hg.temporary]

theorem stageAll_spec {files : List (Path × ByteArray)} (hp : ∀ file ∈ files, file.1.Spelled)
    (hf : disk.FreshFrom index) :
    (∃ failure after, disk.stageAll index files = (.error failure, after) ∧ Grows disk after) ∨
      ∃ staged after, disk.stageAll index files = (.ok staged, after) ∧
        Holds disk index files staged after := by
  induction files generalizing disk index with
  | nil => exact .inr ⟨[], disk, rfl, rfl, .nil, by simp, by simp, .refl disk, fun _ _ _ => rfl⟩
  | cons file rest ih =>
    obtain ⟨path, content⟩ := file
    obtain ⟨ready, hg, ⟨failure, hstage⟩ | ⟨directory, hstage⟩⟩ :=
      stage_eq disk index (hp _ List.mem_cons_self) content
    · refine .inl ⟨failure, ready, ?_, hg⟩
      rw [stageAll, hstage]
    · have hne := append_temporaryName_ne_nil directory index
      have hready := hf.grows hg
      have hnext : (ready.insert (directory ++ [temporaryName index]) (.file content)).FreshFrom
          (index + 1) := hready.insert
      rcases ih (fun file hm => hp file (List.mem_cons_of_mem _ hm)) hnext with
        ⟨failure, later, hrest, hlater⟩ | ⟨more, later, hrest, hlater⟩
      · refine .inl ⟨failure, later.erase (directory ++ [temporaryName index]), ?_,
          hlater.current.trans hg.current,
          hg.added.trans (onlyDirectoriesAdded_erase hready hlater.added), ?_⟩
        · simp only [stageAll, hstage, hrest]
          rfl
        · intro other i
          have hl := hlater.temporary other i
          rw [lookup_insert hne] at hl
          rw [lookup_erase hne]
          split_ifs at hl ⊢ with heq
          · rw [heq, hf directory index (Nat.le_refl _)]
          · rw [hl, hg.temporary]
      · refine .inr ⟨⟨directory ++ [temporaryName index], path⟩ :: more, later, ?_,
          .cons hf hg hlater⟩
        simp only [stageAll, hstage, hrest]

end Disk

end ApplianceScript
