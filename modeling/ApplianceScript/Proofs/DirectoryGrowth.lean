import ApplianceScript.Proofs.SpelledPaths

namespace ApplianceScript

namespace Disk

def KeptAt (before after : Disk) (location : Location) : Prop :=
  after.lookup location = before.lookup location ∨
    (before.lookup location = none ∧ after.lookup location = some .directory)

def OnlyDirectoriesAdded (before after : Disk) : Prop := ∀ location, KeptAt before after location

structure Grows (before after : Disk) : Prop where
  current : after.current = before.current
  added : OnlyDirectoriesAdded before after
  temporary : ∀ directory index, after.lookup (directory ++ [temporaryName index]) =
    before.lookup (directory ++ [temporaryName index])

theorem OnlyDirectoriesAdded.refl (disk : Disk) : OnlyDirectoriesAdded disk disk :=
  fun _ => .inl rfl

theorem OnlyDirectoriesAdded.trans {before middle after : Disk}
    (hf : OnlyDirectoriesAdded before middle) (hs : OnlyDirectoriesAdded middle after) :
    OnlyDirectoriesAdded before after := by
  intro location
  rcases hf location with hm | ⟨hb, hm⟩ <;> rcases hs location with ha | ⟨hn, ha⟩
  · exact .inl (ha.trans hm)
  · exact .inr ⟨hm.symm.trans hn, ha⟩
  · exact .inr ⟨hb, ha.trans hm⟩
  · rw [hm] at hn
    cases hn

theorem Grows.refl (disk : Disk) : Grows disk disk := ⟨rfl, .refl disk, fun _ _ => rfl⟩

theorem Grows.trans {before middle after : Disk} (hf : Grows before middle)
    (hs : Grows middle after) : Grows before after :=
  ⟨hs.current.trans hf.current, hf.added.trans hs.added,
    fun directory index => (hs.temporary directory index).trans (hf.temporary directory index)⟩

variable {disk : Disk}

theorem grows_insert_directory {directory : Location} {name : String} (hn : Spelled name)
    (hnone : disk.lookup (directory ++ [name]) = none) :
    Grows disk (disk.insert (directory ++ [name]) .directory) := by
  have hne : directory ++ [name] ≠ [] := by simp
  refine ⟨rfl, ?_, ?_⟩
  · intro location
    unfold KeptAt
    rw [lookup_insert hne]
    split_ifs with hl
    · exact .inr ⟨hl ▸ hnone, rfl⟩
    · exact .inl rfl
  · intro other index
    rw [lookup_insert hne, if_neg]
    intro h
    obtain ⟨_, rfl⟩ := List.append_singleton_inj.mp h
    exact not_spelled_temporaryName index hn

theorem makeDirectory_eq_ok_iff {path : Path} {made : Disk} :
    disk.makeDirectory path = .ok made ↔
      ∃ directory name, disk.target path = .ok (.name directory name) ∧
        disk.lookup (directory ++ [name]) = none ∧
        made = disk.insert (directory ++ [name]) .directory := by
  unfold makeDirectory
  cases ht : disk.target path with
  | error kind => simp [bind, Except.bind]
  | ok found =>
    cases found with
    | fixed => simp [bind, Except.bind]
    | name directory name =>
      simp only [bind, Except.bind, Except.ok.injEq, Target.name.injEq]
      cases hl : disk.lookup (directory ++ [name]) with
      | none =>
        constructor
        · intro h
          exact ⟨directory, name, ⟨rfl, rfl⟩, hl, (Except.ok.inj h).symm⟩
        · rintro ⟨_, _, ⟨rfl, rfl⟩, _, rfl⟩
          rfl
      | some entry =>
        constructor
        · intro h
          cases h
        · rintro ⟨_, _, ⟨rfl, rfl⟩, hnone, _⟩
          cases hl.symm.trans hnone

theorem grows_makeDirectory {path : Path} (hp : path.Spelled) {made : Disk}
    (h : disk.makeDirectory path = .ok made) : Grows disk made := by
  obtain ⟨directory, name, ht, hnone, rfl⟩ := makeDirectory_eq_ok_iff.mp h
  exact grows_insert_directory (spelled_of_target hp ht) hnone

theorem makeChain_preserves {P : Disk → Prop} {paths : List Path}
    (hmake : ∀ path ∈ paths, ∀ before made : Disk, before.makeDirectory path = .ok made →
      P before → P made) (h : P disk) : P (disk.makeChain paths).2 := by
  induction paths with
  | nil => exact h
  | cons path above ih =>
    have hpath := hmake path List.mem_cons_self
    have habove := ih fun parent hm => hmake parent (List.mem_cons_of_mem path hm)
    unfold makeChain
    by_cases hempty : path.isEmpty = true
    · rw [if_pos hempty]
      exact h
    · rw [if_neg hempty]
      cases hmake : disk.makeDirectory path with
      | ok made => exact hpath disk made hmake h
      | error kind =>
        cases kind with
        | notFound =>
          simp only
          generalize disk.makeChain above = result at habove
          obtain ⟨result, after⟩ := result
          cases result with
          | error kind => exact habove
          | ok _ =>
            simp only
            cases hagain : after.makeDirectory path with
            | ok made => exact hpath after made hagain habove
            | error kind =>
              simp only
              split_ifs <;> exact habove
        | _ =>
          simp only
          split_ifs <;> exact h

theorem ensureDirectory_preserves {P : Disk → Prop} {path : Path}
    (hmake : ∀ other ∈ path :: path.parents, ∀ before made : Disk,
      before.makeDirectory other = .ok made → P before → P made) (h : P disk) :
    P (disk.ensureDirectory path).2 := by
  have hchain : P (disk.makeDirectories path).2 := makeChain_preserves hmake h
  unfold ensureDirectory
  split_ifs
  · generalize disk.makeDirectories path = result at hchain
    obtain ⟨_ | _, after⟩ := result <;> exact hchain
  · exact h
  · exact h

theorem grows_ensureDirectory {path : Path} (hp : path.Spelled) :
    Grows disk (disk.ensureDirectory path).2 := by
  refine ensureDirectory_preserves (fun other hm before made hmake hgrows => ?_) (.refl disk)
  apply hgrows.trans (grows_makeDirectory _ hmake)
  rcases List.mem_cons.mp hm with rfl | hm
  · exact hp
  · exact hp.of_mem_parents other hm

end Disk

end ApplianceScript
