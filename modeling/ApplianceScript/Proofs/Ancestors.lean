import ApplianceScript.Proofs.WrittenFiles

namespace ApplianceScript

namespace Path

theorem dropIdle_dropIdle (absolute : Bool) (pieces : List String) :
    dropIdle absolute (dropIdle absolute pieces) = dropIdle absolute pieces := by
  induction pieces with
  | nil => rfl
  | cons last more ih =>
    cases more with
    | nil =>
      by_cases h : (last = "" || (absolute && last = ".")) = true
      · simp [dropIdle, h]
      · simp [dropIdle, h]
    | cons next more =>
      by_cases h : (last = "" || last = ".") = true
      · rw [dropIdle, if_pos h, ih]
      · rw [dropIdle, if_neg h, dropIdle, if_neg h]

theorem parentsOf_eq (absolute : Bool) (pieces : List String) :
    parentsOf absolute pieces = match dropIdle absolute pieces with
      | [] => []
      | _ :: above => ofReversed absolute (dropIdle absolute above) :: parentsOf absolute above := by
  rw [parentsOf]
  split <;> rename_i heq <;> simp only [heq]

theorem parentsOf_dropIdle (absolute : Bool) (pieces : List String) :
    parentsOf absolute (dropIdle absolute pieces) = parentsOf absolute pieces := by
  rw [parentsOf_eq, dropIdle_dropIdle, ← parentsOf_eq]

theorem parents_ofReversed (absolute : Bool) (pieces : List String) :
    (ofReversed absolute (dropIdle absolute pieces)).parents = parentsOf absolute pieces := by
  rw [← parentsOf_dropIdle absolute pieces]
  cases h : dropIdle absolute pieces with
  | nil => simp [ofReversed, parents, parentsOf_eq, dropIdle]
  | cons last above => simp [ofReversed, parents]

variable {path parent ancestor : Path}

theorem parents_of_parent? (h : path.parent? = some parent) :
    path.parents = parent :: parent.parents := by
  unfold parent? at h
  split at h <;> rename_i hd
  · cases h
  · obtain rfl := Option.some.inj h
    rw [parents, parentsOf_eq, hd, parents_ofReversed]

theorem parents_of_parent?_eq_none (h : path.parent? = none) : path.parents = [] := by
  unfold parent? at h
  split at h <;> rename_i hd
  · rw [parents, parentsOf_eq, hd]
  · cases h

theorem parents_of_isEmpty (h : path.isEmpty = true) : path.parents = [] := by
  simp only [isEmpty, Bool.and_eq_true, Bool.not_eq_true', decide_eq_true_eq] at h
  simp [parents, h.2, parentsOf_eq, dropIdle]

theorem exists_ofReversed_of_mem_parentsOf {absolute : Bool} {pieces : List String}
    (h : ancestor ∈ parentsOf absolute pieces) :
    ∃ kept, kept <:+ pieces ∧ ancestor = ofReversed absolute kept := by
  induction pieces using parentsOf.induct absolute with
  | case1 pieces hd =>
    rw [parentsOf_eq, hd] at h
    cases h
  | case2 pieces last above hd ih =>
    have habove : above <:+ pieces :=
      (List.suffix_cons last above).trans (hd ▸ dropIdle_suffix absolute pieces)
    rw [parentsOf_eq, hd] at h
    rcases List.mem_cons.mp h with rfl | h
    · exact ⟨_, (dropIdle_suffix absolute above).trans habove, rfl⟩
    · obtain ⟨kept, hkept, rfl⟩ := ih h
      exact ⟨kept, hkept.trans habove, rfl⟩

theorem prefix_of_mem_parents (h : ancestor ∈ path.parents) :
    ancestor.absolute = path.absolute ∧
      (ancestor.pieces <+: path.pieces ∨ ancestor.pieces = [""]) := by
  obtain ⟨kept, hkept, rfl⟩ := exists_ofReversed_of_mem_parentsOf h
  refine ⟨rfl, ?_⟩
  cases kept with
  | nil => exact .inr rfl
  | cons last above =>
    left
    rw [← List.reverse_suffix]
    simpa [ofReversed] using hkept

end Path

namespace Disk

variable {disk other made : Disk} {location l : Location} {path ancestor : Path}

theorem follow_unique {found : Location} {pieces : List String}
    (h : disk.follow location pieces = .ok l) (ho : other.follow location pieces = .ok found) :
    l = found := by
  induction pieces generalizing location with
  | nil => exact (Except.ok.inj h).symm.trans (Except.ok.inj ho)
  | cons piece rest ih =>
    unfold follow at h ho
    split_ifs at h ho with hdirectory hother hstay hup hlong
    · exact ih h ho
    · exact ih h ho
    · cases hlookup : disk.lookup (location ++ [piece]) with
      | none => simp [hlookup] at h
      | some entry =>
        cases hfound : other.lookup (location ++ [piece]) with
        | none => simp [hfound] at ho
        | some entry' =>
          simp only [hlookup] at h
          simp only [hfound] at ho
          exact ih h ho

theorem locate_unique (hc : other.current = disk.current) {found : Location}
    (h : disk.locate path = .ok l) (ho : other.locate path = .ok found) : l = found := by
  have horigin : other.origin path = disk.origin path := by rw [origin, origin, hc]
  have hother := (locate_eq_ok_iff.mp ho).2
  rw [horigin] at hother
  exact follow_unique (locate_eq_ok_iff.mp h).2 hother

theorem isFile_iff : disk.isFile path = true ↔
    ∃ l content, disk.locate path = .ok l ∧ disk.lookup l = some (.file content) := by
  unfold isFile find
  cases hl : disk.locate path with
  | error kind => simp [bind, Except.bind]
  | ok l =>
    simp only [bind, Except.bind, Except.ok.injEq, exists_and_left, exists_eq_left']
    cases disk.lookup l with
    | none => simp
    | some entry => cases entry <;> simp [pure, Except.pure]

theorem isDirectory_of_mem_parents (hd : disk.isDirectory path = true)
    (ha : ancestor ∈ path.parents) (hne : ancestor.isEmpty = false) :
    disk.isDirectory ancestor = true := by
  obtain ⟨l, hl, hdirectory⟩ := isDirectory_iff.mp hd
  have hfollow := (locate_eq_ok_iff.mp hl).2
  obtain ⟨habsolute, hprefix | hroot⟩ := Path.prefix_of_mem_parents ha
  · obtain ⟨back, hpieces⟩ := hprefix
    rw [← hpieces, follow_append] at hfollow
    obtain ⟨middle, hmiddle, hback⟩ := bind_eq_ok_iff.mp hfollow
    have horigin : disk.origin ancestor = disk.origin path := by rw [origin, origin, habsolute]
    exact isDirectory_iff.mpr ⟨middle, locate_eq_ok_iff.mpr ⟨hne, horigin ▸ hmiddle⟩,
      hasDirectory_of_follow hback hdirectory⟩
  · have htop : ancestor.absolute = true := by simpa [Path.isEmpty, hroot] using hne
    have hstart : disk.origin ancestor = [] := by rw [origin, htop, if_pos rfl]
    refine isDirectory_iff.mpr ⟨[], locate_eq_ok_iff.mpr ⟨hne, ?_⟩, rfl⟩
    rw [hstart, hroot]
    rfl

theorem locate_of_target {directory : Location} {name : String}
    (ht : disk.target path = .ok (.name directory name))
    (hd : disk.hasDirectory (directory ++ [name]) = true) :
    disk.locate path = .ok (directory ++ [name]) := by
  obtain ⟨hempty, before, hsplit, hf, hdirectory, hdot, hdots, hshort⟩ := target_eq_name_iff.mp ht
  obtain ⟨hname, blanks, hpieces, hblanks⟩ := pieces_of_splitLast hsplit
  have hlast := follow_name ⟨hname, hdot, hdots, hshort⟩ hdirectory
  rw [hasDirectory_iff.mp hd] at hlast
  rw [locate_eq_ok_iff, hpieces, ← List.singleton_append (x := name), follow_append, hf]
  refine ⟨hempty, ?_⟩
  change disk.follow directory ([name] ++ blanks) = _
  rw [follow_append, hlast]
  exact follow_idle (fun piece hm => .inl (hblanks piece hm)) hd

theorem isEmpty_stagingDirectory (path : Path) : (stagingDirectory path).isEmpty = false := by
  unfold stagingDirectory
  split
  · split_ifs with hempty
    · rfl
    · simpa using hempty
  · rfl

theorem isDirectory_of_stagingDirectory (hd : disk.isDirectory (stagingDirectory path) = true)
    (ha : ancestor ∈ path.parents) (hne : ancestor.isEmpty = false) :
    disk.isDirectory ancestor = true := by
  cases hparent : path.parent? with
  | none =>
    rw [Path.parents_of_parent?_eq_none hparent] at ha
    cases ha
  | some parent =>
    rw [Path.parents_of_parent? hparent] at ha
    rw [stagingDirectory, hparent] at hd
    simp only at hd
    cases hempty : parent.isEmpty with
    | true =>
      rw [Path.parents_of_isEmpty hempty, List.mem_singleton] at ha
      rw [ha, hempty] at hne
      cases hne
    | false =>
      rw [hempty, if_neg Bool.false_ne_true] at hd
      rcases List.mem_cons.mp ha with rfl | ha
      · exact hd
      · exact isDirectory_of_mem_parents hd ha hne

end Disk

end ApplianceScript
