import ApplianceScript.Proofs.DiskLookup

namespace ApplianceScript

def Spelled (name : String) : Prop := '/' ∉ name.toList

instance : DecidablePred Spelled := fun name =>
  inferInstanceAs (Decidable ('/' ∉ name.toList))

namespace Path

def Spelled (path : Path) : Prop := ∀ piece ∈ path.pieces, ApplianceScript.Spelled piece

theorem not_mem_of_mem_splitAtSlashes {text part : List Char} (hp : part ∈ splitAtSlashes text) :
    '/' ∉ part := by
  induction text generalizing part with
  | nil =>
    rw [splitAtSlashes, List.mem_singleton] at hp
    simp [hp]
  | cons c rest ih =>
    unfold splitAtSlashes at hp
    split_ifs at hp with hc
    · rcases List.mem_cons.mp hp with rfl | hp
      · simp
      · exact ih hp
    · cases hrest : splitAtSlashes rest with
      | nil =>
        simp only [hrest, List.mem_singleton] at hp
        simp [hp, Ne.symm hc]
      | cons first more =>
        simp only [hrest] at hp ih
        rcases List.mem_cons.mp hp with rfl | hp
        · simp [Ne.symm hc, ih List.mem_cons_self]
        · exact ih (List.mem_cons_of_mem first hp)

theorem spelled_ofText (text : String) : (ofText text).Spelled := by
  have hall : ∀ piece ∈ (splitAtSlashes text.toList).map String.ofList,
      ApplianceScript.Spelled piece := by
    intro piece hp
    obtain ⟨part, hpart, rfl⟩ := List.mem_map.mp hp
    simpa [ApplianceScript.Spelled] using not_mem_of_mem_splitAtSlashes hpart
  intro piece hp
  apply hall
  unfold ofText at hp
  simp only at hp
  split at hp <;> rename_i heq
  · rw [heq]
    exact List.mem_cons_of_mem _ hp
  · exact hp

theorem splitAtSlashes_eq_singleton {text : List Char} (ht : '/' ∉ text) :
    splitAtSlashes text = [text] := by
  induction text with
  | nil => rfl
  | cons c rest ih =>
    obtain ⟨hc, hrest⟩ := List.ne_and_not_mem_of_not_mem_cons ht
    rw [splitAtSlashes, if_neg hc.symm, ih hrest]

theorem ofText_of_spelled {name : String} (hn : ApplianceScript.Spelled name) :
    ofText name = ⟨false, [name]⟩ := by
  simp only [ofText, splitAtSlashes_eq_singleton hn, List.map_singleton, String.ofList_toList]

theorem spelled_here : here.Spelled := by
  intro piece hm
  rw [List.mem_singleton.mp hm]
  decide

theorem Spelled.join {path tail : Path} (hp : path.Spelled) (ht : tail.Spelled) :
    (path.join tail).Spelled := by
  intro piece hm
  simp only [Path.join] at hm
  split_ifs at hm with habsolute hslash
  · exact ht piece hm
  · rcases List.mem_append.mp hm with hm | hm
    · exact hp piece ((List.dropLast_sublist path.pieces).subset hm)
    · exact ht piece hm
  · rcases List.mem_append.mp hm with hm | hm
    · exact hp piece hm
    · exact ht piece hm

theorem dropIdle_suffix (absolute : Bool) (pieces : List String) :
    dropIdle absolute pieces <:+ pieces := by
  induction pieces with
  | nil => simp [dropIdle]
  | cons last more ih =>
    cases more with
    | nil => unfold dropIdle; split <;> simp
    | cons next more =>
      unfold dropIdle
      split
      · exact ih.trans (List.suffix_cons last _)
      · exact List.suffix_rfl

theorem spelled_ofReversed {absolute : Bool} {pieces : List String}
    (hp : ∀ piece ∈ pieces, ApplianceScript.Spelled piece) : (ofReversed absolute pieces).Spelled := by
  intro piece hm
  change piece ∈ (if pieces.isEmpty then [""] else pieces.reverse) at hm
  split_ifs at hm
  · rw [List.mem_singleton.mp hm]
    decide
  · exact hp piece (List.mem_reverse.mp hm)

theorem spelled_above {absolute : Bool} {pieces above : List String} {last : String}
    (hp : ∀ piece ∈ pieces, ApplianceScript.Spelled piece)
    (hd : dropIdle absolute pieces = last :: above) :
    ∀ piece ∈ above, ApplianceScript.Spelled piece := by
  intro piece hm
  apply hp
  apply (dropIdle_suffix absolute pieces).subset
  rw [hd]
  exact List.mem_cons_of_mem last hm

theorem spelled_of_mem_parentsOf {absolute : Bool} {pieces : List String}
    (hp : ∀ piece ∈ pieces, ApplianceScript.Spelled piece) :
    ∀ parent ∈ parentsOf absolute pieces, parent.Spelled := by
  induction pieces using parentsOf.induct absolute with
  | case1 pieces hd =>
    intro parent hm
    rw [parentsOf] at hm
    split at hm <;> rename_i heq
    · simp at hm
    · cases hd.symm.trans heq
  | case2 pieces last above hd ih =>
    have habove := spelled_above hp hd
    intro parent hm
    rw [parentsOf] at hm
    split at hm <;> rename_i heq
    · simp at hm
    · obtain ⟨rfl, rfl⟩ := List.cons.inj (hd.symm.trans heq)
      rcases List.mem_cons.mp hm with rfl | hm
      · exact spelled_ofReversed fun piece h =>
          habove piece ((dropIdle_suffix absolute above).subset h)
      · exact ih habove parent hm

variable {path : Path}

theorem Spelled.of_mem_parents (hp : path.Spelled) :
    ∀ parent ∈ path.parents, parent.Spelled :=
  spelled_of_mem_parentsOf fun piece hm => hp piece (List.mem_reverse.mp hm)

theorem Spelled.parent? (hp : path.Spelled) {parent : Path} (h : path.parent? = some parent) :
    parent.Spelled := by
  unfold Path.parent? at h
  split at h <;> rename_i hd
  · cases h
  · obtain rfl := Option.some.inj h
    apply spelled_ofReversed
    intro piece hm
    exact spelled_above (fun piece hm => hp piece (List.mem_reverse.mp hm)) hd piece
      ((dropIdle_suffix path.absolute _).subset hm)

end Path

namespace Disk

theorem spelled_stagingDirectory {path : Path} (hp : path.Spelled) :
    (stagingDirectory path).Spelled := by
  unfold Disk.stagingDirectory
  split <;> rename_i h
  · split_ifs
    · exact Path.spelled_here
    · exact hp.parent? h
  · exact Path.spelled_here

theorem spelled_of_target {disk : Disk} {path : Path} (hp : path.Spelled) {directory : Location}
    {name : String} (ht : disk.target path = .ok (.name directory name)) :
    ApplianceScript.Spelled name := by
  have hlast {before : List String} {last : String} (hs : splitLast path = some (before, last)) :
      last ∈ path.pieces := by
    unfold splitLast at hs
    split at hs <;> rename_i hd
    · cases hs
    · obtain ⟨_, rfl⟩ := Prod.mk.inj (Option.some.inj hs)
      rw [← List.mem_reverse]
      apply (List.dropWhile_suffix (p := fun piece => decide (piece = ""))).subset
      rw [hd]
      exact List.mem_cons_self
  obtain ⟨_, before, hsplit, _⟩ := target_eq_name_iff.mp ht
  exact hp name (hlast hsplit)

theorem not_spelled_temporaryName (index : Nat) :
    ¬ ApplianceScript.Spelled (temporaryName index) := by
  simp [ApplianceScript.Spelled, temporaryName]

theorem temporaryName_inj {i j : Nat} : temporaryName i = temporaryName j ↔ i = j := by
  constructor
  · intro h
    have hdigits : Nat.toDigits 10 i = Nat.toDigits 10 j := by
      simpa [temporaryName, Nat.toString_eq_ofList_toDigits] using congrArg String.toList h
    rw [← Nat.ofDigitChars_ten_toDigits (n := i), hdigits, Nat.ofDigitChars_ten_toDigits]
  · rintro rfl
    rfl

end Disk

end ApplianceScript
