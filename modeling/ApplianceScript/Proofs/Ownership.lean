import ApplianceScript.Order.Ownership
import Mathlib.Data.List.Basic

namespace ApplianceScript

def Catalog.defines (catalog : Catalog) (name moduleName : String) : Bool :=
  (catalog.get? moduleName).any fun m => name ∈ m.elementNames

def Catalog.DefinedEarlier (catalog : Catalog) (order : List String) (moduleName element : String) :
    Prop :=
  ∃ owner, catalog.defines element owner = true ∧ order.idxOf owner < order.idxOf moduleName

namespace Ownership

theorem owner?_claim (ownership : Ownership) (position : Nat) (claimed name : String) :
    (ownership.claim position claimed).owner? name =
      (ownership.owner? name).or (if name = claimed then some position else none) := by
  unfold claim
  split <;> rename_i howner
  · by_cases hn : name = claimed
    · simp [hn, howner]
    · simp [hn]
  · simp only [owner?] at howner ⊢
    rw [List.lookup_append]
    by_cases hn : name = claimed
    · simp [hn]
    · have hne : (name == claimed) = false := by simpa using hn
      simp [hn, List.lookup_cons, hne]

theorem owner?_claimAll (ownership : Ownership) (position : Nat) (names : List String)
    (name : String) :
    (ownership.claimAll position names).owner? name =
      (ownership.owner? name).or (if name ∈ names then some position else none) := by
  unfold claimAll
  induction names generalizing ownership with
  | nil => simp
  | cons claimed rest ih =>
    rw [List.foldl_cons, ih, owner?_claim, Option.or_assoc]
    congr 1
    by_cases hn : name = claimed <;> simp [hn]

theorem owner?_extend {catalog : Catalog} {ownership result : Ownership} {position : Nat}
    {order : List String} (h : extend catalog ownership position order = .ok result)
    (name : String) :
    result.owner? name = (ownership.owner? name).or
      ((order.findIdx? (catalog.defines name)).map (· + position)) := by
  induction order generalizing ownership position with
  | nil =>
    obtain rfl : ownership = result := Except.ok.inj h
    simp
  | cons moduleName rest ih =>
    unfold extend at h
    split at h
    · cases h
    · rename_i m hm
      have hget : catalog.get? moduleName = some m := by
        unfold Catalog.require at hm
        split at hm
        · rename_i found hfound
          rw [hfound, Except.ok.inj hm]
        · cases hm
      rw [ih h, owner?_claimAll, Option.or_assoc, List.findIdx?_cons]
      congr 1
      by_cases hn : name ∈ m.elementNames
      · simp [Catalog.defines, hget, hn]
      · simp only [Catalog.defines, hget, hn, Option.any_some, decide_false, Bool.false_eq_true,
          ↓reduceIte, Option.none_or, Option.map_map]
        congr 1
        funext index
        simp only [Function.comp_apply]
        omega

theorem owner?_ofInstallOrder {catalog : Catalog} {ownership : Ownership} {order : List String}
    (h : ofInstallOrder catalog order = .ok ownership) (name : String) :
    ownership.owner? name = order.findIdx? (catalog.defines name) := by
  rw [owner?_extend h]
  simp [empty, owner?]

theorem settledBefore_iff {catalog : Catalog} {ownership : Ownership} {order : List String}
    (h : ofInstallOrder catalog order = .ok ownership) (position : Nat) (name : String) :
    ownership.settledBefore position name = true ↔
      ∃ moduleName ∈ order.take position, catalog.defines name moduleName = true := by
  unfold settledBefore
  rw [owner?_ofInstallOrder h]
  cases hfirst : order.findIdx? (catalog.defines name) with
  | none =>
    rw [List.findIdx?_eq_none_iff] at hfirst
    simp only [Bool.false_eq_true, false_iff, not_exists, not_and]
    intro moduleName hmem
    rw [hfirst moduleName (List.mem_of_mem_take hmem)]
    exact Bool.false_ne_true
  | some owner =>
    obtain ⟨hlt, howner, hbefore⟩ := List.findIdx?_eq_some_iff_getElem.mp hfirst
    simp only [decide_eq_true_eq]
    constructor
    · intro hp
      exact ⟨order[owner], List.mem_take_iff_getElem.mpr ⟨owner, by omega, rfl⟩, howner⟩
    · rintro ⟨moduleName, hmem, hdefines⟩
      obtain ⟨index, hindex, rfl⟩ := List.mem_take_iff_getElem.mp hmem
      by_contra hp
      exact hbefore index (by omega) hdefines

end Ownership

end ApplianceScript
