import ApplianceScript.Proofs.Emission

namespace ApplianceScript

theorem find?_rel_of_forall₂ {α β : Type} {r : α → β → Prop} {l : List α} {results : List β}
    (h : List.Forall₂ r l results) {p : α → Bool} {q : β → Bool}
    (hpq : ∀ a b, r a b → p a = q b) :
    Option.Rel (fun a b => p a = true ∧ r a b) (l.find? p) (results.find? q) := by
  induction h with
  | nil => exact .none
  | @cons a b l results hab _ ih =>
    rw [List.find?_cons, List.find?_cons, ← hpq a b hab]
    cases hp : p a with
    | true => exact .some ⟨hp, hab⟩
    | false => exact ih

namespace Scope

variable {first second : Scope}

theorem follow_congr (hfrozen : first.frozen = second.frozen)
    (hitem : ∀ name, first.frozen name = false → first.item? name = second.item? name)
    (path : List String) (item : Item) : first.follow path item = second.follow path item := by
  induction path, item using follow.induct first with
  | case1 path item ih =>
    rw [follow_eq, follow_eq]
    apply List.flatMap_congr
    intro b hb
    cases hf : first.frozen b with
    | true => rw [branch_frozen _ _ _ hf, branch_frozen _ _ _ (hfrozen ▸ hf)]
    | false =>
      have hsame := hitem b hf
      unfold branch
      rw [← hfrozen, ← hsame, hf]
      cases hnext : first.item? b with
      | none => rfl
      | some next =>
        by_cases hp : b ∈ path
        · simp only [hp, if_true]
        · simp only [hp, if_false, ih b next hnext hp]

theorem weigh_congr (hnames : first.names = second.names) (hfrozen : first.frozen = second.frozen)
    (hitem : ∀ name, first.frozen name = false → first.item? name = second.item? name)
    (label : String) : first.weigh label = second.weigh label := by
  have hwalk : first.walk = second.walk := by
    rw [walk_eq_follow, walk_eq_follow, hnames]
    exact follow_congr hfrozen hitem [] _
  unfold weigh
  rw [hwalk, hnames]

end Scope

structure Element.Agrees (counts : Prop) (first second : Element) : Prop where
  name : first.name = second.name
  dependencies : counts → first.dependencies = second.dependencies
  commands : counts → first.commands = second.commands

structure ConfigModule.Agrees (counts : String → Prop) (first second : ConfigModule) : Prop where
  name : first.name = second.name
  version : first.name = Catalog.coreName → first.version = second.version
  dependencies : first.dependencies = second.dependencies
  placeholders : first.placeholders = second.placeholders
  elements : List.Forall₂ (fun a b => a.Agrees (counts a.name) b) first.elements second.elements

namespace Catalog

/-- No module earlier in install order defines the element too. -/
def Counts (catalog : Catalog) (m : ConfigModule) (element : String) : Prop :=
  ∃ order, catalog.installOrder.result = .ok order ∧ ¬ catalog.DefinedEarlier order m.name element

def Agrees (first second : Catalog) : Prop :=
  List.Forall₂ (fun m other => m.Agrees (first.Counts m) other) first.modules second.modules

end Catalog

namespace ConfigModule.Agrees

variable {counts : String → Prop} {m other : ConfigModule} (h : m.Agrees counts other)

include h

theorem elementNames : m.elementNames = other.elementNames :=
  map_eq_map_of_forall₂ h.elements fun _ _ hab => hab.name

theorem findRev? (name : String) :
    Option.Rel (fun a b => a.name = name ∧ a.Agrees (counts name) b)
      (m.elements.findRev? (·.name == name)) (other.elements.findRev? (·.name == name)) := by
  have hfound := find?_rel_of_forall₂ (p := (·.name == name)) (q := (·.name == name))
    (List.forall₂_reverse_iff.mpr h.elements) fun a b hab => by rw [hab.name]
  rw [List.findRev?_eq_find?_reverse, List.findRev?_eq_find?_reverse]
  generalize m.elements.reverse.find? _ = first, other.elements.reverse.find? _ = second at hfound
  cases hfound with
  | none => exact .none
  | some hab =>
    obtain ⟨hname, hab⟩ := hab
    rw [beq_iff_eq] at hname
    exact .some ⟨hname, hname ▸ hab⟩

theorem item? {settled : String → Bool} {name : String} (hc : counts name) :
    (m.scope settled).item? name = (other.scope settled).item? name := by
  have hitem (m : ConfigModule) : (m.scope settled).item? name =
      (m.elements.findRev? (·.name == name)).map Element.item := by
    simp only [Scope.item?, scope, List.findRev?_eq_find?_reverse, ← List.map_reverse,
      List.find?_map]
    rfl
  rw [hitem, hitem]
  have hfound := h.findRev? name
  generalize m.elements.findRev? _ = first, other.elements.findRev? _ = second at hfound
  cases hfound with
  | none => rfl
  | some hab =>
    obtain ⟨_, hab⟩ := hab
    simp only [Option.map_some, Element.item, hab.name, hab.dependencies hc]

theorem elementText (direction : Direction) {name : String} (hc : counts name) :
    Plan.elementText m direction name = Plan.elementText other direction name := by
  unfold Plan.elementText
  have hfound := h.findRev? name
  generalize m.elements.findRev? _ = first, other.elements.findRev? _ = second at hfound
  cases hfound with
  | none => rw [h.name]
  | some hab =>
    obtain ⟨_, hab⟩ := hab
    simp only [hab.commands hc]

theorem elementOrder {position : Nat} {ownership : Ownership}
    (hc : ∀ name, ownership.settledBefore position name = false → counts name) :
    m.elementOrder position ownership = other.elementOrder position ownership := by
  have hnames : (m.scope (ownership.settledBefore position)).names =
      (other.scope (ownership.settledBefore position)).names := by
    have hnames := h.elementNames
    simp only [ConfigModule.elementNames] at hnames
    simp only [Scope.names, scope, List.map_map, Function.comp_def, Element.item, hnames]
  have hweigh := Scope.weigh_congr hnames rfl (fun name hf => h.item? (hc name hf)) m.scopeLabel
  have hlabel : m.scopeLabel = other.scopeLabel := by
    rw [scopeLabel, scopeLabel, h.name]
  unfold ConfigModule.elementOrder
  rw [h.elementNames, h.name, ← hlabel]
  simp only [hweigh]

end ConfigModule.Agrees

namespace Catalog.Agrees

variable {first second : Catalog} (h : first.Agrees second)

include h

theorem names : first.names = second.names :=
  map_eq_map_of_forall₂ h fun _ _ hab => hab.name

theorem definitions : first.definitions = second.definitions := by
  have hmap := map_eq_map_of_forall₂ (f := fun m => m.placeholders.map (Definition.mk m.name))
    (g := fun m => m.placeholders.map (Definition.mk m.name)) h fun a b hab => by
      rw [hab.name, hab.placeholders]
  simp only [Catalog.definitions, List.flatMap_def, hmap]

theorem scope : first.scope = second.scope := by
  have hitems : first.modules.map ConfigModule.item = second.modules.map ConfigModule.item :=
    map_eq_map_of_forall₂ h fun a b hab => by
      rw [ConfigModule.item, ConfigModule.item, hab.name, hab.dependencies]
  simp only [Catalog.scope, hitems]

theorem get? (name : String) :
    Option.Rel (fun m other => m.name = name ∧ m.Agrees (first.Counts m) other)
      (first.get? name) (second.get? name) := by
  have hfound := find?_rel_of_forall₂ (p := (·.name == name)) (q := (·.name == name)) h
    fun a b hab => by rw [hab.name]
  simpa only [Catalog.get?, beq_iff_eq] using hfound

theorem coreVersion : first.coreVersion = second.coreVersion := by
  unfold Catalog.coreVersion
  have hfound := h.get? coreName
  generalize first.get? _ = core, second.get? _ = other at hfound
  cases hfound with
  | none => rfl
  | some hab =>
    obtain ⟨hname, hab⟩ := hab
    simp only [hab.version hname]

theorem installOrder : first.installOrder = second.installOrder := by
  unfold Catalog.installOrder
  rw [h.scope]

theorem extend (ownership : Ownership) (position : Nat) (names : List String) :
    Ownership.extend first ownership position names =
      Ownership.extend second ownership position names := by
  induction names generalizing ownership position with
  | nil => rfl
  | cons name rest ih =>
    unfold Ownership.extend Catalog.require
    have hfound := h.get? name
    generalize first.get? _ = m, second.get? _ = other at hfound
    cases hfound with
    | none => rfl
    | some hab =>
      obtain ⟨_, hab⟩ := hab
      simp only [hab.elementNames]
      exact ih _ _

end Catalog.Agrees

end ApplianceScript
