import ApplianceScript.Proofs.FallingWeights

namespace ApplianceScript

structure Item.Rearranged (first second : Item) : Prop where
  name : first.name = second.name
  dependencies : first.dependencies.Perm second.dependencies

namespace Scope

structure Rearranged (first second : Scope) : Prop where
  frozen : first.frozen = second.frozen
  items : ∃ items, first.items.Perm items ∧ List.Forall₂ Item.Rearranged items second.items

section Walks

variable {first second : Scope} (h : first.Rearranged second)
  (hn : (first.items.map (·.name)).Nodup)

namespace Rearranged

include h

theorem item_names_perm : (first.items.map (·.name)).Perm (second.items.map (·.name)) := by
  obtain ⟨items, hperm, hall⟩ := h.items
  rw [← map_eq_map_of_forall₂ hall fun _ _ hab => hab.name]
  exact hperm.map _

theorem mem_names_iff (name : String) : name ∈ first.names ↔ name ∈ second.names := by
  simp only [names, List.mem_eraseDups, h.item_names_perm.mem_iff]

include hn

theorem nodup_item_names : (second.items.map (·.name)).Nodup :=
  h.item_names_perm.nodup_iff.mp hn

theorem names_perm : first.names.Perm second.names := by
  rw [names, names, eraseDups_eq_self_of_nodup hn,
    eraseDups_eq_self_of_nodup (h.nodup_item_names hn)]
  exact h.item_names_perm

theorem exists_item? {name : String} {item : Item} (hi : first.item? name = some item) :
    ∃ other, second.item? name = some other ∧ item.Rearranged other := by
  obtain ⟨items, hperm, hall⟩ := h.items
  obtain ⟨hmem, rfl⟩ := name_of_item? hi
  obtain ⟨other, hother, hsame⟩ := exists_of_forall₂_of_mem hall (hperm.mem_iff.mp hmem)
  exact ⟨other, (findRev?_key_eq_some_iff (h.nodup_item_names hn) ..).mpr
    ⟨hother, hsame.name.symm⟩, hsame⟩

theorem follow_perm (path : List String) {item other : Item} (hsame : item.Rearranged other) :
    (first.follow path item).Perm (second.follow path other) := by
  induction path, item using follow.induct first generalizing other with
  | case1 path item ih =>
    rw [follow_eq, follow_eq]
    apply hsame.dependencies.flatMap
    intro b _
    rcases first.branch_cases path item b with
      ⟨hf, heq⟩ | ⟨hf, hb, heq⟩ | ⟨hf, hb, hp, heq⟩ | ⟨next, rfl, hi, hf, hp, heq⟩
    · rw [heq, branch_frozen _ _ _ (h.frozen ▸ hf)]
    · rw [heq, branch_missing _ _ _ (h.frozen ▸ hf) ((h.mem_names_iff b).not.mp hb), hsame.name]
    · rw [heq, branch_closed _ _ _ (h.frozen ▸ hf) ((h.mem_names_iff b).mp hb) hp]
    · obtain ⟨following, hfollowing, hnext⟩ := h.exists_item? hn hi
      rw [heq, branch_open _ _ _ (h.frozen ▸ hf) hfollowing hp]
      exact (ih next.name next hi hp hnext).cons _

theorem walk_perm : first.walk.Perm second.walk := by
  rw [walk_eq_follow, walk_eq_follow]
  exact h.follow_perm hn [] ⟨rfl, h.names_perm hn⟩

theorem complete_iff : first.Complete ↔ second.Complete := by
  simp only [Complete, (h.walk_perm hn).mem_iff]

end Rearranged

end Walks

section Weighed

variable {first second : Scope} {label otherLabel : String} {table other : WeightTable}
  (h : first.Rearranged second) (hn : (first.items.map (·.name)).Nodup)

include h hn

theorem Rearranged.exists_weigh_iff :
    (∃ table, (first.weigh label).result = .ok table) ↔
      ∃ other, (second.weigh otherLabel).result = .ok other := by
  simp only [weigh_eq_ok_iff, exists_and_left, exists_eq', and_true, h.complete_iff hn]

variable (hw : (first.weigh label).result = .ok table)
  (ho : (second.weigh otherLabel).result = .ok other)

include hw ho

theorem Rearranged.weight?_eq (name : String) : table.weight? name = other.weight? name := by
  obtain ⟨_, rfl⟩ := (first.weigh_eq_ok_iff label table).mp hw
  obtain ⟨_, rfl⟩ := (second.weigh_eq_ok_iff otherLabel other).mp ho
  simp only [WeightTable.weight?_ofSteps, h.mem_names_iff, (h.walk_perm hn).count_eq]

theorem Rearranged.cycles_perm : table.cycles.Perm other.cycles := by
  obtain ⟨_, rfl⟩ := (first.weigh_eq_ok_iff label table).mp hw
  obtain ⟨_, rfl⟩ := (second.weigh_eq_ok_iff otherLabel other).mp ho
  exact (h.walk_perm hn).filterMap _

theorem Rearranged.weight?_eq_of_swapped {a b : String}
    (hab : List.Sublist [a, b] table.descending) (hba : List.Sublist [b, a] other.descending) :
    table.weight? a = table.weight? b := by
  obtain ⟨heavy, light, hheavy, hlight, hle⟩ :=
    List.pairwise_iff_forall_sublist.mp (pairwise_outranks hw) hab
  obtain ⟨otherHeavy, otherLight, hother, hotherLight, hotherLe⟩ :=
    List.pairwise_iff_forall_sublist.mp (pairwise_outranks ho) hba
  rw [← h.weight?_eq hn hw ho] at hother hotherLight
  obtain rfl := Option.some.inj (hheavy.symm.trans hotherLight)
  obtain rfl := Option.some.inj (hlight.symm.trans hother)
  rw [hheavy, hlight]
  congr 1
  omega

end Weighed

end Scope

theorem WeightTable.descending_ofSteps_eq_self {names : List String} {steps : List Step}
    (h : names.Pairwise fun a b => steps.count (.reach b) ≤ steps.count (.reach a)) :
    (ofSteps names steps).descending = names := by
  have hsorted : ((ofSteps names steps).entries.mergeSort fun a b => decide (b.2 ≤ a.2)) =
      (ofSteps names steps).entries := by
    apply List.mergeSort_of_pairwise
    rw [ofSteps, List.pairwise_map]
    simpa only [decide_eq_true_eq] using h
  rw [descending, hsorted, ofSteps, List.map_map]
  exact List.map_id' names

namespace Catalog

variable {catalog other : Catalog}

theorem exists_extend_append {modules : List ConfigModule}
    (hn : (catalog.names ++ modules.map (·.name)).Nodup) (position : Nat)
    (more : List ConfigModule) :
    ∃ larger : Catalog, larger.modules = catalog.modules ++ modules ∧
      catalog.extend position (modules ++ more) =
        larger.extend (position + modules.length) more := by
  induction modules generalizing catalog position with
  | nil => exact ⟨catalog, (List.append_nil _).symm, rfl⟩
  | cons m rest ih =>
    rw [List.map_cons] at hn
    have hfresh : m.name ∉ catalog.names := fun hm =>
      (List.nodup_append.mp hn).2.2 m.name hm m.name List.mem_cons_self rfl
    obtain ⟨next, hinsert, hnext⟩ := catalog.exists_insert hfresh
    have hnames : next.names = catalog.names ++ [m.name] := names_of_insert hinsert
    have hrest : (next.names ++ rest.map (·.name)).Nodup := by
      rwa [hnames, List.append_assoc, List.singleton_append]
    obtain ⟨larger, hlarger, hextend⟩ := ih hrest (position + 1)
    refine ⟨larger, ?_, ?_⟩
    · rw [hlarger, hnext, List.append_assoc, List.singleton_append]
    · rw [List.cons_append, extend, hinsert, List.length_cons, ← Nat.add_assoc,
        Nat.add_right_comm]
      exact hextend

theorem exists_ofList {modules : List ConfigModule} (hn : (modules.map (·.name)).Nodup) :
    ∃ catalog, ofList modules = .ok catalog ∧ catalog.modules = modules := by
  have hnames : (empty.names ++ modules.map (·.name)).Nodup := hn
  obtain ⟨catalog, hmodules, hextend⟩ := exists_extend_append hnames 1 []
  rw [List.append_nil] at hextend
  exact ⟨catalog, hextend, hmodules⟩

theorem filterMap_get?_names (catalog : Catalog) :
    catalog.names.filterMap catalog.get? = catalog.modules := by
  rw [names, List.filterMap_map]
  have hfound : ∀ m ∈ catalog.modules, (catalog.get? ∘ (·.name)) m = some m := fun m hm =>
    (catalog.get?_eq_some_iff m.name m).mpr ⟨hm, rfl⟩
  rw [List.filterMap_congr hfound, List.filterMap_some]

theorem map_name_filterMap_get? {order : List String} (h : ∀ name ∈ order, name ∈ catalog.names) :
    (order.filterMap catalog.get?).map (·.name) = order := by
  induction order with
  | nil => rfl
  | cons name order ih =>
    obtain ⟨m, hm, rfl⟩ := List.mem_map.mp (h name List.mem_cons_self)
    rw [List.filterMap_cons_some ((catalog.get?_eq_some_iff m.name m).mpr ⟨hm, rfl⟩),
      List.map_cons, ih fun other hother => h other (List.mem_cons_of_mem _ hother)]

theorem rearranged_scope (h : catalog.modules.Perm other.modules) :
    catalog.scope.Rearranged other.scope :=
  ⟨rfl, other.scope.items, h.map _, List.forall₂_same.mpr fun _ _ => ⟨rfl, .refl _⟩⟩

theorem nodup_item_names (catalog : Catalog) : (catalog.scope.items.map (·.name)).Nodup := by
  rw [scope, List.map_map]
  exact catalog.nodup_names

theorem installOrder_of_ordered {order : List String}
    (h : catalog.installOrder.result = .ok order) (hp : catalog.modules.Perm other.modules)
    (hnames : other.names = order) : other.installOrder.result = .ok order := by
  obtain ⟨table, hw, hdescending⟩ := Warned.result_map_eq_ok_iff.mp h
  have hrearranged := rearranged_scope hp
  obtain ⟨found, ho⟩ : ∃ found, (other.scope.weigh scopeLabel).result = .ok found :=
    (hrearranged.exists_weigh_iff catalog.nodup_item_names).mp ⟨table, hw⟩
  refine Warned.result_map_eq_ok_iff.mpr ⟨found, ho, ?_⟩
  have hsteps := hrearranged.walk_perm catalog.nodup_item_names
  obtain ⟨_, rfl⟩ := (catalog.scope.weigh_eq_ok_iff scopeLabel table).mp hw
  obtain ⟨_, rfl⟩ := (other.scope.weigh_eq_ok_iff scopeLabel found).mp ho
  rw [names_scope, hnames]
  apply WeightTable.descending_ofSteps_eq_self
  have hpairwise := WeightTable.descending_ofSteps_pairwise catalog.scope.names catalog.scope.walk
  rw [hdescending] at hpairwise
  simpa only [hsteps.count_eq] using hpairwise

theorem exists_ordered {order : List String} (h : catalog.installOrder.result = .ok order) :
    ∃ again, ofList (order.filterMap catalog.get?) = .ok again ∧ again.names = order ∧
      again.modules.Perm catalog.modules ∧ again.installOrder.result = .ok order := by
  have hperm := installOrder_perm h
  have hnames := map_name_filterMap_get? fun name hname => hperm.mem_iff.mp hname
  obtain ⟨again, hlist, hmodules⟩ := exists_ofList (hnames ▸ nodup_installOrder h)
  have hagain : again.names = order := by rw [names, hmodules, hnames]
  have hsame : again.modules.Perm catalog.modules := by
    rw [hmodules, ← catalog.filterMap_get?_names]
    exact hperm.filterMap _
  exact ⟨again, hlist, hagain, hsame, installOrder_of_ordered h hsame.symm hagain⟩

end Catalog

namespace Scope

theorem weighed_alike :
    (∀ (first second : Scope) (label otherLabel : String),
      (first.items.map (·.name)).Nodup → first.Rearranged second →
        ((∃ table, (first.weigh label).result = .ok table) ↔
          ∃ other, (second.weigh otherLabel).result = .ok other) ∧
        ∀ table other, (first.weigh label).result = .ok table →
          (second.weigh otherLabel).result = .ok other →
            (∀ name, table.weight? name = other.weight? name) ∧
            table.cycles.Perm other.cycles ∧
            ∀ a b, List.Sublist [a, b] table.descending → List.Sublist [b, a] other.descending →
              table.weight? a = table.weight? b) ∧
      (∀ catalog other : Catalog, catalog.modules.Perm other.modules →
        catalog.scope.Rearranged other.scope) ∧
      ∀ (catalog : Catalog) (order : List String), catalog.installOrder.result = .ok order →
        ∃ again, Catalog.ofList (order.filterMap catalog.get?) = .ok again ∧
          again.names = order ∧ again.modules.Perm catalog.modules ∧
          again.installOrder.result = .ok order := by
  refine ⟨?_, fun _ _ => Catalog.rearranged_scope, fun _ _ => Catalog.exists_ordered⟩
  intro first second label otherLabel hn h
  refine ⟨h.exists_weigh_iff hn, ?_⟩
  intro table other hw ho
  exact ⟨h.weight?_eq hn hw ho, h.cycles_perm hn hw ho, fun _ _ => h.weight?_eq_of_swapped hn hw ho⟩

end Scope

namespace Sample

def shuffled : Scope where
  items := [⟨"trunk", ["base", "mode"]⟩, ⟨"vlan", ["mode"]⟩, ⟨"acl", ["vlan", "vlan", "base"]⟩,
    ⟨"mode", ["trunk"]⟩]
  frozen name := name == "base"

def shuffledTable : WeightTable where
  entries := [("trunk", 6), ("vlan", 3), ("acl", 1), ("mode", 9)]
  cycles := [["trunk", "mode", "trunk"], ["mode", "trunk", "mode"], ["mode", "trunk", "mode"],
    ["mode", "trunk", "mode"], ["mode", "trunk", "mode"]]

theorem weigh_shuffled : (shuffled.weigh "test").result = .ok shuffledTable := by cbv

theorem rearranged_tangled : tangled.Rearranged shuffled := by
  refine ⟨rfl, [⟨"trunk", ["mode", "base"]⟩, ⟨"vlan", ["mode"]⟩,
    ⟨"acl", ["vlan", "base", "vlan"]⟩, ⟨"mode", ["trunk"]⟩], by decide, ?_⟩
  exact .cons ⟨rfl, by decide⟩ (.cons ⟨rfl, .refl _⟩ (.cons ⟨rfl, by decide⟩
    (.cons ⟨rfl, .refl _⟩ .nil)))

end Sample

namespace Scope

theorem sample_shuffled_alike :
    (Sample.tangled.items.map (·.name)).Nodup ∧ Sample.tangled.Rearranged Sample.shuffled ∧
      (Sample.tangled.weigh "test").result = .ok Sample.tangledTable ∧
      (Sample.shuffled.weigh "test").result = .ok Sample.shuffledTable ∧
      Sample.tangledTable.weight? "mode" = Sample.shuffledTable.weight? "mode" ∧
      Sample.tangledTable.cycles.Perm Sample.shuffledTable.cycles ∧
      Sample.layered.installOrder.result = .ok ["Ring", "Core", "Access"] ∧
      ∃ again, Catalog.ofList (["Ring", "Core", "Access"].filterMap Sample.layered.get?) =
        .ok again ∧ again.installOrder.result = .ok ["Ring", "Core", "Access"] := by
  have hn : (Sample.tangled.items.map (·.name)).Nodup := by decide
  obtain ⟨hscopes, _, hcatalogs⟩ := weighed_alike
  obtain ⟨_, hsame⟩ := hscopes Sample.tangled Sample.shuffled "test" "test" hn
    Sample.rearranged_tangled
  obtain ⟨hweights, hcycles, _⟩ := hsame _ _ Sample.weigh_tangled Sample.weigh_shuffled
  obtain ⟨again, hagain, _, _, horder⟩ := hcatalogs _ _ Sample.installOrder_layered
  exact ⟨hn, Sample.rearranged_tangled, Sample.weigh_tangled, Sample.weigh_shuffled,
    hweights "mode", hcycles, Sample.installOrder_layered, again, hagain, horder⟩

end Scope

end ApplianceScript
