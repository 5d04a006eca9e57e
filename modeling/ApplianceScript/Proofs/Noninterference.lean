import ApplianceScript.Proofs.Agreement
import ApplianceScript.Proofs.Compilation

/-!
Catalogs that agree on all that counts compile to the same scripts.

Two computations are related when they warn of the same cycles and either both succeed, with
related values, or both fail with the same error. Every step of a build keeps two catalogs that
agree related, and the plans it ends with emit the same lines.
-/

namespace ApplianceScript

namespace Warned

structure Related {α β : Type} (r : α → β → Prop) (first : Warned α) (second : Warned β) :
    Prop where
  warnings : first.warnings.Perm second.warnings
  result : (∃ a b, first.result = .ok a ∧ second.result = .ok b ∧ r a b) ∨
    ∃ error, first.result = .error error ∧ second.result = .error error

variable {α β γ δ : Type} {r : α → β → Prop} {s : γ → δ → Prop}

theorem Related.refl (first : Warned α) : Related Eq first first := by
  refine ⟨.refl _, ?_⟩
  cases first.result with
  | error error => exact .inr ⟨error, rfl, rfl⟩
  | ok a => exact .inl ⟨a, a, rfl, rfl, rfl⟩

theorem Related.of_eq {first second : Warned α} (h : first = second) : Related Eq first second :=
  h ▸ .refl first

theorem Related.of_result_eq {first second : Warned α} (hw : first.warnings.Perm second.warnings)
    (hr : first.result = second.result) : Related Eq first second :=
  ⟨hw, hr ▸ (Related.refl first).result⟩

theorem Related.result_eq {first second : Warned α} (h : Related Eq first second) :
    first.result = second.result := by
  rcases h.result with ⟨a, _, hf, hs, rfl⟩ | ⟨error, hf, hs⟩ <;> rw [hf, hs]

theorem Related.bind {first : Warned α} {second : Warned β} (h : Related r first second)
    {f : α → Warned γ} {g : β → Warned δ}
    (hnext : ∀ a b, first.result = .ok a → second.result = .ok b → r a b → Related s (f a) (g b)) :
    Related s (first >>= f) (second >>= g) := by
  change Related s (Warned.bind first f) (Warned.bind second g)
  unfold Warned.bind
  rcases h.result with ⟨a, b, hf, hs, hab⟩ | ⟨error, hf, hs⟩
  · rw [hf, hs]
    have hrest := hnext a b hf hs hab
    exact ⟨h.warnings.append hrest.warnings, hrest.result⟩
  · rw [hf, hs]
    exact ⟨h.warnings, .inr ⟨error, rfl, rfl⟩⟩

end Warned

namespace Plan

structure Matches (plan other : Plan) : Prop where
  installOrder : plan.installOrder = other.installOrder
  elementOrders : plan.elementOrders = other.elementOrders
  placeholders : plan.placeholders = other.placeholders
  version : plan.version = other.version

variable {first second : Catalog} (h : first.Agrees second)

include h

theorem task_eq_of_agrees {order : List String} {ownership : Ownership}
    (horder : first.installOrder.result = .ok order)
    (hownership : Ownership.ofInstallOrder first order = .ok ownership) (name : String) :
    task first ownership (order.idxOf name) name =
      task second ownership (order.idxOf name) name := by
  unfold task Catalog.require
  have hfound := h.get? name
  generalize first.get? _ = m, second.get? _ = other at hfound
  cases hfound with
  | none => rfl
  | @some m other hab =>
    obtain ⟨rfl, hab⟩ := hab
    have hsame : m.elementOrder (order.idxOf m.name) ownership =
        other.elementOrder (order.idxOf m.name) ownership := by
      apply hab.elementOrder
      intro element hfree
      refine ⟨order, horder, ?_⟩
      rw [← Catalog.settledBefore_idxOf_iff horder hownership, hfree]
      exact Bool.false_ne_true
    simp only [hsame]

theorem related_orderElements {order : List String} {ownership : Ownership}
    (horder : first.installOrder.result = .ok order)
    (hownership : Ownership.ofInstallOrder first order = .ok ownership)
    (schedule other : Schedule) (width otherWidth : Nat) :
    Warned.Related Eq (orderElements schedule width first order ownership)
      (orderElements other otherWidth second order ownership) := by
  have htasks : tasks first order ownership = tasks second order ownership := by
    unfold tasks
    rw [zipIdx_eq_map_idxOf (Catalog.nodup_installOrder horder), List.map_map, List.map_map]
    apply List.map_congr_left
    intro name _
    exact task_eq_of_agrees h horder hownership name
  apply Warned.Related.of_result_eq
  · have hfirst := warnings_orderElements_perm first order ownership schedule width
    have hsecond := warnings_orderElements_perm second order ownership other otherWidth
    rw [htasks] at hfirst
    exact hfirst.trans hsecond.symm
  · rw [result_orderElements, result_orderElements,
      ← collect_eq_of_perm first order ownership (.refl _),
      ← collect_eq_of_perm second order ownership (.refl _), htasks]

theorem related_buildBy (schedule other : Schedule) (width otherWidth : Nat) :
    Warned.Related Matches (buildBy schedule width first) (buildBy other otherWidth second) := by
  unfold buildBy
  refine (Warned.Related.of_eq (congrArg Warned.ofExcept h.coreVersion)).bind ?_
  rintro version _ _ _ rfl
  have hmerge : PlaceholderTable.merge first = PlaceholderTable.merge second := by
    unfold PlaceholderTable.merge
    rw [h.definitions]
  refine (Warned.Related.of_eq (congrArg Warned.ofExcept hmerge)).bind ?_
  rintro placeholders _ _ _ rfl
  refine (Warned.Related.of_eq h.installOrder).bind ?_
  rintro order _ horder _ rfl
  refine (Warned.Related.of_eq (congrArg Warned.ofExcept (h.extend .empty 0 order))).bind ?_
  rintro ownership _ hownership _ rfl
  refine (related_orderElements h horder hownership schedule other width otherWidth).bind ?_
  rintro elementOrders _ _ _ rfl
  exact ⟨.refl _, .inl ⟨_, _, rfl, rfl, rfl, rfl, rfl, rfl⟩⟩

section Plans

variable {plan other : Plan} (hp : plan.IsPlanOf first) (hq : other.IsPlanOf second)
  (hm : plan.Matches other)

include hp hq hm

theorem block_eq_of_matches (direction : Direction) (name : String) :
    plan.block direction name = other.block direction name := by
  unfold block Catalog.require elementOrder?
  rw [hp.catalog_eq, hq.catalog_eq, ← hm.elementOrders]
  have hfound := h.get? name
  generalize hget : first.get? name = m, second.get? name = same at hfound ⊢
  cases hfound with
  | none => rfl
  | @some m same hab =>
    obtain ⟨rfl, hab⟩ := hab
    have hmem := ((Catalog.get?_eq_some_iff ..).mp hget).1
    cases horder : plan.elementOrders.lookup m.name with
    | none => rfl
    | some order =>
      have htexts : (order.names direction).mapM (elementText m direction) =
          (order.names direction).mapM (elementText same direction) := by
        -- No earlier module defines what this one emits, so the commands count.
        apply mapM_congr
        intro element he
        apply hab.elementText direction
        have hordered : element ∈ plan.orderedNames direction m.name := by
          rw [orderedNames, elementOrder?, horder]
          exact he
        have hfirst := ((hp.mem_orderedNames_iff direction hmem element).mp hordered).2
        rw [OwnedEarlier, hp.catalog_eq] at hfirst
        exact ⟨plan.installOrder, hp.installOrder, hfirst⟩
      change ((order.names direction).mapM (elementText m direction) >>= _) =
        ((order.names direction).mapM (elementText same direction) >>= _)
      rw [htexts]

theorem emit_eq_of_matches (direction : Direction) :
    plan.emit direction = other.emit direction := by
  have hnames : plan.moduleNames direction = other.moduleNames direction := by
    cases direction <;> simp only [moduleNames, uninstallOrder, hm.installOrder]
  have hblocks : plan.blocks direction = other.blocks direction := by
    unfold blocks
    rw [hnames]
    exact mapM_congr fun name _ => block_eq_of_matches h hp hq hm direction name
  unfold emit
  rw [hblocks, hm.placeholders, hm.version]

theorem scripts_eq_of_matches : plan.scripts = other.scripts := by
  unfold scripts
  rw [emit_eq_of_matches h hp hq hm, emit_eq_of_matches h hp hq hm]

end Plans

theorem related_scriptsBy (schedule other : Schedule) (width otherWidth : Nat) :
    Warned.Related Eq (scriptsBy schedule width first) (scriptsBy other otherWidth second) := by
  unfold scriptsBy
  refine (related_buildBy h schedule other width otherWidth).bind ?_
  intro plan same hplan hsame hm
  exact .of_eq (congrArg Warned.ofExcept (scripts_eq_of_matches h (isPlanOf_of_buildBy hplan)
    (isPlanOf_of_buildBy hsame) hm))

theorem compile_eq_of_agrees :
    (∀ schedule other width otherWidth,
      (scriptsBy schedule width first).result = (scriptsBy other otherWidth second).result ∧
        (scriptsBy schedule width first).warnings.Perm
          (scriptsBy other otherWidth second).warnings) ∧
    ∀ width otherWidth,
      (Session.fresh first width).compile.1 = (Session.fresh second otherWidth).compile.1 ∧
        (Session.fresh first width).compile.2.warnings.Perm
          (Session.fresh second otherWidth).compile.2.warnings := by
  have hsame (schedule other : Schedule) (width otherWidth : Nat) :=
    related_scriptsBy h schedule other width otherWidth
  refine ⟨fun schedule other width otherWidth =>
    ⟨(hsame schedule other width otherWidth).result_eq,
      (hsame schedule other width otherWidth).warnings⟩, ?_⟩
  intro width otherWidth
  obtain ⟨hresult, hwarnings⟩ := Session.compile_fresh first width
  obtain ⟨hother, hotherWarnings⟩ := Session.compile_fresh second otherWidth
  rw [hresult, hwarnings, hother, hotherWarnings]
  exact ⟨(hsame ..).result_eq, (hsame ..).warnings⟩

end Plan

namespace Sample

def reworded : ConfigModule :=
  { name := "Network"
    version := some ⟨9, 9⟩
    dependencies := ["Core"]
    sections := [
      { name := "routes"
        elements := [
          { name := "route", references := ["mode"], dependencies := ["mode", "vlan"] },
          { name := "mode", dependencies := ["nobody"], commands := ⟨"set mode", "unset mode"⟩ }] },
      { name := "links"
        elements := [
          { name := "vlan" },
          { name := "ring", dependencies := ["ring", "vlan"] }] }] }

def rewordedCatalog : Catalog := ⟨[reworded, core], by decide⟩

theorem not_counts_mode : ¬ catalog.Counts network "mode" := by
  rintro ⟨order, horder, hfirst⟩
  have hsame : catalog.installOrder.result = .ok ["Core", "Network"] := by cbv
  obtain rfl := Except.ok.inj (horder.symm.trans hsame)
  exact hfirst ⟨"Core", by decide, by decide⟩

theorem agrees_rewordedCatalog : catalog.Agrees rewordedCatalog := by
  have hsame (counts : Prop) (element : Element) : element.Agrees counts element :=
    ⟨rfl, fun _ => rfl, fun _ => rfl⟩
  have hnetwork : network.Agrees (catalog.Counts network) reworded := by
    refine ⟨rfl, fun h => absurd h (by decide), rfl, rfl, ?_⟩
    refine .cons ⟨rfl, fun _ => rfl, fun _ => rfl⟩ (.cons ?_ (.cons (hsame _ _)
      (.cons (hsame _ _) .nil)))
    exact ⟨rfl, fun h => absurd h not_counts_mode, fun h => absurd h not_counts_mode⟩
  have hcore : core.Agrees (catalog.Counts core) core :=
    ⟨rfl, fun _ => rfl, rfl, rfl, List.forall₂_same.mpr fun _ _ => hsame _ _⟩
  exact .cons hnetwork (.cons hcore .nil)

end Sample

namespace Plan

theorem sample_reworded_alike :
    Sample.catalog.Agrees Sample.rewordedCatalog ∧
      (scriptsBy [1] 2 Sample.catalog).result = (scriptsBy [] 1 Sample.rewordedCatalog).result :=
  ⟨Sample.agrees_rewordedCatalog,
    ((compile_eq_of_agrees Sample.agrees_rewordedCatalog).1 [1] [] 2 1).1⟩

end Plan

end ApplianceScript
