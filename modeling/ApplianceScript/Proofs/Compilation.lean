import ApplianceScript.Session

namespace ApplianceScript

def Plan.scriptsBy (schedule : Schedule) (width : Nat) (catalog : Catalog) : Warned Scripts := do
  let plan ← buildBy schedule width catalog
  Warned.ofExcept plan.scripts

theorem Session.compile_fresh (catalog : Catalog) (width : Nat) :
    (fresh catalog width).compile.1 = (Plan.scriptsBy [] (max width 1) catalog).result ∧
      (fresh catalog width).compile.2.warnings =
        (Plan.scriptsBy [] (max width 1) catalog).warnings := by
  unfold Plan.scriptsBy
  change _ = (Warned.bind _ _).result ∧ _ = (Warned.bind _ _).warnings
  unfold compile plan fresh freshBy Warned.bind
  dsimp only
  cases (Plan.buildBy [] (max width 1) catalog).result with
  | error error => exact ⟨rfl, List.nil_append _⟩
  | ok plan => exact ⟨rfl, by simp [Warned.ofExcept]⟩

end ApplianceScript
