import ApplianceScript.Script

/-!
Sessions: one catalog, compiled on demand.

The plan is built when it is first needed and kept once a build has succeeded. A build that fails
is not kept, so the next operation tries again. A session counts its builds and collects their
warnings. Nobody chooses the schedules of the builds: they may all differ.
-/

namespace ApplianceScript

structure Session where
  catalog : Catalog
  width : Nat
  /-- The schedule of each build, by the number of builds before it. -/
  schedules : Nat → Schedule
  kept : Option Plan := none
  builds : Nat := 0
  warnings : List CycleWarning := []

namespace Session

def freshBy (schedules : Nat → Schedule) (catalog : Catalog) (width : Nat) : Session :=
  { catalog, width := max width 1, schedules }

def fresh (catalog : Catalog) (width : Nat) : Session :=
  freshBy (fun _ => []) catalog width

def plan (session : Session) : Except CompileError Plan × Session :=
  match session.kept with
  | some plan => (.ok plan, session)
  | none =>
    let built := Plan.buildBy (session.schedules session.builds) session.width session.catalog
    (built.result,
      { session with
        kept := built.result.toOption
        builds := session.builds + 1
        warnings := session.warnings ++ built.warnings })

def emit (session : Session) (direction : Direction) :
    Except CompileError (List String) × Session :=
  let (plan, after) := session.plan
  (plan.bind (·.emit direction), after)

def compile (session : Session) : Except CompileError Scripts × Session :=
  let (plan, after) := session.plan
  (plan.bind (·.scripts), after)

end Session

end ApplianceScript
