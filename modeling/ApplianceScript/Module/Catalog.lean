import ApplianceScript.Fault
import ApplianceScript.Module.Basic

namespace ApplianceScript

structure Catalog where
  modules : List ConfigModule
  distinct : (modules.map (·.name)).Nodup

namespace Catalog

def coreName : String := "Core"

def empty : Catalog := ⟨[], List.nodup_nil⟩

def names (catalog : Catalog) : List String :=
  catalog.modules.map (·.name)

def size (catalog : Catalog) : Nat :=
  catalog.modules.length

def get? (catalog : Catalog) (name : String) : Option ConfigModule :=
  catalog.modules.find? (·.name == name)

def require (catalog : Catalog) (name : String) : Except CompileError ConfigModule :=
  match catalog.get? name with
  | some m => .ok m
  | none => .error (.moduleNotFound name)

def insert (catalog : Catalog) (m : ConfigModule) : Except ConfigModule Catalog :=
  if fresh : m.name ∈ catalog.names then
    .error m
  else
    .ok ⟨catalog.modules ++ [m], by
      simp only [List.map_append, List.map_cons, List.map_nil]
      exact List.nodup_append.mpr ⟨catalog.distinct, by simp, by
        intro a ha b hb hab
        simp only [List.mem_singleton] at hb
        exact fresh (hb ▸ hab ▸ ha)⟩⟩

/-- Inserts the modules one after the other. `position` is the number of the first of them, which
only words the error. -/
def extend (catalog : Catalog) : Nat → List ConfigModule → Except CompileError Catalog
  | _, [] => .ok catalog
  | position, m :: rest =>
    match catalog.insert m with
    | .ok larger => larger.extend (position + 1) rest
    | .error rejected =>
      .error (.duplicateModule rejected.name
        ("definition #" ++ toString ((catalog.names.idxOf? rejected.name).getD 0 + 1))
        ("definition #" ++ toString position))

def ofList (modules : List ConfigModule) : Except CompileError Catalog :=
  empty.extend 1 modules

def coreVersion (catalog : Catalog) : Except CompileError Version :=
  match catalog.get? coreName with
  | none => .error .missingCoreModule
  | some core =>
    match core.version with
    | none => .error .missingCoreVersion
    | some version => .ok version

theorem names_of_insert {catalog larger : Catalog} {m : ConfigModule}
    (h : catalog.insert m = .ok larger) : larger.names = catalog.names ++ [m.name] := by
  unfold insert at h
  split at h
  · cases h
  · cases h
    simp [names]

theorem exists_insert {catalog : Catalog} {m : ConfigModule} (h : m.name ∉ catalog.names) :
    ∃ larger, catalog.insert m = .ok larger ∧ larger.modules = catalog.modules ++ [m] := by
  unfold insert
  rw [dif_neg h]
  exact ⟨_, rfl, rfl⟩

theorem insert_of_mem {catalog : Catalog} {m : ConfigModule} (h : m.name ∈ catalog.names) :
    catalog.insert m = .error m := by
  rw [insert, dif_pos h]

end Catalog

end ApplianceScript
