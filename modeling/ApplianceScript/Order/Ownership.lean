import ApplianceScript.Module.Catalog

namespace ApplianceScript

structure Ownership where
  owners : List (String × Nat)
deriving DecidableEq, Repr

namespace Ownership

def empty : Ownership := ⟨[]⟩

def owner? (ownership : Ownership) (name : String) : Option Nat :=
  ownership.owners.lookup name

def claim (ownership : Ownership) (position : Nat) (name : String) : Ownership :=
  match ownership.owner? name with
  | some _ => ownership
  | none => ⟨ownership.owners ++ [(name, position)]⟩

def claimAll (ownership : Ownership) (position : Nat) (names : List String) : Ownership :=
  names.foldl (·.claim position ·) ownership

def extend (catalog : Catalog) (ownership : Ownership) :
    Nat → List String → Except CompileError Ownership
  | _, [] => .ok ownership
  | position, name :: rest =>
    match catalog.require name with
    | .error error => .error error
    | .ok m => extend catalog (ownership.claimAll position m.elementNames) (position + 1) rest

def ofInstallOrder (catalog : Catalog) (order : List String) : Except CompileError Ownership :=
  extend catalog empty 0 order

def settledBefore (ownership : Ownership) (position : Nat) (name : String) : Bool :=
  match ownership.owner? name with
  | some owner => owner < position
  | none => false

end Ownership

end ApplianceScript
