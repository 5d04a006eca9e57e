import ApplianceScript.Module.Catalog

/-!
The placeholder table and its use.

All modules contribute to one table, so a name may be defined once. Within a pass the names are
applied from the greatest to the least, so a name that extends another one goes first. Names are
ordered by code points, which is the order of their UTF-8 bytes. Passes are repeated until no line
holds a name of the table or the budget of passes is spent.
-/

namespace ApplianceScript

structure PlaceholderTable where
  entries : List (String × String)
deriving DecidableEq, Repr

structure Definition where
  owner : String
  placeholder : Placeholder
deriving DecidableEq, Repr

def Catalog.definitions (catalog : Catalog) : List Definition :=
  catalog.modules.flatMap fun m => m.placeholders.map (⟨m.name, ·⟩)

namespace PlaceholderTable

def empty : PlaceholderTable := ⟨[]⟩

def size (table : PlaceholderTable) : Nat :=
  table.entries.length

def insertEntry (entry : String × String) : List (String × String) → List (String × String)
  | [] => [entry]
  | head :: rest =>
    if entry.1 < head.1 then entry :: head :: rest else head :: insertEntry entry rest

def insert (table : PlaceholderTable) (placeholder : Placeholder) : PlaceholderTable :=
  ⟨insertEntry (placeholder.name, placeholder.expression) table.entries⟩

def extend (table : PlaceholderTable) (earlier : List Definition) :
    List Definition → Except CompileError PlaceholderTable
  | [] => .ok table
  | definition :: rest =>
    if definition.placeholder.name.isEmpty then
      .error (.invalidPlaceholder definition.owner "placeholder name is empty")
    else
      match earlier.find? (·.placeholder.name == definition.placeholder.name) with
      | some first =>
        .error (.duplicatePlaceholder definition.placeholder.name first.owner definition.owner)
      | none => (table.insert definition.placeholder).extend (earlier ++ [definition]) rest

def merge (catalog : Catalog) : Except CompileError PlaceholderTable :=
  empty.extend [] catalog.definitions

def applied (table : PlaceholderTable) : List (String × String) :=
  table.entries.reverse

def names (table : PlaceholderTable) : List String :=
  table.entries.map (·.1)

def hasMarker (table : PlaceholderTable) (line : String) : Bool :=
  table.names.any (Text.occurs · line)

def pass (table : PlaceholderTable) (line : String) : String :=
  table.applied.foldl (fun text entry => Text.replace entry.1 entry.2 text) line

def passAll (table : PlaceholderTable) (lines : List String) : List String :=
  lines.map fun line => if table.hasMarker line then table.pass line else line

def remaining (table : PlaceholderTable) (lines : List String) : List String :=
  table.names.filter fun name => lines.any (Text.occurs name)

/-- Passes over the lines while any of them holds a marker, at most the given number of times. -/
def settle (table : PlaceholderTable) : Nat → List String → List String
  | 0, lines => lines
  | passes + 1, lines =>
    if lines.any table.hasMarker then table.settle passes (table.passAll lines) else lines

def resolveWithin (table : PlaceholderTable) (passes : Nat) (lines : List String) :
    Except CompileError (List String) :=
  let settled := table.settle passes lines
  match table.remaining settled with
  | [] => .ok settled
  | markers => .error (.unresolvedPlaceholders markers passes)

def passBudget : Nat := 10

def resolve (table : PlaceholderTable) (lines : List String) : Except CompileError (List String) :=
  table.resolveWithin passBudget lines

end PlaceholderTable

end ApplianceScript
