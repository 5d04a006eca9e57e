import ApplianceScript.Text.Digits
import ApplianceScript.Yaml.Scalar.Folding

namespace ApplianceScript.Yaml.Block

inductive Chomping
  | strip
  | clip
  | keep
deriving DecidableEq, Repr

structure Header where
  chomping : Chomping := .clip
  increment : Option Nat := none

def chomping? (c : Char) : Option Chomping :=
  match c with
  | '+' => some .keep
  | '-' => some .strip
  | _ => none

def readHeader (cursor : Cursor) : Option (Header × Cursor) :=
  let increment (cursor : Cursor) : Option (Option Nat × Cursor) :=
    match cursor.rest with
    | c :: _ =>
      if c = '0' then none
      else if c.isDigit then some (Text.hexDigit? c, cursor.skip 1)
      else some (none, cursor)
    | [] => some (none, cursor)
  match cursor.rest.head?.bind chomping? with
  | some chomping => do
    let (increment, behind) ← increment (cursor.skip 1)
    return ({ chomping, increment }, behind)
  | none => do
    let (increment, behind) ← increment cursor
    match increment, behind.rest.head?.bind chomping? with
    | some _, some chomping => return ({ chomping, increment }, behind.skip 1)
    | _, _ => return ({ increment }, behind)

structure Progress where
  text : List Char := []
  pending : Option Char := none
  empties : List Char := []
  blankStart : Bool := false
  indent : Option Nat
  deepest : Nat := 0
  inside : Bool := false

namespace Progress

def indents (progress : Progress) (column : Nat) : Bool :=
  match progress.indent with
  | none => true
  | some indent => column < indent

def beginLine (progress : Progress) (literal : Bool) (c : Char) : Progress :=
  let folds := !literal && progress.pending = some '\n' && !progress.blankStart && !isBlank c
  let text :=
    if folds then
      if progress.empties.isEmpty then ' ' :: progress.text else progress.empties ++ progress.text
    else progress.empties ++ progress.pending.toList ++ progress.text
  { progress with
    text := c :: text, pending := none, empties := [], blankStart := isBlank c, inside := true }

def finish (progress : Progress) (chomping : Chomping) : List Char :=
  match chomping with
  | .strip => progress.text
  | .clip => progress.pending.toList ++ progress.text
  | .keep => progress.empties ++ progress.pending.toList ++ progress.text

end Progress

def scan (literal : Bool) (chomping : Chomping) (least : Nat) (progress : Progress)
    (line column : Nat) : List Char → Option ScalarEnd
  | [] => some ⟨progress.finish chomping, ⟨[], line, column⟩, true⟩
  | c :: rest =>
    if progress.inside then
      if isBreak c then
        scan literal chomping least { progress with pending := some c, inside := false }
          (line + 1) 0 rest
      else
        scan literal chomping least { progress with text := c :: progress.text } line
          (column + 1) rest
    else if c = ' ' && progress.indents column then
      scan literal chomping least
        { progress with deepest := max progress.deepest (column + 1) } line (column + 1) rest
    else if c = '\t' && progress.indents column then none
    else if isBreak c then
      scan literal chomping least { progress with empties := c :: progress.empties }
        (line + 1) 0 rest
    else
      let indent := progress.indent.getD (max progress.deepest least)
      if column = indent then
        scan literal chomping least ({ progress with indent := some indent }.beginLine literal c)
          line (column + 1) rest
      else some ⟨progress.finish chomping, ⟨c :: rest, line, column⟩, true⟩

/-- Reads the block scalar that begins at the cursor. `surrounding` is one more than the
indentation of the block around it, and zero when there is none. -/
def read (literal : Bool) (surrounding : Nat) (cursor : Cursor) : Option ScalarEnd := do
  let (header, behind) ← readHeader (cursor.skip 1)
  let start ← behind.endLine?
  let indent := header.increment.map fun increment => (surrounding - 1) + increment
  scan literal header.chomping (max surrounding 1) { indent } start.line start.column start.rest

end ApplianceScript.Yaml.Block
