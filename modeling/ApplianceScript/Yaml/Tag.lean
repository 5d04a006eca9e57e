import ApplianceScript.Text.Digits
import ApplianceScript.Yaml.Cursor
import ApplianceScript.Yaml.Token

namespace ApplianceScript.Yaml

namespace Tag

def null : String := "tag:yaml.org,2002:null"

def int : String := "tag:yaml.org,2002:int"

def isUri (c : Char) : Bool :=
  isWord c || ";/?:@&=+$.%!~*\x27()".toList.contains c

def isFullUri (c : Char) : Bool :=
  isUri c || ",[]".toList.contains c

def octets? (first : Nat) : Option Nat :=
  if first < 0x80 then some 1
  else if 0xC0 ≤ first && first < 0xE0 then some 2
  else if 0xE0 ≤ first && first < 0xF0 then some 3
  else if 0xF0 ≤ first && first < 0xF8 then some 4
  else none

/-- Decodes the text of a tag. `following` octets of the current character are still to come. -/
def decode (following : Nat) : List Char → Option (List Char)
  | '%' :: high :: low :: rest => do
    let octet := (← Text.hexDigit? high) * 16 + (← Text.hexDigit? low)
    match following with
    | 0 =>
      let count ← octets? octet
      return Char.ofNat octet :: (← decode (count - 1) rest)
    | more + 1 =>
      if 0x80 ≤ octet && octet < 0xC0 then
        return Char.ofNat octet :: (← decode more rest)
      else none
  | [] => if following = 0 then some [] else none
  | c :: rest =>
    if following = 0 && c ≠ '%' then (decode 0 rest).map (c :: ·) else none

def readUri (full : Bool) (cursor : Cursor) : Option (List Char × Cursor) := do
  let (raw, behind) := cursor.takeWhile (if full then isFullUri else isUri)
  return (← decode 0 raw, behind)

def readHandle (cursor : Cursor) : Option (List Char × Cursor) :=
  match cursor.rest with
  | '!' :: _ =>
    let (name, behind) := (cursor.skip 1).takeWhile isWord
    match behind.rest with
    | '!' :: _ => some ('!' :: name ++ ['!'], behind.skip 1)
    | _ => some ('!' :: name, behind)
  | _ => none

def readShort (cursor : Cursor) : Option (Token × Cursor) := do
  let (handle, behind) ← readHandle cursor
  if handle.length > 1 && handle.getLast? = some '!' then
    let (suffix, behind) ← readUri false behind
    if suffix.isEmpty then none
    else return (.tag (String.ofList handle) (String.ofList suffix), behind)
  else
    let (rest, behind) ← readUri false behind
    match handle.drop 1 ++ rest with
    | [] => return (.tag "" "!", behind)
    | suffix => return (.tag "!" (String.ofList suffix), behind)

def read (flow : Bool) (cursor : Cursor) : Option (Token × Cursor) := do
  let (token, behind) ←
    match cursor.rest with
    | '!' :: '<' :: _ => do
      let (suffix, behind) ← readUri true (cursor.skip 2)
      if suffix.isEmpty then none
      else if behind.rest.head? = some '>' then
        return (.tag "" (String.ofList suffix), behind.skip 1)
      else none
    | _ => readShort cursor
  if atGap behind.rest || (flow && behind.rest.head? = some ',') then return (token, behind)
  else none

end Tag

namespace Anchor

def mayEnd (rest : List Char) : Bool :=
  atGap rest || rest.head?.any "?:,]\x7d%@\x60".toList.contains

def readName (cursor : Cursor) : Option (String × Cursor) :=
  let (name, behind) := (cursor.skip 1).takeWhile isWord
  if name.isEmpty || !mayEnd behind.rest then none else some (String.ofList name, behind)

end Anchor

namespace Directive

def readNumber (cursor : Cursor) : Option (Nat × Cursor) :=
  let (digits, behind) := cursor.takeWhile (·.isDigit)
  if digits.isEmpty || digits.length > 9 then none
  else some (digits.foldl (fun n d => n * 10 + (d.toNat - 48)) 0, behind)

def readVersion (cursor : Cursor) : Option (Token × Cursor) := do
  let (major, behind) ← readNumber (cursor.skipWhile isBlank)
  if behind.rest.head? = some '.' then
    let (minor, behind) ← readNumber (behind.skip 1)
    return (.versionDirective major minor, behind)
  else none

def readTag (cursor : Cursor) : Option (Token × Cursor) := do
  let (handle, behind) ← Tag.readHandle (cursor.skipWhile isBlank)
  if handle ≠ ['!'] && !(handle.length > 1 && handle.getLast? = some '!') then none
  else if !behind.rest.head?.any isBlank then none
  else
    let (meaning, behind) ← Tag.readUri true (behind.skipWhile isBlank)
    if meaning.isEmpty || !atGap behind.rest then none
    else return (.tagDirective (String.ofList handle) (String.ofList meaning), behind)

def read (cursor : Cursor) : Option (Token × Cursor) := do
  let (name, behind) := (cursor.skip 1).takeWhile isWord
  if !atGap behind.rest then none
  else
    let (token, behind) ←
      match String.ofList name with
      | "YAML" => readVersion behind
      | "TAG" => readTag behind
      | _ => none
    return (token, ← behind.endLine?)

end Directive

end ApplianceScript.Yaml
