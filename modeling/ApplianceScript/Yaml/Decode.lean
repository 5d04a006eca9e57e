import ApplianceScript.Text.Digits
import ApplianceScript.Yaml.Document
import ApplianceScript.Yaml.Token.Scan

namespace ApplianceScript.Yaml

def Document.parse? (text : String) : Option Document :=
  (tokens? text).bind Document.ofTokens?

abbrev Decoder := ReaderT Document (StateT Nat Option)

namespace Decoder

def run? (decoder : Node → Decoder α) (document : Document) : Option α :=
  (((decoder document.root).run document).run 0).map (·.1)

def follow (node : Node) : Decoder Node := do
  match node with
  | .alias number =>
    let document ← read
    let followed ← modifyGet fun n => (n + 1, n + 1)
    if followed > 100 * document.events then failure
    else
      match document.anchored? number with
      | some target => return target
      | none => failure
  | node => return node

def string (node : Node) : Decoder String := do
  match ← follow node with
  | .scalar _ _ text => return text
  | _ => failure

def isAbsent : Node → Bool
  | .scalar _ .plain "" => true
  | _ => false

def list (item : Node → Decoder α) (node : Node) : Decoder (List α) := do
  match ← follow node with
  | .sequence items => items.mapM item
  | node => if isAbsent node then return [] else failure

def nullTexts : List String := ["~", "null", "Null", "NULL"]

/-- A value, unless the node is absent or says that there is none. A tag or quotes make a scalar a
value; the tag for no value allows only the texts that stand for it. -/
def optional (value : Node → Decoder α) (node : Node) : Decoder (Option α) := do
  let node ← follow node
  match node with
  | .scalar none .plain text =>
    if text.isEmpty || nullTexts.contains text then return none else return some (← value node)
  | .scalar (some tag) .plain text =>
    if tag ≠ Tag.null then return some (← value node)
    else if nullTexts.contains text then return none
    else failure
  | node => return some (← value node)

def natural? (text : String) : Option Nat :=
  let unsigned (chars : List Char) : Option Nat :=
    match chars with
    | '0' :: 'x' :: digits => Text.number? 16 digits
    | '0' :: 'o' :: digits => Text.number? 8 digits
    | '0' :: 'b' :: digits => Text.number? 2 digits
    | '0' :: _ :: _ => none
    | digits => Text.number? 10 digits
  match text.toList with
  | '+' :: chars => unsigned chars
  | chars => unsigned chars

def mayBeNumber (tag : Option String) : ScalarStyle → Bool
  | .plain => true
  | .literal => tag = some Tag.int
  | _ => false

def word (node : Node) : Decoder UInt32 := do
  match ← follow node with
  | .scalar tag style text =>
    match if mayBeNumber tag style then natural? text else none with
    | some n => if n < UInt32.size then return UInt32.ofNat n else failure
    | none => failure
  | _ => failure

def record (wanted : List String) (node : Node) : Decoder (List (String × Node)) := do
  match ← follow node with
  | .mapping entries =>
    let named ← entries.mapM fun (key, value) => do return (← string key, value)
    let known := named.filter fun (name, _) => wanted.contains name
    if (known.map (·.1)).Nodup then return known else failure
  | node => if isAbsent node then return [] else failure

def required (fields : List (String × Node)) (name : String) (value : Node → Decoder α) :
    Decoder α :=
  match fields.lookup name with
  | some node => value node
  | none => failure

def defaulted (fields : List (String × Node)) (name : String) (default : α)
    (value : Node → Decoder α) : Decoder α :=
  match fields.lookup name with
  | some node => value node
  | none => return default

end Decoder

end ApplianceScript.Yaml
