import ApplianceScript.Settings.Quoted

/-!
Entries of a settings file.

A settings file is a TOML text in which every line gives one key its value: a text, a whole number
or a list of texts. Tables, dotted keys and values of other kinds are TOML as well, but no setting
has one, so they are refused here. Comments and blank lines may stand anywhere between entries and
within lists.
-/

namespace ApplianceScript.Settings

open Quoted (isText isBlank returns)

inductive Value
  | text (value : String)
  | number (value : Int)
  | texts (values : List String)
deriving DecidableEq, Repr

structure Entry where
  key : String
  value : Value
deriving DecidableEq, Repr

def atBreak (chars : List Char) : Bool :=
  match chars with
  | '\r' :: rest => returns rest
  | chars => chars.head? = some '\n'

def skipGap (broken comment : Bool) : List Char → Option (List Char)
  | [] => some []
  | c :: rest =>
    if atBreak (c :: rest) then
      if broken then skipGap broken false rest else some (c :: rest)
    else if comment then if isText c then skipGap broken true rest else none
    else if isBlank c then skipGap broken false rest
    else if c = '#' then skipGap broken true rest
    else some (c :: rest)

def isKeyChar (c : Char) : Bool :=
  c.isAlphanum || c = '_' || c = '-'

def readKey? (chars : List Char) : Option (String × List Char) :=
  match chars.takeWhile isKeyChar with
  | [] => Quoted.readLine? chars
  | name => some (String.ofList name, chars.drop name.length)

def joinDigits? (chars : List Char) : Option (List Char) :=
  if chars.head? = some '_' || chars.getLast? = some '_' ||
      (chars.zip (chars.drop 1)).contains ('_', '_') then none
  else some (chars.filter (· ≠ '_'))

def decimal? (chars : List Char) : Option Nat :=
  match chars with
  | '0' :: _ :: _ => none
  | chars => do Text.number? 10 (← joinDigits? chars)

def number? (chars : List Char) : Option Int :=
  match chars with
  | '0' :: 'x' :: digits => do return (← Text.number? 16 (← joinDigits? digits) : Nat)
  | '0' :: 'o' :: digits => do return (← Text.number? 8 (← joinDigits? digits) : Nat)
  | '0' :: 'b' :: digits => do return (← Text.number? 2 (← joinDigits? digits) : Nat)
  | '+' :: digits => do return (← decimal? digits : Nat)
  | '-' :: digits => do return -(← decimal? digits : Nat)
  | digits => do return (← decimal? digits : Nat)

def readTexts? : Nat → List Char → Option (List String × List Char)
  | 0, _ => none
  | fuel + 1, chars => do
    match ← skipGap true false chars with
    | ']' :: rest => return ([], rest)
    | item =>
      let (text, behind) ← Quoted.read? item
      match ← skipGap true false behind with
      | ',' :: rest =>
        let (texts, rest) ← readTexts? fuel rest
        return (text :: texts, rest)
      | ']' :: rest => return ([text], rest)
      | _ => none

def readValue? (chars : List Char) : Option (Value × List Char) :=
  match chars with
  | '[' :: rest => do
    let (texts, behind) ← readTexts? (rest.length + 1) rest
    return (.texts texts, behind)
  | '\x22' :: _ | '\x27' :: _ => do
    let (text, behind) ← Quoted.read? chars
    return (.text text, behind)
  | _ => do
    let word := chars.takeWhile fun c => c.isAlphanum || c = '_' || c = '+' || c = '-'
    return (.number (← number? word), chars.drop word.length)

def readEntry? (chars : List Char) : Option (Entry × List Char) := do
  let (key, behind) ← readKey? chars
  match behind.dropWhile isBlank with
  | '=' :: rest =>
    let (value, behind) ← readValue? (rest.dropWhile isBlank)
    let rest ← skipGap false false behind
    if rest.isEmpty || atBreak rest then return ({ key, value }, rest) else none
  | _ => none

/-- Reads all entries. Every one takes a character at least, so `fuel` above the number of
characters is enough. -/
def readEntries? : Nat → List Char → Option (List Entry)
  | 0, _ => none
  | fuel + 1, chars => do
    match ← skipGap true false chars with
    | [] => return []
    | line =>
      let (entry, rest) ← readEntry? line
      return entry :: (← readEntries? fuel rest)

def byteOrderMark : Char := '\ufeff'

def entries? (content : String) : Option (List Entry) := do
  let chars := match content.toList with
    | c :: rest => if c = byteOrderMark then rest else c :: rest
    | [] => []
  let entries ← readEntries? (chars.length + 1) chars
  if (entries.map (·.key)).Nodup then return entries else none

end ApplianceScript.Settings
