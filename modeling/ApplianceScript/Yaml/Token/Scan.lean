import ApplianceScript.Yaml.Scalar.Block
import ApplianceScript.Yaml.Scalar.Plain
import ApplianceScript.Yaml.Scalar.Quoted
import ApplianceScript.Yaml.Tag

/-!
From a text to its tokens.

Outside brackets the indentation of lines opens and closes blocks. A mapping key is only known as
such when its colon is met, so the place of every token that may begin a key is remembered; the
tokens that announce the key are inserted there. A key must stand on one line and may not be longer
than 1024 characters.
-/

namespace ApplianceScript.Yaml

structure KeyPlace where
  required : Bool
  index : Nat
  line : Nat
  column : Nat

structure Scan where
  cursor : Cursor
  tokens : List Token := []
  count : Nat := 0
  blocks : List Nat := []
  keys : List (Option KeyPlace) := [none]
  keyAllowed : Bool := true

namespace Scan

def inFlow (scan : Scan) : Bool :=
  match scan.keys with
  | _ :: _ :: _ => true
  | _ => false

def surrounding (scan : Scan) : Nat :=
  match scan.blocks with
  | [] => 0
  | column :: _ => column + 1

def push (scan : Scan) (tokens : List Token) : Scan :=
  { scan with tokens := tokens ++ scan.tokens, count := scan.count + tokens.length }

def add (scan : Scan) (token : Token) : Scan :=
  scan.push [token]

def insertAt (scan : Scan) (index : Nat) (tokens : List Token) : Scan :=
  let later := scan.count - index
  { scan with
    tokens := scan.tokens.take later ++ tokens.reverse ++ scan.tokens.drop later
    count := scan.count + tokens.length }

/-- Skips blanks, comments and line breaks. A tab counts as a blank only where no key may begin. A
line break outside brackets allows one. -/
def skipGap (flow : Bool) (keyAllowed comment : Bool) (line column : Nat) :
    List Char → Cursor × Bool
  | [] => (⟨[], line, column⟩, keyAllowed)
  | c :: rest =>
    if isBreak c then skipGap flow (keyAllowed || !flow) false (line + 1) 0 rest
    else if comment || c = ' ' || (c = '\t' && (flow || !keyAllowed)) then
      skipGap flow keyAllowed comment line (column + 1) rest
    else if c = '#' then skipGap flow keyAllowed true line (column + 1) rest
    else (⟨c :: rest, line, column⟩, keyAllowed)

def toNext (scan : Scan) : Scan :=
  let (cursor, keyAllowed) :=
    skipGap scan.inFlow scan.keyAllowed false scan.cursor.line scan.cursor.column scan.cursor.rest
  { scan with cursor, keyAllowed }

def dropStale (scan : Scan) : Option Scan := do
  let stale (place : KeyPlace) : Bool :=
    place.line < scan.cursor.line || place.column + 1024 < scan.cursor.column
  let keys ← scan.keys.mapM fun
    | some place =>
      if stale place then if place.required then none else some none else some (some place)
    | none => some none
  return { scan with keys }

def closeFrom (column : Nat) (scan : Scan) : Scan :=
  if scan.inFlow then scan
  else
    let closed := scan.blocks.takeWhile (column ≤ ·)
    { scan.push (closed.map fun _ => .blockEnd) with blocks := scan.blocks.drop closed.length }

def closeDeeper (scan : Scan) : Scan :=
  scan.closeFrom (scan.cursor.column + 1)

def opening (scan : Scan) (column : Nat) (token : Token) : List Token :=
  if !scan.inFlow && scan.surrounding ≤ column then [token] else []

def openBlock (scan : Scan) (column : Nat) : Scan :=
  if !scan.inFlow && scan.surrounding ≤ column then { scan with blocks := column :: scan.blocks }
  else scan

def openHere (scan : Scan) (token : Token) : Scan :=
  let column := scan.cursor.column
  (scan.openBlock column).push (scan.opening column token)

def dropKey (scan : Scan) : Option Scan :=
  match scan.keys with
  | some place :: outer => if place.required then none else some { scan with keys := none :: outer }
  | _ => some scan

def saveKey (scan : Scan) : Option Scan :=
  if scan.keyAllowed then do
    let scan ← scan.dropKey
    let place : KeyPlace :=
      { required := !scan.inFlow && scan.blocks.head? = some scan.cursor.column
        index := scan.count
        line := scan.cursor.line
        column := scan.cursor.column }
    return { scan with keys := some place :: scan.keys.drop 1 }
  else some scan

def take (scan : Scan) (token : Token) (length : Nat) (keyAllowed : Bool) : Scan :=
  { scan.add token with cursor := scan.cursor.skip length, keyAllowed }

def took (scan : Scan) (token : Token) (cursor : Cursor) (keyAllowed : Bool) : Scan :=
  { scan.add token with cursor, keyAllowed }

def finish (scan : Scan) : Option Scan := do
  let scan ← (scan.closeFrom 0).dropKey
  return { scan.add .streamEnd with keyAllowed := false }

def readDirective (scan : Scan) : Option Scan := do
  let scan ← (scan.closeFrom 0).dropKey
  let (token, behind) ← Directive.read scan.cursor
  return scan.took token behind false

def readMark (scan : Scan) (token : Token) : Option Scan := do
  let scan ← (scan.closeFrom 0).dropKey
  return scan.take token 3 false

def openBracket (scan : Scan) (token : Token) : Option Scan := do
  let scan ← scan.saveKey
  return { scan.take token 1 true with keys := none :: scan.keys }

def closeBracket (scan : Scan) (token : Token) : Option Scan := do
  let scan ← scan.dropKey
  let keys := if scan.inFlow then scan.keys.drop 1 else scan.keys
  return { scan.take token 1 false with keys }

def readComma (scan : Scan) : Option Scan := do
  let scan ← scan.dropKey
  return scan.take .flowEntry 1 true

def readDash (scan : Scan) : Option Scan := do
  if !scan.inFlow && !scan.keyAllowed then none
  else
    let scan ← (scan.openHere .blockSequenceStart).dropKey
    return scan.take .blockEntry 1 true

def readQuestion (scan : Scan) : Option Scan := do
  if !scan.inFlow && !scan.keyAllowed then none
  else
    let scan ← (scan.openHere .blockMappingStart).dropKey
    return scan.take .key 1 (!scan.inFlow)

def readColon (scan : Scan) : Option Scan :=
  match scan.keys with
  | some place :: outer =>
    let announced := scan.opening place.column .blockMappingStart ++ [.key]
    let scan := (scan.insertAt place.index announced).openBlock place.column
    some { scan.take .value 1 false with keys := none :: outer }
  | _ =>
    if !scan.inFlow && !scan.keyAllowed then none
    else
      let scan := scan.openHere .blockMappingStart
      some (scan.take .value 1 (!scan.inFlow))

def readAnchor (scan : Scan) (token : String → Token) : Option Scan := do
  let scan ← scan.saveKey
  let (name, behind) ← Anchor.readName scan.cursor
  return scan.took (token name) behind false

def readTag (scan : Scan) : Option Scan := do
  let scan ← scan.saveKey
  let (token, behind) ← Tag.read scan.inFlow scan.cursor
  return scan.took token behind false

def readBlock (scan : Scan) (literal : Bool) : Option Scan := do
  let scan ← scan.dropKey
  let read ← Block.read literal scan.surrounding scan.cursor
  let style := if literal then .literal else .folded
  return scan.took (.scalar style read.text) read.behind true

def readQuoted (scan : Scan) (double : Bool) : Option Scan := do
  let scan ← scan.saveKey
  let read ← if double then Quoted.readDouble scan.cursor else Quoted.readSingle scan.cursor
  let style := if double then .doubleQuoted else .singleQuoted
  return scan.took (.scalar style read.text) read.behind false

def readPlain (scan : Scan) : Option Scan := do
  let scan ← scan.saveKey
  let read ← Plain.read scan.inFlow scan.surrounding scan.cursor
  return scan.took (.scalar .plain read.text) read.behind read.newLine

def indicators : List Char :=
  "-?:,[]\x7b\x7d#&*!|>\x27\x22%@\x60".toList

def readToken (scan : Scan) (c : Char) (rest : List Char) : Option Scan :=
  let flow := scan.inFlow
  if scan.cursor.column = 0 && c = '%' then scan.readDirective
  else if scan.cursor.atMark then
    scan.readMark (if c = '-' then .documentStart else .documentEnd)
  else if c = '[' then scan.openBracket .flowSequenceStart
  else if c = '\x7b' then scan.openBracket .flowMappingStart
  else if c = ']' then scan.closeBracket .flowSequenceEnd
  else if c = '\x7d' then scan.closeBracket .flowMappingEnd
  else if c = ',' then scan.readComma
  else if c = '-' && atGap rest then scan.readDash
  else if c = '?' && (flow || atGap rest) then scan.readQuestion
  else if c = ':' && (flow || atGap rest) then scan.readColon
  else if c = '*' then scan.readAnchor .alias
  else if c = '&' then scan.readAnchor .anchor
  else if c = '!' then scan.readTag
  else if c = '|' && !flow then scan.readBlock true
  else if c = '>' && !flow then scan.readBlock false
  else if c = '\x27' then scan.readQuoted false
  else if c = '\x22' then scan.readQuoted true
  else if (!isBlank c && !indicators.contains c) || c = '-' ||
      (!flow && (c = '?' || c = ':')) then
    scan.readPlain
  else none

def step (scan : Scan) : Option Scan := do
  let scan ← scan.toNext.dropStale
  let scan := scan.closeDeeper
  match scan.cursor.rest with
  | [] => scan.finish
  | c :: rest => scan.readToken c rest

/-- Reads tokens up to the end of the text. Every token but the last takes a character at least,
so `fuel` above the length of the text is enough. -/
def run : Nat → Scan → Option (List Token)
  | 0, _ => none
  | fuel + 1, scan => do
    let scan ← scan.step
    match scan.tokens with
    | .streamEnd :: _ => return scan.tokens.reverse
    | _ => run fuel scan

end Scan

def startCursor (text : List Char) : Cursor :=
  match text with
  | c :: rest => if c = byteOrderMark then ⟨rest, 0, 1⟩ else ⟨text, 0, 0⟩
  | [] => ⟨[], 0, 0⟩

def tokens? (text : String) : Option (List Token) :=
  let chars := text.toList
  if chars.all isAllowed then
    let normal := normalizeBreaks chars
    Scan.run (normal.length + 1) { cursor := startCursor normal }
  else none

end ApplianceScript.Yaml
