import ApplianceScript.Text.Digits

namespace ApplianceScript.Settings.Quoted

def singleQuote : Char := '\x27'

def doubleQuote : Char := '\x22'

def isText (c : Char) : Bool :=
  c = '\t' || (' ' ≤ c && c ≠ '\x7f')

def isBlank (c : Char) : Bool :=
  c = ' ' || c = '\t'

def returns (rest : List Char) : Bool :=
  rest.head? = some '\n'

def escape? (c : Char) : Option Char :=
  match c with
  | 'b' => some '\x08'
  | 't' => some '\t'
  | 'n' => some '\n'
  | 'f' => some '\x0c'
  | 'r' => some '\r'
  | 'e' => some '\x1b'
  | '\\' => some '\\'
  | c => if c = doubleQuote then some c else none

def escapeDigits? (c : Char) : Option Nat :=
  match c with
  | 'x' => some 2
  | 'u' => some 4
  | 'U' => some 8
  | _ => none

inductive Reading
  | text
  | escape
  | digits (count code : Nat)
  | joining (broken : Bool)

/-- The quotes at the beginning of a text, five at most: three that end it and those before them
that still belong to it. -/
def closing (quote : Char) (chars : List Char) : Nat :=
  ((chars.takeWhile (· = quote)).length).min 5

def close (quote : Char) (text : List Char) (count : Nat) (chars : List Char) :
    Option (String × List Char) :=
  some (String.ofList (text.reverse ++ List.replicate (count - 3) quote), chars.drop count)

def Reading.at? (reading : Reading) (c : Char) (rest : List Char) : Option Reading :=
  match reading with
  | .joining broken =>
    if isBlank c || (c = '\r' && returns rest) then some (.joining broken)
    else if c = '\n' then some (.joining true)
    else if broken then some .text
    else none
  | reading => some reading

def scanDouble (multi : Bool) (reading : Reading) (text : List Char) :
    List Char → Option (String × List Char)
  | [] => none
  | c :: rest =>
    match reading.at? c rest with
    | none => none
    | some (.joining broken) => scanDouble multi (.joining broken) text rest
    | some .escape =>
      match escapeDigits? c, escape? c with
      | some count, _ => scanDouble multi (.digits count 0) text rest
      | none, some char => scanDouble multi .text (char :: text) rest
      | none, none =>
        if multi && (isBlank c || (c = '\r' && returns rest)) then
          scanDouble multi (.joining false) text rest
        else if multi && c = '\n' then scanDouble multi (.joining true) text rest
        else none
    | some (.digits count code) =>
      match Text.hexDigit? c with
      | none => none
      | some digit =>
        let code := code * 16 + digit
        if count > 1 then scanDouble multi (.digits (count - 1) code) text rest
        else if code.isValidChar then scanDouble multi .text (Char.ofNat code :: text) rest
        else none
    | some .text =>
      if c = '\\' then scanDouble multi .escape text rest
      else if c = doubleQuote then
        if !multi then some (String.ofList text.reverse, rest)
        else
          let count := closing doubleQuote (c :: rest)
          if count ≥ 3 then close doubleQuote text count (c :: rest)
          else scanDouble multi .text (c :: text) rest
      else if isText c || (multi && (c = '\n' || (c = '\r' && returns rest))) then
        scanDouble multi .text (c :: text) rest
      else none

def scanSingle (multi : Bool) (text : List Char) : List Char → Option (String × List Char)
  | [] => none
  | c :: rest =>
    if c = singleQuote then
      if !multi then some (String.ofList text.reverse, rest)
      else
        let count := closing singleQuote (c :: rest)
        if count ≥ 3 then close singleQuote text count (c :: rest)
        else scanSingle multi (c :: text) rest
    else if isText c || (multi && (c = '\n' || (c = '\r' && returns rest))) then
      scanSingle multi (c :: text) rest
    else none

def dropFirstBreak (chars : List Char) : List Char :=
  match chars with
  | '\n' :: rest => rest
  | '\r' :: '\n' :: rest => rest
  | chars => chars

def readLine? (chars : List Char) : Option (String × List Char) :=
  match chars with
  | '\x22' :: '\x22' :: '\x22' :: _ => none
  | '\x27' :: '\x27' :: '\x27' :: _ => none
  | '\x22' :: rest => scanDouble false .text [] rest
  | '\x27' :: rest => scanSingle false [] rest
  | _ => none

def read? (chars : List Char) : Option (String × List Char) :=
  match chars with
  | '\x22' :: '\x22' :: '\x22' :: rest => scanDouble true .text [] (dropFirstBreak rest)
  | '\x27' :: '\x27' :: '\x27' :: rest => scanSingle true [] (dropFirstBreak rest)
  | chars => readLine? chars

end ApplianceScript.Settings.Quoted
