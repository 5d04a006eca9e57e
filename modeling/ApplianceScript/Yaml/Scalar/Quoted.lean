import ApplianceScript.Text.Digits
import ApplianceScript.Yaml.Scalar.Folding

namespace ApplianceScript.Yaml.Quoted

def singleQuote : Char := '\x27'

def doubleQuote : Char := '\x22'

def scanSingle (text : List Char) (gap : Gap) (line column : Nat) : List Char → Option ScalarEnd
  | [] => none
  | c :: rest =>
    if isBreak c then scanSingle text (gap.push c) (line + 1) 0 rest
    else if isBlank c then scanSingle text (gap.push c) line (column + 1) rest
    else if (Cursor.mk (c :: rest) line column).atMark then none
    else if c = singleQuote then
      match rest with
      | '\x27' :: more => scanSingle (c :: gap.write text) {} line (column + 2) more
      | _ => some ⟨gap.write text, ⟨rest, line, column + 1⟩, false⟩
    else scanSingle (c :: gap.write text) {} line (column + 1) rest

def escape? (c : Char) : Option Char :=
  match c with
  | '0' => some '\x00'
  | 'a' => some '\x07'
  | 'b' => some '\x08'
  | 't' => some '\t'
  | '\t' => some '\t'
  | 'n' => some '\n'
  | 'v' => some '\x0b'
  | 'f' => some '\x0c'
  | 'r' => some '\r'
  | 'e' => some '\x1b'
  | ' ' => some ' '
  | '/' => some '/'
  | '\\' => some '\\'
  | 'N' => some nextLine
  | '_' => some '\xa0'
  | 'L' => some lineSeparator
  | 'P' => some paragraphSeparator
  | c => if c = doubleQuote then some c else none

def escapeDigits? (c : Char) : Option Nat :=
  match c with
  | 'x' => some 2
  | 'u' => some 4
  | 'U' => some 8
  | _ => none

def charOf? (code : Nat) : Option Char :=
  if code.isValidChar then some (Char.ofNat code) else none

/-- Reads on within double quotes. In an escape, `digits` says how many hexadecimal digits of it
are still to come and `code` what they gave so far. -/
def scanDouble (text : List Char) (gap : Gap) (line column : Nat) (digits code : Nat) :
    List Char → Option ScalarEnd
  | [] => none
  | c :: rest =>
    match digits with
    | more + 1 =>
      match Text.hexDigit? c with
      | none => none
      | some digit =>
        let code := code * 16 + digit
        if more = 0 then
          match charOf? code with
          | none => none
          | some char => scanDouble (char :: text) {} line (column + 1) 0 0 rest
        else scanDouble text {} line (column + 1) more code rest
    | 0 =>
      if isBreak c then scanDouble text (gap.push c) (line + 1) 0 0 0 rest
      else if isBlank c then scanDouble text (gap.push c) line (column + 1) 0 0 rest
      else if (Cursor.mk (c :: rest) line column).atMark then none
      else
        let text := gap.write text
        if c = doubleQuote then some ⟨text, ⟨rest, line, column + 1⟩, false⟩
        else if c = '\\' then
          match rest with
          | [] => none
          | letter :: rest =>
            if isBreak letter then scanDouble text .escapedBreak (line + 1) 0 0 0 rest
            else
              match escapeDigits? letter with
              | some digits => scanDouble text {} line (column + 2) digits 0 rest
              | none =>
                match escape? letter with
                | some char => scanDouble (char :: text) {} line (column + 2) 0 0 rest
                | none => none
        else scanDouble (c :: text) {} line (column + 1) 0 0 rest

def readSingle (cursor : Cursor) : Option ScalarEnd :=
  let inside := cursor.skip 1
  scanSingle [] {} inside.line inside.column inside.rest

def readDouble (cursor : Cursor) : Option ScalarEnd :=
  let inside := cursor.skip 1
  scanDouble [] {} inside.line inside.column 0 0 inside.rest

end ApplianceScript.Yaml.Quoted
