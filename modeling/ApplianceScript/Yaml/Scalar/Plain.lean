import ApplianceScript.Yaml.Scalar.Folding

namespace ApplianceScript.Yaml.Plain

def isFlowIndicator (c : Char) : Bool :=
  c = ',' || c = '[' || c = ']' || c = '\x7b' || c = '\x7d'

def isCrampedColon (rest : List Char) : Bool :=
  match rest with
  | c :: _ => isFlowIndicator c || c = '?'
  | [] => false

def scan (flow : Bool) (indent : Nat) (text : List Char) (gap : Gap) (line column : Nat) :
    List Char → Option ScalarEnd
  | [] => some ⟨text, ⟨[], line, column⟩, gap.broken⟩
  | c :: rest =>
    let here : Cursor := ⟨c :: rest, line, column⟩
    let stop := some ⟨text, here, gap.broken⟩
    if isBreak c then
      scan flow indent text (gap.push c) (line + 1) 0 rest
    else if isBlank c then
      if gap.broken && column < indent && c = '\t' then none
      else scan flow indent text (gap.push c) line (column + 1) rest
    else if gap.broken && !flow && column < indent then stop
    else if here.atMark then stop
    else if c = '#' && (gap.broken || !gap.blanks.isEmpty) then stop
    else if flow && c = ':' && isCrampedColon rest then none
    else if c = ':' && atGap rest then stop
    else if flow && isFlowIndicator c then stop
    else scan flow indent (c :: gap.write text) {} line (column + 1) rest

def read (flow : Bool) (indent : Nat) (cursor : Cursor) : Option ScalarEnd :=
  scan flow indent [] {} cursor.line cursor.column cursor.rest

end ApplianceScript.Yaml.Plain
