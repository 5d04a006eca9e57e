import ApplianceScript.Yaml.Cursor

namespace ApplianceScript.Yaml

structure Gap where
  blanks : List Char := []
  broken : Bool := false
  first : Option Char := none
  more : List Char := []

namespace Gap

def push (gap : Gap) (c : Char) : Gap :=
  if isBreak c then
    if gap.broken then { gap with more := c :: gap.more }
    else { gap with blanks := [], broken := true, first := some c }
  else if gap.broken then gap
  else { gap with blanks := c :: gap.blanks }

def escapedBreak : Gap := { broken := true }

def write (gap : Gap) (text : List Char) : List Char :=
  if gap.broken then
    if gap.first = some '\n' then
      if gap.more.isEmpty then ' ' :: text else gap.more ++ text
    else gap.more ++ gap.first.toList ++ text
  else gap.blanks ++ text

end Gap

structure ScalarEnd where
  reversed : List Char
  behind : Cursor
  newLine : Bool := false

def ScalarEnd.text (read : ScalarEnd) : String :=
  String.ofList read.reversed.reverse

end ApplianceScript.Yaml
