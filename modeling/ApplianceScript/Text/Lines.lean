namespace ApplianceScript.Text

def pieces : List Char → List (List Char)
  | [] => [[]]
  | c :: rest =>
    if c = '\n' then [] :: pieces rest
    else match pieces rest with
      | [] => [[c]]
      | first :: more => (c :: first) :: more

def dropReturn (line : List Char) : List Char :=
  if line.getLast? = some '\r' then line.dropLast else line

/-- Lines from the pieces of a text: the last piece is a line only when it holds something, and
it keeps its carriage return. -/
def linesOfPieces : List (List Char) → List (List Char)
  | [] => []
  | [last] => if last.isEmpty then [] else [last]
  | line :: next :: more => dropReturn line :: linesOfPieces (next :: more)

def lines (text : String) : List String :=
  (linesOfPieces (pieces text.toList)).map String.ofList

def joinLines (lines : List String) : String :=
  let content := "\n".intercalate lines
  if content.isEmpty then content else content ++ "\n"

end ApplianceScript.Text
