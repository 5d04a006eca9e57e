namespace ApplianceScript

structure Path where
  absolute : Bool
  pieces : List String
deriving DecidableEq, Repr

namespace Path

def splitAtSlashes : List Char → List (List Char)
  | [] => [[]]
  | c :: rest =>
    if c = '/' then [] :: splitAtSlashes rest
    else match splitAtSlashes rest with
      | [] => [[c]]
      | first :: more => (c :: first) :: more

def ofText (text : String) : Path :=
  let pieces := (splitAtSlashes text.toList).map String.ofList
  match pieces with
  | "" :: next :: more => ⟨true, next :: more⟩
  | pieces => ⟨false, pieces⟩

def text (path : Path) : String :=
  (if path.absolute then "/" else "") ++ "/".intercalate path.pieces

def isEmpty (path : Path) : Bool :=
  !path.absolute && path.pieces = [""]

def here : Path := ⟨false, ["."]⟩

def join (path tail : Path) : Path :=
  if tail.absolute then tail
  else
    let front := if path.pieces.getLast? = some "" then path.pieces.dropLast else path.pieces
    { path with pieces := front ++ tail.pieces }

/-- Drops the pieces at the end that do not move; `pieces` has the last one first. A dot that a
relative path begins with stays. -/
def dropIdle (absolute : Bool) : List String → List String
  | [] => []
  | [first] => if first = "" || (absolute && first = ".") then [] else [first]
  | last :: next :: more =>
    if last = "" || last = "." then dropIdle absolute (next :: more) else last :: next :: more

def ofReversed (absolute : Bool) (pieces : List String) : Path :=
  ⟨absolute, if pieces.isEmpty then [""] else pieces.reverse⟩

def parent? (path : Path) : Option Path :=
  match dropIdle path.absolute path.pieces.reverse with
  | [] => none
  | _ :: above => some (ofReversed path.absolute (dropIdle path.absolute above))

theorem length_dropIdle_le (absolute : Bool) (pieces : List String) :
    (dropIdle absolute pieces).length ≤ pieces.length := by
  induction pieces with
  | nil => simp [dropIdle]
  | cons last more ih =>
    cases more with
    | nil => unfold dropIdle; split <;> simp
    | cons next more =>
      unfold dropIdle
      split
      · simp only [List.length_cons] at *
        omega
      · simp

def parentsOf (absolute : Bool) (pieces : List String) : List Path :=
  match _h : dropIdle absolute pieces with
  | [] => []
  | _ :: above =>
    ofReversed absolute (dropIdle absolute above) :: parentsOf absolute above
termination_by pieces.length
decreasing_by
  have := length_dropIdle_le absolute pieces
  rw [_h, List.length_cons] at this
  omega

def parents (path : Path) : List Path :=
  parentsOf path.absolute path.pieces.reverse

def extensionOf? (name : String) : Option String :=
  let reversed := name.toList.reverse
  match reversed.dropWhile (· ≠ '.') with
  | '.' :: _ :: _ => some (String.ofList (reversed.takeWhile (· ≠ '.')).reverse)
  | _ => none

end Path

end ApplianceScript
