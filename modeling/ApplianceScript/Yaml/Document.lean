import ApplianceScript.Yaml.Node

/-!
From tokens to documents.

A node is an alias, or a scalar or collection with an optional anchor and tag before it. Block
collections are closed by the end of their block, flow collections by their bracket; a sequence of
dashes that is the value of a mapping key needs no block of its own. A key or value that was left
out is an empty scalar.
-/

namespace ApplianceScript.Yaml

structure Reading where
  tokens : List Token
  handles : List (String × String) := []
  names : List (String × Nat) := []
  anchors : List Anchored := []
  events : Nat := 0

abbrev Reader := StateT Reading Option

namespace Reader

def peek : Reader Token := do
  match (← get).tokens with
  | token :: _ => return token
  | [] => failure

def advance : Reader Unit :=
  modify fun reading => { reading with tokens := reading.tokens.drop 1 }

def accept (token : Token) : Reader Bool := do
  if (← peek) = token then advance; return true
  else return false

def expect (token : Token) : Reader Unit := do
  if !(← accept token) then failure

def count : Reader Unit :=
  modify fun reading => { reading with events := reading.events + 1 }

def sees (tokens : List Token) : Reader Bool :=
  return tokens.contains (← peek)

def absent : Reader Node := do
  count
  return .absent

def resolveTag (handle suffix : String) : Reader String := do
  if handle.isEmpty then return suffix
  else
    match (← get).handles.lookup handle with
    | some meaning => return meaning ++ suffix
    | none => failure

def anchor? : Reader (Option String) := do
  match ← peek with
  | .anchor name => advance; return some name
  | _ => return none

def tag? : Reader (Option String) := do
  match ← peek with
  | .tag handle suffix => advance; return some (← resolveTag handle suffix)
  | _ => return none

def properties : Reader (Option String × Option String) := do
  match ← anchor? with
  | some name => return (some name, ← tag?)
  | none =>
    match ← tag? with
    | some tag => return (← anchor?, some tag)
    | none => return (none, none)

def register (name : String) : Reader Nat := do
  let reading ← get
  let number := reading.names.length
  set { reading with names := (name, number) :: reading.names.filter (·.1 ≠ name) }
  return number

def aliased (name : String) : Reader Nat := do
  match (← get).names.lookup name with
  | some number => return number
  | none => failure

def noting (anchor : Option String) (read : Reader Node) : Reader Node := do
  match anchor with
  | none => read
  | some name =>
    let start := (← get).events
    let number ← register name
    let node ← read
    modify fun reading => { reading with anchors := ⟨number, start, node⟩ :: reading.anchors }
    return node

def endsBlockValue : List Token := [.key, .value, .blockEnd]

mutual

/-- Reads a node. `block` allows block collections, `dashes` also a sequence without a block of
its own. Every call reads a token or is followed by one that does, so the number of tokens bounds
`fuel`. -/
def node (fuel : Nat) (block dashes : Bool) : Reader Node :=
  match fuel with
  | 0 => failure
  | fuel + 1 => do
    match ← peek with
    | .alias name =>
      advance
      count
      return .alias (← aliased name)
    | _ =>
      let (anchor, tag) ← properties
      noting anchor do
        match ← peek with
        | .scalar style text =>
          advance
          count
          return .scalar (tag.filter (· ≠ "!")) style text
        | .flowSequenceStart =>
          advance
          count
          return .sequence (← flowItems fuel true)
        | .flowMappingStart =>
          advance
          count
          return .mapping (← flowEntries fuel true)
        | token =>
          if dashes && token = .blockEntry then
            count
            return .sequence (← dashItems fuel)
          else if block && token = .blockSequenceStart then
            advance
            count
            return .sequence (← blockItems fuel)
          else if block && token = .blockMappingStart then
            advance
            count
            return .mapping (← blockEntries fuel)
          else if anchor.isSome || tag.isSome then
            count
            return .scalar tag .plain ""
          else failure

def nodeUnless (fuel : Nat) (ends : List Token) (block dashes : Bool) : Reader Node :=
  match fuel with
  | 0 => failure
  | fuel + 1 => do
    if ← sees ends then absent else node fuel block dashes

def blockItems (fuel : Nat) : Reader (List Node) :=
  match fuel with
  | 0 => failure
  | fuel + 1 => do
    if ← accept .blockEntry then
      let item ← nodeUnless fuel [.blockEntry, .blockEnd] true false
      return item :: (← blockItems fuel)
    else
      expect .blockEnd
      count
      return []

def dashItems (fuel : Nat) : Reader (List Node) :=
  match fuel with
  | 0 => failure
  | fuel + 1 => do
    if ← accept .blockEntry then
      let item ← nodeUnless fuel (.blockEntry :: endsBlockValue) true false
      return item :: (← dashItems fuel)
    else
      count
      return []

def blockEntries (fuel : Nat) : Reader (List (Node × Node)) :=
  match fuel with
  | 0 => failure
  | fuel + 1 => do
    if ← accept .key then
      let key ← nodeUnless fuel endsBlockValue true true
      let value ← if ← accept .value then nodeUnless fuel endsBlockValue true true else absent
      return (key, value) :: (← blockEntries fuel)
    else
      expect .blockEnd
      count
      return []

def flowItems (fuel : Nat) (first : Bool) : Reader (List Node) :=
  match fuel with
  | 0 => failure
  | fuel + 1 => do
    let close : Reader (List Node) := do
      expect .flowSequenceEnd
      count
      return []
    if ← sees [.flowSequenceEnd] then close
    else
      if !first then expect .flowEntry
      if ← accept .key then
        count
        let entry ← flowPair fuel
        count
        return .mapping [entry] :: (← flowItems fuel false)
      else if ← sees [.flowSequenceEnd] then close
      else
        let item ← node fuel false false
        return item :: (← flowItems fuel false)

def flowPair (fuel : Nat) : Reader (Node × Node) :=
  match fuel with
  | 0 => failure
  | fuel + 1 => do
    let key ←
      if ← sees [.value, .flowEntry, .flowSequenceEnd] then
        advance
        absent
      else node fuel false false
    let value ←
      if ← accept .value then nodeUnless fuel [.flowEntry, .flowSequenceEnd] false false
      else absent
    return (key, value)

def flowEntries (fuel : Nat) (first : Bool) : Reader (List (Node × Node)) :=
  match fuel with
  | 0 => failure
  | fuel + 1 => do
    let close : Reader (List (Node × Node)) := do
      expect .flowMappingEnd
      count
      return []
    if ← sees [.flowMappingEnd] then close
    else
      if !first then expect .flowEntry
      if ← accept .key then
        let key ← nodeUnless fuel [.value, .flowEntry, .flowMappingEnd] false false
        let value ←
          if ← accept .value then nodeUnless fuel [.flowEntry, .flowMappingEnd] false false
          else absent
        return (key, value) :: (← flowEntries fuel false)
      else if ← sees [.flowMappingEnd] then close
      else
        let key ← node fuel false false
        let value ← absent
        return (key, value) :: (← flowEntries fuel false)

end

def standardHandles : List (String × String) :=
  [("!", "!"), ("!!", "tag:yaml.org,2002:")]

def directives : Nat → Bool → List (String × String) → Reader (List (String × String))
  | 0, _, _ => failure
  | fuel + 1, versioned, handles => do
    match ← peek with
    | .versionDirective major minor =>
      if versioned || major ≠ 1 || (minor ≠ 1 && minor ≠ 2) then failure
      else
        advance
        directives fuel true handles
    | .tagDirective handle meaning =>
      if (handles.lookup handle).isSome then failure
      else
        advance
        directives fuel versioned (handles ++ [(handle, meaning)])
    | _ => return handles

def skipDocumentEnds : Nat → Reader Unit
  | 0 => return ()
  | fuel + 1 => do
    if ← accept .documentEnd then skipDocumentEnds fuel

def onlyDocument (fuel : Nat) : Reader Node := do
  let explicit := match ← peek with
    | .versionDirective .. | .tagDirective .. | .documentStart => true
    | _ => false
  let declared ← if explicit then directives fuel false [] else pure []
  modify fun reading => { reading with handles := declared ++ standardHandles }
  let root ←
    if explicit then do
      expect .documentStart
      match ← peek with
      | .versionDirective .. | .tagDirective .. | .documentStart | .documentEnd | .streamEnd =>
        absent
      | _ => node fuel true false
    else node fuel true false
  skipDocumentEnds fuel
  expect .streamEnd
  return root

end Reader

def Document.ofTokens? (tokens : List Token) : Option Document :=
  match (Reader.onlyDocument (3 * tokens.length + 3)).run { tokens } with
  | some (root, reading) =>
    some { root, anchors := reading.anchors, events := reading.events }
  | none => none

end ApplianceScript.Yaml
