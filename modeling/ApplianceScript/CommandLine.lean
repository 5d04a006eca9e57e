import ApplianceScript.Disk.Path
import ApplianceScript.Text.Digits

/-!
Command lines.

A command line names a search path and may hold switches and options; an option has a value, either
attached to it or as the next argument. An argument that begins with a hyphen never is a value,
unless it is a hyphen alone or two hyphens came before it.

A value is not looked at when it is read but with the next switch, option or search path, so that
an unknown argument directly behind a faulty value is reported first.
-/

namespace ApplianceScript

structure Invocation where
  searchPath : Path
  verbose : Bool := false
  quiet : Bool := false
  config : Option Path := none
  output : Option Path := none
  maxParallel : Option Nat := none
  dryRun : Bool := false
  print : Bool := false
deriving DecidableEq, Repr

namespace CommandLine

inductive Refusal
  | unknownArgument
  | missingSearchPath
  | conflict
  | noValue
  | notNumber
  | unneededValue
  | help
  | version
deriving DecidableEq, Repr

def Refusal.exitCode : Refusal → Nat
  | help | version => 0
  | _ => 2

inductive Switch
  | verbose
  | quiet
  | dryRun
  | print
  | help
  | version
deriving DecidableEq, Repr

inductive Slot
  | searchPath
  | config
  | output
  | maxParallel
deriving DecidableEq, Repr

inductive Meaning
  | switch (switch : Switch)
  | slot (slot : Slot)

def ofLongName? (name : String) : Option Meaning :=
  match name with
  | "verbose" => some (.switch .verbose)
  | "quiet" => some (.switch .quiet)
  | "config" => some (.slot .config)
  | "output" => some (.slot .output)
  | "max-parallel" => some (.slot .maxParallel)
  | "dry-run" => some (.switch .dryRun)
  | "print" => some (.switch .print)
  | "help" => some (.switch .help)
  | "version" => some (.switch .version)
  | _ => none

def ofLetter? (c : Char) : Option Meaning :=
  match c with
  | 'v' => some (.switch .verbose)
  | 'q' => some (.switch .quiet)
  | 'c' => some (.slot .config)
  | 'o' => some (.slot .output)
  | 'h' => some (.switch .help)
  | 'V' => some (.switch .version)
  | _ => none

structure Progress where
  switches : List Switch := []
  searchPath : Option Path := none
  config : Option Path := none
  output : Option Path := none
  maxParallel : Option Nat := none
  pending : Option (Slot × Option String) := none
  located : Bool := false
  literal : Bool := false

namespace Progress

def fill (old : Option α) (value : Except Refusal α) : Except Refusal (Option α) :=
  match old with
  | some _ => .error .conflict
  | none => value.map some

def pathValue (text : String) : Except Refusal Path :=
  if text.isEmpty then .error .noValue else .ok (.ofText text)

def numberValue (text : String) : Except Refusal Nat :=
  let digits := match text.toList with
    | '+' :: digits => digits
    | digits => digits
  match Text.number? 10 digits with
  | some n => if n < UInt64.size then .ok n else .error .notNumber
  | none => .error .notNumber

def store (progress : Progress) (slot : Slot) (text : String) : Except Refusal Progress := do
  match slot with
  | .searchPath =>
    return { progress with searchPath := ← fill progress.searchPath (pathValue text) }
  | .config => return { progress with config := ← fill progress.config (pathValue text) }
  | .output => return { progress with output := ← fill progress.output (pathValue text) }
  | .maxParallel =>
    return { progress with maxParallel := ← fill progress.maxParallel (numberValue text) }

def settle (progress : Progress) : Except Refusal Progress :=
  match progress.pending with
  | none => .ok progress
  | some (_, none) => .error .noValue
  | some (slot, some text) => { progress with pending := none }.store slot text

def turnOn (progress : Progress) (switch : Switch) : Except Refusal Progress := do
  let progress ← progress.settle
  match switch with
  | .help => .error .help
  | .version => .error .version
  | switch =>
    if progress.switches.contains switch then .error .conflict
    else return { progress with switches := switch :: progress.switches }

def takeOption (progress : Progress) (slot : Slot) (attached : Option String) :
    Except Refusal Progress := do
  let progress ← progress.settle
  match attached with
  | some text => progress.store slot text
  | none => return { progress with pending := some (slot, none) }

def takeLong (progress : Progress) (argument : List Char) : Except Refusal Progress :=
  let name := String.ofList (argument.takeWhile (· ≠ '='))
  let value := match argument.dropWhile (· ≠ '=') with
    | _ :: text => some (String.ofList text)
    | [] => none
  match ofLongName? name, value with
  | none, _ => .error .unknownArgument
  | some (.slot slot), value => progress.takeOption slot value
  | some (.switch _), some _ => .error .unneededValue
  | some (.switch switch), none => progress.turnOn switch

def takeLetters (progress : Progress) : List Char → Except Refusal Progress
  | [] => .ok progress
  | c :: rest =>
    match ofLetter? c with
    | none => .error .unknownArgument
    | some (.switch switch) =>
      match progress.turnOn switch with
      | .ok progress => progress.takeLetters rest
      | .error refusal => .error refusal
    | some (.slot slot) =>
      match rest with
      | [] => progress.takeOption slot none
      | '=' :: value => progress.takeOption slot (some (String.ofList value))
      | value => progress.takeOption slot (some (String.ofList value))

def takeSearchPath (progress : Progress) (argument : String) : Except Refusal Progress := do
  if progress.located then .error .unknownArgument
  else
    let progress ← progress.settle
    return { progress with pending := some (.searchPath, some argument), located := true }

def takeValue (progress : Progress) (argument : String) : Except Refusal Progress :=
  match progress.pending with
  | some (slot, none) => .ok { progress with pending := some (slot, some argument) }
  | _ => progress.takeSearchPath argument

def take (progress : Progress) (argument : String) : Except Refusal Progress :=
  if progress.literal then progress.takeSearchPath argument
  else
    match argument.toList with
    | ['-', '-'] => .ok { progress with literal := true }
    | '-' :: '-' :: long => progress.takeLong long
    | '-' :: c :: letters => progress.takeLetters (c :: letters)
    | _ => progress.takeValue argument

def finish (progress : Progress) : Except Refusal Invocation := do
  let progress ← progress.settle
  let on := progress.switches.contains
  if (on .verbose && on .quiet) || (on .print && on .dryRun) then .error .conflict
  else
    match progress.searchPath with
    | none => .error .missingSearchPath
    | some searchPath =>
      return {
        searchPath
        verbose := on .verbose
        quiet := on .quiet
        config := progress.config
        output := progress.output
        maxParallel := progress.maxParallel
        dryRun := on .dryRun
        print := on .print }

end Progress

def parse (arguments : List String) : Except Refusal Invocation := do
  (← arguments.foldlM Progress.take {}).finish

end CommandLine

inductive LogLevel
  | off
  | warnings
  | debug
deriving DecidableEq, Repr

namespace Invocation

def logLevel (invocation : Invocation) : LogLevel :=
  if invocation.verbose then .debug else if invocation.quiet then .off else .warnings

def isTerse (invocation : Invocation) : Bool :=
  invocation.quiet || invocation.print

end Invocation

end ApplianceScript
