import ApplianceScript.Text.Occurrence

namespace ApplianceScript

structure Version where
  major : UInt32
  minor : UInt32
deriving DecidableEq, Repr

namespace Version

def marker : String := "_V_"

def tagHead : String := "CL"

def twoDigits (n : Nat) : String :=
  if n < 10 then "0" ++ toString n else toString n

def text (version : Version) : String :=
  toString version.major.toNat ++ "." ++ toString version.minor.toNat

def tag (version : Version) : String :=
  tagHead ++ twoDigits version.major.toNat ++ twoDigits version.minor.toNat

def stamp (version : Version) (command : String) : String :=
  Text.replace marker version.tag command

def stampAll (version : Version) (commands : List String) : List String :=
  commands.map fun command =>
    if Text.occurs marker command then version.stamp command else command

theorem stamp_of_not_occurs (version : Version) {command : String}
    (h : Text.occurs marker command = false) : version.stamp command = command :=
  Text.replace_of_not_occurs h

theorem stampAll_eq_map (version : Version) (commands : List String) :
    version.stampAll commands = commands.map version.stamp := by
  unfold stampAll
  congr 1
  funext command
  cases h : Text.occurs marker command with
  | true => rfl
  | false => exact (version.stamp_of_not_occurs h).symm

end Version

end ApplianceScript
