namespace ApplianceScript.Text

def hexDigit? (c : Char) : Option Nat :=
  if c.isDigit then some (c.toNat - 48)
  else if 'a' ≤ c && c ≤ 'f' then some (c.toNat - 87)
  else if 'A' ≤ c && c ≤ 'F' then some (c.toNat - 55)
  else none

def digit? (base : Nat) (c : Char) : Option Nat :=
  (hexDigit? c).filter (· < base)

def digits? (base n : Nat) : List Char → Option Nat
  | [] => some n
  | c :: rest =>
    match digit? base c with
    | some digit => digits? base (n * base + digit) rest
    | none => none

def number? (base : Nat) (digits : List Char) : Option Nat :=
  if digits.isEmpty then none else digits? base 0 digits

end ApplianceScript.Text
