/-!
# Digits: codes of characters in decimal and hexadecimal digits
-/

namespace TourMap.Digits

def hexValue? (c : Char) : Option Nat :=
  if '0' ≤ c ∧ c ≤ '9' then some (c.toNat - '0'.toNat)
  else if 'a' ≤ c ∧ c ≤ 'f' then some (c.toNat - 'a'.toNat + 10)
  else if 'A' ≤ c ∧ c ≤ 'F' then some (c.toNat - 'A'.toNat + 10)
  else none

def decimalValue? (c : Char) : Option Nat :=
  if '0' ≤ c ∧ c ≤ '9' then some (c.toNat - '0'.toNat) else none

/-- The greatest code of a character. Nothing past it is read, however many digits there are. -/
def maxCode : Nat := 0x10FFFF

/-- The code that digits go on to write after `value`. -/
def addDigits? (base : Nat) (digit? : Char → Option Nat) (value : Nat) : List Char → Option Nat
  | [] => some value
  | c :: rest =>
    match digit? c with
    | some d =>
      let next := value * base + d
      if maxCode < next then none else addDigits? base digit? next rest
    | none => none

/-- The code that at least one decimal digit and nothing else writes. -/
def decimal? : List Char → Option Nat
  | [] => none
  | c :: rest => addDigits? 10 decimalValue? 0 (c :: rest)

/-- The code that at least one hexadecimal digit and nothing else writes. -/
def hexadecimal? : List Char → Option Nat
  | [] => none
  | c :: rest => addDigits? 16 hexValue? 0 (c :: rest)

end TourMap.Digits
