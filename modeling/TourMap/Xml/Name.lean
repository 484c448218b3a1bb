import TourMap.Xml.Character

/-!
# Name: what elements and attributes are called

A name is read one character at a time and may not grow too long. It may be given in a name space,
whose short name stands before a colon.
-/

namespace TourMap.Xml

/-! ## 1. Names that are read -/

structure PartialName where
  /-- The characters, the last one first. -/
  read : List Char
  /-- How many octets they take in UTF-8, and what stands before the name with them. -/
  octets : Nat

namespace PartialName

/-- How many octets a name may take that goes on. -/
def maxOctets : Nat := 262144

/-- A name before its first character; some octets stand before it. -/
def after (octets : Nat) : PartialName := ⟨[], octets⟩

def empty : PartialName := after 0

def isEmpty (n : PartialName) : Bool := n.read.isEmpty

def chars (n : PartialName) : List Char := n.read.reverse

def add? (n : PartialName) (c : Char) : Option PartialName :=
  if isNextOfName n.isEmpty c && n.octets ≤ maxOctets then
    some ⟨c :: n.read, n.octets + c.utf8Size⟩
  else
    none

end PartialName

/-! ## 2. Names of elements and attributes -/

/-- The name of an element or attribute: its name space, if it is given, and the name in it. -/
structure Name where
  space : Option String
  base : String
  deriving DecidableEq

namespace Name

def plain (base : String) : Name := ⟨none, base⟩

/-- The name that characters write. One colon may stand in it, with something on both sides. -/
def ofChars? (chars : List Char) : Option Name :=
  match chars.span (· != ':') with
  | ([], _) => none
  | (base, []) => some ⟨none, String.ofList base⟩
  | (space, _ :: base) =>
    if base.isEmpty || base.contains ':' then none
    else some ⟨some (String.ofList space), String.ofList base⟩

end Name

end TourMap.Xml
