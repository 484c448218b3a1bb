/-!
# Character: which characters XML text may hold

Names are made of `isNamePart` characters and begin with an `isNameStart` one. The version of a
document decides which control characters it may hold (`Version.allows`), and which of them may stand
for themselves (`Version.isPlain`).
-/

namespace TourMap.Xml

/-- The version that a document declares. -/
inductive Version where
  | v10
  | v11
  deriving DecidableEq

def isBlank (c : Char) : Bool := c == ' ' || c == '\n' || c == '\t' || c == '\r'

/-- Whether the code of a character lies in one of several ranges. -/
def inRanges (ranges : List (Nat × Nat)) (c : Char) : Bool :=
  ranges.any fun (low, high) => low ≤ c.toNat && c.toNat ≤ high

def nameStartRanges : List (Nat × Nat) := [
  (0x61, 0x7A), (0x41, 0x5A), (0x5F, 0x5F), (0x3A, 0x3A), (0xC0, 0xD6), (0xD8, 0xF6), (0xF8, 0x2FF),
  (0x370, 0x37D), (0x37F, 0x1FFF), (0x200C, 0x200D), (0x2070, 0x218F), (0x2C00, 0x2FEF),
  (0x3001, 0xD7FF), (0xF900, 0xFDCF), (0xFDF0, 0xFFFD), (0x10000, 0xEFFFF)]

/-- The ranges of the characters that may only go on with a name. -/
def namePartRanges : List (Nat × Nat) := [
  (0x30, 0x39), (0x2D, 0x2E), (0xB7, 0xB7), (0x300, 0x36F), (0x203F, 0x2040)]

/-- Whether a name may begin with a character. -/
def isNameStart (c : Char) : Bool := inRanges nameStartRanges c

/-- Whether a name may hold a character. -/
def isNamePart (c : Char) : Bool := isNameStart c || inRanges namePartRanges c

/-- Whether a character may be the next one of a name, of which it may be the first one. -/
def isNextOfName (first : Bool) (c : Char) : Bool := if first then isNameStart c else isNamePart c

/-- Whether a document may hold a character at all. -/
def Version.allows (v : Version) (c : Char) : Bool :=
  match v with
  | .v10 => 0x20 ≤ c.toNat && c.toNat < 0xFFFE || isBlank c || 0x10000 ≤ c.toNat
  | .v11 => 0x01 ≤ c.toNat && c.toNat < 0xFFFE || 0x10000 ≤ c.toNat

/-- Whether a character may stand for itself, and need not be written as a reference. -/
def Version.isPlain (v : Version) (c : Char) : Bool :=
  v.allows c && (isBlank c || 0x20 ≤ c.toNat && c.toNat < 0x7F || 0x85 == c.toNat ||
    0xA0 ≤ c.toNat || v == .v10)

end TourMap.Xml
