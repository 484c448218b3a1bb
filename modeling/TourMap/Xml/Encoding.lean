import TourMap.Text.Utf8

/-!
# Encoding: the characters of a document's octets

A mark at the very start tells how a document is encoded (`Encoding.ofMark`); without one it is read
as UTF-8, until its declaration names another encoding (`Encoding.declare?`). Since that name stands
in the document itself, octets are read one by one (`Encoding.step`).
-/

namespace TourMap.Xml

/-! ## 1. Characters from octets -/

inductive Encoding where
  | utf8
  | latin1
  | ascii
  | utf16 (bigEndian : Bool)
  deriving DecidableEq

/-- What was read of a character that is not complete. -/
inductive PartialChar where
  | nothing
  | octets (pending : Utf8.Pending)
  /-- The leading surrogate, if there is one, and the first octet of a unit of sixteen bits. -/
  | half (high : Option Nat) (first : UInt8)
  | surrogate (high : Nat)

/-- A unit of sixteen bits, after a leading surrogate or none. -/
def PartialChar.ofUnit (high : Option Nat) (unit : Nat) : Option (PartialChar × Option Char) :=
  let isHigh := 0xD800 ≤ unit && unit < 0xDC00
  let isLow := 0xDC00 ≤ unit && unit < 0xE000
  match high with
  | none =>
    if isHigh then some (.surrogate unit, none)
    else if isLow then none
    else some (.nothing, some (Char.ofNat unit))
  | some high =>
    if isLow then
      some (.nothing, some (Char.ofNat ((high - 0xD800) * 1024 + (unit - 0xDC00) + 0x10000)))
    else none

namespace Encoding

def stepUtf8 (pending : Option Utf8.Pending) (b : UInt8) : Option (PartialChar × Option Char) :=
  match Utf8.step pending b with
  | none => none
  | some (none, c) => some (.nothing, c)
  | some (some pending, c) => some (.octets pending, c)

/-- One octet: what is left of a character after it, and the character that it completes. No
document goes on with an octet that has no place. -/
def step (e : Encoding) (left : PartialChar) (b : UInt8) : Option (PartialChar × Option Char) :=
  match e, left with
  | .utf8, .octets pending => stepUtf8 (some pending) b
  | .utf8, _ => stepUtf8 none b
  | .latin1, _ => some (.nothing, some (Char.ofNat b.toNat))
  | .ascii, _ => if b < 0x80 then some (.nothing, some (Char.ofNat b.toNat)) else none
  | .utf16 bigEndian, .half high first =>
    PartialChar.ofUnit high
      (if bigEndian then first.toNat * 256 + b.toNat else b.toNat * 256 + first.toNat)
  | .utf16 _, .surrogate high => some (.half (some high) b, none)
  | .utf16 _, _ => some (.half none b, none)

/-! ## 2. Marks and names -/

/-- The encoding that the first octets give away, and the octets after them. -/
def ofMark : List UInt8 → Option Encoding × List UInt8
  | 0xEF :: 0xBB :: 0xBF :: rest => (some .utf8, rest)
  | 0xFE :: 0xFF :: rest => (some (.utf16 true), rest)
  | 0xFF :: 0xFE :: rest => (some (.utf16 false), rest)
  | octets => (none, octets)

/-- Whether a name agrees with a label, without regard to case, as far as the shorter one goes. -/
def agrees (name label : List Char) : Bool :=
  (name.zip label).all fun (c, l) => c.toLower == l

/-- The encoding in units of eight bits that a label stands for, or none: that label stands for
units of sixteen bits in either order. The first label that agrees with a name counts. -/
def labels : List (List Char × Option Encoding) := [
  ("utf-8".toList, some .utf8), ("utf8".toList, some .utf8),
  ("iso-8859-1".toList, some .latin1), ("latin1".toList, some .latin1),
  ("utf-16".toList, none), ("utf16".toList, none),
  ("ascii".toList, some .ascii), ("us-ascii".toList, some .ascii)]

/-- The encoding of a document that declares one by name: it must agree with the one of the mark, if
there is a mark, and without a mark units have eight bits. -/
def declare? (mark : Option Encoding) (name : List Char) : Option Encoding :=
  match labels.find? fun (label, _) => agrees name label, mark with
  | some (_, some declared), none => some declared
  | some (_, some declared), some e => if e = declared then some e else none
  | some (_, none), some (.utf16 bigEndian) => some (.utf16 bigEndian)
  | _, _ => none

end Encoding

end TourMap.Xml
