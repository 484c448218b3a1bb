/-!
# Utf8: characters from octets

`Utf8.step` reads well-formed sequences only: no overlong form, no surrogate, nothing past the last
character. `Utf8.decode` reads a whole sequence.
-/

namespace TourMap.Utf8

/-- The rest of a character whose first octets were read. -/
structure Pending where
  /-- How many octets are still to come. -/
  owed : Nat
  /-- The least octet that may come next. -/
  low : UInt8
  /-- The greatest octet that may come next. -/
  high : UInt8
  /-- The bits read so far. -/
  bits : Nat

/-- What the first octet of a character of several octets asks for. -/
def lead? (b : UInt8) : Option Pending :=
  if b < 0xC2 then none
  else if b < 0xE0 then some ⟨1, 0x80, 0xBF, b.toNat - 0xC0⟩
  else if b < 0xF0 then
    some ⟨2, if b = 0xE0 then 0xA0 else 0x80, if b = 0xED then 0x9F else 0xBF, b.toNat - 0xE0⟩
  else if b < 0xF5 then
    some ⟨3, if b = 0xF0 then 0x90 else 0x80, if b = 0xF4 then 0x8F else 0xBF, b.toNat - 0xF0⟩
  else none

/-- One octet, in or between characters: what is pending after it, and the character that it
completes. -/
def step : Option Pending → UInt8 → Option (Option Pending × Option Char)
  | none, b =>
    if b < 0x80 then some (none, some (Char.ofNat b.toNat))
    else (lead? b).map fun pending => (some pending, none)
  | some p, b =>
    if b < p.low ∨ p.high < b then none
    else
      let bits := p.bits * 64 + b.toNat % 64
      if p.owed ≤ 1 then some (none, some (Char.ofNat bits))
      else some (some ⟨p.owed - 1, 0x80, 0xBF, bits⟩, none)

/-- Reads on, in or between characters. `read` holds the characters so far, the last one first. -/
def decodeFrom : (pending : Option Pending) → (read : List Char) → List UInt8 → List Char × Bool
  | pending, read, [] => (read.reverse, pending.isNone)
  | pending, read, b :: rest =>
    match step pending b with
    | none => (read.reverse, false)
    | some (pending, none) => decodeFrom pending read rest
    | some (pending, some c) => decodeFrom pending (c :: read) rest

/-- The characters up to the first octet that is not well-formed, and whether there is none. -/
def decode (octets : List UInt8) : List Char × Bool := decodeFrom none [] octets

def text? (octets : List UInt8) : Option String :=
  match decode octets with
  | (chars, true) => some (String.ofList chars)
  | (_, false) => none

end TourMap.Utf8
