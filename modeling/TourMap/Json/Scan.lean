import TourMap.Number.Decimal
import TourMap.Text.Digits
import TourMap.Text.Utf8

/-!
# Scan: the tokens of JSON text

A text is a list of octets, seen as the characters of the same codes. A reader takes what it needs
from the front and stops at the first fault. Of a string it can take the content, which has to be
well-formed UTF-8, or skip over it, which checks less.
-/

namespace TourMap.Json

/-! ## 1. Readers -/

inductive Fault where
  /-- It is no JSON, or a number in it is too great, or it is too deep. -/
  | malformed
  | truncated
  /-- It is JSON, and something else was to be read. -/
  | mistyped
  deriving DecidableEq

/-- Takes something from the front of a text. -/
abbrev Reader := StateT (List Char) (Except Fault)

def ofOctets (octets : List UInt8) : List Char := octets.map fun b => Char.ofNat b.toNat

def isBlank (c : Char) : Bool := c == ' ' || c == '\n' || c == '\t' || c == '\r'

def peek : Reader (Option Char) := do return (← get).head?

def take : Reader (Option Char) := do
  let text ← get
  set text.tail
  return text.head?

/-- Skips blanks; the next character, which is not taken. -/
def peekToken : Reader (Option Char) := do
  let text := (← get).dropWhile isBlank
  set text
  return text.head?

/-- Skips blanks; the next character, of a value that has to follow. -/
def peekValue : Reader Char := do
  match ← peekToken with
  | some c => return c
  | none => throw .truncated

def takeWord : List Char → Reader Unit
  | [] => return
  | expected :: rest => do
    match ← take with
    | none => throw .truncated
    | some c => if c = expected then takeWord rest else throw .malformed

def takeDigits : Reader (List Char) := do
  let (digits, rest) := (← get).span Char.isDigit
  set rest
  return digits

/-! ## 2. Strings -/

inductive StringPlace where
  | plain
  | escape
  /-- After `\u` and so many digits that make up `value`. `high` is a leading surrogate before. -/
  | hex (high : Option Nat) (count value : Nat) (valid : Bool)
  /-- After a leading surrogate: a backslash must follow. -/
  | lowBackslash (high : Nat)
  /-- After a leading surrogate and a backslash: a `u` must follow. -/
  | lowLetter (high : Nat)

/-- The character that a backslash and a letter stand for. -/
def escaped? : Char → Option Char
  | '"' => some '"'
  | '\\' => some '\\'
  | '/' => some '/'
  | 'b' => some '\x08'
  | 'f' => some '\x0c'
  | 'n' => some '\n'
  | 'r' => some '\r'
  | 't' => some '\t'
  | _ => none

/-- What follows from four hexadecimal digits: the place after them and the octets they stand for.
Unless `strict`, surrogates need no partner. -/
def ofHex (strict : Bool) (high : Option Nat) (value : Nat) :
    Except Fault (StringPlace × List UInt8) :=
  if !strict then .ok (.plain, [])
  else match high with
    | none =>
      if 0xDC00 ≤ value ∧ value ≤ 0xDFFF then .error .malformed
      else if 0xD800 ≤ value ∧ value ≤ 0xDBFF then .ok (.lowBackslash value, [])
      else .ok (.plain, String.utf8EncodeChar (Char.ofNat value))
    | some high =>
      if value < 0xDC00 ∨ 0xDFFF < value then .error .malformed
      else
        let code := (high - 0xD800) * 1024 + (value - 0xDC00) + 0x10000
        .ok (.plain, String.utf8EncodeChar (Char.ofNat code))

/-- One character of a string: the place after it and the octets it adds. -/
def StringPlace.step (strict : Bool) (place : StringPlace) (c : Char) :
    Except Fault (StringPlace × List UInt8) :=
  match place with
  | .plain =>
    if c = '\\' then .ok (.escape, [])
    else if c.toNat < 0x20 then .error .malformed
    else .ok (.plain, [UInt8.ofNat c.toNat])
  | .escape =>
    if c = 'u' then .ok (.hex none 0 0 true, [])
    else match escaped? c with
      | some d => .ok (.plain, [UInt8.ofNat d.toNat])
      | none => .error .malformed
  | .hex high count value valid =>
    let valid := valid && (Digits.hexValue? c).isSome
    let value := value * 16 + (Digits.hexValue? c).getD 0
    if count < 3 then .ok (.hex high (count + 1) value valid, [])
    else if valid then ofHex strict high value
    else .error .malformed
  | .lowBackslash high => if c = '\\' then .ok (.lowLetter high, []) else .error .malformed
  | .lowLetter high => if c = 'u' then .ok (.hex (some high) 0 0 true, []) else .error .malformed

/-- The octets of a string up to its closing quote, and what follows. `read` holds the octets so
far, the last one first. -/
def scanString (strict : Bool) :
    StringPlace → (read : List UInt8) → List Char → Except Fault (List UInt8 × List Char)
  | _, _, [] => .error .truncated
  | place, read, c :: rest =>
    match place, c with
    | .plain, '"' => .ok (read.reverse, rest)
    | place, c =>
      match place.step strict c with
      | .ok (place, octets) => scanString strict place (octets.reverse ++ read) rest
      | .error e => .error e

def takeString : Reader String := do
  let (octets, rest) ← scanString true .plain [] (← get)
  match Utf8.text? octets with
  | some text =>
    set rest
    return text
  | none => throw .malformed

def skipString : Reader Unit := do
  let (_, rest) ← scanString false .plain [] (← get)
  set rest

/-! ## 3. Numbers -/

/-- A number as it is kept: an integer of 64 bits, or a binary number. -/
inductive Number where
  | natural (n : Nat)
  | negative (n : Int)
  | real (x : Double)

def Number.toBinary (f : Format) : Number → Binary f
  | .natural n => .ofInt n
  | .negative n => .ofInt n
  | .real x => x.convert

def maxNatural : Nat := 18446744073709551615

/-- The integer that digits add to `value`, as far as it stays within 64 bits, and the digits
left over. -/
def addDigits (value : Nat) : List Char → Nat × List Char
  | [] => (value, [])
  | d :: rest =>
    let next := value * 10 + (d.toNat - '0'.toNat)
    if maxNatural < next then (value, d :: rest) else addDigits next rest

def powerOfTen (n : Nat) : Double := .ofDecimal double false 1 n

/-- `x * 10 ^ exponent`, the power rounded first. Powers below `10 ^ -308` are divided by in
several steps, of which two already lead to zero. -/
def scaleByTen (x : Double) (exponent : Int) : (steps : Nat) → Except Fault Double
  | 0 => .ok (.zero false)
  | n + 1 =>
    if exponent.natAbs ≤ 308 then
      if 0 ≤ exponent then
        match Binary.mul x (powerOfTen exponent.natAbs) with
        | .finite negative m e h => .ok (.finite negative m e h)
        | _ => .error .malformed
      else .ok (Binary.div x (powerOfTen exponent.natAbs))
    else if x.isZero then .ok x
    else if 0 ≤ exponent then .error .malformed
    else scaleByTen (Binary.div x (powerOfTen 308)) (exponent + 308) n

/-- The number `± significand * 10 ^ exponent`, which must not be too great. -/
def ofScientific (negative : Bool) (significand : Nat) (exponent : Int) : Except Fault Number :=
  (scaleByTen (.ofInt significand) exponent 4).map fun x => .real (if negative then x.neg else x)

def takeExponent : Reader Int := do
  let negative ← match ← peek with
    | some '+' => discard take; pure false
    | some '-' => discard take; pure true
    | _ => pure false
  match ← peek with
  | none => throw .truncated
  | some c =>
    if c.isDigit then return Binary.signed negative (DecimalText.valueOf (← takeDigits))
    else throw .malformed

def takeExponent? : Reader (Option Int) := do
  match ← peek with
  | some 'e' => discard take; return some (← takeExponent)
  | some 'E' => discard take; return some (← takeExponent)
  | _ => return none

/-- Takes the digits before a point: a zero alone, or digits that begin with another one. -/
def takeWhole : Reader (List Char) := do
  match ← take with
  | none => throw .truncated
  | some '0' =>
    if (← peek).any Char.isDigit then throw .malformed else return ['0']
  | some c => if c.isDigit then return c :: (← takeDigits) else throw .malformed

/-- Takes the digits after a point, of which there must be one. -/
def takeFraction : Reader (List Char) := do
  match ← peek with
  | none => throw .truncated
  | some c => if c.isDigit then takeDigits else throw .malformed

/-- An integer, which is kept exactly if it fits into 64 bits. -/
def ofInteger (negative : Bool) (significand : Nat) : Number :=
  if !negative then .natural significand
  else if significand = 0 ∨ maxNatural / 2 + 1 < significand then
    .real (.neg (.ofInt significand))
  else .negative (-(significand : Int))

/-- Takes a number after its sign. Of its digits those are kept that fit into 64 bits; each digit
before the point that is left out adds one to the exponent. -/
def takeNumber (negative : Bool) : Reader Number := do
  let (significand, left) := addDigits 0 (← takeWhole)
  if (← peek) = some '.' then
    discard take
    let fraction ← takeFraction
    let (significand, leftOver) := addDigits significand fraction
    let exponent : Int := left.length - (fraction.length - leftOver.length : Nat)
    ofScientific negative significand (exponent + (← takeExponent?).getD 0)
  else
    match ← takeExponent? with
    | some e => ofScientific negative significand (left.length + e)
    | none =>
      if left.isEmpty then return ofInteger negative significand
      else ofScientific negative significand left.length

def skipNumber : Reader Unit := do
  let strictly (r : Reader Unit) : Reader Unit := fun text =>
    match r text with
    | .ok result => .ok result
    | .error _ => .error .malformed
  strictly do
    discard takeWhole
    if (← peek) = some '.' then
      discard take
      discard takeFraction
    discard takeExponent?

/-! ## 4. Separators -/

def takeColon : Reader Unit := do
  match ← peekToken with
  | some ':' => discard take
  | some _ => throw .malformed
  | none => throw .truncated

/-- Whether another element of an array follows; takes the comma before it. -/
def hasElement (first : Bool) : Reader Bool := do
  match ← peekToken with
  | none => throw .truncated
  | some ']' => return false
  | some c =>
    if first then return true
    else if c = ',' then
      discard take
      if (← peekValue) = ']' then throw .malformed else return true
    else throw .malformed

def endArray : Reader Unit := do
  match ← peekToken with
  | some ']' => discard take
  | some _ => throw .malformed
  | none => throw .truncated

/-- Whether another member of an object follows; takes the comma before it. -/
def hasMember (first : Bool) : Reader Bool := do
  match ← peekToken with
  | none => throw .truncated
  | some '}' => return false
  | some c =>
    if first then
      if c = '"' then return true else throw .malformed
    else if c = ',' then
      discard take
      if (← peekValue) = '"' then return true else throw .malformed
    else throw .malformed

def endObject : Reader Unit := do
  match ← peekToken with
  | some '}' => discard take
  | some _ => throw .malformed
  | none => throw .truncated

def endText : Reader Unit := do
  match ← peekToken with
  | some _ => throw .malformed
  | none => return

/-- Takes a value of another type than was to be read, as far as is needed to see which type it
has. -/
def mistyped {α : Type} : Reader α := do
  match ← peekValue with
  | 'n' => discard take; takeWord "ull".toList
  | 't' => discard take; takeWord "rue".toList
  | 'f' => discard take; takeWord "alse".toList
  | '-' => discard take; discard (takeNumber true)
  | '"' => discard take; discard takeString
  | '[' => return ← throw .mistyped
  | '{' => return ← throw .mistyped
  | c => if c.isDigit then discard (takeNumber false) else throw .malformed
  throw .mistyped

/-! ## 5. Skipping a value -/

/-- The brackets that nest values. -/
inductive Bracket where
  | array
  | object
  deriving DecidableEq

def skipKey : Bracket → Reader Unit
  | .array => return
  | .object => do
    match ← peekToken with
    | some '"' =>
      discard take
      skipString
      takeColon
    | some _ => throw .malformed
    | none => throw .truncated

/-- Skips a value without parts, or takes the bracket that opens one with parts. -/
def skipLeaf : Reader (Option Bracket) := do
  match ← peekValue with
  | 'n' => discard take; takeWord "ull".toList; return none
  | 't' => discard take; takeWord "rue".toList; return none
  | 'f' => discard take; takeWord "alse".toList; return none
  | '-' => discard take; skipNumber; return none
  | '"' => discard take; skipString; return none
  | '[' => discard take; return some .array
  | '{' => discard take; return some .object
  | c =>
    if c.isDigit then
      skipNumber
      return none
    else throw .malformed

def Bracket.closedBy : Bracket → Char → Bool
  | .array, c => c == ']'
  | .object, c => c == '}'

/-- Skips on inside the given brackets, the innermost one first. `opened` says that a bracket was
just opened, and else a value was just skipped. Each round takes a character. -/
def skipRest : (rounds : Nat) → (opened : Bool) → List Bracket → Reader Unit
  | _, _, [] => return
  | 0, _, _ => throw .malformed
  | n + 1, opened, bracket :: outer => do
    let value : Reader Unit := do
      skipKey bracket
      match ← skipLeaf with
      | some inner => skipRest n true (inner :: bracket :: outer)
      | none => skipRest n false (bracket :: outer)
    match ← peekToken with
    | none => throw .truncated
    | some c =>
      if bracket.closedBy c then
        discard take
        skipRest n false outer
      else if opened then value
      else if c = ',' then
        discard take
        value
      else throw .malformed

def skipValue : Reader Unit := do
  let rounds := (← get).length
  match ← skipLeaf with
  | some bracket => skipRest rounds true [bracket]
  | none => return

end TourMap.Json
