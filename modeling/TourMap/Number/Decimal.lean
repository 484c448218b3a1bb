import TourMap.Number.Binary

/-!
# Decimal: numbers from decimal digits

`Binary.ofDecimal` is the number nearest to an integer times a power of ten. `Binary.ofText?`
reads the usual notation: an optional sign, digits with at most one point, an optional exponent;
or the name of an infinity or of what is not a number, in any case of letters. No blank is
allowed and nothing may follow.
-/

namespace TourMap

def tenPow (n : Nat) : Nat := Nat.pow 10 n

namespace Binary

variable (f : Format)

/-- The number nearest to `digits * 10 ^ exponent` with a minus sign if asked for. Too great an
exponent gives an infinity and too low a one zero, before any power is computed. -/
def ofDecimal (negative : Bool) (digits : Nat) (exponent : Int) : Binary f :=
  if digits = 0 then zero negative
  else if f.maxExponent + f.precision < exponent then .infinity negative
  else if digits.log2 + 1 + 3 * exponent < f.minExponent - 1 then zero negative
  else if 0 ≤ exponent then ofRatio f negative (digits * tenPow exponent.toNat) 1 0
  else ofRatio f negative digits (tenPow (-exponent).toNat) 0

end Binary

/-! ## Reading -/

namespace DecimalText

/-- The number made by another digit after those of `n`. -/
def appendDigit (n : Nat) (c : Char) : Nat := n * 10 + (c.toNat - '0'.toNat)

/-- Digits that were read from the left, with the value `high * scale + low`. -/
structure DigitSum where
  high : Nat
  low : Nat
  scale : Nat

namespace DigitSum

def value (s : DigitSum) : Nat := s.high * s.scale + s.low

def maxScale : Nat := tenPow 500

/-- Goes on with a digit. The digits enter `high` in blocks, so that few of the sums are long. -/
def add (s : DigitSum) (c : Char) : DigitSum :=
  let next : DigitSum := ⟨s.high, appendDigit s.low c, s.scale * 10⟩
  if next.scale < maxScale then next else ⟨next.value, 0, 1⟩

theorem value_add (s : DigitSum) (c : Char) : (s.add c).value = appendDigit s.value c := by
  unfold add
  simp only
  split <;> simp only [value, appendDigit, ← Nat.mul_assoc] <;> omega

end DigitSum

def valueOf (digits : List Char) : Nat := (digits.foldl DigitSum.add ⟨0, 0, 1⟩).value

theorem valueOf_eq_foldl (digits : List Char) : valueOf digits = digits.foldl appendDigit 0 := by
  have go (s : DigitSum) : (digits.foldl DigitSum.add s).value = digits.foldl appendDigit s.value := by
    induction digits generalizing s with
    | nil => rfl
    | cons c rest ih => rw [List.foldl_cons, List.foldl_cons, ih, DigitSum.value_add]
  exact go ⟨0, 0, 1⟩

/-- An optional sign: whether it is a minus, and what follows. -/
def splitSign : List Char → Bool × List Char
  | '-' :: rest => (true, rest)
  | '+' :: rest => (false, rest)
  | rest => (false, rest)

/-- A nonempty list of digits with an optional sign before it, and nothing after it: whether the
sign is a minus, and the digits. -/
def signedDigits? (text : List Char) : Option (Bool × List Char) :=
  let (negative, digits) := splitSign text
  if digits.isEmpty || !digits.all Char.isDigit then none else some (negative, digits)

def integer? (text : List Char) : Option Int :=
  (signedDigits? text).map fun (negative, digits) => Binary.signed negative (valueOf digits)

/-- The value of the digits of an exponent. Once it has come to `2 ^ 16`, the digits that are left
count for nothing. -/
def exponentOf (digits : List Char) : Nat :=
  digits.foldl (fun n c => if n < 65536 then appendDigit n c else n) 0

/-- The exponent that follows the digits: zero if there is none. -/
def exponent? : List Char → Option Int
  | [] => some 0
  | letter :: rest =>
    if letter = 'e' ∨ letter = 'E' then
      (signedDigits? rest).map fun (negative, digits) => Binary.signed negative (exponentOf digits)
    else
      none

/-- Digits with an optional point and an optional exponent: the integer that the digits make and
the power of ten to multiply it by. At least one digit stands before the exponent. -/
def decimal? (text : List Char) : Option (Nat × Int) :=
  let whole := text.takeWhile Char.isDigit
  let (fraction, rest) :=
    match text.dropWhile Char.isDigit with
    | '.' :: rest => (rest.takeWhile Char.isDigit, rest.dropWhile Char.isDigit)
    | rest => ([], rest)
  if whole.isEmpty && fraction.isEmpty then none
  else (exponent? rest).map fun e => (valueOf (whole ++ fraction), e - fraction.length)

end DecimalText

/-- The number that a text denotes, if it denotes one. -/
def Binary.ofText? (f : Format) (text : List Char) : Option (Binary f) :=
  let (negative, rest) := DecimalText.splitSign text
  let name := rest.map Char.toLower
  if name = "inf".toList ∨ name = "infinity".toList then some (.infinity negative)
  else if name = "nan".toList then some .nan
  else (DecimalText.decimal? rest).map fun (digits, e) => ofDecimal f negative digits e

end TourMap
