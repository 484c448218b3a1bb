import TourMap.Number.Binary

/-!
# Arithmetic: the numbers a map is computed with

The geometry is written once, over any `Arithmetic`. A program runs it on `Double` and `Single`;
the rationals are a third instance, in which every operation is exact.

Besides the field operations an instance has a comparison, the integers, the powers of two and
the cutting off of a fraction; all other roundings are built from these here, with operations
that are exact in every instance.
-/

namespace TourMap

/-! ## 1. The class -/

/-- Numbers with rounded field operations, a decidable order and integral parts. The equality
`==` is that of the numbers: what is not a number is not equal to itself. -/
class Arithmetic (α : Type) extends Add α, Sub α, Mul α, Div α, Neg α, LT α, BEq α where
  decideLT (x y : α) : Decidable (x < y)
  ofInt : Int → α
  exp2 : Int → α
  /-- The number without its fraction. -/
  trunc : α → α
  /-- The integer left when the fraction is cut off, of a finite number. -/
  truncate? : α → Option Int

instance Arithmetic.instDecidableLT {α : Type} [Arithmetic α] : DecidableLT α := Arithmetic.decideLT

namespace Arithmetic

variable {α : Type} [Arithmetic α]

def half : α := exp2 (-1)

def isNaN (x : α) : Bool := x != x

def abs (x : α) : α := if x < ofInt 0 then -x else x

/-- `x` brought into the interval from `lo` to `hi`. -/
def clamp (x lo hi : α) : α := if x < lo then lo else if hi < x then hi else x

/-- The greater of two numbers, the second one if the first is not a number. -/
def max (x y : α) : α := if y < x then x else y

/-- The lesser of two numbers, the second one if the first is not a number. -/
def min (x y : α) : α := if x < y then x else y

/-- The greatest integer that is no more than `x`. -/
def floor (x : α) : α := if x < trunc x then trunc x - ofInt 1 else trunc x

/-- The integer nearest to `x`; a half goes away from zero. -/
def round (x : α) : α :=
  let whole := trunc x
  let rest := x - whole
  if rest < half then
    if -half < rest then whole else whole - ofInt 1
  else
    whole + ofInt 1

/-- The distance from the greatest integer that is no more than `x`, rounded. -/
def fract (x : α) : α :=
  let rest := x - trunc x
  if rest < ofInt 0 then rest + ofInt 1 else rest

/-- The integer left when the fraction is cut off, zero of what is not finite. -/
def toInt (x : α) : Int := (truncate? x).getD 0

end Arithmetic

/-! ## 2. Instances -/

instance Binary.instArithmetic {f : Format} : Arithmetic (Binary f) where
  add := Binary.add
  sub := Binary.sub
  mul := Binary.mul
  div := Binary.div
  neg := Binary.neg
  lt x y := Binary.lt x y = true
  beq := Binary.same
  decideLT x y := inferInstanceAs (Decidable (Binary.lt x y = true))
  ofInt := Binary.ofInt
  exp2 := Binary.exp2
  trunc := Binary.trunc
  truncate? := Binary.truncate?

def rationalPow (k : Int) : Rat :=
  if 0 ≤ k then Rat.ofInt (twoPow k.toNat) else mkRat 1 (twoPow (-k).toNat)

instance Arithmetic.instRational : Arithmetic Rat where
  add := Rat.add
  sub := Rat.sub
  mul := Rat.mul
  div := Rat.div
  neg := Rat.neg
  lt := Rat.instLT.lt
  beq x y := decide (x = y)
  decideLT := Rat.instDecidableLt
  ofInt := Rat.ofInt
  exp2 := rationalPow
  trunc x := Rat.ofInt (x.num.tdiv x.den)
  truncate? x := some (x.num.tdiv x.den)

/-! ## 3. Two precisions -/

/-- A wide kind of number for positions in the world and a narrow one for pixels. -/
class Resolution (W N : Type) where
  /-- The narrow number nearest to a wide one. -/
  narrow : W → N
  /-- A narrow number as a wide one, unchanged. -/
  widen : N → W

export Resolution (narrow widen)

instance Resolution.instDoubleSingle : Resolution Double Single where
  narrow := Binary.convert
  widen := Binary.convert

instance Resolution.instRational : Resolution Rat Rat where
  narrow := id
  widen := id

end TourMap
