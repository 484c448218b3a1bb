import TourMap.Number.Binary

/-!
# Fixed: the latitude functions in fixed point

On a Mercator map a latitude `φ` lies at the height `asinh (tan φ)`. That function and its
inverse `atan (sinh t)`, the Gudermannian, are computed here on integers that count units of
`2 ^ -96`, by series cut off below that unit, so that a rounded result is as near as a double can
be told from its neighbours.
-/

namespace TourMap.Fixed

/-! ## 1. Arithmetic on counts of the unit -/

/-- How many binary digits stand after the point. -/
def digits : Nat := 96

def one : Int := twoPow digits

/-- The product, rounded down. -/
def mul (x y : Int) : Int := (x * y) >>> digits

/-- The quotient, rounded down. -/
def div (x y : Int) : Int := (x * one).fdiv y

/-- The value of `m * 2 ^ e`, rounded down. -/
def ofScaled (m e : Int) : Int :=
  let shift := e + digits
  if 0 ≤ shift then Binary.scale m shift.toNat else m >>> (-shift).toNat

/-- The ratio of a circle's circumference to its diameter. -/
def pi : Int := 248902613312231085230521944622

def log2 : Int := 54916777467707473351141471128

/-! ## 2. Series -/

/-- `1 - y / (k (k + 1)) * (1 - y / ((k + 2) (k + 3)) * …)`, with so many factors. -/
def factorialSeries (y : Int) : (k factors : Nat) → Int
  | _, 0 => one
  | k, n + 1 => one - mul y (factorialSeries y (k + 2) n) / ((k * (k + 1) : Nat) : Int)

/-- `1 / k + y * (1 / (k + 2) + y * …)`, with so many terms. -/
def oddSeries (y : Int) : (k terms : Nat) → Int
  | _, 0 => 0
  | k, n + 1 => one / (k : Int) + mul y (oddSeries y (k + 2) n)

/-- `1 + x / k * (1 + x / (k + 1) * …)`, with so many factors. -/
def exponentialSeries (x : Int) : (k factors : Nat) → Int
  | _, 0 => one
  | k, n + 1 => one + mul x (exponentialSeries x (k + 1) n) / (k : Int)

/-- The tangent of an angle of at most three quarters. -/
def tan (x : Int) : Int :=
  let square := mul x x
  div (mul x (factorialSeries square 2 14)) (factorialSeries square 1 14)

/-- The logarithm of a positive number, from that of the quotient by a power of two that lies
between two thirds and four thirds. -/
def log (z : Int) : Int :=
  let high : Int := z.toNat.log2 - digits
  let power := if ofScaled z (-high - digits) * 3 ≤ one * 4 then high else high + 1
  let near := ofScaled z (-power - digits)
  let ratio := div (near - one) (near + one)
  power * log2 + 2 * mul ratio (oddSeries (mul ratio ratio) 1 22)

/-- The exponential of a number that is not positive. -/
def exp (x : Int) : Int :=
  let power := x.fdiv log2
  ofScaled (exponentialSeries (x - power * log2) 1 26) (power - digits)

/-- The angle between zero and an eighth of a turn with the given tangent. -/
def atan (u : Int) : Int :=
  if u * 5 ≤ one * 2 then
    mul u (oddSeries (-mul u u) 1 40)
  else
    let v := div (u - one) (u + one)
    pi / 4 + mul v (oddSeries (-mul v v) 1 40)

/-! ## 3. The Gudermannian and its inverse -/

/-- `f` carried over to the negative numbers as an odd function. -/
def odd (f : Int → Int) (x : Int) : Int := if x < 0 then -f (-x) else f x

/-- The greatest angle that `heightOfLatitude` tells from smaller ones. -/
def maxAngle : Int := one * 3 / 2

/-- The greatest height that `latitudeOfHeight` tells from smaller ones: the latitude there is a
right angle to 90 binary digits. -/
def maxHeight : Int := one * 64

/-- `asinh (tan φ)`, from the tangent of half the angle. -/
def heightOfLatitude : Int → Int :=
  odd fun angle =>
    let t := tan (min angle maxAngle / 2)
    log (div (one + t) (one - t))

/-- `atan (sinh t)`, as a right angle less twice the angle with the tangent `exp (-t)`. -/
def latitudeOfHeight : Int → Int :=
  odd fun height => pi / 2 - 2 * atan (exp (-min height maxHeight))

end TourMap.Fixed
