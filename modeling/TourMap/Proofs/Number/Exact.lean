import TourMap.Proofs.Number.Value

/-!
# Exact: numbers that are never rounded

Besides the rationals `Exact` has the infinities and what is not a number, so that each number of a
format is one of them (`Exact.ofBinary`). Of rationals all sums, products and quotients are exact;
the other numbers are computed with as in a format.
-/

namespace TourMap

inductive Exact where
  | nan
  | infinity (negative : Bool)
  | finite (q : Rat)
  deriving DecidableEq

namespace Exact

/-! ## 1. Operations -/

def ofBinary {f : Format} : Binary f → Exact
  | .nan => .nan
  | .infinity negative => .infinity negative
  | .finite negative m e h => .finite (Binary.finite negative m e h).toRat

def isNegative : Exact → Bool
  | .nan => false
  | .infinity negative => negative
  | .finite q => decide (q < 0)

def isZero : Exact → Bool
  | .finite q => decide (q = 0)
  | _ => false

def neg : Exact → Exact
  | .nan => .nan
  | .infinity negative => .infinity !negative
  | .finite q => .finite (-q)

/-- Whether `x` is below `y`. What is not a number is below nothing and above nothing. -/
def lt : Exact → Exact → Bool
  | .finite a, .finite b => decide (a < b)
  | .finite _, .infinity negative => !negative
  | .infinity negative, .finite _ => negative
  | .infinity negative, .infinity negative' => negative && !negative'
  | .nan, _ => false
  | _, .nan => false

/-- Whether `x` and `y` are the same number. What is not a number differs from itself. -/
def same (x y : Exact) : Bool := x != .nan && x == y

def add : Exact → Exact → Exact
  | .finite a, .finite b => .finite (a + b)
  | .finite _, .infinity negative => .infinity negative
  | .infinity negative, .finite _ => .infinity negative
  | .infinity negative, .infinity negative' =>
    if negative = negative' then .infinity negative else .nan
  | .nan, _ => .nan
  | _, .nan => .nan

def sub (x y : Exact) : Exact := add x (neg y)

def mul : Exact → Exact → Exact
  | .nan, _ => .nan
  | _, .nan => .nan
  | .finite a, .finite b => .finite (a * b)
  | x, y => if x.isZero || y.isZero then .nan else .infinity (x.isNegative != y.isNegative)

/-- The quotient. There is one zero only; a number divided by it is an infinity of its sign. -/
def div : Exact → Exact → Exact
  | .nan, _ => .nan
  | _, .nan => .nan
  | .infinity _, .infinity _ => .nan
  | .infinity negative, .finite b => .infinity (negative != decide (b < 0))
  | .finite _, .infinity _ => .finite 0
  | .finite a, .finite b =>
    if b = 0 then if a = 0 then .nan else .infinity (decide (a < 0)) else .finite (a / b)

def trunc : Exact → Exact
  | .finite q => .finite (Arithmetic.trunc q)
  | x => x

def truncate? : Exact → Option Int
  | .finite q => Arithmetic.truncate? q
  | _ => none

instance instArithmetic : Arithmetic Exact where
  add := add
  sub := sub
  mul := mul
  div := div
  neg := neg
  lt x y := lt x y = true
  beq := same
  decideLT x y := inferInstanceAs (Decidable (lt x y = true))
  ofInt n := .finite (Arithmetic.ofInt n)
  exp2 k := .finite (Arithmetic.exp2 k)
  trunc := trunc
  truncate? := truncate?

/-! ## 2. Finite numbers -/

variable {a b : Rat}

@[simp] theorem finite_lt_finite : finite a < finite b ↔ a < b := decide_eq_true_iff

@[simp] theorem finite_add_finite : finite a + finite b = finite (a + b) := rfl

@[simp] theorem finite_sub_finite : finite a - finite b = finite (a - b) :=
  congrArg finite (sub_eq_add_neg a b).symm

@[simp] theorem finite_mul_finite : finite a * finite b = finite (a * b) := rfl

theorem finite_div_finite (h : b ≠ 0) : finite a / finite b = finite (a / b) := if_neg h

@[simp] theorem nan_add (x : Exact) : nan + x = nan := rfl

theorem exists_finite_of_isFinite {f : Format} {x : Binary f} (h : x.isFinite = true) :
    ∃ q, ofBinary x = finite q := by
  cases x with
  | nan => cases h
  | infinity => cases h
  | finite => exact ⟨_, rfl⟩

end Exact

/-- Pixels of single precision, with which nothing is rounded any more. -/
instance Resolution.instDoubleExact : Resolution Double Exact where
  narrow x := .ofBinary (narrow x : Single)
  widen
    | .nan => .nan
    | .infinity negative => .infinity negative
    | .finite q => .ofRatio double (decide (q < 0)) q.num.natAbs q.den 0

end TourMap
