/-!
# Binary: floating-point numbers of a given precision

A `Format` is a precision and a range of exponents; `Binary f` holds its finite numbers
`± m * 2 ^ e`, the two infinities and one value that is not a number. A finite number is kept in
one form only (`Format.Holds`), so equal numbers are equal terms, but for zero: there are two
zeros, which differ in their sign alone and are the same number (`Binary.same`).

Every operation computes the exact result and rounds it once, to the nearest number of the
format, a half going to the even neighbour (`Binary.ofRatio`). The largest magnitude that a
format holds is followed by an infinity. A result that is zero, or is rounded to zero, has a sign
like any other, which a division by it shows.
-/

namespace TourMap

/-! ## 1. Rounding a quotient -/

/-- The integer nearest to `a / b`; a half goes to the even neighbour. -/
def roundQuotient (a b : Nat) : Nat :=
  let q := a / b
  let twice := 2 * (a % b)
  if twice < b ∨ (twice = b ∧ q % 2 = 0) then q else q + 1

/-- An integer that is no less than the quotient is no less than the rounded quotient. -/
theorem roundQuotient_le {a b c : Nat} (h : a ≤ c * b) (hb : 0 < b) : roundQuotient a b ≤ c := by
  have hq : a / b ≤ c := Nat.div_le_of_le_mul (by rw [Nat.mul_comm]; exact h)
  unfold roundQuotient
  simp only
  split
  · exact hq
  · rename_i hbig
    refine Nat.succ_le_of_lt (Nat.lt_of_le_of_ne hq fun heq => hbig (Or.inl ?_))
    have hmod := Nat.div_add_mod a b
    have hle : a ≤ b * (a / b) := by rw [heq, Nat.mul_comm]; exact h
    omega

/-- An integer that is no more than the quotient is no more than the rounded quotient. -/
theorem le_roundQuotient {a b c : Nat} (h : c * b ≤ a) (hb : 0 < b) : c ≤ roundQuotient a b := by
  have hq : c ≤ a / b := (Nat.le_div_iff_mul_le hb).2 h
  unfold roundQuotient
  simp only
  split <;> omega

/-! ## 2. Powers of two -/

def twoPow (n : Nat) : Nat := 1 <<< n

theorem shiftLeft_eq_mul_twoPow (a n : Nat) : a <<< n = a * twoPow n := by
  rw [twoPow, Nat.shiftLeft_eq, Nat.shiftLeft_eq, Nat.one_mul]

theorem twoPow_pos (n : Nat) : 0 < twoPow n := by
  rw [twoPow, Nat.shiftLeft_eq, Nat.one_mul]
  exact Nat.two_pow_pos n

theorem twoPow_add (m n : Nat) : twoPow (m + n) = twoPow m * twoPow n := by
  simp only [twoPow, Nat.shiftLeft_eq, Nat.one_mul]
  exact Nat.pow_add _ m n

theorem twoPow_le_twoPow {m n : Nat} (h : m ≤ n) : twoPow m ≤ twoPow n := by
  simp only [twoPow, Nat.shiftLeft_eq, Nat.one_mul]
  exact Nat.pow_le_pow_right (by decide) h

theorem twoPow_lt_twoPow {m n : Nat} (h : m < n) : twoPow m < twoPow n := by
  simp only [twoPow, Nat.shiftLeft_eq, Nat.one_mul]
  exact Nat.pow_lt_pow_right (by decide) h

theorem twoPow_log2_le {n : Nat} (h : n ≠ 0) : twoPow n.log2 ≤ n := by
  rw [twoPow, Nat.shiftLeft_eq, Nat.one_mul]
  exact Nat.log2_self_le h

theorem lt_twoPow_log2 (n : Nat) : n < twoPow (n.log2 + 1) := by
  rw [twoPow, Nat.shiftLeft_eq, Nat.one_mul]
  exact Nat.lt_log2_self

/-! ## 3. Formats -/

/-- A binary floating-point format: the numbers `m * 2 ^ e` with fewer than `precision + 1`
binary digits in `m` and `e` between the two exponents. -/
structure Format where
  precision : Nat
  minExponent : Int
  maxExponent : Int
  precision_pos : 0 < precision := by decide
  exponent_le : minExponent ≤ maxExponent := by decide

/-- Numbers of 24 binary digits, for pixels. -/
def single : Format where
  precision := 24
  minExponent := -149
  maxExponent := 104

/-- Numbers of 53 binary digits, for degrees and Mercator coordinates. -/
def double : Format where
  precision := 53
  minExponent := -1074
  maxExponent := 971

/-- The one form in which the magnitude of a finite number is kept: all the digits are used,
unless the exponent is the least one. -/
def Format.Holds (f : Format) (m : Nat) (e : Int) : Prop :=
  m < twoPow f.precision ∧ f.minExponent ≤ e ∧ e ≤ f.maxExponent ∧
    (twoPow (f.precision - 1) ≤ m ∨ e = f.minExponent)

theorem Format.holds_zero (f : Format) : f.Holds 0 f.minExponent :=
  ⟨twoPow_pos _, Int.le_refl _, f.exponent_le, Or.inr rfl⟩

inductive Binary (f : Format) where
  | nan
  | infinity (negative : Bool)
  | finite (negative : Bool) (mantissa : Nat) (exponent : Int) (holds : f.Holds mantissa exponent)
  deriving DecidableEq

/-- The numbers of 24 binary digits. -/
abbrev Single := Binary single

/-- The numbers of 53 binary digits. -/
abbrev Double := Binary double

namespace Binary

variable {f g : Format}

/-- The zero of a sign. -/
def zero (negative : Bool) : Binary f := .finite negative 0 f.minExponent f.holds_zero

instance instInhabited : Inhabited (Binary f) := ⟨zero false⟩

/-! ## 4. Rounding to a format -/

/-- The number `± m * 2 ^ (minExponent + drop)`, or an infinity past the largest exponent. -/
def ofMantissa (f : Format) (negative : Bool) (m drop : Nat) (hm : m < twoPow f.precision)
    (hd : twoPow (f.precision - 1) ≤ m ∨ drop = 0) : Binary f :=
  if he : f.minExponent + drop ≤ f.maxExponent then
    .finite negative m (f.minExponent + drop) (by unfold Format.Holds; omega)
  else
    .infinity negative

/-- How many binary digits of the integer `n` do not fit into the precision. -/
def excess (f : Format) (n : Nat) : Nat := n.log2 + 1 - f.precision

theorem roundQuotient_excess_le (f : Format) (a b : Nat) :
    roundQuotient a (b <<< excess f (a / b)) ≤ twoPow f.precision := by
  rw [shiftLeft_eq_mul_twoPow]
  by_cases hb : b = 0
  · subst hb
    have := twoPow_pos f.precision
    simp only [roundQuotient, Nat.zero_mul, Nat.div_zero, Nat.mod_zero]
    split <;> omega
  · have hpos : 0 < b := Nat.pos_of_ne_zero hb
    refine roundQuotient_le ?_ (Nat.mul_pos hpos (twoPow_pos _))
    have hlt : a < b * twoPow ((a / b).log2 + 1) := by
      rw [Nat.mul_comm]
      exact (Nat.div_lt_iff_lt_mul hpos).1 (lt_twoPow_log2 (a / b))
    refine Nat.le_of_lt (Nat.lt_of_lt_of_le hlt ?_)
    rw [Nat.mul_left_comm, ← twoPow_add]
    exact Nat.mul_le_mul_left _ (twoPow_le_twoPow (by unfold excess; omega))

theorem le_roundQuotient_excess (f : Format) (a b : Nat) (h : excess f (a / b) ≠ 0) :
    twoPow (f.precision - 1) ≤ roundQuotient a (b <<< excess f (a / b)) := by
  have hp := f.precision_pos
  rw [shiftLeft_eq_mul_twoPow]
  have hq : a / b ≠ 0 := by
    intro h0
    simp [h0, excess] at h
    omega
  have hpos : 0 < b := Nat.pos_of_ne_zero fun hb => hq (by simp [hb])
  refine le_roundQuotient ?_ (Nat.mul_pos hpos (twoPow_pos _))
  have hle : twoPow (a / b).log2 * b ≤ a :=
    (Nat.le_div_iff_mul_le hpos).1 (twoPow_log2_le hq)
  refine Nat.le_trans (Nat.le_of_eq ?_) hle
  rw [Nat.mul_left_comm, ← twoPow_add, Nat.mul_comm b]
  congr 2
  unfold excess at *
  omega

/-- The number nearest to `n / d * 2 ^ e` with a minus sign if asked for; a half goes to the
neighbour with the even last digit. The quotient is measured in the least unit of the format, and as many
low digits are rounded off as the precision asks for. -/
def ofRatio (f : Format) (negative : Bool) (n d : Nat) (e : Int) : Binary f :=
  let a := n <<< (e - f.minExponent).toNat
  let b := d <<< (f.minExponent - e).toNat
  let drop := excess f (a / b)
  let m := roundQuotient a (b <<< drop)
  if h : m = twoPow f.precision then
    ofMantissa f negative (twoPow (f.precision - 1)) (drop + 1)
      (twoPow_lt_twoPow (by have := f.precision_pos; omega))
      (Or.inl (Nat.le_refl _))
  else
    ofMantissa f negative m drop
      (Nat.lt_of_le_of_ne (roundQuotient_excess_le f a b) h)
      (Decidable.or_iff_not_imp_right.2 fun hd => le_roundQuotient_excess f a b hd)

/-- The number nearest to `m * 2 ^ e`. -/
def ofScaled (f : Format) (m e : Int) : Binary f :=
  ofRatio f (decide (m < 0)) m.natAbs 1 e

def ofInt (n : Int) : Binary f := ofScaled f n 0

/-- The number nearest to `2 ^ k`: zero below the least unit, an infinity past the largest
number. -/
def exp2 (k : Int) : Binary f :=
  if k < f.minExponent then zero false
  else if f.maxExponent + f.precision < k then .infinity false
  else ofRatio f false 1 1 k

def convert : Binary f → Binary g
  | .nan => .nan
  | .infinity negative => .infinity negative
  | .finite negative m e _ => ofRatio g negative m 1 e

/-! ## 5. Signs and comparisons -/

def isNegative : Binary f → Bool
  | .nan => false
  | .infinity negative => negative
  | .finite negative _ _ _ => negative

def isZero : Binary f → Bool
  | .finite _ m _ _ => m == 0
  | _ => false

def neg : Binary f → Binary f
  | .nan => .nan
  | .infinity negative => .infinity !negative
  | .finite negative m e h => .finite (!negative) m e h

/-- The integer of magnitude `m` with the given sign. -/
def signed (negative : Bool) (m : Nat) : Int := if negative then -(m : Int) else m

/-- The integer `m * 2 ^ k`. -/
def scale (m : Int) (k : Nat) : Int := m * (twoPow k : Int)

/-- Whether `x` is below `y`. What is not a number is below nothing and above nothing. -/
def lt : Binary f → Binary f → Bool
  | .finite s m e _, .finite s' m' e' _ =>
    decide (scale (signed s m) (e - e').toNat < scale (signed s' m') (e' - e).toNat)
  | .finite .., .infinity negative => !negative
  | .infinity negative, .finite .. => negative
  | .infinity negative, .infinity negative' => negative && !negative'
  | .nan, _ => false
  | _, .nan => false

/-- Whether `x` and `y` are the same number. What is not a number differs from itself. -/
def same : Binary f → Binary f → Bool
  | .finite s m e _, .finite s' m' e' _ => signed s m == signed s' m' && e == e'
  | .infinity negative, .infinity negative' => negative == negative'
  | _, _ => false

/-! ## 6. Arithmetic -/

/-- The rounded sum. A sum of zero has a minus sign only if both numbers have one. Infinities of
different signs have no sum. -/
def add : Binary f → Binary f → Binary f
  | .finite s m e _, .finite s' m' e' _ =>
    let sum := scale (signed s m) (e - e').toNat + scale (signed s' m') (e' - e).toNat
    ofRatio f (if sum = 0 then s && s' else decide (sum < 0)) sum.natAbs 1 (min e e')
  | .finite .., .infinity negative => .infinity negative
  | .infinity negative, .finite .. => .infinity negative
  | .infinity negative, .infinity negative' =>
    if negative = negative' then .infinity negative else .nan
  | .nan, _ => .nan
  | _, .nan => .nan

def sub (x y : Binary f) : Binary f := add x (neg y)

/-- The rounded product. Zero times an infinity is not a number. -/
def mul : Binary f → Binary f → Binary f
  | .nan, _ => .nan
  | _, .nan => .nan
  | .finite s m e _, .finite s' m' e' _ => ofRatio f (s != s') (m * m') 1 (e + e')
  | x, y => if x.isZero || y.isZero then .nan else .infinity (x.isNegative != y.isNegative)

/-- The rounded quotient. Zero by zero and infinity by infinity are not numbers; any other
number by zero is an infinity, and by an infinity a zero. -/
def div : Binary f → Binary f → Binary f
  | .nan, _ => .nan
  | _, .nan => .nan
  | .infinity _, .infinity _ => .nan
  | .infinity s, .finite s' _ _ _ => .infinity (s != s')
  | .finite s _ _ _, .infinity s' => zero (s != s')
  | .finite s m e _, .finite s' m' e' _ =>
    if m' = 0 then
      if m = 0 then .nan else .infinity (s != s')
    else
      ofRatio f (s != s') m m' (e - e')

/-! ## 7. Integral parts -/

/-- The magnitude `m * 2 ^ e` without its fraction. -/
def wholePart (m : Nat) (e : Int) : Nat := if 0 ≤ e then m <<< e.toNat else m >>> (-e).toNat

/-- The integer got by cutting off the fraction, if the number is finite. -/
def truncate? : Binary f → Option Int
  | .finite negative m e _ => some (signed negative (wholePart m e))
  | _ => none

/-- The number without its fraction; its sign stays. -/
def trunc (x : Binary f) : Binary f :=
  match x with
  | .finite negative m e _ => if 0 ≤ e then x else ofRatio f negative (wholePart m e) 1 0
  | _ => x

end Binary

end TourMap
