import Mathlib.Algebra.Order.Field.Power
import Mathlib.Tactic.LinearCombination
import TourMap.Proofs.Number.Interval
import TourMap.Proofs.Number.Rounding

/-!
# Value: what a binary number stands for

A finite number stands for a rational one (`Binary.Denotes`). An operation on finite numbers returns
the number nearest to the exact result, as long as that is not past the largest one; comparisons
and the cutting off of a fraction are exact.
-/

namespace TourMap.Binary

open Arithmetic

variable {f g : Format}

/-! ## 1. Values -/

/-- The value of a finite number, zero of any other. -/
def toRat {f : Format} : Binary f → Rat
  | .finite negative m e _ => if negative then -(m * rationalPow e) else m * rationalPow e
  | _ => 0

def isFinite : Binary f → Bool
  | .finite .. => true
  | _ => false

/-- Whether `x` is a finite number of the given value. -/
structure Denotes (x : Binary f) (q : Rat) : Prop where
  isFinite : x.isFinite = true
  toRat_eq : x.toRat = q

theorem toRat_finite {s : Bool} {m : Nat} {e : Int} (h : f.Holds m e) :
    (finite s m e h).toRat = signed s m * 2 ^ e := by
  have hpow : rationalPow e = 2 ^ e := exp2_rat e
  cases s <;> simp [toRat, signed, hpow]

theorem denotes_finite {s : Bool} {m : Nat} {e : Int} (h : f.Holds m e) :
    (finite s m e h).Denotes (signed s m * 2 ^ e) := ⟨rfl, toRat_finite h⟩

theorem denotes_toRat {x : Binary f} (h : x.isFinite = true) : x.Denotes x.toRat := ⟨h, rfl⟩

variable {x y : Binary f} {q r : Rat}

theorem Denotes.exists_finite (h : x.Denotes q) :
    ∃ s m e, ∃ hm : f.Holds m e, x = finite s m e hm ∧ q = signed s m * 2 ^ e := by
  obtain ⟨hfinite, hvalue⟩ := h
  cases x with
  | nan | infinity => cases hfinite
  | finite s m e hm => exact ⟨s, m, e, hm, rfl, hvalue ▸ toRat_finite hm⟩

theorem Denotes.eq (hq : x.Denotes q) (hr : x.Denotes r) : q = r :=
  hq.toRat_eq.symm.trans hr.toRat_eq

theorem cast_signed (s : Bool) (m : Nat) :
    ((signed s m : Int) : Rat) = if s then -(m : Rat) else m := by
  cases s <;> simp [signed]

theorem natAbs_signed (s : Bool) (m : Nat) : (signed s m).natAbs = m := by
  cases s <;> simp [signed]

theorem abs_signed (s : Bool) (m : Nat) : |((signed s m : Int) : Rat)| = m := by
  cases s <;> simp [signed]

theorem represents_signed {m : Nat} {e : Int} (s : Bool) (hm : m ≤ 2 ^ f.precision)
    (he : f.minExponent ≤ e) : f.Represents (signed s m * 2 ^ e) := by
  obtain ⟨d, hd⟩ := Int.eq_ofNat_of_zero_le (by omega : 0 ≤ e - f.minExponent)
  obtain rfl : e = d + f.minExponent := by omega
  refine ⟨m, d, hm, ?_⟩
  rw [abs_mul, abs_signed, abs_of_pos (zpow_pos two_pos _), zpow_add₀ two_ne_zero, zpow_natCast,
    Format.unit]
  ring

/-- The format has enough digits for its numbers. -/
theorem Denotes.represents (h : x.Denotes q) : f.Represents q := by
  obtain ⟨s, m, e, ⟨hm, hlow, -, -⟩, -, rfl⟩ := h.exists_finite
  rw [twoPow_eq] at hm
  exact represents_signed s hm.le hlow

theorem Denotes.abs_lt_limit (h : x.Denotes q) : |q| < f.limit := by
  obtain ⟨s, m, e, ⟨hm, -, hhigh, -⟩, -, rfl⟩ := h.exists_finite
  have hm' : (m : Rat) < 2 ^ f.precision := by
    rw [twoPow_eq] at hm
    exact_mod_cast hm
  rw [abs_mul, abs_signed, abs_of_pos (zpow_pos two_pos _), Format.limit, zpow_add₀ two_ne_zero,
    zpow_natCast]
  calc (m : Rat) * 2 ^ e < 2 ^ f.precision * 2 ^ e :=
        mul_lt_mul_of_pos_right hm' (zpow_pos two_pos _)
    _ ≤ 2 ^ f.precision * 2 ^ f.maxExponent :=
        mul_le_mul_of_nonneg_left (zpow_le_zpow_right₀ one_le_two hhigh) (by positivity)

/-! ## 2. What is not a number -/

theorem isNaN_eq_false_iff : isNaN x = false ↔ x ≠ .nan := by
  cases x with
  | nan => simp [isNaN, bne, BEq.beq, same]
  | infinity | finite => simp [isNaN, bne, BEq.beq, same]

theorem ne_nan_of_isFinite (h : x.isFinite = true) : x ≠ .nan := by
  rintro rfl
  cases h

theorem Denotes.isNaN_eq_false (h : x.Denotes q) : isNaN x = false :=
  isNaN_eq_false_iff.2 (ne_nan_of_isFinite h.isFinite)

theorem ofRatio_ne_nan (negative : Bool) (n d : Nat) (e : Int) :
    ofRatio f negative n d e ≠ .nan := by
  unfold ofRatio
  simp only
  split <;>
  · unfold ofMantissa
    split <;> exact nofun

theorem ofInt_ne_nan (n : Int) : (Arithmetic.ofInt n : Binary f) ≠ .nan := ofRatio_ne_nan _ _ _ _

theorem neg_ne_nan (h : x ≠ .nan) : -x ≠ .nan := by
  change Binary.neg x ≠ _
  cases x with
  | nan => exact (h rfl).elim
  | infinity | finite => exact nofun

/-- Only infinities of different signs have no sum. -/
theorem add_ne_nan (hx : x.isFinite = true) (hy : y ≠ .nan) : x + y ≠ .nan := by
  change Binary.add x y ≠ _
  cases x with
  | nan | infinity => cases hx
  | finite =>
    cases y with
    | nan => exact (hy rfl).elim
    | infinity => exact nofun
    | finite => exact ofRatio_ne_nan _ _ _ _

theorem sub_ne_nan (hx : x.isFinite = true) (hy : y ≠ .nan) : x - y ≠ .nan :=
  add_ne_nan hx (neg_ne_nan hy)

theorem mul_ne_nan (hx : x.isFinite = true) (hy : y.isFinite = true) : x * y ≠ .nan := by
  change Binary.mul x y ≠ _
  cases x with
  | nan | infinity => cases hx
  | finite =>
    cases y with
    | nan | infinity => cases hy
    | finite => exact ofRatio_ne_nan _ _ _ _

theorem div_ne_nan (hx : x ≠ .nan) (hy : y.Denotes q) (hq : q ≠ 0) : x / y ≠ .nan := by
  obtain ⟨s, m, e, hm, rfl, rfl⟩ := hy.exists_finite
  have hm' : m ≠ 0 := by
    rintro rfl
    cases s <;> simp [signed] at hq
  change Binary.div x _ ≠ _
  cases x with
  | nan => exact (hx rfl).elim
  | infinity => exact nofun
  | finite =>
    simp only [Binary.div, if_neg hm']
    exact ofRatio_ne_nan _ _ _ _

theorem convert_ne_nan (h : x ≠ .nan) : (convert x : Binary g) ≠ .nan := by
  cases x with
  | nan => exact (h rfl).elim
  | infinity => exact nofun
  | finite => exact ofRatio_ne_nan _ _ _ _

/-! ## 3. Rounded results -/

theorem denotes_ofMantissa {s : Bool} {m drop : Nat} (hm : m < twoPow f.precision)
    (hd : twoPow (f.precision - 1) ≤ m ∨ drop = 0)
    (hfit : (m * 2 ^ drop : Nat) * f.unit < f.limit) :
    (ofMantissa f s m drop hm hd).Denotes (signed s (m * 2 ^ drop : Nat) * f.unit) := by
  have hp := f.precision_pos
  have hle : f.minExponent + drop ≤ f.maxExponent := by
    -- Else there are dropped digits, so that the first digit counts and is past the limit.
    by_contra hgt
    have hdrop : drop ≠ 0 := by
      have := f.exponent_le
      omega
    have hm' : (2 : Rat) ^ (f.precision - 1) ≤ m := by
      have := hd.resolve_right hdrop
      rw [twoPow_eq] at this
      exact_mod_cast this
    have hexp : (2 : Rat) ^ (f.maxExponent + 1) ≤ 2 ^ drop * f.unit := by
      rw [Format.unit, ← zpow_natCast, ← zpow_add₀ two_ne_zero]
      exact zpow_le_zpow_right₀ one_le_two (by omega)
    have hlimit : f.limit = 2 ^ (f.precision - 1) * 2 ^ (f.maxExponent + 1) := by
      rw [Format.limit, ← zpow_natCast, ← zpow_add₀ two_ne_zero]
      congr 1
      omega
    have hle : (2 : Rat) ^ (f.precision - 1) * 2 ^ (f.maxExponent + 1) ≤
        m * (2 ^ drop * f.unit) := mul_le_mul hm' hexp (by positivity) (by positivity)
    push_cast at hfit
    rw [hlimit, mul_assoc] at hfit
    linarith
  unfold ofMantissa
  rw [dif_pos hle]
  convert denotes_finite (f := f) _ using 1
  rw [zpow_add₀ two_ne_zero, zpow_natCast, Format.unit]
  cases s <;> simp only [signed, Bool.false_eq_true, if_true, if_false] <;> push_cast <;> ring

/-- A rounded quotient is the number nearest to it, unless that is past the largest one. -/
theorem denotes_ofRatio (s : Bool) (n : Nat) {d : Nat} (hd : 0 < d) (e : Int)
    (hfit : |f.nearest (signed s n / d * 2 ^ e)| < f.limit) :
    (ofRatio f s n d e).Denotes (f.nearest (signed s n / d * 2 ^ e)) := by
  have hp := f.precision_pos
  have hunit := f.unit_pos
  -- The computation shifts the numerator or the denominator by the exponent, to count in units.
  obtain ⟨a, ha⟩ : ∃ a, a = n <<< (e - f.minExponent).toNat := ⟨_, rfl⟩
  obtain ⟨b, hb⟩ : ∃ b, b = d <<< (f.minExponent - e).toNat := ⟨_, rfl⟩
  have hbpos : 0 < b := by
    rw [hb, Nat.shiftLeft_eq]
    positivity
  have hquot : (a : Rat) / b = n / d * 2 ^ e / f.unit := by
    have hexp : (2 : Rat) ^ (e - f.minExponent).toNat * f.unit =
        2 ^ (f.minExponent - e).toNat * 2 ^ e := by
      rw [Format.unit, ← zpow_natCast, ← zpow_natCast, ← zpow_add₀ two_ne_zero,
        ← zpow_add₀ two_ne_zero]
      congr 1
      omega
    have hd' : (d : Rat) ≠ 0 := Nat.cast_ne_zero.2 hd.ne'
    rw [ha, hb, Nat.shiftLeft_eq, Nat.shiftLeft_eq]
    push_cast
    rw [div_eq_div_iff (by positivity) hunit.ne']
    field_simp
    linear_combination (n : Rat) * hexp
  have hfloor : ⌊(a : Rat) / b⌋₊ = a / b := Nat.floor_div_eq_div a b
  obtain ⟨drop, hdrop⟩ : ∃ drop, drop = excess f (a / b) := ⟨_, rfl⟩
  obtain ⟨m, hm⟩ : ∃ m, m = roundQuotient a (b <<< drop) := ⟨_, rfl⟩
  have hunits : f.roundUnits (n / d * 2 ^ e / f.unit) = m * 2 ^ drop := by
    rw [← hquot, Format.roundUnits, hfloor, ← hdrop, hm, roundQuotient_eq, Nat.shiftLeft_eq]
    · push_cast
      rw [div_div]
    · rw [Nat.shiftLeft_eq]
      positivity
  have hnearest : f.nearest (signed s n / d * 2 ^ e) = signed s (m * 2 ^ drop) * f.unit := by
    -- The sign takes no part in the rounding.
    have hpos : f.nearest (n / d * 2 ^ e) = (m * 2 ^ drop : Nat) * f.unit := by
      rw [f.nearest_of_nonneg (by positivity), hunits]
    cases s with
    | false =>
      rw [cast_signed, cast_signed]
      exact hpos
    | true =>
      rw [cast_signed, cast_signed, if_pos rfl, if_pos rfl, neg_div, neg_mul, Format.nearest_neg,
        hpos, neg_mul]
  have hfit' : ((m * 2 ^ drop : Nat) : Rat) * f.unit < f.limit := by
    rwa [hnearest, abs_mul, abs_signed, abs_of_pos hunit] at hfit
  rw [hnearest]
  unfold ofRatio
  simp only [← ha, ← hb, ← hdrop, ← hm]
  split
  · rename_i hcarry
    -- All digits were ones, and the last of them was rounded up.
    have hsame : m * 2 ^ drop = twoPow (f.precision - 1) * 2 ^ (drop + 1) := by
      rw [hcarry, twoPow_eq, twoPow_eq, ← Nat.pow_add, ← Nat.pow_add]
      congr 1
      omega
    rw [hsame] at hfit' ⊢
    exact denotes_ofMantissa _ _ hfit'
  · exact denotes_ofMantissa _ _ hfit'

/-! ## 4. Operations -/

section

variable (hx : x.Denotes q) (hy : y.Denotes r)

include hx in
theorem Denotes.neg : (-x).Denotes (-q) := by
  obtain ⟨s, m, e, hm, rfl, rfl⟩ := hx.exists_finite
  change (finite (!s) m e hm).Denotes _
  convert denotes_finite hm using 1
  cases s <;> simp [cast_signed]

/-- Two finite numbers with their digits at the same places. -/
theorem cast_scale {s : Bool} {m k : Nat} {e e' : Int} (hk : (k : Int) = e - e') :
    ((scale (signed s m) k : Int) : Rat) * 2 ^ e' = signed s m * 2 ^ e := by
  obtain rfl : e = k + e' := by omega
  rw [scale, twoPow_eq, zpow_add₀ two_ne_zero, zpow_natCast]
  push_cast
  ring

theorem cast_scale_toNat (s : Bool) (m : Nat) (e e' : Int) :
    ((scale (signed s m) (e - e').toNat : Int) : Rat) * 2 ^ (Min.min e e') = signed s m * 2 ^ e :=
  cast_scale (by omega)

theorem signed_natAbs (n : Int) (s : Bool) :
    signed (if n = 0 then s else decide (n < 0)) n.natAbs = n := by
  by_cases hzero : n = 0
  · subst hzero
    cases s <;> rfl
  · rw [if_neg hzero]
    rcases Int.lt_or_gt_of_ne hzero with hneg | hpos
    · rw [decide_eq_true hneg]
      change -(n.natAbs : Int) = n
      omega
    · rw [decide_eq_false (by omega)]
      change (n.natAbs : Int) = n
      omega

include hx hy in
theorem Denotes.add (hfit : |f.nearest (q + r)| < f.limit) :
    (x + y).Denotes (f.nearest (q + r)) := by
  obtain ⟨s, m, e, hm, rfl, rfl⟩ := hx.exists_finite
  obtain ⟨s', m', e', hm', rfl, rfl⟩ := hy.exists_finite
  -- The digits of both are shifted to the places of the lesser exponent, and added as integers.
  have hsum : (signed s m : Rat) * 2 ^ e + signed s' m' * 2 ^ e' =
      ((scale (signed s m) (e - e').toNat + scale (signed s' m') (e' - e).toNat : Int) : Rat) *
        2 ^ (Min.min e e') := by
    push_cast
    rw [add_mul, cast_scale_toNat, min_comm, cast_scale_toNat]
  rw [hsum] at hfit ⊢
  change (Binary.add (.finite s m e hm) (.finite s' m' e' hm')).Denotes _
  simp only [Binary.add]
  generalize scale (signed s m) (e - e').toNat + scale (signed s' m') (e' - e).toNat = sum at *
  have hvalue := signed_natAbs sum (s && s')
  have := denotes_ofRatio (f := f) (if sum = 0 then s && s' else decide (sum < 0)) sum.natAbs
    one_pos (Min.min e e')
  rw [hvalue, Nat.cast_one, div_one] at this
  exact this hfit

include hx hy in
theorem Denotes.sub (hfit : |f.nearest (q - r)| < f.limit) :
    (x - y).Denotes (f.nearest (q - r)) := by
  rw [sub_eq_add_neg] at hfit ⊢
  exact hx.add hy.neg hfit

theorem cast_signed_bne (s s' : Bool) (m m' : Nat) :
    ((signed (s != s') (m * m') : Int) : Rat) = signed s m * signed s' m' := by
  cases s <;> cases s' <;> simp [signed]

include hx hy in
theorem Denotes.mul (hfit : |f.nearest (q * r)| < f.limit) :
    (x * y).Denotes (f.nearest (q * r)) := by
  obtain ⟨s, m, e, hm, rfl, rfl⟩ := hx.exists_finite
  obtain ⟨s', m', e', hm', rfl, rfl⟩ := hy.exists_finite
  have hprod : (signed s m : Rat) * 2 ^ e * (signed s' m' * 2 ^ e') =
      signed (s != s') (m * m') / (1 : Nat) * 2 ^ (e + e') := by
    rw [cast_signed_bne, zpow_add₀ two_ne_zero]
    ring
  rw [hprod] at hfit ⊢
  exact denotes_ofRatio _ _ one_pos _ hfit

include hx hy in
theorem Denotes.div (hr : r ≠ 0) (hfit : |f.nearest (q / r)| < f.limit) :
    (x / y).Denotes (f.nearest (q / r)) := by
  obtain ⟨s, m, e, hm, rfl, rfl⟩ := hx.exists_finite
  obtain ⟨s', m', e', hm', rfl, rfl⟩ := hy.exists_finite
  have hne : m' ≠ 0 := by
    rintro rfl
    cases s' <;> simp [signed] at hr
  have hquot : (signed s m : Rat) * 2 ^ e / (signed s' m' * 2 ^ e') =
      signed (s != s') m / m' * 2 ^ (e - e') := by
    have hne' : (m' : Rat) ≠ 0 := Nat.cast_ne_zero.2 hne
    rw [zpow_sub₀ two_ne_zero]
    cases s <;> cases s' <;> simp only [cast_signed] <;> simp <;> field_simp
  rw [hquot] at hfit ⊢
  change (Binary.div (.finite s m e hm) (.finite s' m' e' hm')).Denotes _
  simp only [Binary.div, if_neg hne]
  exact denotes_ofRatio _ _ (Nat.pos_of_ne_zero hne) _ hfit

include hx in
theorem Denotes.convert (hfit : |g.nearest q| < g.limit) :
    (Binary.convert x : Binary g).Denotes (g.nearest q) := by
  obtain ⟨s, m, e, hm, rfl, rfl⟩ := hx.exists_finite
  have hself : (signed s m : Rat) * 2 ^ e = signed s m / (1 : Nat) * 2 ^ e := by simp
  rw [hself] at hfit ⊢
  exact denotes_ofRatio _ _ one_pos _ hfit

include hx hy in
theorem Denotes.lt_iff : x < y ↔ q < r := by
  obtain ⟨s, m, e, hm, rfl, rfl⟩ := hx.exists_finite
  obtain ⟨s', m', e', hm', rfl, rfl⟩ := hy.exists_finite
  change Binary.lt (.finite s m e hm) (.finite s' m' e' hm') = true ↔ _
  simp only [Binary.lt, decide_eq_true_eq]
  rw [← cast_scale_toNat s m e e', ← cast_scale_toNat s' m' e' e, min_comm e' e,
    mul_lt_mul_iff_left₀ (zpow_pos two_pos _), Int.cast_lt]

end

theorem trunc_signed_div (s : Bool) (m k : Nat) :
    Arithmetic.trunc (signed s m / 2 ^ k : Rat) = signed s (m / 2 ^ k) := by
  have hfloor : ⌊(m : Rat) / 2 ^ k⌋ = (m / 2 ^ k : Nat) := by
    have := Rat.floor_natCast_div_natCast m (2 ^ k)
    push_cast at this ⊢
    exact this
  have htrunc : Arithmetic.trunc ((m : Rat) / 2 ^ k) = (m / 2 ^ k : Nat) := by
    rw [trunc_of_nonneg (by positivity), hfloor]
    rfl
  cases s with
  | false =>
    rw [cast_signed, cast_signed]
    exact htrunc
  | true => rw [cast_signed, cast_signed, if_pos rfl, if_pos rfl, neg_div, trunc_neg, htrunc]

theorem cast_signed_mul (s : Bool) (m k : Nat) :
    ((signed s m * 2 ^ k : Int) : Rat) = signed s m * 2 ^ (k : Int) := by
  push_cast
  rw [zpow_natCast]

theorem cast_wholePart (s : Bool) (m : Nat) (e : Int) :
    ((signed s (wholePart m e) : Int) : Rat) = Arithmetic.trunc (signed s m * 2 ^ e : Rat) := by
  by_cases he : 0 ≤ e
  · -- There is no fraction.
    obtain ⟨k, rfl⟩ := Int.eq_ofNat_of_zero_le he
    rw [wholePart, if_pos he, Int.toNat_natCast, Nat.shiftLeft_eq, ← cast_signed_mul,
      trunc_intCast]
    cases s <;> simp [signed]
  · obtain ⟨k, hk⟩ := Int.eq_ofNat_of_zero_le (by omega : 0 ≤ -e)
    obtain rfl : e = -(k : Int) := by omega
    have hvalue : (signed s m : Rat) * 2 ^ (-(k : Int)) = signed s m / 2 ^ k := by
      rw [zpow_neg, zpow_natCast, div_eq_mul_inv]
    rw [wholePart, if_neg he, neg_neg, Int.toNat_natCast, Nat.shiftRight_eq_div_pow, hvalue,
      trunc_signed_div]

theorem wholePart_le {m : Nat} {e : Int} (he : ¬ 0 ≤ e) : wholePart m e ≤ m := by
  rw [wholePart, if_neg he, Nat.shiftRight_eq_div_pow]
  exact Nat.div_le_self _ _

/-- The cutting off of a fraction is exact. -/
theorem Denotes.trunc (hx : x.Denotes q) : (Arithmetic.trunc x).Denotes (Arithmetic.trunc q) := by
  obtain ⟨s, m, e, hm, rfl, rfl⟩ := hx.exists_finite
  have hwhole := cast_wholePart s m e
  change (Binary.trunc (.finite s m e hm)).Denotes _
  by_cases he : 0 ≤ e
  · -- There is no fraction.
    obtain ⟨k, rfl⟩ := Int.eq_ofNat_of_zero_le he
    simp only [Binary.trunc, if_pos he]
    rw [← cast_signed_mul, trunc_intCast, cast_signed_mul]
    exact hx
  · -- What is left has no more digits than before.
    have hself : f.nearest (signed s (wholePart m e) : Int) = (signed s (wholePart m e) : Int) := by
      apply Format.nearest_eq_self
      apply Format.represents_intCast (by have := hm.2.1; omega)
      have hdigits := hm.1
      rw [twoPow_eq] at hdigits
      rw [natAbs_signed]
      exact (wholePart_le he).trans hdigits.le
    have hsmall : |((signed s (wholePart m e) : Int) : Rat)| < f.limit := by
      rw [hwhole]
      exact (abs_trunc_le _).trans_lt hx.abs_lt_limit
    have hround := denotes_ofRatio (f := f) s (wholePart m e) one_pos 0
    simp only [Nat.cast_one, div_one, zpow_zero, mul_one, hself] at hround
    rw [← hwhole]
    simp only [Binary.trunc, if_neg he]
    exact hround hsmall

end TourMap.Binary
