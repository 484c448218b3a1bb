import TourMap.Proofs.Number.Magnitude

/-!
# Absorption: sums with a number that is too large to tell

The digits of a large number stand for large amounts. A number that is less than a quarter of the last
of them is lost when it is added: the sum is rounded to the large number itself.
-/

namespace TourMap

/-! ## 1. Rounding -/

theorem roundEven_add {n : Nat} {r : Rat} (h : |r| < 1 / 2) : roundEven (n + r) = n := by
  obtain ⟨hlow, hhigh⟩ := abs_lt.1 h
  rcases le_or_gt 0 r with hr | hr
  · have hfloor : ⌊(n : Rat) + r⌋₊ = n := by
      rw [Nat.floor_eq_iff (by positivity)]
      constructor <;> linarith
    unfold roundEven
    rw [hfloor, if_pos (.inl (by linarith))]
  · cases n with
    | zero =>
      have hfloor : ⌊((0 : Nat) : Rat) + r⌋₊ = 0 := Nat.floor_of_nonpos (by push_cast; linarith)
      unfold roundEven
      rw [hfloor, if_pos (.inl (by push_cast; linarith))]
    | succ n =>
      have hfloor : ⌊((n + 1 : Nat) : Rat) + r⌋₊ = n := by
        have hn : (0 : Rat) ≤ n := Nat.cast_nonneg n
        rw [Nat.floor_eq_iff (by push_cast; linarith)]
        push_cast
        constructor <;> linarith
      unfold roundEven
      rw [hfloor, if_neg]
      push_cast
      rintro (hless | ⟨hhalf, -⟩) <;> linarith

namespace Format

variable {f : Format} {m d : Nat} {c r : Rat}

/-- Less than a quarter of the last digit is rounded off, and even below a power of two, where the
digits count half as much, less than half of it. -/
theorem roundUnits_add (hlow : 2 ^ (f.precision - 1) ≤ m) (hhigh : m < 2 ^ f.precision)
    (hr : |r| < 2 ^ d / 4) : f.roundUnits (m * 2 ^ d + r) = m * 2 ^ d := by
  have hp := f.precision_pos
  obtain ⟨hneg, hpos⟩ := abs_lt.1 hr
  have hd : (0 : Rat) < 2 ^ d := by positivity
  have hone : (1 : Rat) ≤ 2 ^ (f.precision - 1) := one_le_pow₀ one_le_two
  have hlow' : (2 : Rat) ^ (f.precision - 1) ≤ m := by exact_mod_cast hlow
  have hhigh' : (m : Rat) + 1 ≤ 2 ^ f.precision := by exact_mod_cast hhigh
  have hm : (2 : Rat) ^ (f.precision - 1) * 2 ^ d ≤ m * 2 ^ d :=
    mul_le_mul_of_nonneg_right hlow' hd.le
  have hm' : ((m : Rat) + 1) * 2 ^ d ≤ 2 ^ f.precision * 2 ^ d :=
    mul_le_mul_of_nonneg_right hhigh' hd.le
  have hunit : (1 : Rat) * 2 ^ d ≤ 2 ^ (f.precision - 1) * 2 ^ d :=
    mul_le_mul_of_nonneg_right hone hd.le
  have hsum : (0 : Rat) ≤ m * 2 ^ d + r := by linarith
  have hdigits := lt_two_pow_excess f (m * 2 ^ d + r)
  have hfirst := two_pow_excess_le f hsum
  unfold roundUnits
  generalize Binary.excess f ⌊(m : Rat) * 2 ^ d + r⌋₊ = drop at hdigits hfirst ⊢
  have hle : drop ≤ d := by
    by_contra hgt
    have hpow : (2 : Rat) ^ (f.precision + d) ≤ 2 ^ (f.precision - 1 + drop) :=
      pow_le_pow_right₀ one_le_two (by omega)
    have := hfirst (by omega)
    rw [pow_add] at hpow
    linarith
  have hge : d ≤ drop + 1 := by
    by_contra hlt
    have hpow : (2 : Rat) ^ (f.precision + drop) * 2 ≤ 2 ^ (f.precision - 1 + d) := by
      rw [← pow_succ]
      exact pow_le_pow_right₀ one_le_two (by omega)
    rw [pow_add] at hpow
    rw [pow_add _ (f.precision - 1)] at hpow
    rw [pow_add] at hdigits
    linarith
  have hdrop : (0 : Rat) < 2 ^ drop := by positivity
  have hsplit : (m : Rat) * 2 ^ d = (m * 2 ^ (d - drop) : Nat) * 2 ^ drop := by
    push_cast
    rw [mul_assoc, ← pow_add, Nat.sub_add_cancel hle]
  have hrest : |r / 2 ^ drop| < 1 / 2 := by
    have hpow : (2 : Rat) ^ d ≤ 2 ^ drop * 2 := by
      rw [← pow_succ]
      exact pow_le_pow_right₀ one_le_two hge
    rw [abs_div, abs_of_pos hdrop, div_lt_iff₀ hdrop]
    linarith
  rw [hsplit, add_div, mul_div_cancel_right₀ _ hdrop.ne', roundEven_add hrest, Nat.mul_assoc,
    ← Nat.pow_add, Nat.sub_add_cancel hle]

theorem nearest_add (hlow : 2 ^ (f.precision - 1) ≤ m) (hhigh : m < 2 ^ f.precision)
    (hc : |c| = m * 2 ^ d * f.unit) (hr : |r| < 2 ^ d / 4 * f.unit) : f.nearest (c + r) = c := by
  have hunit := f.unit_pos
  have hpositive {c r : Rat} (hc : c = m * 2 ^ d * f.unit) (hr : |r| < 2 ^ d / 4 * f.unit) :
      f.nearest (c + r) = c := by
    have hone : (1 : Rat) ≤ m := by
      have : 1 ≤ m := Nat.one_le_two_pow.trans hlow
      exact_mod_cast this
    have hcr : 0 ≤ c + r := by
      have : (1 : Rat) * (2 ^ d * f.unit) ≤ m * (2 ^ d * f.unit) :=
        mul_le_mul_of_nonneg_right hone (by positivity)
      have := (abs_lt.1 hr).1
      have : 0 ≤ 2 ^ d * f.unit := by positivity
      linarith
    have hquot : (c + r) / f.unit = m * 2 ^ d + r / f.unit := by
      rw [hc, add_div, mul_div_cancel_right₀ _ hunit.ne']
    have hrest : |r / f.unit| < 2 ^ d / 4 := by
      rw [abs_div, abs_of_pos hunit, div_lt_iff₀ hunit]
      exact hr
    rw [f.nearest_of_nonneg hcr, hquot, roundUnits_add hlow hhigh hrest, hc]
    push_cast
    ring
  rcases le_total 0 c with hpos | hneg
  · exact hpositive (by rwa [abs_of_nonneg hpos] at hc) hr
  · have hneg' := hpositive (c := -c) (r := -r) (by rwa [abs_of_nonpos hneg] at hc)
      (by rwa [abs_neg])
    rw [← neg_add, nearest_neg] at hneg'
    linarith

/-- A number has one form only. -/
theorem Holds.eq_of_value_eq {m m' : Nat} {e e' : Int} (h : f.Holds m e) (h' : f.Holds m' e')
    (heq : (m : Rat) * 2 ^ e = m' * 2 ^ e') : m = m' ∧ e = e' := by
  -- With a lesser exponent the digits do not suffice.
  have hle {m m' : Nat} {e e' : Int} (h : f.Holds m e) (h' : f.Holds m' e')
      (heq : (m : Rat) * 2 ^ e = m' * 2 ^ e') : e' ≤ e := by
    by_contra hlt
    have hp := f.precision_pos
    have hfirst : (2 : Rat) ^ (f.precision - 1) ≤ m' := by
      have := h'.2.2.2.resolve_right (by have := h.2.1; omega)
      rw [twoPow_eq] at this
      exact_mod_cast this
    have hdigits : (m : Rat) < 2 ^ f.precision := by
      have := h.1
      rw [twoPow_eq] at this
      exact_mod_cast this
    have hexp : (2 : Rat) ^ (e + 1) ≤ 2 ^ e' := zpow_le_zpow_right₀ one_le_two (by omega)
    have hsame : (2 : Rat) ^ (f.precision - 1) * 2 ^ (e + 1) = 2 ^ f.precision * 2 ^ e := by
      rw [← zpow_natCast, ← zpow_natCast, ← zpow_add₀ two_ne_zero, ← zpow_add₀ two_ne_zero]
      congr 1
      omega
    have : (m : Rat) * 2 ^ e < 2 ^ f.precision * 2 ^ e :=
      mul_lt_mul_of_pos_right hdigits (zpow_pos two_pos e)
    have : (2 : Rat) ^ (f.precision - 1) * 2 ^ (e + 1) ≤ m' * 2 ^ e' :=
      mul_le_mul hfirst hexp (zpow_pos two_pos _).le (Nat.cast_nonneg m')
    linarith
  obtain rfl := le_antisymm (hle h' h heq.symm) (hle h h' heq)
  have hne : (2 : Rat) ^ e ≠ 0 := (zpow_pos two_pos e).ne'
  exact ⟨Nat.cast_injective (mul_right_cancel₀ hne heq), rfl⟩

end Format

/-! ## 2. Numbers -/

namespace Binary

variable {f : Format} {x y c : Binary f} {q b : Rat}

/-- Only the zeros are two numbers of one value. -/
theorem eq_of_denotes (hx : x.Denotes q) (hy : y.Denotes q) (hq : q ≠ 0) : x = y := by
  obtain ⟨s, m, e, hm, rfl, hvalue⟩ := hx.exists_finite
  obtain ⟨s', m', e', hm', rfl, hvalue'⟩ := hy.exists_finite
  have habs := congrArg abs (hvalue.symm.trans hvalue')
  rw [abs_mul, abs_mul, abs_signed, abs_signed, abs_of_pos (zpow_pos two_pos e),
    abs_of_pos (zpow_pos two_pos e')] at habs
  obtain ⟨rfl, rfl⟩ := hm.eq_of_value_eq hm' habs
  have hsigned : ((signed s m : Int) : Rat) = signed s' m :=
    mul_right_cancel₀ (zpow_pos two_pos e).ne' (hvalue.symm.trans hvalue')
  have hm0 : (m : Rat) ≠ 0 := by
    rintro hzero
    apply hq
    rw [hvalue, cast_signed, hzero]
    simp
  have hsign : s = s' := by
    rw [cast_signed, cast_signed] at hsigned
    cases s <;> cases s' <;> simp_all [self_eq_neg, neg_eq_self]
  subst hsign
  rfl

/-- A number no greater than one is lost in a sum with a large one. -/
theorem nearest_add_of_large (hf : f.minExponent ≤ 0) (hc : c.Denotes b)
    (hlarge : (2 : Rat) ^ ((f.precision : Int) + 2) < |b|) (hq : |q| ≤ 1) :
    f.nearest (b + q) = b := by
  obtain ⟨s, m, e, hm, rfl, rfl⟩ := hc.exists_finite
  have habs : |((signed s m : Int) : Rat) * 2 ^ e| = m * 2 ^ e := by
    rw [abs_mul, abs_signed, abs_of_pos (zpow_pos two_pos e)]
  obtain ⟨hdigits, hlow, -, hform⟩ := hm
  rw [twoPow_eq] at hdigits hform
  have hexp : 3 ≤ e := by
    by_contra hlt
    have hm' : (m : Rat) ≤ 2 ^ (f.precision : Int) := by
      rw [zpow_natCast]
      exact_mod_cast hdigits.le
    have he : (2 : Rat) ^ e ≤ 2 ^ (2 : Int) := zpow_le_zpow_right₀ one_le_two (by omega)
    have : (m : Rat) * 2 ^ e ≤ 2 ^ (f.precision : Int) * 2 ^ (2 : Int) :=
      mul_le_mul hm' he (zpow_pos two_pos e).le (zpow_pos two_pos _).le
    rw [habs, zpow_add₀ two_ne_zero] at hlarge
    linarith
  obtain ⟨d, hd⟩ := Int.eq_ofNat_of_zero_le (by omega : 0 ≤ e - f.minExponent)
  have hpow : (2 : Rat) ^ e = 2 ^ d * f.unit := by
    obtain rfl : e = d + f.minExponent := by omega
    rw [Format.unit, zpow_add₀ two_ne_zero, zpow_natCast]
  refine Format.nearest_add (m := m) (d := d) (hform.resolve_right (by omega)) hdigits ?_ ?_
  · rw [habs, hpow, mul_assoc]
  · have he : (2 : Rat) ^ (3 : Int) ≤ 2 ^ e := zpow_le_zpow_right₀ one_le_two hexp
    rw [hpow] at he
    have : (2 : Rat) ^ (3 : Int) = 8 := by norm_num
    linarith

/-- Of two numbers no greater than one a large number is subtracted with the same result. -/
theorem sub_eq_sub_of_large (hf : f.minExponent ≤ 0) (hx : Bounded 0 x) (hy : Bounded 0 y)
    (hc : c.isFinite = true) (hlarge : ¬ Bounded ((f.precision : Int) + 2) c) : x - c = y - c := by
  have hvalue := denotes_toRat hc
  have hlt : (2 : Rat) ^ ((f.precision : Int) + 2) < |(-c.toRat)| := by
    rw [abs_neg]
    exact not_le.1 fun hle => hlarge (hvalue.bounded hle)
  have hsub {x : Binary f} (hx : Bounded 0 x) : (x - c).Denotes (-c.toRat) := by
    obtain ⟨q, hq, hle⟩ := hx
    have hnearest : f.nearest (q - c.toRat) = -c.toRat := by
      rw [sub_eq_neg_add]
      exact nearest_add_of_large hf hvalue.neg hlt (by rwa [zpow_zero] at hle)
    have := hq.sub hvalue
    rw [hnearest] at this
    exact this hvalue.neg.abs_lt_limit
  refine eq_of_denotes (hsub hx) (hsub hy) fun hzero => ?_
  rw [hzero, abs_zero] at hlt
  exact absurd hlt (not_lt.2 (zpow_pos two_pos _).le)

end Binary

end TourMap
