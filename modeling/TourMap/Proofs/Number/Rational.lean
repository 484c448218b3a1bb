import Mathlib.Data.Rat.Floor
import Mathlib.Tactic.Linarith
import Mathlib.Tactic.NormNum
import Mathlib.Tactic.Positivity
import Mathlib.Tactic.Ring
import TourMap.Number.Arithmetic

/-!
# Rational: arithmetic without roundings

Over the rationals the powers of two and the integral parts are the usual ones. A number is less
than one away from its integral part, and at most a half away from the integer nearest to it.
-/

namespace TourMap

theorem twoPow_eq (n : Nat) : twoPow n = 2 ^ n := by
  rw [twoPow, Nat.shiftLeft_eq, Nat.one_mul]

namespace Arithmetic

/-! ## 1. Integers and powers of two -/

@[simp] theorem ofInt_rat (n : Int) : (ofInt n : Rat) = n := rfl

@[simp] theorem exp2_rat (k : Int) : (exp2 k : Rat) = 2 ^ k := by
  change rationalPow k = _
  unfold rationalPow
  split
  · rename_i hk
    obtain ⟨n, rfl⟩ := Int.eq_ofNat_of_zero_le hk
    rw [Int.toNat_natCast, twoPow_eq, zpow_natCast]
    change ((2 ^ n : Nat) : Rat) = _
    push_cast
    rfl
  · rename_i hk
    obtain ⟨n, hn⟩ := Int.eq_ofNat_of_zero_le (by omega : 0 ≤ -k)
    obtain rfl : k = -(n : Int) := by omega
    rw [neg_neg, Int.toNat_natCast, twoPow_eq, zpow_neg, zpow_natCast, Rat.mkRat_eq_div]
    push_cast
    rw [one_div]

theorem half_rat : (half : Rat) = 1 / 2 := by
  rw [half, exp2_rat]
  norm_num

theorem abs_rat (x : Rat) : abs x = |x| := by
  change (if x < 0 then -x else x) = |x|
  split
  · rename_i hx
    exact (abs_of_neg hx).symm
  · rename_i hx
    exact (abs_of_nonneg (not_lt.1 hx)).symm

theorem isNaN_rat (x : Rat) : isNaN x = false := by
  simp [isNaN, bne, BEq.beq]

/-! ## 2. Integral parts -/

theorem tdiv_rat (x : Rat) : x.num.tdiv x.den = if 0 ≤ x then ⌊x⌋ else ⌈x⌉ := by
  split
  · rename_i hx
    rw [Rat.floor_def', Int.tdiv_eq_ediv_of_nonneg (Rat.num_nonneg.2 hx)]
  · rename_i hx
    have hnum : 0 ≤ -x.num := by
      have := Rat.num_neg.2 (not_le.1 hx)
      omega
    rw [Rat.ceil_def', ← Int.tdiv_eq_ediv_of_nonneg hnum, Int.neg_tdiv, neg_neg]

theorem trunc_rat (x : Rat) : trunc x = ((if 0 ≤ x then ⌊x⌋ else ⌈x⌉ : Int) : Rat) :=
  congrArg Rat.ofInt (tdiv_rat x)

theorem trunc_of_nonneg {x : Rat} (hx : 0 ≤ x) : trunc x = ⌊x⌋ := by
  rw [trunc_rat, if_pos hx]

theorem trunc_neg (x : Rat) : trunc (-x) = -trunc x := by
  rw [trunc_rat, trunc_rat]
  rcases lt_trichotomy x 0 with hx | rfl | hx
  · rw [if_pos (by linarith), if_neg (by linarith), Int.floor_neg]
    push_cast
    rfl
  · simp
  · rw [if_neg (by linarith), if_pos hx.le, Int.ceil_neg]
    push_cast
    rfl

theorem trunc_intCast (n : Int) : trunc (n : Rat) = n := by
  rw [trunc_rat, Int.floor_intCast, Int.ceil_intCast, ite_self]

theorem abs_trunc_le (x : Rat) : |trunc x| ≤ |x| := by
  rcases le_total 0 x with hx | hx
  · have hfloor : (0 : Rat) ≤ ⌊x⌋ := by exact_mod_cast Int.floor_nonneg.2 hx
    rw [trunc_of_nonneg hx, abs_of_nonneg hfloor, abs_of_nonneg hx]
    exact Int.floor_le x
  · have hfloor : (0 : Rat) ≤ ⌊-x⌋ := by exact_mod_cast Int.floor_nonneg.2 (neg_nonneg.2 hx)
    rw [← abs_neg, ← trunc_neg, trunc_of_nonneg (neg_nonneg.2 hx), abs_of_nonneg hfloor,
      abs_of_nonpos hx]
    exact Int.floor_le _

/-- Only an integer is left of an integer. -/
theorem toInt_intCast (n : Int) : toInt (n : Rat) = n := by
  change (n : Rat).num.tdiv (n : Rat).den = n
  rw [Rat.num_intCast, Rat.den_intCast]
  exact Int.tdiv_one n

theorem clamp_intCast (n lo hi : Int) :
    clamp (n : Rat) lo hi = ((if n < lo then lo else if hi < n then hi else n : Int) : Rat) := by
  have hcast (a b : Int) : (a : Rat) < b ↔ a < b := Int.cast_lt
  by_cases hlow : n < lo
  · exact (if_pos ((hcast _ _).2 hlow)).trans (by rw [if_pos hlow])
  · refine (if_neg fun h => hlow ((hcast _ _).1 h)).trans ?_
    by_cases hhigh : hi < n
    · exact (if_pos ((hcast _ _).2 hhigh)).trans (by rw [if_neg hlow, if_pos hhigh])
    · exact (if_neg fun h => hhigh ((hcast _ _).1 h)).trans (by rw [if_neg hlow, if_neg hhigh])

theorem abs_sub_trunc_lt (x : Rat) : |x - trunc x| < 1 := by
  rw [trunc_rat, abs_lt]
  split
  · have := Int.floor_le x
    have := Int.lt_floor_add_one x
    constructor <;> linarith
  · have := Int.le_ceil x
    have := Int.ceil_lt_add_one x
    constructor <;> linarith

/-- Without their fractions two numbers are less than one further apart. -/
theorem abs_trunc_sub_trunc_lt (x y : Rat) : |trunc x - trunc y| < |x - y| + 1 := by
  have hpos {x : Rat} (hx : 0 ≤ x) : 0 ≤ trunc x ∧ trunc x ≤ x ∧ x < trunc x + 1 := by
    rw [trunc_of_nonneg hx]
    exact ⟨by exact_mod_cast Int.floor_nonneg.2 hx, Int.floor_le x, Int.lt_floor_add_one x⟩
  have hneg {x : Rat} (hx : x ≤ 0) : trunc x ≤ 0 ∧ x ≤ trunc x ∧ trunc x < x + 1 := by
    obtain ⟨h₁, h₂, h₃⟩ := hpos (neg_nonneg.2 hx)
    rw [trunc_neg] at h₁ h₂ h₃
    exact ⟨by linarith, by linarith, by linarith⟩
  have hle := le_abs_self (x - y)
  have hle' := neg_abs_le (x - y)
  rw [abs_lt]
  rcases le_total 0 x with hx | hx <;> rcases le_total 0 y with hy | hy
  · obtain ⟨-, hx₁, hx₂⟩ := hpos hx
    obtain ⟨-, hy₁, hy₂⟩ := hpos hy
    constructor <;> linarith
  · obtain ⟨hx₀, hx₁, -⟩ := hpos hx
    obtain ⟨hy₀, hy₁, -⟩ := hneg hy
    constructor <;> linarith
  · obtain ⟨hx₀, hx₁, -⟩ := hneg hx
    obtain ⟨hy₀, hy₁, -⟩ := hpos hy
    constructor <;> linarith
  · obtain ⟨-, hx₁, hx₂⟩ := hneg hx
    obtain ⟨-, hy₁, hy₂⟩ := hneg hy
    constructor <;> linarith

theorem floor_rat (x : Rat) : floor x = ⌊x⌋ := by
  unfold floor
  rw [trunc_rat]
  by_cases hx : 0 ≤ x
  · rw [if_pos hx, if_neg (not_lt.2 (Int.floor_le x))]
  · -- Below zero the fraction is cut off upwards.
    have hceil := Int.ceil_lt_add_one x
    rw [if_neg hx]
    by_cases hlt : x < ⌈x⌉
    · have hfloor : ⌊x⌋ = ⌈x⌉ - 1 :=
        Int.floor_eq_iff.2 ⟨by push_cast; linarith, by push_cast; linarith⟩
      rw [if_pos hlt, hfloor]
      push_cast
      rfl
    · have hceil := Int.le_ceil x
      have hfloor : ⌊x⌋ = ⌈x⌉ := Int.floor_eq_iff.2 ⟨not_lt.1 hlt, by linarith⟩
      rw [if_neg hlt, hfloor]

theorem fract_rat (x : Rat) : fract x = Int.fract x := by
  unfold fract
  dsimp only
  rw [trunc_rat, ofInt_rat, ofInt_rat]
  push_cast
  by_cases hx : 0 ≤ x
  · rw [if_pos hx, if_neg (not_lt.2 (sub_nonneg.2 (Int.floor_le x)))]
    exact Int.self_sub_floor x
  · rw [if_neg hx]
    by_cases hlt : x - ⌈x⌉ < 0
    · -- The fraction is cut off upwards, so that a whole one is missing.
      have hceil := Int.ceil_lt_add_one x
      rw [if_pos hlt]
      exact (Int.fract_eq_iff.2 ⟨by linarith, by linarith, ⌈x⌉ - 1, by push_cast; ring⟩).symm
    · have hceil := Int.le_ceil x
      rw [if_neg hlt]
      exact (Int.fract_eq_iff.2 ⟨not_lt.1 hlt, by linarith, ⌈x⌉, by ring⟩).symm

/-! ## 3. The nearest integer -/

/-- The integer nearest to `q`; a half goes away from zero. -/
def roundAway (q : Rat) : Int := if 0 ≤ q then ⌊q + 1 / 2⌋ else ⌈q - 1 / 2⌉

theorem abs_sub_roundAway_le (q : Rat) : |q - roundAway q| ≤ 1 / 2 := by
  rw [abs_le]
  unfold roundAway
  split
  · have := Int.floor_le (q + 1 / 2)
    have := Int.lt_floor_add_one (q + 1 / 2)
    constructor <;> linarith
  · have := Int.le_ceil (q - 1 / 2)
    have := Int.ceil_lt_add_one (q - 1 / 2)
    constructor <;> linarith

/-- No integer is between a number and its rounded one. -/
theorem abs_roundAway_le {q : Rat} {n : Nat} (h : |q| ≤ n) : |roundAway q| ≤ n := by
  obtain ⟨hlow, hhigh⟩ := abs_le.1 h
  obtain ⟨hlow', hhigh'⟩ := abs_le.1 (abs_sub_roundAway_le q)
  rw [abs_le]
  constructor
  · have hlt : ((-(n : Int) - 1 : Int) : Rat) < roundAway q := by push_cast; linarith
    have := Int.cast_lt.1 hlt
    omega
  · have hlt : (roundAway q : Rat) < ((n + 1 : Int) : Rat) := by push_cast; linarith
    have := Int.cast_lt.1 hlt
    omega

theorem round_rat (q : Rat) : round q = roundAway q := by
  obtain ⟨hlow, hhigh⟩ := abs_lt.1 (abs_sub_trunc_lt q)
  unfold round roundAway
  dsimp only
  rw [half_rat]
  rw [trunc_rat] at hlow hhigh ⊢
  by_cases hq : 0 ≤ q
  · rw [if_pos hq] at hlow hhigh ⊢
    have hrest := Int.floor_le q
    rw [if_pos hq]
    split
    · have hfloor : ⌊q + 1 / 2⌋ = ⌊q⌋ := Int.floor_eq_iff.2 ⟨by linarith, by linarith⟩
      rw [if_pos (by linarith), hfloor]
    · have hfloor : ⌊q + 1 / 2⌋ = ⌊q⌋ + 1 :=
        Int.floor_eq_iff.2 ⟨by push_cast; linarith, by push_cast; linarith⟩
      rw [hfloor]
      push_cast
      rfl
  · rw [if_neg hq] at hlow hhigh ⊢
    have hrest := Int.le_ceil q
    rw [if_neg hq, if_pos (by linarith)]
    split
    · have hceil : ⌈q - 1 / 2⌉ = ⌈q⌉ := Int.ceil_eq_iff.2 ⟨by linarith, by linarith⟩
      rw [hceil]
    · have hceil : ⌈q - 1 / 2⌉ = ⌈q⌉ - 1 :=
        Int.ceil_eq_iff.2 ⟨by push_cast; linarith, by push_cast; linarith⟩
      rw [hceil]
      push_cast
      rfl

/-- No integer is nearer than the rounded number, zero included. -/
theorem abs_sub_round_le (x : Rat) : |x - round x| ≤ |x| := by
  have hnear := abs_sub_roundAway_le x
  rw [round_rat]
  generalize roundAway x = n at hnear ⊢
  rcases eq_or_ne n 0 with rfl | hne
  · simp
  · have hone : (1 : Rat) ≤ |(n : Rat)| := by exact_mod_cast Int.one_le_abs hne
    have htri : |(n : Rat)| ≤ |x| + |x - n| := by
      have := abs_sub_abs_le_abs_sub (n : Rat) x
      rw [abs_sub_comm] at this
      linarith
    linarith

end Arithmetic

end TourMap
