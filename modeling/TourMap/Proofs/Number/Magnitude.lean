import TourMap.Proofs.Number.Value

/-!
# Magnitude: how far the results of operations reach

A number that is no greater than a power of two stays so when it is rounded, since a format has the
powers of two. So the magnitude of a result is bounded by those of the numbers it was computed from
(`Binary.Bounded`), and as long as the bounds are within the format no result is infinite.
-/

namespace TourMap

open Arithmetic

namespace Format

variable (f : Format) {k : Int} {q : Rat}

/-- Whether a power of two is a number of the format. -/
def Spans (k : Int) : Prop := f.minExponent ≤ k ∧ k < f.precision + f.maxExponent

/-- Whether the format has the integers with no more digits than its precision. -/
def HasIntegers : Prop := f.minExponent ≤ 0 ∧ 0 < f.maxExponent

variable {f}

theorem Spans.abs_nearest_le (hk : f.Spans k) (h : |q| ≤ 2 ^ k) : |f.nearest q| ≤ 2 ^ k :=
  Format.abs_nearest_le (represents_twoPow hk.1) h

theorem Spans.lt_limit (hk : f.Spans k) : 2 ^ k < f.limit :=
  zpow_lt_zpow_right₀ one_lt_two hk.2

theorem Spans.abs_nearest_lt_limit (hk : f.Spans k) (h : |q| ≤ 2 ^ k) : |f.nearest q| < f.limit :=
  (hk.abs_nearest_le h).trans_lt hk.lt_limit

end Format

theorem single_hasIntegers : single.HasIntegers := ⟨by decide, by decide⟩

theorem double_hasIntegers : double.HasIntegers := ⟨by decide, by decide⟩

namespace Binary

variable {f g : Format} {x y : Binary f} {q r a b : Rat} {j k : Int}

/-! ## 1. Constants -/

theorem denotes_exp2 (hk : f.Spans k) : (Arithmetic.exp2 k : Binary f).Denotes (2 ^ k) := by
  obtain ⟨hlow, hhigh⟩ := hk
  have hself : f.nearest (2 ^ k) = 2 ^ k := Format.nearest_eq_self (Format.represents_twoPow hlow)
  have hfit : |f.nearest (2 ^ k)| < f.limit := by
    rw [hself, abs_of_pos (zpow_pos two_pos _)]
    exact Format.Spans.lt_limit ⟨hlow, hhigh⟩
  change (Binary.exp2 k).Denotes _
  unfold Binary.exp2
  rw [if_neg (not_lt.2 hlow), if_neg (by omega)]
  have := denotes_ofRatio (f := f) false 1 one_pos k
  simp only [cast_signed, Bool.false_eq_true, if_false, Nat.cast_one, div_one, one_mul] at this
  rw [← hself]
  exact this hfit

theorem abs_intCast_lt_limit (hf : f.HasIntegers) {n : Int} (hn : n.natAbs ≤ 2 ^ f.precision) :
    |(n : Rat)| < f.limit := by
  have hle : |(n : Rat)| ≤ 2 ^ f.precision := by
    rw [← Int.cast_abs, ← Nat.cast_natAbs]
    exact_mod_cast hn
  have hlt : (2 : Rat) ^ (f.precision : Int) < f.limit :=
    zpow_lt_zpow_right₀ one_lt_two (by have := hf.2; omega)
  rw [zpow_natCast] at hlt
  exact hle.trans_lt hlt

theorem denotes_ofInt (hf : f.HasIntegers) {n : Int} (hn : n.natAbs ≤ 2 ^ f.precision) :
    (Arithmetic.ofInt n : Binary f).Denotes n := by
  have hself : f.nearest n = n := Format.nearest_eq_self (Format.represents_intCast hf.1 hn)
  have hfit : |f.nearest n| < f.limit := hself.symm ▸ abs_intCast_lt_limit hf hn
  change (ofScaled f n 0).Denotes _
  have := denotes_ofRatio (f := f) (if n = 0 then false else decide (n < 0)) n.natAbs one_pos 0
  rw [signed_natAbs, Nat.cast_one, div_one, zpow_zero, mul_one, hself] at this
  unfold ofScaled
  convert this (hself ▸ hfit) using 2
  split
  · rename_i hzero
    rw [hzero]
    rfl
  · rfl

theorem denotes_zero (hf : f.HasIntegers) : (Arithmetic.ofInt 0 : Binary f).Denotes 0 := by
  simpa using denotes_ofInt hf (n := 0) (Nat.zero_le _)

theorem denotes_one (hf : f.HasIntegers) : (Arithmetic.ofInt 1 : Binary f).Denotes 1 := by
  simpa using denotes_ofInt hf (n := 1) Nat.one_le_two_pow

/-! ## 2. Limits -/

theorem Denotes.within_iff {lo hi : Binary f} (hlo : lo.Denotes a) (hhi : hi.Denotes b)
    (hx : x.Denotes q) : Within lo hi x ↔ a ≤ q ∧ q ≤ b := by
  have hlow := hx.lt_iff hlo
  have hhigh := hhi.lt_iff hx
  constructor
  · intro h
    exact ⟨not_lt.1 (mt hlow.2 h.low), not_lt.1 (mt hhigh.2 h.high)⟩
  · rintro ⟨hle, hle'⟩
    exact ⟨hx.isNaN_eq_false, mt hlow.1 (not_lt.2 hle), mt hhigh.1 (not_lt.2 hle')⟩

theorem exists_denotes_of_within {lo hi : Binary f} (hlo : lo.Denotes a) (hhi : hi.Denotes b)
    (h : Within lo hi x) : ∃ q, x.Denotes q ∧ a ≤ q ∧ q ≤ b := by
  obtain ⟨s, m, e, hm, rfl, rfl⟩ := hlo.exists_finite
  obtain ⟨s', m', e', hm', rfl, rfl⟩ := hhi.exists_finite
  cases x with
  | nan => exact (isNaN_eq_false_iff.1 h.number rfl).elim
  | infinity negative =>
    -- An infinity is beyond every finite number.
    cases negative with
    | false => exact (h.high rfl).elim
    | true => exact (h.low rfl).elim
  | finite s'' m'' e'' hm'' =>
    exact ⟨_, denotes_finite hm'', (hlo.within_iff hhi (denotes_finite hm'')).1 h⟩

/-! ## 3. Magnitudes -/

/-- Whether a number is finite and no greater than a power of two. -/
def Bounded (k : Int) (x : Binary f) : Prop := ∃ q, x.Denotes q ∧ |q| ≤ 2 ^ k

theorem Denotes.bounded (h : x.Denotes q) (hq : |q| ≤ 2 ^ k) : Bounded k x := ⟨q, h, hq⟩

theorem abs_add_le_twoPow (hq : |q| ≤ 2 ^ k) (hr : |r| ≤ 2 ^ k) : |q + r| ≤ 2 ^ (k + 1) := by
  calc |q + r| ≤ |q| + |r| := abs_add_le q r
    _ ≤ 2 ^ k + 2 ^ k := add_le_add hq hr
    _ = 2 ^ (k + 1) := by rw [zpow_add₀ two_ne_zero, zpow_one]; ring

theorem abs_sub_le_twoPow (hq : |q| ≤ 2 ^ k) (hr : |r| ≤ 2 ^ k) : |q - r| ≤ 2 ^ (k + 1) := by
  rw [sub_eq_add_neg]
  exact abs_add_le_twoPow hq (by rwa [abs_neg])

namespace Bounded

theorem isFinite (h : Bounded k x) : x.isFinite = true := by
  obtain ⟨q, hq, -⟩ := h
  exact hq.isFinite

theorem mono (h : Bounded j x) (hjk : j ≤ k) : Bounded k x := by
  obtain ⟨q, hq, hle⟩ := h
  exact ⟨q, hq, hle.trans (zpow_le_zpow_right₀ one_le_two hjk)⟩

theorem neg (h : Bounded k x) : Bounded k (-x) := by
  obtain ⟨q, hq, hle⟩ := h
  exact ⟨-q, hq.neg, by rwa [abs_neg]⟩

/-- A rounded result that is bounded before it is rounded. -/
theorem of_nearest (hk : f.Spans k) (h : |q| ≤ 2 ^ k)
    (hx : |f.nearest q| < f.limit → x.Denotes (f.nearest q)) : Bounded k x :=
  ⟨_, hx (hk.abs_nearest_lt_limit h), hk.abs_nearest_le h⟩

theorem add (hx : Bounded k x) (hy : Bounded k y) (hk : f.Spans (k + 1)) :
    Bounded (k + 1) (x + y) := by
  obtain ⟨q, hq, hqle⟩ := hx
  obtain ⟨r, hr, hrle⟩ := hy
  exact of_nearest hk (abs_add_le_twoPow hqle hrle) (hq.add hr)

theorem sub (hx : Bounded k x) (hy : Bounded k y) (hk : f.Spans (k + 1)) :
    Bounded (k + 1) (x - y) := hx.add hy.neg hk

theorem mul (hx : Bounded j x) (hy : Bounded k y) (hk : f.Spans (j + k)) :
    Bounded (j + k) (x * y) := by
  obtain ⟨q, hq, hqle⟩ := hx
  obtain ⟨r, hr, hrle⟩ := hy
  apply of_nearest hk _ (hq.mul hr)
  rw [abs_mul, zpow_add₀ two_ne_zero]
  exact mul_le_mul hqle hrle (abs_nonneg r) (by positivity)

theorem div (hx : Bounded j x) (hy : y.Denotes (2 ^ k)) (hk : f.Spans (j - k)) :
    Bounded (j - k) (x / y) := by
  obtain ⟨q, hq, hqle⟩ := hx
  have hpos : (0 : Rat) < 2 ^ k := zpow_pos two_pos k
  apply of_nearest hk _ (hq.div hy hpos.ne')
  rw [abs_div, abs_of_pos hpos, zpow_sub₀ two_ne_zero]
  exact div_le_div_of_nonneg_right hqle hpos.le

theorem trunc (h : Bounded k x) : Bounded k (Arithmetic.trunc x) := by
  obtain ⟨q, hq, hle⟩ := h
  exact ⟨_, hq.trunc, (abs_trunc_le q).trans hle⟩

theorem convert (h : Bounded k x) (hk : g.Spans k) : Bounded k (Binary.convert x : Binary g) := by
  obtain ⟨q, hq, hle⟩ := h
  exact of_nearest hk hle hq.convert

end Bounded

/-- Of a finite number the fraction is left, from zero to one. -/
theorem within_fract (hf : f.HasIntegers) (hx : x.isFinite = true) :
    Within (Arithmetic.ofInt 0) (Arithmetic.ofInt 1) (fract x) := by
  have hq := denotes_toRat hx
  generalize x.toRat = q at hq
  have hspan : f.Spans 0 := ⟨hf.1, by have := hf.2; omega⟩
  -- What is left of a number without its integral part is less than one, rounded one at most.
  have hzero := denotes_zero hf
  have hone := denotes_one hf
  have hsmall : |q - Arithmetic.trunc q| ≤ 2 ^ (0 : Int) := by
    simpa using (abs_sub_trunc_lt q).le
  have hrest := hq.sub hq.trunc (hspan.abs_nearest_lt_limit hsmall)
  have hrest_le := hspan.abs_nearest_le hsmall
  generalize f.nearest (q - Arithmetic.trunc q) = rest at hrest hrest_le
  rw [zpow_zero, abs_le] at hrest_le
  unfold fract
  simp only
  split
  · -- Below zero the fraction is what is missing to the integer above.
    rename_i hneg
    have hneg : rest < 0 := (hrest.lt_iff hzero).1 hneg
    have hle : |rest + 1| ≤ 2 ^ (0 : Int) := by
      rw [zpow_zero, abs_le]
      constructor <;> linarith
    have hsum := hrest.add hone (hspan.abs_nearest_lt_limit hle)
    have hsum_le := hspan.abs_nearest_le hle
    rw [zpow_zero, abs_le] at hsum_le
    rw [hzero.within_iff hone hsum]
    exact ⟨f.nearest_nonneg (by linarith), hsum_le.2⟩
  · rename_i hpos
    rw [hzero.within_iff hone hrest]
    exact ⟨not_lt.1 (mt (hrest.lt_iff hzero).2 hpos), hrest_le.2⟩

/-! ## 4. Distances -/

section

variable {z n d : Binary f}

/-- What is no number is above no limit. -/
theorem ne_nan_of_lt_abs (h : d < Arithmetic.abs z) : z ≠ .nan := by
  rintro rfl
  have hnan : Arithmetic.abs (.nan : Binary f) = .nan := if_neg Bool.false_ne_true
  rw [hnan] at h
  change Binary.lt d .nan = true at h
  cases d <;> cases h

theorem abs_cases (hf : f.HasIntegers) (hz : z ≠ .nan) :
    Arithmetic.abs z = .infinity false ∨ ∃ r, (Arithmetic.abs z).Denotes r ∧ 0 ≤ r := by
  have hzero := denotes_zero hf
  unfold Arithmetic.abs
  cases z with
  | nan => exact (hz rfl).elim
  | infinity negative =>
    obtain ⟨s, m, e, hm, heq, -⟩ := hzero.exists_finite
    rw [heq]
    cases negative with
    | false => exact .inl (if_neg Bool.false_ne_true)
    | true => exact .inl (if_pos rfl)
  | finite s m e hm =>
    have hvalue := denotes_finite (s := s) hm
    have hneg := hvalue.lt_iff hzero
    refine .inr ?_
    split
    · rename_i h
      exact ⟨_, hvalue.neg, (neg_pos.2 (hneg.1 h)).le⟩
    · rename_i h
      exact ⟨_, hvalue, not_lt.1 (mt hneg.2 h)⟩

theorem lt_zero_cases (hf : f.HasIntegers) (hn : n < Arithmetic.ofInt 0) :
    n = .infinity true ∨ ∃ a, n.Denotes a ∧ a < 0 := by
  have hzero := denotes_zero hf
  cases n with
  | nan => cases hn
  | infinity negative =>
    obtain ⟨s, m, e, hm, heq, -⟩ := hzero.exists_finite
    rw [heq] at hn
    exact .inl (congrArg Binary.infinity hn)
  | finite s m e hm =>
    have hvalue := denotes_finite (s := s) hm
    exact .inr ⟨_, hvalue, (hvalue.lt_iff hzero).1 hn⟩

/-- A negative number is below every distance. -/
theorem lt_abs_of_neg (hf : f.HasIntegers) (hn : n < Arithmetic.ofInt 0) (hz : z ≠ .nan) :
    n < Arithmetic.abs z := by
  rcases lt_zero_cases hf hn with rfl | ⟨a, ha, hneg⟩ <;>
    rcases abs_cases hf hz with habs | ⟨r, hr, hpos⟩
  · rw [habs]
    rfl
  · obtain ⟨s, m, e, hm, heq, -⟩ := hr.exists_finite
    rw [heq]
    rfl
  · obtain ⟨s, m, e, hm, rfl, -⟩ := ha.exists_finite
    rw [habs]
    rfl
  · exact (ha.lt_iff hr).2 (hneg.trans_le hpos)

end

end Binary

end TourMap
