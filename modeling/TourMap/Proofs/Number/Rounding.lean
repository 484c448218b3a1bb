import Mathlib.Algebra.Order.Floor.Semifield
import Mathlib.Data.Nat.Log
import Mathlib.Data.Rat.Floor
import Mathlib.Tactic.FieldSimp
import Mathlib.Tactic.Linarith
import Mathlib.Tactic.NormNum
import Mathlib.Tactic.Positivity
import Mathlib.Tactic.Ring
import TourMap.Number.Binary

/-!
# Rounding: the nearest number of a format

What an operation returns is its exact result, rounded to the nearest number of a format
(`Format.nearest`). Two facts carry all that is known of it: a rounding keeps the order of two numbers
(`nearest_mono`), and changes no number of the format (`nearest_eq_self`). Magnitudes are measured in
the least unit of the format, so that the numbers of the format are natural numbers with few digits
that count.
-/

namespace TourMap

/-! ## 1. The nearest integer -/

/-- The integer nearest to a magnitude; a half goes to the even neighbour. -/
def roundEven (q : Rat) : Nat :=
  if q - ⌊q⌋₊ < 1 / 2 ∨ (q - ⌊q⌋₊ = 1 / 2 ∧ ⌊q⌋₊ % 2 = 0) then ⌊q⌋₊ else ⌊q⌋₊ + 1

theorem roundQuotient_eq (a : Nat) {b : Nat} (hb : 0 < b) :
    roundQuotient a b = roundEven ((a : Rat) / b) := by
  have hpos : (0 : Rat) < b := Nat.cast_pos.2 hb
  have hfloor : ⌊(a : Rat) / b⌋₊ = a / b := Nat.floor_div_eq_div a b
  have hrest : (a : Rat) / b - ⌊(a : Rat) / b⌋₊ = (a % b : Nat) / b := by
    have hdiv : (b : Rat) * (a / b : Nat) + (a % b : Nat) = a := by
      exact_mod_cast Nat.div_add_mod a b
    rw [hfloor, eq_div_iff hpos.ne', sub_mul, div_mul_cancel₀ _ hpos.ne']
    linarith
  have hlt : (a % b : Nat) / (b : Rat) < 1 / 2 ↔ 2 * (a % b) < b := by
    rw [div_lt_div_iff₀ hpos two_pos]
    constructor <;> intro h
    · have : ((a % b * 2 : Nat) : Rat) < (b : Nat) := by push_cast; linarith
      have := Nat.cast_lt.1 this
      omega
    · have : ((2 * (a % b) : Nat) : Rat) < (b : Nat) := Nat.cast_lt.2 h
      push_cast at this
      linarith
  have heq : (a % b : Nat) / (b : Rat) = 1 / 2 ↔ 2 * (a % b) = b := by
    rw [div_eq_div_iff hpos.ne' two_ne_zero]
    constructor <;> intro h
    · have : ((a % b * 2 : Nat) : Rat) = (b : Nat) := by push_cast; linarith
      have := Nat.cast_inj.1 this
      omega
    · have : ((2 * (a % b) : Nat) : Rat) = (b : Nat) := congrArg _ h
      push_cast at this
      linarith
  simp only [roundQuotient, roundEven, hrest, hlt, heq]
  rw [hfloor]

theorem roundEven_le {q : Rat} {n : Nat} (h : q ≤ n) : roundEven q ≤ n := by
  have hfloor : ⌊q⌋₊ ≤ n := Nat.floor_le_of_le h
  unfold roundEven
  split
  · exact hfloor
  · rename_i hup
    -- Nothing is left over of `n` itself.
    apply Nat.lt_of_le_of_ne hfloor
    rintro rfl
    exact hup (.inl (by linarith))

theorem le_roundEven {q : Rat} {n : Nat} (h : n ≤ q) : n ≤ roundEven q := by
  have hfloor : n ≤ ⌊q⌋₊ := Nat.le_floor h
  unfold roundEven
  split
  · exact hfloor
  · exact Nat.le_succ_of_le hfloor

theorem roundEven_mono {q r : Rat} (hq : 0 ≤ q) (h : q ≤ r) : roundEven q ≤ roundEven r := by
  rcases Nat.lt_or_eq_of_le (Nat.floor_le_floor h) with hlt | heq
  · -- An integer lies between the two.
    calc roundEven q ≤ ⌊q⌋₊ + 1 := roundEven_le (by push_cast; exact (Nat.lt_floor_add_one q).le)
      _ ≤ ⌊r⌋₊ := hlt
      _ ≤ roundEven r := le_roundEven (Nat.floor_le (hq.trans h))
  · unfold roundEven
    rw [heq]
    split
    · split <;> omega
    · rename_i hup
      rw [if_neg]
      rintro (hless | ⟨hhalf, heven⟩)
      · exact hup (.inl (by linarith))
      · rcases lt_or_eq_of_le h with hlt | rfl
        · exact hup (.inl (by linarith))
        · exact hup (.inr ⟨hhalf, heven⟩)

/-! ## 2. Magnitudes in units -/

namespace Format

variable (f : Format) {q r : Rat}

/-- A magnitude rounded to as many binary digits as the precision allows, both in least units. -/
def roundUnits (q : Rat) : Nat :=
  roundEven (q / 2 ^ Binary.excess f ⌊q⌋₊) * 2 ^ Binary.excess f ⌊q⌋₊

theorem lt_two_pow_excess (q : Rat) : q < 2 ^ (f.precision + Binary.excess f ⌊q⌋₊) := by
  have hlog : ⌊q⌋₊ < 2 ^ (⌊q⌋₊.log2 + 1) := Nat.lt_log2_self
  have hpow : 2 ^ (⌊q⌋₊.log2 + 1) ≤ 2 ^ (f.precision + Binary.excess f ⌊q⌋₊) :=
    Nat.pow_le_pow_right two_pos (by unfold Binary.excess; omega)
  exact_mod_cast (Nat.floor_lt' (by positivity)).1 (hlog.trans_le hpow)

theorem two_pow_excess_le (hq : 0 ≤ q) (h : Binary.excess f ⌊q⌋₊ ≠ 0) :
    2 ^ (f.precision - 1 + Binary.excess f ⌊q⌋₊) ≤ q := by
  have hp := f.precision_pos
  have hne : ⌊q⌋₊ ≠ 0 := by
    rintro hzero
    rw [hzero] at h
    simp only [Binary.excess, Nat.log2_zero] at h
    omega
  have hexp : f.precision - 1 + Binary.excess f ⌊q⌋₊ = ⌊q⌋₊.log2 := by
    unfold Binary.excess at h ⊢
    omega
  have hlog : 2 ^ ⌊q⌋₊.log2 ≤ ⌊q⌋₊ := Nat.log2_self_le hne
  rw [hexp]
  calc (2 : Rat) ^ ⌊q⌋₊.log2 ≤ ⌊q⌋₊ := by exact_mod_cast hlog
    _ ≤ q := Nat.floor_le hq

variable {f}

/-- A number of the format that is no less than a magnitude is no less than it is rounded. -/
theorem roundUnits_le {m d : Nat} (hm : m ≤ 2 ^ f.precision) (hq : 0 ≤ q) (h : q ≤ m * 2 ^ d) :
    f.roundUnits q ≤ m * 2 ^ d := by
  have hp := f.precision_pos
  have hlow := two_pow_excess_le f hq
  unfold roundUnits
  generalize Binary.excess f ⌊q⌋₊ = drop at hlow ⊢
  rcases Nat.le_total drop d with hle | hle
  · -- The digits that are dropped are zeros of the number of the format.
    have hsplit : m * 2 ^ d = m * 2 ^ (d - drop) * 2 ^ drop := by
      rw [Nat.mul_assoc, ← Nat.pow_add, Nat.sub_add_cancel hle]
    rw [hsplit]
    apply Nat.mul_le_mul_right
    apply roundEven_le
    rw [div_le_iff₀ (by positivity)]
    calc q ≤ (m * 2 ^ d : Nat) := by exact_mod_cast h
      _ = (m * 2 ^ (d - drop) : Nat) * 2 ^ drop := by rw [hsplit, Nat.cast_mul]; norm_num
  · rcases Nat.eq_or_lt_of_le hle with rfl | hlt
    · apply Nat.mul_le_mul_right
      apply roundEven_le
      rwa [div_le_iff₀ (by positivity)]
    · -- The magnitude is a power of two, the first with one more digit.
      have hm' : ((m * 2 ^ d : Nat) : Rat) ≤ (2 ^ (f.precision + d) : Nat) := by
        rw [Nat.pow_add]
        exact_mod_cast Nat.mul_le_mul_right _ hm
      have hlow' : ((2 ^ (f.precision - 1 + drop) : Nat) : Rat) ≤ (m * 2 ^ d : Nat) := by
        push_cast
        exact (hlow (by omega)).trans h
      have hround : roundEven (q / 2 ^ drop) ≤ 2 ^ (f.precision - 1) := by
        apply roundEven_le
        rw [div_le_iff₀ (by positivity)]
        have hpow : ((2 ^ (f.precision + d) : Nat) : Rat) ≤ (2 ^ (f.precision - 1 + drop) : Nat) :=
          Nat.cast_le.2 (Nat.pow_le_pow_right two_pos (by omega))
        push_cast at hm' hpow ⊢
        rw [← pow_add]
        linarith
      calc roundEven (q / 2 ^ drop) * 2 ^ drop ≤ 2 ^ (f.precision - 1) * 2 ^ drop :=
            Nat.mul_le_mul_right _ hround
        _ = 2 ^ (f.precision - 1 + drop) := (Nat.pow_add ..).symm
        _ ≤ m * 2 ^ d := Nat.cast_le.1 hlow'

/-- A number of the format that is no more than a magnitude is no more than it is rounded. -/
theorem le_roundUnits {m d : Nat} (hm : m ≤ 2 ^ f.precision) (h : m * 2 ^ d ≤ q) :
    m * 2 ^ d ≤ f.roundUnits q := by
  have hp := f.precision_pos
  have hq : 0 ≤ q := le_trans (by positivity) h
  have hlow := two_pow_excess_le f hq
  unfold roundUnits
  generalize Binary.excess f ⌊q⌋₊ = drop at hlow ⊢
  rcases Nat.lt_or_ge d drop with hlt | hle
  · have hround : 2 ^ (f.precision - 1) ≤ roundEven (q / 2 ^ drop) := by
      apply le_roundEven
      rw [le_div_iff₀ (by positivity)]
      push_cast
      rw [← pow_add]
      exact hlow (by omega)
    calc m * 2 ^ d ≤ 2 ^ f.precision * 2 ^ d := Nat.mul_le_mul_right _ hm
      _ = 2 ^ (f.precision + d) := (Nat.pow_add ..).symm
      _ ≤ 2 ^ (f.precision - 1 + drop) := Nat.pow_le_pow_right two_pos (by omega)
      _ = 2 ^ (f.precision - 1) * 2 ^ drop := Nat.pow_add ..
      _ ≤ roundEven (q / 2 ^ drop) * 2 ^ drop := Nat.mul_le_mul_right _ hround
  · have hsplit : m * 2 ^ d = m * 2 ^ (d - drop) * 2 ^ drop := by
      rw [Nat.mul_assoc, ← Nat.pow_add, Nat.sub_add_cancel hle]
    rw [hsplit]
    apply Nat.mul_le_mul_right
    apply le_roundEven
    rw [le_div_iff₀ (by positivity)]
    calc (m * 2 ^ (d - drop) : Nat) * (2 : Rat) ^ drop = (m * 2 ^ d : Nat) := by
          rw [hsplit, Nat.cast_mul]
          norm_num
      _ ≤ q := by exact_mod_cast h

theorem roundUnits_mono (hq : 0 ≤ q) (h : q ≤ r) : f.roundUnits q ≤ f.roundUnits r := by
  have hp := f.precision_pos
  have hlog : ⌊q⌋₊.log2 ≤ ⌊r⌋₊.log2 := by
    rw [Nat.log2_eq_log_two, Nat.log2_eq_log_two]
    exact Nat.log_mono_right (Nat.floor_le_floor h)
  have hdrop : Binary.excess f ⌊q⌋₊ ≤ Binary.excess f ⌊r⌋₊ := by
    unfold Binary.excess
    omega
  rcases Nat.eq_or_lt_of_le hdrop with heq | hlt
  · unfold roundUnits
    rw [heq]
    apply Nat.mul_le_mul_right
    apply roundEven_mono
    · positivity
    · exact div_le_div_of_nonneg_right h (by positivity)
  · -- A power of two lies between the two.
    have hhigh := lt_two_pow_excess f q
    have hlow := two_pow_excess_le f (hq.trans h) (by omega)
    calc f.roundUnits q ≤ 2 ^ f.precision * 2 ^ Binary.excess f ⌊q⌋₊ := by
          apply roundUnits_le (Nat.le_refl _) hq
          rw [pow_add] at hhigh
          exact_mod_cast hhigh.le
      _ ≤ f.roundUnits r := by
          apply le_roundUnits (Nat.le_refl _)
          refine le_trans ?_ hlow
          push_cast
          rw [← pow_add]
          exact pow_le_pow_right₀ one_le_two (by omega)

theorem roundUnits_eq {m d : Nat} (hm : m ≤ 2 ^ f.precision) :
    f.roundUnits (m * 2 ^ d) = m * 2 ^ d := by
  apply Nat.le_antisymm
  · exact roundUnits_le hm (by positivity) le_rfl
  · exact le_roundUnits hm le_rfl

/-! ## 3. Numbers -/

variable (f)

/-- The least positive number of the format. -/
def unit : Rat := 2 ^ f.minExponent

/-- The power of two past the largest number of the format. -/
def limit : Rat := 2 ^ (f.precision + f.maxExponent)

/-- The number nearest to `q` among those with as many digits as the format allows, however large. -/
def nearest (q : Rat) : Rat :=
  if q < 0 then -(f.roundUnits (-q / f.unit) * f.unit) else f.roundUnits (q / f.unit) * f.unit

/-- Whether the format has enough digits for a number. -/
def Represents (c : Rat) : Prop :=
  ∃ m d : Nat, m ≤ 2 ^ f.precision ∧ |c| = m * 2 ^ d * f.unit

theorem unit_pos : 0 < f.unit := zpow_pos two_pos _

theorem nearest_zero : f.nearest 0 = 0 := by
  have hunits : f.roundUnits 0 = 0 := by
    have := roundUnits_eq (f := f) (m := 0) (d := 0) (Nat.zero_le _)
    simpa using this
  simp [nearest, hunits]

theorem nearest_of_nonneg (hq : 0 ≤ q) : f.nearest q = f.roundUnits (q / f.unit) * f.unit :=
  if_neg (not_lt.2 hq)

theorem nearest_neg (q : Rat) : f.nearest (-q) = -f.nearest q := by
  rcases lt_trichotomy q 0 with hq | rfl | hq
  · rw [nearest_of_nonneg f (by linarith), nearest, if_pos hq, neg_neg]
  · rw [neg_zero, nearest_zero, neg_zero]
  · rw [nearest_of_nonneg f hq.le, nearest, if_pos (by linarith), neg_neg]

theorem nearest_nonneg (hq : 0 ≤ q) : 0 ≤ f.nearest q := by
  have := f.unit_pos
  rw [nearest_of_nonneg f hq]
  positivity

/-- A rounding keeps the order of two numbers. -/
theorem nearest_mono (h : q ≤ r) : f.nearest q ≤ f.nearest r := by
  have hmono {q r : Rat} (hq : 0 ≤ q) (h : q ≤ r) : f.nearest q ≤ f.nearest r := by
    rw [nearest_of_nonneg f hq, nearest_of_nonneg f (hq.trans h)]
    apply mul_le_mul_of_nonneg_right _ f.unit_pos.le
    exact Nat.cast_le.2 (roundUnits_mono (div_nonneg hq f.unit_pos.le)
      (div_le_div_of_nonneg_right h f.unit_pos.le))
  rcases le_total 0 q with hq | hq
  · exact hmono hq h
  · rcases le_total 0 r with hr | hr
    · -- Zero lies between the two.
      have hneg := f.nearest_nonneg (neg_nonneg.2 hq)
      rw [nearest_neg] at hneg
      linarith [f.nearest_nonneg hr]
    · have hneg := hmono (neg_nonneg.2 hr) (neg_le_neg h)
      rw [nearest_neg, nearest_neg] at hneg
      linarith

theorem abs_nearest (q : Rat) : |f.nearest q| = f.nearest |q| := by
  rcases le_total 0 q with hq | hq
  · rw [abs_of_nonneg hq, abs_of_nonneg (f.nearest_nonneg hq)]
  · have hneg := f.nearest_nonneg (neg_nonneg.2 hq)
    rw [abs_of_nonpos hq, nearest_neg]
    rw [nearest_neg] at hneg
    exact abs_of_nonpos (by linarith)

variable {f} {c : Rat}

/-- A rounding changes no number of the format. -/
theorem nearest_eq_self (h : f.Represents c) : f.nearest c = c := by
  obtain ⟨m, d, hm, hc⟩ := h
  have habs : f.nearest |c| = |c| := by
    rw [nearest_of_nonneg f (abs_nonneg c), hc, mul_div_cancel_right₀ _ f.unit_pos.ne',
      roundUnits_eq hm]
    norm_num
  rcases le_total 0 c with hpos | hneg
  · rwa [abs_of_nonneg hpos] at habs
  · rw [abs_of_nonpos hneg, nearest_neg] at habs
    linarith

/-- A number of the format that bounds a magnitude bounds it rounded. -/
theorem abs_nearest_le (hc : f.Represents c) (h : |q| ≤ c) : |f.nearest q| ≤ c := by
  rw [abs_nearest, ← nearest_eq_self hc]
  exact f.nearest_mono h

/-! ## 4. Which numbers a format has -/

theorem represents_twoPow {k : Int} (hk : f.minExponent ≤ k) : f.Represents (2 ^ k) := by
  obtain ⟨d, hd⟩ := Int.eq_ofNat_of_zero_le (by omega : 0 ≤ k - f.minExponent)
  refine ⟨1, d, Nat.one_le_two_pow, ?_⟩
  obtain rfl : k = d + f.minExponent := by omega
  rw [abs_of_pos (zpow_pos two_pos _), zpow_add₀ two_ne_zero, zpow_natCast, unit]
  ring

theorem represents_intCast (hf : f.minExponent ≤ 0) {n : Int} (hn : n.natAbs ≤ 2 ^ f.precision) :
    f.Represents n := by
  obtain ⟨d, hd⟩ := Int.eq_ofNat_of_zero_le (by omega : 0 ≤ -f.minExponent)
  have hzero : (d : Int) + f.minExponent = 0 := by omega
  refine ⟨n.natAbs, d, hn, ?_⟩
  rw [unit, mul_assoc, ← zpow_natCast, ← zpow_add₀ two_ne_zero, hzero, zpow_zero, mul_one,
    Nat.cast_natAbs, Int.cast_abs]

theorem Represents.mul_twoPow (h : f.Represents c) (k : Nat) : f.Represents (c * 2 ^ k) := by
  obtain ⟨m, d, hm, hc⟩ := h
  refine ⟨m, d + k, hm, ?_⟩
  rw [abs_mul, hc, abs_of_pos (by positivity : (0 : Rat) < 2 ^ k)]
  ring

end Format

end TourMap
