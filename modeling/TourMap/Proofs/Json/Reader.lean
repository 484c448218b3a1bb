import TourMap.Json.Scan
import TourMap.Proofs.Number.Value

/-!
# Reader: what is known of what was read

A reader `Gives` a property if everything that it returns has it; a reader that fails returns nothing.
A number in a text is a number: none that is read is infinite where the text is not, and what is not a
number cannot be written.
-/

namespace TourMap.Json

variable {α β : Type} {P : α → Prop} {Q : β → Prop}

/-! ## 1. Readers -/

/-- Whether all that a reader returns has a property. -/
def Gives (r : Reader α) (P : α → Prop) : Prop := ∀ text a rest, r text = .ok (a, rest) → P a

namespace Gives

theorem any (r : Reader α) : Gives r fun _ => True := fun _ _ _ _ => trivial

theorem pure {a : α} (h : P a) : Gives (pure a) P := by
  intro text b rest hread
  obtain ⟨rfl, -⟩ := Prod.mk.inj (Except.ok.inj hread)
  exact h

theorem throw (fault : Fault) : Gives (throw fault) P := by
  intro text a rest hread
  cases hread

/-- What is read at last, if all that was read before leads to it. -/
theorem bind {r : Reader α} {f : α → Reader β} (hr : Gives r P) (hf : ∀ a, P a → Gives (f a) Q) :
    Gives (r >>= f) Q := by
  intro text b rest hread
  change (r text).bind (fun p => f p.1 p.2) = .ok (b, rest) at hread
  cases hfirst : r text with
  | error fault =>
    rw [hfirst] at hread
    cases hread
  | ok p =>
    rw [hfirst] at hread
    exact hf p.1 (hr text p.1 p.2 hfirst) p.2 b rest hread

theorem after {r : Reader α} {f : α → Reader β} (hf : ∀ a, Gives (f a) Q) : Gives (r >>= f) Q :=
  (any r).bind fun a _ => hf a

theorem lift {result : Except Fault α} (h : ∀ a, result = .ok a → P a) :
    Gives (liftM result : Reader α) P := by
  intro text a rest hread
  cases result with
  | error fault => cases hread
  | ok b =>
    obtain ⟨rfl, -⟩ := Prod.mk.inj (Except.ok.inj hread)
    exact h b rfl

end Gives

/-! ## 2. Numbers -/

/-- Whether a number is one in every format. -/
def Number.IsNumber (n : Number) : Prop := ∀ f : Format, n.toBinary f ≠ .nan

open Binary

theorem isNumber_natural (n : Nat) : (Number.natural n).IsNumber := fun _ => ofInt_ne_nan n

theorem isNumber_negative (n : Int) : (Number.negative n).IsNumber := fun _ => ofInt_ne_nan n

theorem isNumber_real {x : Double} (h : x ≠ .nan) : (Number.real x).IsNumber :=
  fun _ => convert_ne_nan h

theorem isNumber_ofInteger (negative : Bool) (significand : Nat) :
    (ofInteger negative significand).IsNumber := by
  unfold ofInteger
  split
  · exact isNumber_natural _
  · split
    · exact isNumber_real (neg_ne_nan (ofInt_ne_nan _))
    · exact isNumber_negative _

theorem powerOfTen_eq {n : Nat} (hn : n ≤ 308) :
    powerOfTen n = ofRatio double false (10 ^ n) 1 0 := by
  have hhigh : ¬ double.maxExponent + double.precision < (n : Int) := by
    simp only [double]
    omega
  have hlow : ¬ ((Nat.log2 1 : Nat) : Int) + 1 + 3 * n < double.minExponent - 1 := by
    simp only [double]
    omega
  simp only [powerOfTen, ofDecimal, if_neg hhigh, if_neg hlow, if_pos (Int.natCast_nonneg n),
    Int.toNat_natCast, one_ne_zero, if_false, one_mul]
  rfl

theorem nearest_tenPow_lt_limit {n : Nat} (hn : n ≤ 308) :
    |double.nearest (10 ^ n)| < double.limit := by
  have hle : |(10 : Rat) ^ n| ≤ 3 * 2 ^ 1022 := by
    have : 10 ^ 308 ≤ 3 * 2 ^ 1022 := by decide +kernel
    rw [abs_of_pos (by positivity)]
    exact (pow_le_pow_right₀ (by norm_num) hn).trans (by exact_mod_cast this)
  -- A bound with two digits is a number of the format, and less than its limit.
  have hrepresents : double.Represents (3 * 2 ^ 1022) :=
    .mul_twoPow (Format.represents_intCast (n := 3) (by decide) (by decide +kernel)) 1022
  have hlimit : (double.limit : Rat) = 4 * 2 ^ 1022 := by
    rw [show (4 : Rat) = 2 ^ 2 by norm_num, ← pow_add]
    rfl
  refine (Format.abs_nearest_le hrepresents hle).trans_lt ?_
  rw [hlimit]
  exact mul_lt_mul_of_pos_right (by norm_num) (by positivity)

/-- No power of ten up to the greatest one is rounded to an infinity, and none to zero. -/
theorem exists_denotes_powerOfTen {n : Nat} (hn : n ≤ 308) :
    ∃ q, (powerOfTen n).Denotes q ∧ q ≠ 0 := by
  have hone : 1 ≤ double.nearest (10 ^ n) := by
    have hrepresents : double.Represents ((1 : Int) : Rat) :=
      Format.represents_intCast (by decide) (by decide +kernel)
    rw [Int.cast_one] at hrepresents
    rw [← double.nearest_eq_self hrepresents]
    exact double.nearest_mono (one_le_pow₀ (by norm_num))
  have hround := denotes_ofRatio (f := double) false (10 ^ n) one_pos 0
  simp only [signed, Bool.false_eq_true, if_false, Nat.cast_one, div_one, zpow_zero,
    mul_one] at hround
  push_cast at hround
  refine ⟨double.nearest (10 ^ n), ?_, by linarith⟩
  rw [powerOfTen_eq hn]
  exact hround (nearest_tenPow_lt_limit hn)

theorem div_powerOfTen_ne_nan {x : Double} (hx : x ≠ .nan) {n : Nat} (hn : n ≤ 308) :
    Binary.div x (powerOfTen n) ≠ .nan := by
  obtain ⟨q, hpower, hq⟩ := exists_denotes_powerOfTen hn
  exact div_ne_nan hx hpower hq

theorem scaleByTen_ne_nan {x y : Double} {exponent : Int} {steps : Nat} (hx : x ≠ .nan)
    (h : scaleByTen x exponent steps = .ok y) : y ≠ .nan := by
  induction steps generalizing x exponent with
  | zero =>
    cases h
    exact nofun
  | succ n ih =>
    unfold scaleByTen at h
    split at h
    · rename_i hsmall
      split at h
      · -- A product is a result only if it is finite.
        split at h <;> cases h
        exact nofun
      · cases h
        exact div_powerOfTen_ne_nan hx hsmall
    · split at h
      · cases h
        exact hx
      · split at h
        · cases h
        · exact ih (div_powerOfTen_ne_nan hx (by decide)) h

theorem isNumber_ofScientific {negative : Bool} {significand : Nat} {exponent : Int} {n : Number}
    (h : ofScientific negative significand exponent = .ok n) : n.IsNumber := by
  unfold ofScientific at h
  cases hscale : scaleByTen (.ofInt significand) exponent 4 with
  | error fault =>
    rw [hscale] at h
    cases h
  | ok x =>
    rw [hscale] at h
    cases h
    have hx := scaleByTen_ne_nan (ofInt_ne_nan _) hscale
    cases negative
    · exact isNumber_real hx
    · exact isNumber_real (neg_ne_nan hx)

theorem gives_takeNumber (negative : Bool) : Gives (takeNumber negative) Number.IsNumber := by
  have hscientific (significand : Nat) (exponent : Int) :
      Gives (liftM (ofScientific negative significand exponent) : Reader Number)
        Number.IsNumber := .lift fun _ h => isNumber_ofScientific h
  refine .after fun whole => .after fun next => ?_
  split
  · exact .after fun _ => .after fun fraction => .after fun e => hscientific _ _
  · refine .after fun e => ?_
    cases e with
    | some e => exact hscientific _ _
    | none =>
      dsimp only
      split
      · exact .pure (isNumber_ofInteger _ _)
      · exact hscientific _ _

theorem gives_mistyped : Gives (mistyped : Reader α) P := by
  -- Whatever is taken before, nothing is returned.
  have hend {β : Type} (r : Reader β) : Gives (r >>= fun _ => (throw .mistyped : Reader α)) P :=
    .after fun _ => .throw _
  refine .after fun c => ?_
  split
  iterate 5 exact .after fun _ => hend _
  iterate 2 exact .throw _
  dsimp only
  split <;> exact hend _
end TourMap.Json
