import TourMap.Proofs.Number.Magnitude

/-!
# Integral: from binary numbers to integers

A binary number is rounded to the nearest integer in steps, the cutting off of its fraction, a
comparison and the addition of one. As long as the integers near it have no more digits than the
precision, each step is exact, and so is the number of eighths, or of any other binary fraction.
-/

namespace TourMap

open Arithmetic

namespace Binary

variable {f : Format} {x lo hi : Binary f} {q a b : Rat}

/-! ## 1. Integers -/

theorem Denotes.toInt_eq {n : Int} (h : x.Denotes n) : toInt x = n := by
  obtain ⟨s, m, e, hm, rfl, hn⟩ := h.exists_finite
  have hwhole := cast_wholePart s m e
  rw [← hn, trunc_intCast] at hwhole
  exact Int.cast_injective hwhole

theorem Denotes.clamp_eq (hlo : lo.Denotes a) (hhi : hi.Denotes b) (hx : x.Denotes q) (hlow : a ≤ q)
    (hhigh : q ≤ b) : clamp x lo hi = x :=
  ((hlo.within_iff hhi hx).2 ⟨hlow, hhigh⟩).clamp_eq

/-- The sum of two integers is not rounded if it is not too large. -/
theorem Denotes.add_intCast (hf : f.HasIntegers) {y : Binary f} {m n : Int} (hx : x.Denotes m)
    (hy : y.Denotes n) (h : (m + n).natAbs ≤ 2 ^ f.precision) : (x + y).Denotes (m + n : Int) := by
  have hself : f.nearest (m + n) = (m + n : Int) := by
    have := Format.nearest_eq_self (Format.represents_intCast hf.1 h)
    push_cast at this ⊢
    exact this
  rw [← hself]
  exact hx.add hy (hself ▸ abs_intCast_lt_limit hf h)

/-! ## 2. The nearest integer -/

theorem Denotes.represents_sub_trunc (h : x.Denotes q) : f.Represents (q - Arithmetic.trunc q) := by
  obtain ⟨s, m, e, ⟨hm, hlow, -, -⟩, -, rfl⟩ := h.exists_finite
  rw [twoPow_eq] at hm
  have hrest : ∃ m', m' ≤ m ∧ (signed s m * 2 ^ e : Rat) -
      Arithmetic.trunc (signed s m * 2 ^ e : Rat) = signed s m' * 2 ^ e := by
    rw [← cast_wholePart]
    by_cases he : 0 ≤ e
    · -- There is no fraction.
      obtain ⟨k, rfl⟩ := Int.eq_ofNat_of_zero_le he
      refine ⟨0, Nat.zero_le _, ?_⟩
      rw [cast_wholePart, ← cast_signed_mul, trunc_intCast, sub_self]
      cases s <;> simp [signed]
    · obtain ⟨k, hk⟩ := Int.eq_ofNat_of_zero_le (by omega : 0 ≤ -e)
      obtain rfl : e = -(k : Int) := by omega
      -- The digits behind the point are the last ones of the number.
      refine ⟨m % 2 ^ k, Nat.mod_le _ _, ?_⟩
      have hdiv : (2 : Rat) ^ k * (m / 2 ^ k : Nat) + (m % 2 ^ k : Nat) = m := by
        exact_mod_cast Nat.div_add_mod m (2 ^ k)
      rw [wholePart, if_neg he, neg_neg, Int.toNat_natCast, Nat.shiftRight_eq_div_pow, zpow_neg,
        zpow_natCast, cast_signed, cast_signed, cast_signed]
      cases s <;> field_simp <;> simp <;> linarith
  obtain ⟨m', hle, hrest⟩ := hrest
  rw [hrest]
  exact represents_signed s (hle.trans hm.le) hlow

/-- Near the integers of a format a number is rounded exactly. -/
theorem Denotes.round (hf : f.HasIntegers) (hhalf : f.Spans (-1)) (hx : x.Denotes q)
    (hq : |q| + 1 ≤ 2 ^ f.precision) : (Arithmetic.round x).Denotes (roundAway q) := by
  obtain ⟨n, hn⟩ : ∃ n : Int, Arithmetic.trunc q = n := ⟨_, trunc_rat q⟩
  have hwhole := hx.trunc
  have hone : (Arithmetic.ofInt 1 : Binary f).Denotes (1 : Int) :=
    denotes_ofInt hf Nat.one_le_two_pow
  have hminus : (-(Arithmetic.ofInt 1 : Binary f)).Denotes (-1 : Int) := by
    have hneg := hone.neg
    rwa [← Int.cast_neg] at hneg
  have hrest : (x - Arithmetic.trunc x).Denotes (q - Arithmetic.trunc q) := by
    have hself := Format.nearest_eq_self hx.represents_sub_trunc
    have hlimit : (1 : Rat) < f.limit := by
      simpa using abs_intCast_lt_limit hf (n := 1) Nat.one_le_two_pow
    have hsub := hx.sub hwhole (hself.symm ▸ (abs_sub_trunc_lt q).trans hlimit)
    rwa [hself] at hsub
  have hhalf : (half : Binary f).Denotes (1 / 2) := by
    have hpow := denotes_exp2 hhalf
    rwa [zpow_neg_one, ← one_div] at hpow
  have hbound : n.natAbs + 1 ≤ 2 ^ f.precision := by
    have hle : |(n : Rat)| ≤ |q| := hn ▸ abs_trunc_le q
    rw [← Int.cast_abs, ← Nat.cast_natAbs] at hle
    exact_mod_cast (add_le_add_left hle 1).trans hq
  rw [hn] at hwhole hrest
  rw [← round_rat]
  unfold Arithmetic.round
  dsimp only
  rw [hn, half_rat]
  -- The steps on the number take the same branches as those on what it denotes.
  by_cases hless : q - n < 1 / 2
  · rw [if_pos hless, if_pos ((hrest.lt_iff hhalf).2 hless)]
    by_cases hmore : -(1 / 2) < q - n
    · rw [if_pos hmore, if_pos ((hhalf.neg.lt_iff hrest).2 hmore)]
      exact hwhole
    · rw [if_neg hmore, if_neg (mt (hhalf.neg.lt_iff hrest).1 hmore)]
      have hsum : (Arithmetic.trunc x - Arithmetic.ofInt 1).Denotes (n + -1 : Int) :=
        hwhole.add_intCast hf hminus (by omega)
      push_cast at hsum
      rw [← sub_eq_add_neg] at hsum
      exact hsum
  · rw [if_neg hless, if_neg (mt (hrest.lt_iff hhalf).1 hless)]
    have hsum := hwhole.add_intCast hf hone (by omega)
    push_cast at hsum
    exact hsum

end Binary

end TourMap
