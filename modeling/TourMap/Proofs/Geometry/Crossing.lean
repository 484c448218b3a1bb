import Mathlib.Algebra.Order.Group.Pointwise.Interval
import TourMap.Proofs.Geometry.Clipper
import TourMap.Proofs.Geometry.Segment
import TourMap.Proofs.Number.Magnitude

/-!
# Crossing: clipping with rounded numbers

Where a segment crosses a border, the quotient by which it is divided is rounded to one at most, for
the border lies between the ends. So a round of clipping takes an end to a point not much further away
than the ends are, and no number of the computation is too large for its format.
-/

namespace TourMap

open Arithmetic

namespace Binary

variable {f : Format}

/-! ## 1. Dividing a segment -/

theorem Denotes.exists_units {x : Binary f} {q : Rat} (h : x.Denotes q) :
    ∃ n : Int, q = n * f.unit := by
  obtain ⟨s, m, e, ⟨-, hlow, -, -⟩, -, rfl⟩ := h.exists_finite
  obtain ⟨d, hd⟩ := Int.eq_ofNat_of_zero_le (by omega : 0 ≤ e - f.minExponent)
  obtain rfl : e = d + f.minExponent := by omega
  refine ⟨signed s m * 2 ^ d, ?_⟩
  rw [zpow_add₀ two_ne_zero, zpow_natCast, Format.unit]
  push_cast
  ring

/-- Different numbers are no nearer to each other than the least number is to zero. -/
theorem Denotes.unit_le_abs_sub {x y : Binary f} {q r : Rat} (hx : x.Denotes q) (hy : y.Denotes r)
    (hne : q ≠ r) : f.unit ≤ |q - r| := by
  obtain ⟨n, rfl⟩ := hx.exists_units
  obtain ⟨n', rfl⟩ := hy.exists_units
  have hunit := f.unit_pos
  have hsub : n - n' ≠ 0 := by
    intro hzero
    exact hne (by rw [sub_eq_zero.1 hzero])
  have hone : (1 : Rat) ≤ |((n - n' : Int) : Rat)| := by
    exact_mod_cast Int.one_le_abs hsub
  rw [← sub_mul, abs_mul, abs_of_pos hunit, ← Int.cast_sub]
  exact le_mul_of_one_le_left hunit.le hone

/-- So their distance is not rounded to zero. -/
theorem Denotes.nearest_sub_ne_zero {x y : Binary f} {q r : Rat} (hx : x.Denotes q)
    (hy : y.Denotes r) (hne : q ≠ r) : f.nearest (q - r) ≠ 0 := by
  have hself : f.nearest f.unit = f.unit :=
    Format.nearest_eq_self (Format.represents_twoPow (le_refl _))
  have hmono := f.nearest_mono (hx.unit_le_abs_sub hy hne)
  rw [hself, ← f.abs_nearest] at hmono
  exact abs_pos.1 (f.unit_pos.trans_le hmono)

/-- A factor that is divided by no less than it is multiplied by grows no further than to the next
power of two. -/
theorem bounded_mul_div {u v w : Binary f} {α β γ : Rat} {k : Nat} (hu : u.Denotes α)
    (hv : v.Denotes β) (hw : w.Denotes γ) (hα : |α| ≤ 2 ^ k) (hγ : |γ| ≤ 2 ^ k) (hβγ : |β| ≤ |γ|)
    (hne : γ ≠ 0) (hk : f.Spans k) (hk' : f.Spans (2 * k)) : Bounded k (u * v / w) := by
  -- The product is bounded by the divisor times a power of two, which is a number of the format.
  have hrep : f.Represents (|γ| * 2 ^ k) := by
    obtain ⟨m, d, hm, hmd⟩ := hw.represents
    exact .mul_twoPow ⟨m, d, hm, by rwa [abs_abs]⟩ k
  have hprod : |α * β| ≤ |γ| * 2 ^ k := by
    rw [abs_mul, mul_comm]
    exact mul_le_mul hβγ hα (abs_nonneg α) (abs_nonneg γ)
  have hprod_le := Format.abs_nearest_le hrep hprod
  have hfit : |f.nearest (α * β)| < f.limit := by
    calc |f.nearest (α * β)| ≤ |γ| * 2 ^ k := hprod_le
      _ ≤ 2 ^ k * 2 ^ k := mul_le_mul_of_nonneg_right hγ (by positivity)
      _ = 2 ^ (2 * (k : Int)) := by
          rw [two_mul, zpow_add₀ two_ne_zero, zpow_natCast]
      _ < f.limit := hk'.lt_limit
  have huv := hu.mul hv hfit
  generalize f.nearest (α * β) = δ at huv hprod_le
  have hquot : |δ / γ| ≤ 2 ^ (k : Int) := by
    rw [abs_div, div_le_iff₀ (abs_pos.2 hne), zpow_natCast, mul_comm]
    exact hprod_le
  exact .of_nearest hk hquot (huv.div hw hne)

/-- The point of a segment that is at the height `y`, between those of its ends. -/
theorem bounded_interpolation {k : Nat} {x₀ x₁ y₀ y₁ y : Binary f} {a b c : Rat}
    (hf : f.HasIntegers) (hk : f.Spans (2 * k + 2)) (hx₀ : Bounded k x₀) (hx₁ : Bounded k x₁)
    (hy₀ : y₀.Denotes a) (hy₁ : y₁.Denotes c) (hy : y.Denotes b)
    (hsize₀ : |a| ≤ 2 ^ (k : Int)) (hsize₁ : |c| ≤ 2 ^ (k : Int))
    (hbetween : b ∈ Set.uIcc a c) (hne : a ≠ c) :
    Bounded (k + 2) (x₀ + (x₁ - x₀) * (y - y₀) / (y₁ - y₀)) := by
  have hspan {j : Int} (h₀ : 0 ≤ j) (h₁ : j ≤ 2 * k + 2) : f.Spans j :=
    ⟨hf.1.trans h₀, by have := hk.2; omega⟩
  have hk₁ : f.Spans (k + 1) := hspan (by omega) (by omega)
  have hpow : (2 : Rat) ^ ((k : Int) + 1) = 2 ^ (k + 1) := by exact_mod_cast rfl
  obtain ⟨α, hα, hα_le⟩ := hx₁.sub hx₀ hk₁
  -- The height of the point is no further from the first end than that of the second end is.
  have hac : |c - a| ≤ 2 ^ ((k : Int) + 1) := abs_sub_le_twoPow hsize₁ hsize₀
  have hab : |b - a| ≤ |c - a| := Set.abs_sub_left_of_mem_uIcc hbetween
  have hβ := hy.sub hy₀ (hk₁.abs_nearest_lt_limit (hab.trans hac))
  have hγ := hy₁.sub hy₀ (hk₁.abs_nearest_lt_limit hac)
  have hβγ : |f.nearest (b - a)| ≤ |f.nearest (c - a)| := by
    rw [f.abs_nearest, f.abs_nearest]
    exact f.nearest_mono hab
  have hγ_le := hk₁.abs_nearest_le hac
  rw [hpow] at hα_le hγ_le
  have hpart : Bounded ((k : Int) + 1) ((x₁ - x₀) * (y - y₀) / (y₁ - y₀)) := by
    have := bounded_mul_div hα hβ hγ hα_le hγ_le hβγ (hy₁.nearest_sub_ne_zero hy₀ hne.symm)
      (hspan (by omega) (by push_cast; omega)) (hspan (by omega) (by push_cast; omega))
    exact_mod_cast this
  have hsum := (hx₀.mono (by omega : (k : Int) ≤ k + 1)).add hpart (hspan (by omega) (by omega))
  exact hsum.mono (by omega)

end Binary

/-! ## 2. Taking an end to a border -/

variable {f : Format} {k : Nat}

/-- Whether both coordinates of a point are finite and no greater than a power of two. -/
structure Point.Bounded (k : Int) (p : Point (Binary f)) : Prop where
  x : Binary.Bounded k p.x
  y : Binary.Bounded k p.y

/-- Whether the borders of a rectangle are finite and in order. -/
structure Region.Sound (k : Int) (r : Region (Binary f)) : Prop where
  min : r.min.Bounded k
  max : r.max.Bounded k
  x : ¬ r.max.x < r.min.x
  y : ¬ r.max.y < r.min.y

/-- Whether a point lies in a rectangle; what is not a number lies in none. -/
structure Region.Encloses {α : Type} [Arithmetic α] (r : Region α) (p : Point α) : Prop where
  x : Within r.min.x r.max.x p.x
  y : Within r.min.y r.max.y p.y

/-- The border that coordinates of a side are beyond. -/
def Side.border {α : Type} (lo hi : α) : Side → α
  | .above => hi
  | _ => lo

theorem Side.of_eq_within_iff {α : Type} [Arithmetic α] {lo hi v : α} :
    Side.of v lo hi = .within ↔ ¬ v < lo ∧ ¬ hi < v := by
  unfold Side.of
  by_cases hlow : v < lo
  · simp [hlow]
  · by_cases hhigh : hi < v <;> simp [hlow, hhigh]

theorem Region.encloses_of_outcode {r : Region (Binary f)} {p : Point (Binary f)}
    (hp : p.Bounded k) (h : r.outcode p = .inside) : r.Encloses p := by
  obtain ⟨hx, hy⟩ := Outcode.mk.inj h
  obtain ⟨hx₁, hx₂⟩ := Side.of_eq_within_iff.1 hx
  obtain ⟨hy₁, hy₂⟩ := Side.of_eq_within_iff.1 hy
  exact ⟨⟨Binary.isNaN_eq_false_iff.2 (Binary.ne_nan_of_isFinite hp.x.isFinite), hx₁, hx₂⟩,
    ⟨Binary.isNaN_eq_false_iff.2 (Binary.ne_nan_of_isFinite hp.y.isFinite), hy₁, hy₂⟩⟩

/-- A border that only one of two coordinates is beyond lies between them. -/
theorem Side.border_between {lo hi v w : Binary f} {a b p q : Rat} (hlo : lo.Denotes a)
    (hhi : hi.Denotes b) (hle : ¬ hi < lo) (hv : v.Denotes p) (hw : w.Denotes q)
    (hout : Side.of v lo hi ≠ .within) (hother : Side.of w lo hi ≠ Side.of v lo hi) :
    ∃ c, ((Side.of v lo hi).border lo hi).Denotes c ∧ c ∈ Set.uIcc p q ∧ p ≠ q := by
  have hab : a ≤ b := not_lt.1 (mt (hhi.lt_iff hlo).2 hle)
  by_cases hlow : v < lo
  · have hside : Side.of v lo hi = .below := if_pos hlow
    have hw' : ¬ w < lo := fun h => hother (by rw [hside]; exact if_pos h)
    have hp : p < a := (hv.lt_iff hlo).1 hlow
    have hq : a ≤ q := not_lt.1 (mt (hw.lt_iff hlo).2 hw')
    rw [hside]
    exact ⟨a, hlo, Set.mem_uIcc.2 (.inl ⟨hp.le, hq⟩), (hp.trans_le hq).ne⟩
  · have hhigh : hi < v := by
      by_contra hnot
      exact hout (Side.of_eq_within_iff.2 ⟨hlow, hnot⟩)
    have hside : Side.of v lo hi = .above := by
      unfold Side.of
      rw [if_neg hlow, if_pos hhigh]
    have hp : b < p := (hhi.lt_iff hv).1 hhigh
    have hq : q ≤ b := by
      by_contra hnot
      -- Above the upper border and not below the lower one.
      have hlt : b < q := not_le.1 hnot
      apply hother
      rw [hside]
      unfold Side.of
      have hnot_low : ¬ w < lo := mt (hw.lt_iff hlo).1 (not_lt.2 (hab.trans hlt.le))
      rw [if_neg hnot_low, if_pos ((hhi.lt_iff hw).2 hlt)]
    rw [hside]
    exact ⟨b, hhi, Set.mem_uIcc.2 (.inr ⟨hq, hp.le⟩), (hq.trans_lt hp).ne'⟩

/-- It does not matter which of the two coordinates is beyond the border. -/
theorem Side.border_between_ends {lo hi v w : Binary f} {a b p q : Rat} {out : Side}
    (hlo : lo.Denotes a) (hhi : hi.Denotes b) (hle : ¬ hi < lo) (hv : v.Denotes p)
    (hw : w.Denotes q) (hend : out = Side.of v lo hi ∨ out = Side.of w lo hi)
    (hout : out ≠ .within) (hne : Side.of v lo hi ≠ Side.of w lo hi) :
    ∃ c, (out.border lo hi).Denotes c ∧ c ∈ Set.uIcc p q ∧ p ≠ q := by
  rcases hend with rfl | rfl
  · exact Side.border_between hlo hhi hle hv hw hout hne.symm
  · obtain ⟨c, hc, hbetween, hends⟩ := Side.border_between hlo hhi hle hw hv hout hne
    rw [Set.uIcc_comm] at hbetween
    exact ⟨c, hc, hbetween, hends.symm⟩

theorem Point.Bounded.mono {j k : Int} {p : Point (Binary f)} (h : p.Bounded j) (hjk : j ≤ k) :
    p.Bounded k := ⟨h.x.mono hjk, h.y.mono hjk⟩

namespace Region

variable {r : Region (Binary f)} {s t : Segment (Binary f)} {y : Binary f} {a b c : Rat}

theorem Sound.mono {j k : Int} (h : r.Sound j) (hjk : j ≤ k) : r.Sound k :=
  ⟨h.min.mono hjk, h.max.mono hjk, h.x, h.y⟩

theorem abs_le_of_mem_uIcc {d : Rat} (hb : b ∈ Set.uIcc a c) (ha : |a| ≤ d) (hc : |c| ≤ d) :
    |b| ≤ d := by
  rw [abs_le] at *
  rcases Set.mem_uIcc.1 hb with ⟨hlow, hhigh⟩ | ⟨hlow, hhigh⟩ <;> constructor <;> linarith

section

variable (hf : f.HasIntegers) (hk : f.Spans (2 * k + 2)) (hfirst : s.first.Bounded k)
  (hsecond : s.second.Bounded k)

include hf hk hfirst hsecond

theorem bounded_atHeight (ha : s.first.y.Denotes a) (hc : s.second.y.Denotes c) (hy : y.Denotes b)
    (hb : b ∈ Set.uIcc a c) (hne : a ≠ c) : (atHeight s y).Bounded (k + 2) := by
  obtain ⟨a', ha', hsize₀⟩ := hfirst.y
  obtain ⟨c', hc', hsize₁⟩ := hsecond.y
  obtain rfl := ha.eq ha'
  obtain rfl := hc.eq hc'
  have hborder := hy.bounded (abs_le_of_mem_uIcc hb hsize₀ hsize₁)
  exact ⟨Binary.bounded_interpolation hf hk hfirst.x hsecond.x ha hc hy hsize₀ hsize₁ hb hne,
    hborder.mono (by omega)⟩

theorem bounded_atAbscissa (ha : s.first.x.Denotes a) (hc : s.second.x.Denotes c)
    (hy : y.Denotes b) (hb : b ∈ Set.uIcc a c) (hne : a ≠ c) :
    (atAbscissa s y).Bounded (k + 2) := by
  obtain ⟨a', ha', hsize₀⟩ := hfirst.x
  obtain ⟨c', hc', hsize₁⟩ := hsecond.x
  obtain rfl := ha.eq ha'
  obtain rfl := hc.eq hc'
  have hborder := hy.bounded (abs_le_of_mem_uIcc hb hsize₀ hsize₁)
  exact ⟨hborder.mono (by omega),
    Binary.bounded_interpolation hf hk hfirst.y hsecond.y ha hc hy hsize₀ hsize₁ hb hne⟩

end

theorem crossing_eq_border {out : Outcode} :
    r.crossing s out = if out.y = .within then atAbscissa s (out.x.border r.min.x r.max.x)
      else atHeight s (out.y.border r.min.y r.max.y) := by
  obtain ⟨x, y⟩ := out
  cases y with
  | above | below => rfl
  | within => cases x <;> rfl

theorem ne_of_not_sharesSide {a b out : Outcode} (h : ¬ a.sharesSide b = true)
    (hend : out = a ∨ out = b) :
    (out.x ≠ .within → a.x ≠ b.x) ∧ (out.y ≠ .within → a.y ≠ b.y) := by
  simp only [Outcode.sharesSide, Bool.or_eq_true, Bool.and_eq_true, bne_iff_ne, beq_iff_eq,
    not_or, not_and] at h
  rcases hend with rfl | rfl
  · exact h
  · exact ⟨fun hx hab => h.1 (hab ▸ hx) hab, fun hy hab => h.2 (hab ▸ hy) hab⟩

/-- The end of a segment that lies beyond a border is taken to a point of bounded coordinates. -/
theorem bounded_crossing (hf : f.HasIntegers) (hk : f.Spans (2 * k + 2)) (hr : r.Sound k)
    (hfirst : s.first.Bounded k) (hsecond : s.second.Bounded k)
    (hshares : ¬ (r.outcode s.first).sharesSide (r.outcode s.second) = true) {out : Outcode}
    (hout : out ≠ .inside) (hend : out = r.outcode s.first ∨ out = r.outcode s.second) :
    (r.crossing s out).Bounded (k + 2) := by
  obtain ⟨hne_x, hne_y⟩ := ne_of_not_sharesSide hshares hend
  obtain ⟨lox, hlox, -⟩ := hr.min.x
  obtain ⟨loy, hloy, -⟩ := hr.min.y
  obtain ⟨hix, hhix, -⟩ := hr.max.x
  obtain ⟨hiy, hhiy, -⟩ := hr.max.y
  obtain ⟨x₀, hx₀, -⟩ := hfirst.x
  obtain ⟨y₀, hy₀, -⟩ := hfirst.y
  obtain ⟨x₁, hx₁, -⟩ := hsecond.x
  obtain ⟨y₁, hy₁, -⟩ := hsecond.y
  rw [crossing_eq_border]
  split
  · rename_i hwithin
    -- Beyond no horizontal border, the end is beyond a vertical one.
    have hx : out.x ≠ .within := fun hx => hout (congrArg₂ Outcode.mk hx hwithin)
    have hend_x : out.x = (r.outcode s.first).x ∨ out.x = (r.outcode s.second).x :=
      hend.imp (congrArg Outcode.x) (congrArg Outcode.x)
    obtain ⟨c, hc, hbetween, hne⟩ :=
      Side.border_between_ends hlox hhix hr.x hx₀ hx₁ hend_x hx (hne_x hx)
    exact bounded_atAbscissa hf hk hfirst hsecond hx₀ hx₁ hc hbetween hne
  · rename_i hy
    have hend_y : out.y = (r.outcode s.first).y ∨ out.y = (r.outcode s.second).y :=
      hend.imp (congrArg Outcode.y) (congrArg Outcode.y)
    obtain ⟨c, hc, hbetween, hne⟩ :=
      Side.border_between_ends hloy hhiy hr.y hy₀ hy₁ hend_y hy (hne_y hy)
    exact bounded_atHeight hf hk hfirst hsecond hy₀ hy₁ hc hbetween hne

/-! ## 3. Rounds -/

/-- What is left of a segment after some rounds lies in the rectangle. -/
theorem clip_encloses (hf : f.HasIntegers) {n : Nat} (hk : f.Spans (2 * (k + 2 * n) + 2))
    (hr : r.Sound k) (hfirst : s.first.Bounded k) (hsecond : s.second.Bounded k)
    (hclip : r.clip n s (r.outcode s.first) (r.outcode s.second) = some t) :
    r.Encloses t.first ∧ r.Encloses t.second := by
  -- Induction on the rounds: each may take an end four times as far away.
  induction n generalizing k s with
  | zero =>
    unfold clip at hclip
    split at hclip
    · rename_i hinside
      obtain rfl := Option.some.inj hclip
      exact ⟨encloses_of_outcode hfirst hinside.1, encloses_of_outcode hsecond hinside.2⟩
    · cases hclip
  | succ n ih =>
    have hspan : f.Spans (2 * k + 2) := by
      obtain ⟨hlow, hhigh⟩ := hk
      have := hf.1
      exact ⟨by omega, by push_cast at hhigh; omega⟩
    have hnext : f.Spans (2 * ((k + 2 : Nat) + 2 * n) + 2) := by
      convert hk using 1
      push_cast
      ring
    by_cases hshares : (r.outcode s.first).sharesSide (r.outcode s.second) = true
    · rw [clip_sharesSide r _ s hshares] at hclip
      cases hclip
    · have hcross {out : Outcode} (hne : out ≠ .inside)
          (hout : out = r.outcode s.first ∨ out = r.outcode s.second) :
          (r.crossing s out).Bounded ((k + 2 : Nat) : Int) :=
        bounded_crossing hf hspan hr hfirst hsecond hshares hne hout
      have hgrow {p : Point (Binary f)} (hp : p.Bounded (k : Int)) :
          p.Bounded ((k + 2 : Nat) : Int) := hp.mono (by omega)
      have hr' := hr.mono (by omega : (k : Int) ≤ (k + 2 : Nat))
      -- A round takes the first end to a border if it is outside, else the second one.
      by_cases hfirst_in : r.outcode s.first = .inside
      · by_cases hsecond_in : r.outcode s.second = .inside
        · rw [hfirst_in, hsecond_in, clip_inside] at hclip
          obtain rfl := Option.some.inj hclip
          exact ⟨encloses_of_outcode hfirst hfirst_in, encloses_of_outcode hsecond hsecond_in⟩
        · have hp : (r.crossing s (r.outcode s.second)).Bounded ((k + 2 : Nat) : Int) :=
            hcross hsecond_in (.inr rfl)
          rw [hfirst_in, clip_second r n s hsecond_in, ← hfirst_in] at hclip
          exact ih (s := ⟨s.first, r.crossing s (r.outcode s.second)⟩) hnext hr' (hgrow hfirst) hp
            hclip
      · have hp : (r.crossing s (r.outcode s.first)).Bounded ((k + 2 : Nat) : Int) :=
          hcross hfirst_in (.inl rfl)
        rw [clip_first r n s hfirst_in hshares] at hclip
        exact ih (s := ⟨r.crossing s (r.outcode s.first), s.second⟩) hnext hr' hp (hgrow hsecond)
          hclip

end Region

end TourMap
