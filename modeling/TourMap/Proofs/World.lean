import TourMap.Proofs.Animation.Turn
import TourMap.Proofs.Geometry.Crossing
import TourMap.Proofs.Position
import TourMap.Trace

/-!
# World: positions stay in the unit square

What is projected lies in the unit square, whatever its degrees are. A map that is moved by a number
of pixels stays there: along one axis only a fraction is left, of a finite number at least, and along
the other one the position is brought back to the border. Seen from a position in the square, the
pixels of the world are finite.
-/

namespace TourMap

open Arithmetic Binary

/-- Whether a point lies in the unit square. -/
structure Point.InSquare (p : Point Double) : Prop where
  x : Within (Arithmetic.ofInt 0) (Arithmetic.ofInt 1) p.x
  y : Within (Arithmetic.ofInt 0) (Arithmetic.ofInt 1) p.y

theorem unit_denotes : (Arithmetic.ofInt 0 : Double).Denotes 0 ∧
    (Arithmetic.ofInt 1 : Double).Denotes 1 :=
  ⟨denotes_zero double_hasIntegers, denotes_one double_hasIntegers⟩

theorem within_clamp_unit {x : Double} (hx : x ≠ .nan) :
    Within (Arithmetic.ofInt 0) (Arithmetic.ofInt 1)
      (clamp x (Arithmetic.ofInt 0) (Arithmetic.ofInt 1)) :=
  within_clamp (by decide +kernel) (by decide +kernel) (isNaN_eq_false_iff.2 hx)

theorem exists_denotes_of_within_unit {x : Double}
    (h : Within (Arithmetic.ofInt 0) (Arithmetic.ofInt 1) x) : ∃ q, x.Denotes q ∧ 0 ≤ q ∧ q ≤ 1 :=
  exists_denotes_of_within unit_denotes.1 unit_denotes.2 h

theorem bounded_of_within_unit {x : Double}
    (h : Within (Arithmetic.ofInt 0) (Arithmetic.ofInt 1) x) : Binary.Bounded 0 x := by
  obtain ⟨q, hq, hlow, hhigh⟩ := exists_denotes_of_within_unit h
  exact hq.bounded (by rw [zpow_zero, abs_of_nonneg hlow]; exact hhigh)

/-! ## 1. Projected points -/

namespace GeoPoint

/-- Degrees are brought between their limits, those that are no number as well. -/
theorem isFinite_inRange (limit : Double) (hlimit : limit.isFinite = true)
    (hlow : Within (-limit) limit (-limit)) (hhigh : Within (-limit) limit limit)
    (hzero : Within (-limit) limit (Arithmetic.ofInt 0)) (degrees : Double) :
    (inRange degrees limit).isFinite = true := by
  have hin : Within (-limit) limit (inRange degrees limit) := by
    unfold inRange
    split
    · exact hzero
    · rename_i hnumber
      exact within_clamp hlow hhigh (Bool.not_eq_true _ ▸ hnumber)
  have hpos := denotes_toRat hlimit
  obtain ⟨q, hq, -⟩ := exists_denotes_of_within hpos.neg hpos hin
  exact hq.isFinite

theorem liftFixed_ne_nan {limit : Int} {g : Int → Int} {x : Double} (hx : x ≠ .nan) :
    Binary.liftFixed limit g x ≠ .nan := by
  cases x with
  | nan => exact (hx rfl).elim
  | infinity | finite => exact ofRatio_ne_nan _ _ _ _

/-- Every point of the globe has its place in the unit square, whatever its degrees are. -/
theorem project_inSquare (p : GeoPoint Double) : p.project.InSquare := by
  have hlatitude := isFinite_inRange Mercator.maxLatitude (by decide +kernel)
    (by decide +kernel) (by decide +kernel) (by decide +kernel) p.latitude
  have hlongitude := isFinite_inRange maxLongitude (by decide +kernel)
    (by decide +kernel) (by decide +kernel) (by decide +kernel) p.longitude
  have hhalf : (half : Double).isFinite = true := by decide +kernel
  constructor
  · -- From West to East a longitude is scaled.
    have hcircle : (Arithmetic.ofInt 360 : Double).Denotes (360 : Int) :=
      denotes_ofInt double_hasIntegers (by decide)
    have hpart := div_ne_nan (ne_nan_of_isFinite hlongitude) hcircle (by norm_num)
    simp only [project]
    exact within_clamp_unit (add_ne_nan hhalf hpart)
  · -- The height of a latitude is a number, and the circumference that divides it is not zero.
    have hradians : (Mercator.pi / Arithmetic.ofInt 180 : Double).isFinite = true := by
      decide +kernel
    have hcircle : (Arithmetic.ofInt 2 * Mercator.pi : Double).isFinite = true := by decide +kernel
    have hcircle_ne : (Arithmetic.ofInt 2 * Mercator.pi : Double).toRat ≠ 0 := by decide +kernel
    have hheight : Mercator.heightOfLatitude (inRange p.latitude Mercator.maxLatitude *
        (Mercator.pi / Arithmetic.ofInt 180)) ≠ (.nan : Double) :=
      liftFixed_ne_nan (mul_ne_nan hlatitude hradians)
    have hpart := div_ne_nan hheight (denotes_toRat hcircle) hcircle_ne
    simp only [project]
    exact within_clamp_unit (sub_ne_nan hhalf hpart)

end GeoPoint

/-! ## 2. Moving maps -/

namespace MapPosition

variable {p : MapPosition Double}

theorem worldPixels_denotes (p : MapPosition Double) :
    p.worldPixels.Denotes (2 ^ ((8 : Int) + p.level)) := by
  have hlevel : p.level ≤ 24 := Nat.min_le_right _ _
  have htile : (Arithmetic.ofInt tileSize : Double).Denotes (tileSize : Int) :=
    denotes_ofInt double_hasIntegers (by decide)
  have hscale : p.scale.Denotes (2 ^ (p.level : Int)) :=
    denotes_exp2 ⟨by change (-1074 : Int) ≤ _; omega, by change _ < (53 : Int) + 971; omega⟩
  have hspan : double.Spans (8 + p.level) :=
    ⟨by change (-1074 : Int) ≤ _; omega, by change _ < (53 : Int) + 971; omega⟩
  have hprod : ((tileSize : Int) : Rat) * 2 ^ (p.level : Int) = 2 ^ ((8 : Int) + p.level) := by
    rw [zpow_add₀ two_ne_zero]
    norm_num [tileSize]
  have hself : double.nearest (2 ^ ((8 : Int) + p.level)) = 2 ^ ((8 : Int) + p.level) :=
    Format.nearest_eq_self (Format.represents_twoPow hspan.1)
  have hmul := htile.mul hscale
  rw [hprod, hself, abs_of_pos (zpow_pos two_pos _)] at hmul
  exact hmul hspan.lt_limit

/-- A map that is moved by a finite way to the East, and to the South by any way that is a number,
stays in the world. -/
theorem panPixels_inWorld (hp : p.InWorld) {dx dy : Double} (hdx : dx.isFinite = true)
    (hdy : dy ≠ .nan) : (p.panPixels dx dy).InWorld := by
  have hlevel : p.level ≤ 24 := Nat.min_le_right _ _
  have hworld := p.worldPixels_denotes
  constructor
  · -- Not even the longest finite way is infinite.
    have hway : Binary.Bounded 1024 dx := by
      have := denotes_toRat hdx
      exact this.bounded this.abs_lt_limit.le
    have hpart := hway.div hworld
      ⟨by change (-1074 : Int) ≤ _; omega, by change _ < (53 : Int) + 971; omega⟩
    have hstart := (bounded_of_within_unit hp.1).mono (k := 1024 - (8 + p.level)) (by omega)
    have hsum := hstart.add hpart
      ⟨by change (-1074 : Int) ≤ _; omega, by change _ < (53 : Int) + 971; omega⟩
    exact within_fract double_hasIntegers hsum.isFinite
  · have hpart := div_ne_nan hdy hworld (zpow_pos two_pos _).ne'
    exact within_clamp_unit (add_ne_nan (bounded_of_within_unit hp.2).isFinite hpart)

theorem along_inWorld (hp : p.InWorld) {pan : Point Double} (hx : pan.x.isFinite = true)
    (hy : pan.y ≠ .nan) (k : Nat) : (p.along pan k).InWorld := by
  induction k with
  | zero => exact hp
  | succ k ih => exact panPixels_inWorld ih hx hy

theorem not_inWorld_of_eq_nan (h : p.x = .nan ∨ p.y = .nan) : ¬ p.InWorld := by
  rintro ⟨hx, hy⟩
  rcases h with h | h
  · exact isNaN_eq_false_iff.1 hx.number h
  · exact isNaN_eq_false_iff.1 hy.number h

theorem panPixels_x_eq_nan {dx dy : Double} (h : p.x = .nan ∨ p.InWorld ∧ dx.isFinite = false) :
    (p.panPixels dx dy).x = .nan := by
  -- An infinity has no fraction.
  have hsum : p.x + dx / p.worldPixels = .nan ∨ ∃ s, p.x + dx / p.worldPixels = .infinity s := by
    rcases h with hx | ⟨hp, hdx⟩
    · exact .inl (by rw [hx]; rfl)
    · obtain ⟨s, m, e, hm, hworld, -⟩ := p.worldPixels_denotes.exists_finite
      obtain ⟨s', m', e', hm', hx, -⟩ :=
        (denotes_toRat (bounded_of_within_unit hp.1).isFinite).exists_finite
      rw [hworld, hx]
      cases dx with
      | nan => exact .inl rfl
      | infinity s'' => exact .inr ⟨s'' != s, rfl⟩
      | finite => cases hdx
  change fract (p.x + dx / p.worldPixels) = _
  rcases hsum with h | ⟨s, h⟩
  · rw [h]
    rfl
  · rw [h]
    cases s <;> rfl

theorem add_nan {f : Format} (x : Binary f) : x + .nan = .nan := by
  change Binary.add x .nan = _
  cases x <;> rfl

theorem clamp_nan {f : Format} (lo hi : Binary f) : clamp .nan lo hi = .nan := by
  have hlow : ¬ (.nan : Binary f) < lo := Bool.false_ne_true
  have hhigh : ¬ hi < (.nan : Binary f) := by
    change ¬ Binary.lt hi .nan = true
    cases hi <;> exact Bool.false_ne_true
  rw [clamp, if_neg hlow, if_neg hhigh]

theorem panPixels_y_eq_nan (dx : Double) : (p.panPixels dx .nan).y = .nan := by
  change clamp (p.y + .nan / p.worldPixels) _ _ = _
  have hpart : (.nan : Double) / p.worldPixels = .nan := rfl
  rw [hpart, add_nan, clamp_nan]

/-- A map that is moved at all stays in the world exactly if the way to the East is finite and that to
the South is a number. -/
theorem along_inWorld_iff (hp : p.InWorld) {pan : Point Double} {k : Nat} (hk : 0 < k) :
    (p.along pan k).InWorld ↔ pan.x.isFinite = true ∧ pan.y ≠ .nan := by
  refine ⟨fun h => ⟨?_, fun hy => ?_⟩, fun h => along_inWorld hp h.1 h.2 k⟩
  · by_contra hx
    rw [Bool.not_eq_true] at hx
    -- The first move leads out of the world, and no other one back.
    have hout (n : Nat) : (p.along pan (n + 1)).x = .nan := by
      induction n with
      | zero => exact panPixels_x_eq_nan (.inr ⟨hp, hx⟩)
      | succ n ih => exact panPixels_x_eq_nan (.inl ih)
    obtain ⟨n, rfl⟩ := Nat.exists_eq_succ_of_ne_zero hk.ne'
    exact not_inWorld_of_eq_nan (.inl (hout n)) h
  · obtain ⟨n, rfl⟩ := Nat.exists_eq_succ_of_ne_zero hk.ne'
    refine not_inWorld_of_eq_nan (.inr ?_) h
    change ((p.along pan n).panPixels pan.x pan.y).y = _
    rw [hy, panPixels_y_eq_nan]

theorem ofPoint_inWorld {q : Point Double} (hq : q.InSquare) (zoom : Nat) :
    (ofPoint q zoom).InWorld := ⟨hq.x, hq.y⟩

theorem ofGeo_inWorld (center : GeoPoint Double) (zoom : Nat) : (ofGeo center zoom).InWorld :=
  ofPoint_inWorld center.project_inSquare zoom

/-! ## 3. Pixels -/

theorem double_spans {k : Int} (hlow : 0 ≤ k) (hhigh : k ≤ 1000) : double.Spans k :=
  ⟨by change (-1074 : Int) ≤ _; omega, by change _ < (53 : Int) + 971; omega⟩

section

variable {k : Int} {q : Point Double}

/-- The place of a coordinate of the world, counted in pixels from another number. -/
theorem place_bounded (p : MapPosition Double) (hlow : 0 ≤ k) (hhigh : k ≤ 60) {u v : Double}
    (hu : Within (Arithmetic.ofInt 0) (Arithmetic.ofInt 1) u) (hv : Binary.Bounded k v) :
    Binary.Bounded (k + 33) (Arithmetic.trunc ((u - v) * p.worldPixels)) := by
  have hlevel : p.level ≤ 24 := Nat.min_le_right _ _
  have hworld : Binary.Bounded (8 + p.level) p.worldPixels :=
    p.worldPixels_denotes.bounded (by rw [abs_of_pos (zpow_pos two_pos _)])
  have hway := ((bounded_of_within_unit hu).mono hlow).sub hv (double_spans (by omega) (by omega))
  exact (hway.mul hworld (double_spans (by omega) (by omega))).trunc.mono (by omega)

/-- A pixel may be moved by one world to the East or to the West. -/
theorem pixel_x_bounded (hlow : 0 ≤ k) (hhigh : k ≤ 60) (hp : Binary.Bounded k p.x)
    (hq : Within (Arithmetic.ofInt 0) (Arithmetic.ofInt 1) q.x) :
    Binary.Bounded (k + 34) (p.pixel q : Pixel Single).point.x := by
  have hlevel : p.level ≤ 24 := Nat.min_le_right _ _
  have hplace := p.place_bounded hlow hhigh hq hp
  have hworld : Binary.Bounded (k + 33) p.worldPixels :=
    (p.worldPixels_denotes.bounded (by rw [abs_of_pos (zpow_pos two_pos _)])).mono (by omega)
  have hnarrow {u : Double} (hu : Binary.Bounded (k + 34) u) :
      Binary.Bounded (k + 34) (narrow u : Single) :=
    hu.convert ⟨by change (-149 : Int) ≤ _; omega, by change _ < (24 : Int) + 104; omega⟩
  have hspan : double.Spans (k + 33 + 1) := double_spans (by omega) (by omega)
  have hmoved {u : Double} (hu : Binary.Bounded (k + 33 + 1) u) : Binary.Bounded (k + 34) u :=
    hu.mono (by omega)
  unfold pixel
  simp only
  split
  · exact hnarrow (hmoved (hplace.sub hworld hspan))
  · split
    · exact hnarrow (hmoved (hplace.add hworld hspan))
    · exact hnarrow (hplace.mono (by omega))

theorem pixel_y_eq {W N : Type} [Arithmetic W] [Resolution W N] (p : MapPosition W) (q : Point W) :
    (p.pixel q : Pixel N).point.y = narrow (Arithmetic.trunc ((q.y - p.y) * p.worldPixels)) := by
  unfold pixel
  simp only
  split
  · rfl
  · split <;> rfl

/-- Only the way from the center counts. -/
theorem pixel_x_congr {W N : Type} [Arithmetic W] [Resolution W N] {p : MapPosition W}
    {u v : Point W} (h : u.x - p.x = v.x - p.x) :
    (p.pixel u : Pixel N).point.x = (p.pixel v : Pixel N).point.x := by
  unfold pixel
  simp only [h]
  split
  · rfl
  · split <;> rfl

theorem pixel_y_bounded (hlow : 0 ≤ k) (hhigh : k ≤ 60) (hp : Binary.Bounded k p.y)
    (hq : Within (Arithmetic.ofInt 0) (Arithmetic.ofInt 1) q.y) :
    Binary.Bounded (k + 34) (p.pixel q : Pixel Single).point.y := by
  rw [pixel_y_eq]
  exact ((p.place_bounded hlow hhigh hq hp).mono (by omega)).convert
    ⟨by change (-149 : Int) ≤ _; omega, by change _ < (24 : Int) + 104; omega⟩

end

/-- Seen from a position in the world, the pixels of the world have finite coordinates. -/
theorem pixel_bounded (hp : p.InWorld) {q : Point Double} (hq : q.InSquare) :
    (p.pixel q : Pixel Single).point.Bounded 34 :=
  ⟨pixel_x_bounded (le_refl 0) (by decide) (bounded_of_within_unit hp.1) hq.x,
    pixel_y_bounded (le_refl 0) (by decide) (bounded_of_within_unit hp.2) hq.y⟩

end MapPosition

end TourMap
