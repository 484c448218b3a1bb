import TourMap.Trace
import TourMap.Proofs.Position

/-!
# Pixel: pixels against exact places

A pixel is the place of a point, on the copy of the world nearest to the center, with the fraction
cut off. What was computed for one position and is placed by a transform is off by a fraction that
the transform scales, and by the one that is cut off where the point is computed anew.
-/

namespace TourMap

open Arithmetic

namespace MapPosition

variable (position : MapPosition Rat) (p q : Point Rat)

/-! ## 1. Copies of the world -/

theorem worldPixels_eq_intCast : position.worldPixels = (256 * 2 ^ position.level : Int) := by
  rw [worldPixels_rat, scale_rat]
  push_cast
  rfl

/-- The place of a point with the fraction cut off, seen from the center of the window. -/
def place : Point Rat :=
  ⟨trunc ((p.x - position.x) * position.worldPixels),
    trunc ((p.y - position.y) * position.worldPixels)⟩

/-- A pixel that is more than half a world away is moved by a whole one. -/
theorem pixel_cases :
    (position.worldPixels / 2 < (position.place p).x ∧ position.pixel p =
        (⟨⟨(position.place p).x - position.worldPixels, (position.place p).y⟩, -1⟩ : Pixel Rat)) ∨
      ((position.place p).x < -position.worldPixels / 2 ∧ position.pixel p =
        (⟨⟨(position.place p).x + position.worldPixels, (position.place p).y⟩, 1⟩ : Pixel Rat)) ∨
      (-position.worldPixels / 2 ≤ (position.place p).x ∧
        (position.place p).x ≤ position.worldPixels / 2 ∧
        position.pixel p = (⟨position.place p, 0⟩ : Pixel Rat)) := by
  unfold pixel
  dsimp only
  split
  · rename_i hright
    exact Or.inl ⟨hright, rfl⟩
  · rename_i hright
    split
    · rename_i hleft
      exact Or.inr (Or.inl ⟨hleft, rfl⟩)
    · rename_i hleft
      exact Or.inr (Or.inr ⟨not_lt.1 hleft, not_lt.1 hright, rfl⟩)

theorem pixel_x :
    (position.pixel p : Pixel Rat).point.x = (position.place p).x +
      (position.pixel p : Pixel Rat).flip * position.worldPixels := by
  rcases position.pixel_cases p with ⟨-, heq⟩ | ⟨-, heq⟩ | ⟨-, -, heq⟩ <;>
  · rw [heq]
    push_cast
    ring

theorem pixel_y : (position.pixel p : Pixel Rat).point.y = (position.place p).y := by
  rcases position.pixel_cases p with ⟨-, heq⟩ | ⟨-, heq⟩ | ⟨-, -, heq⟩ <;> rw [heq]

/-- On both axes a pixel is less than one away from the place of the point. -/
theorem pixel_near :
    ∃ k : Int,
      |(p.x - position.x + k) * position.worldPixels -
          (position.pixel p : Pixel Rat).point.x| < 1 ∧
      |(p.y - position.y) * position.worldPixels -
          (position.pixel p : Pixel Rat).point.y| < 1 := by
  refine ⟨(position.pixel p : Pixel Rat).flip, ?_, ?_⟩
  · rw [pixel_x, add_mul, add_sub_add_right_eq_sub, place]
    exact abs_sub_trunc_lt _
  · rw [pixel_y, place]
    exact abs_sub_trunc_lt _

/-- Whether the pixel of a point is a pair of integers on the copy of the world that it is moved to,
and no further than half a world away from the center. -/
structure Folds (position : MapPosition Rat) (p : Point Rat) : Prop where
  flip : (position.pixel p : Pixel Rat).flip ∈ [-1, 0, 1]
  x : (position.pixel p : Pixel Rat).point.x =
    trunc ((p.x - position.x) * position.worldPixels) +
      (position.pixel p : Pixel Rat).flip * position.worldPixels
  integers : ∃ m n : Int, (position.pixel p : Pixel Rat).point = ⟨m, n⟩
  near : |(position.pixel p : Pixel Rat).point.x| ≤ position.worldPixels / 2

variable {position p q}

/-- From no further than one world away a point is moved to the copy nearest to the center. -/
theorem abs_pixel_x_le (h : |p.x - position.x| ≤ 1) :
    |(position.pixel p : Pixel Rat).point.x| ≤ position.worldPixels / 2 := by
  have hworld := position.worldPixels_pos
  have hplace : |(position.place p).x| ≤ position.worldPixels := by
    refine (abs_trunc_le _).trans ?_
    rw [abs_mul, abs_of_pos hworld]
    exact mul_le_of_le_one_left hworld.le h
  obtain ⟨hlow, hhigh⟩ := abs_le.1 hplace
  rw [abs_le]
  rcases position.pixel_cases p with ⟨hright, heq⟩ | ⟨hleft, heq⟩ | ⟨hleft, hright, heq⟩ <;>
  · rw [heq]
    constructor <;> linarith

theorem folds (h : |p.x - position.x| ≤ 1) : position.Folds p := by
  refine ⟨?_, position.pixel_x p, ?_, abs_pixel_x_le h⟩
  · rcases position.pixel_cases p with ⟨-, heq⟩ | ⟨-, heq⟩ | ⟨-, -, heq⟩ <;> simp [heq]
  · obtain ⟨m, hm⟩ : ∃ m : Int, (position.place p).x = m := ⟨_, trunc_rat _⟩
    obtain ⟨n, hn⟩ : ∃ n : Int, (position.place p).y = n := ⟨_, trunc_rat _⟩
    have hx := position.pixel_x p
    have hy := position.pixel_y p
    generalize (position.pixel p : Pixel Rat) = pixel at hx hy
    obtain ⟨⟨x, y⟩, k⟩ := pixel
    refine ⟨m + k * (256 * 2 ^ position.level), n, ?_⟩
    dsimp only at hx hy
    rw [hx, hy, hm, hn, worldPixels_eq_intCast]
    push_cast
    rfl

/-- On one copy of the world, points that are near in the world have pixels that are near. -/
theorem abs_pixel_x_sub_le
    (hflip : (position.pixel q : Pixel Rat).flip = (position.pixel p : Pixel Rat).flip)
    (hway : |q.x - p.x| ≤ 1 / 2) :
    |(position.pixel q : Pixel Rat).point.x - (position.pixel p : Pixel Rat).point.x| ≤
      position.worldPixels / 2 + 1 := by
  have hworld := position.worldPixels_pos
  have hnear := abs_trunc_sub_trunc_lt ((q.x - position.x) * position.worldPixels)
    ((p.x - position.x) * position.worldPixels)
  have hplaces : |(q.x - position.x) * position.worldPixels -
      (p.x - position.x) * position.worldPixels| ≤ 1 / 2 * position.worldPixels := by
    rw [← sub_mul, sub_sub_sub_cancel_right, abs_mul, abs_of_pos hworld]
    exact mul_le_mul_of_nonneg_right hway hworld.le
  rw [pixel_x, pixel_x, hflip, add_sub_add_right_eq_sub, place, place]
  linarith

end MapPosition

/-! ## 2. Transforms -/

namespace RenderTransform

/-- A distance of less than one, from `place` to `pixel`, is scaled by a transform; one more is
added where the pixel is computed anew. -/
theorem abs_sub_lt_of_near {place pixel place' pixel' drawn scale : Rat} (hscale : 0 < scale)
    (hnear : |place - pixel| < 1) (hnear' : |place' - pixel'| < 1)
    (hdrawn : drawn = place' - (place - pixel) * scale) : |drawn - pixel'| < scale + 1 := by
  have hscaled : |(place - pixel) * scale| < scale := by
    rw [abs_mul, abs_of_pos hscale]
    exact mul_lt_of_lt_one_left hscale hnear
  calc |drawn - pixel'| = |place' - pixel' - (place - pixel) * scale| := by
        rw [hdrawn]
        ring_nf
    _ ≤ |place' - pixel'| + |(place - pixel) * scale| := abs_sub _ _
    _ < scale + 1 := by linarith

/-- The pixel of a point, placed by a transform, is near the pixel computed anew. -/
theorem apply_between_pixel_near (b v : MapPosition Rat) (p : Point Rat) :
    |((between b v).apply (b.pixel p : Pixel Rat).point).y - (v.pixel p : Pixel Rat).point.y| <
        (between b v).scale + 1 ∧
      ∃ k : Int,
        |((between b v).apply (b.pixel p : Pixel Rat).point).x + k * v.worldPixels -
            (v.pixel p : Pixel Rat).point.x| < (between b v).scale + 1 := by
  obtain ⟨k₁, hx₁, hy₁⟩ := b.pixel_near p
  obtain ⟨k₂, hx₂, hy₂⟩ := v.pixel_near p
  obtain ⟨n, hn⟩ := exists_translate_x b v
  have hworld := worldPixels_mul_scale b v
  have hscale : 0 < (between b v).scale := div_pos v.scale_pos b.scale_pos
  constructor
  · apply abs_sub_lt_of_near hscale hy₁ hy₂
    change (b.pixel p : Pixel Rat).point.y * (between b v).scale +
      (between b v).translate.y = _
    rw [between_translate_y, ← hworld]
    ring
  · -- The worlds: those of the new pixel, less those of the old one and of the transform.
    refine ⟨k₂ - k₁ - n, ?_⟩
    apply abs_sub_lt_of_near hscale hx₁ hx₂
    change (b.pixel p : Pixel Rat).point.x * (between b v).scale +
      (between b v).translate.x + ((k₂ - k₁ - n : Int) : Rat) * v.worldPixels = _
    rw [hn, ← hworld]
    push_cast
    ring

/-- Drawing through a transform agrees with building anew, on both axes up to a scaled fraction of
a pixel and another one, from West to East also up to whole worlds; and transforms compose, up to
whole worlds. -/
theorem drawing_agrees_with_rebuilding (b v : MapPosition Rat)
    (hb : b.zoom ≤ maxZoom) (hv : v.zoom ≤ maxZoom) :
    (∀ p : Point Rat,
      |((between b v).apply (b.pixel p : Pixel Rat).point).y -
          (v.pixel p : Pixel Rat).point.y| < 2 ^ ((v.zoom : Int) - b.zoom) + 1 ∧
        ∃ k : Int,
          |((between b v).apply (b.pixel p : Pixel Rat).point).x + k * v.worldPixels -
              (v.pixel p : Pixel Rat).point.x| < 2 ^ ((v.zoom : Int) - b.zoom) + 1) ∧
      ∀ w : MapPosition Rat, ∃ k : Int, ∀ q : Point Rat,
        (between v w).apply ((between b v).apply q) =
          RenderTransform.apply (N := Rat)
            ⟨⟨(between b w).translate.x + k * w.worldPixels, (between b w).translate.y⟩,
              (between b w).scale⟩ q := by
  have hscale : (between b v).scale = 2 ^ ((v.zoom : Int) - b.zoom) := by
    rw [between_scale_eq, MapPosition.level_of_le hb, MapPosition.level_of_le hv]
  refine ⟨fun p => ?_, fun w => exists_apply_between_apply_between b v w⟩
  rw [← hscale]
  exact apply_between_pixel_near b v p

def farEast : MapPosition Rat := ⟨99 / 100, 1 / 2, 10⟩

def farWest : MapPosition Rat := ⟨1 / 100, 1 / 2, 12⟩

/-- Seen from both sides of the border between East and West, two levels apart, a point is off by
less than five pixels, but for whole worlds. -/
theorem drawing_agrees_with_rebuilding_over_dateline :
    farEast.zoom ≤ maxZoom ∧ farWest.zoom ≤ maxZoom ∧ ∃ k : Int,
      |((between farEast farWest).apply (farEast.pixel ⟨1 / 1000, 1 / 3⟩ : Pixel Rat).point).x +
          k * farWest.worldPixels -
          (farWest.pixel ⟨1 / 1000, 1 / 3⟩ : Pixel Rat).point.x| <
        2 ^ ((farWest.zoom : Int) - farEast.zoom) + 1 :=
  ⟨by decide, by decide,
    ((drawing_agrees_with_rebuilding farEast farWest (by decide) (by decide)).1
      ⟨1 / 1000, 1 / 3⟩).2⟩

end RenderTransform

end TourMap
