import TourMap.Position
import TourMap.Proofs.Number.Interval

/-!
# Position: worlds, tiles and transforms in exact numbers

At level `z` the world is `256 * 2 ^ z` pixels wide. A transform scales the world of one position to
that of the other, and moves it by the way between the two positions and whole worlds; so transforms
one after the other make a transform, up to whole worlds. Between positions on one tile nothing is
scaled, and nothing is moved by more than the tile is wide.
-/

namespace TourMap

open Arithmetic

namespace MapPosition

/-- Whether the center of the window lies in the unit square. -/
def InWorld {W : Type} [Arithmetic W] (p : MapPosition W) : Prop :=
  Within (ofInt 0) (ofInt 1) p.x ∧ Within (ofInt 0) (ofInt 1) p.y

/-! ## 1. Worlds -/

variable (p : MapPosition Rat)

theorem scale_rat : p.scale = 2 ^ p.level := by
  rw [scale, exp2_rat, zpow_natCast]

theorem scale_pos : 0 < p.scale := by
  rw [scale_rat]
  positivity

theorem worldPixels_rat : p.worldPixels = 256 * p.scale := rfl

theorem worldPixels_pos : 0 < p.worldPixels := by
  have := p.scale_pos
  rw [worldPixels_rat]
  linarith

theorem level_of_le {p : MapPosition Rat} (h : p.zoom ≤ maxZoom) : p.level = p.zoom :=
  Nat.min_eq_left h

/-! ## 2. Tiles -/

theorem tileAlong_eq {v : Rat} (hv : 0 ≤ v) :
    (p.tileAlong v : Int) = Min.min ⌊v * p.scale⌋ (2 ^ p.level - 1) := by
  have hpow : (0 : Int) < 2 ^ p.level := by positivity
  have hfloor : 0 ≤ ⌊v * p.scale⌋ := Int.floor_nonneg.2 (mul_nonneg hv p.scale_pos.le)
  have hlast : p.scale - ofInt 1 = ((2 ^ p.level - 1 : Int) : Rat) := by
    rw [scale_rat]
    push_cast
    rfl
  have htile : toInt (clamp (floor (v * p.scale)) (ofInt 0) (p.scale - ofInt 1)) =
      Min.min ⌊v * p.scale⌋ (2 ^ p.level - 1) := by
    rw [floor_rat, hlast, ofInt_rat, clamp_intCast, toInt_intCast, if_neg (not_lt.2 hfloor)]
    split <;> omega
  unfold tileAlong
  rw [htile]
  omega

/-- A place of the world lies on its tile; the last tile also holds its far border. -/
theorem tileAlong_bounds {v : Rat} (hv : Within (ofInt 0) (ofInt 1) v) :
    (p.tileAlong v : Rat) ≤ v * p.scale ∧ v * p.scale ≤ p.tileAlong v + 1 := by
  obtain ⟨hv₀, hv₁⟩ := within_rat.1 hv
  have hfloor := Int.floor_le (v * p.scale)
  have hceil := Int.lt_floor_add_one (v * p.scale)
  have hborder : v * p.scale ≤ 2 ^ p.level := by
    rw [← scale_rat]
    exact mul_le_of_le_one_left p.scale_pos.le hv₁
  have htile : (p.tileAlong v : Rat) = ((Min.min ⌊v * p.scale⌋ (2 ^ p.level - 1) : Int) : Rat) := by
    rw [← tileAlong_eq p hv₀]
    push_cast
    rfl
  rw [htile]
  rcases min_cases ⌊v * p.scale⌋ (2 ^ p.level - 1) with ⟨hmin, -⟩ | ⟨hmin, hlt⟩
  · rw [hmin]
    exact ⟨hfloor, hceil.le⟩
  · have hle : ((2 ^ p.level - 1 : Int) : Rat) ≤ ⌊v * p.scale⌋ := Int.cast_le.2 hlt.le
    rw [hmin]
    push_cast at hle ⊢
    constructor <;> linarith

variable {p}

/-- Two places on one tile are no further apart than the tile is wide. -/
theorem abs_sub_mul_scale_le {u v : Rat} (hu : Within (ofInt 0) (ofInt 1) u)
    (hv : Within (ofInt 0) (ofInt 1) v) (htile : p.tileAlong u = p.tileAlong v) :
    |u - v| * p.scale ≤ 1 := by
  obtain ⟨hu₁, hu₂⟩ := p.tileAlong_bounds hu
  obtain ⟨hv₁, hv₂⟩ := p.tileAlong_bounds hv
  rw [htile] at hu₁ hu₂
  calc |u - v| * p.scale = |u * p.scale - v * p.scale| := by
        rw [← sub_mul, abs_mul, abs_of_pos p.scale_pos]
    _ ≤ 1 := abs_le.2 ⟨by linarith, by linarith⟩

end MapPosition

/-! ## 3. Transforms -/

namespace RenderTransform

variable (b v w : MapPosition Rat)

theorem between_scale_mul : (between b v).scale * b.scale = v.scale :=
  div_mul_cancel₀ _ b.scale_pos.ne'

theorem worldPixels_mul_scale : b.worldPixels * (between b v).scale = v.worldPixels := by
  rw [b.worldPixels_rat, v.worldPixels_rat, ← between_scale_mul b v]
  ring

theorem between_scale_eq : (between b v).scale = 2 ^ ((v.level : Int) - b.level) := by
  change v.scale / b.scale = _
  rw [b.scale_rat, v.scale_rat, zpow_sub₀ two_ne_zero, zpow_natCast, zpow_natCast]

theorem between_translate_y :
    (between b v).translate.y = (b.y - v.y) * v.worldPixels := rfl

/-- The horizontal way is shortened by whole worlds. -/
theorem exists_translate_x :
    ∃ k : Int, (between b v).translate.x = (b.x - v.x + k) * v.worldPixels := by
  refine ⟨-roundAway (b.x - v.x), ?_⟩
  change (b.x - v.x - Arithmetic.round (b.x - v.x)) * v.worldPixels = _
  rw [round_rat]
  push_cast
  ring

theorem between_scale_mul_between_scale :
    (between b v).scale * (between v w).scale = (between b w).scale := by
  have hb := b.scale_pos.ne'
  have hv := v.scale_pos.ne'
  change v.scale / b.scale * (w.scale / v.scale) = w.scale / b.scale
  field_simp

/-- A pixel that is placed by one transform and then by another one is placed as by a single
transform, that from the first position to the last, but for whole worlds. -/
theorem exists_apply_between_apply_between :
    ∃ k : Int, ∀ q : Point Rat, (between v w).apply ((between b v).apply q) =
      RenderTransform.apply (N := Rat)
        ⟨⟨(between b w).translate.x + k * w.worldPixels, (between b w).translate.y⟩,
          (between b w).scale⟩ q := by
  obtain ⟨k₁, hk₁⟩ := exists_translate_x b v
  obtain ⟨k₂, hk₂⟩ := exists_translate_x v w
  obtain ⟨k₃, hk₃⟩ := exists_translate_x b w
  have hscale := between_scale_mul_between_scale b v w
  have hworld := worldPixels_mul_scale v w
  refine ⟨k₁ + k₂ - k₃, fun q => congrArg₂ Point.mk ?_ ?_⟩
  · change (q.x * (between b v).scale + (between b v).translate.x) * (between v w).scale +
      (between v w).translate.x = q.x * (between b w).scale +
      ((between b w).translate.x + ((k₁ + k₂ - k₃ : Int) : Rat) * w.worldPixels)
    rw [hk₁, hk₂, hk₃, ← hscale, ← hworld]
    push_cast
    ring
  · change (q.y * (between b v).scale + (between b v).translate.y) * (between v w).scale +
      (between v w).translate.y = q.y * (between b w).scale + (between b w).translate.y
    rw [between_translate_y, between_translate_y, between_translate_y, ← hscale, ← hworld]
    ring

/-! ## 4. Positions on one tile -/

variable {b v}

/-- Between two positions on one tile a transform moves by a tile at most, and scales nothing. -/
theorem between_of_tileIndex_eq (hb : b.InWorld) (hv : v.InWorld)
    (htile : b.tileIndex = v.tileIndex) :
    (between b v).scale = 1 ∧ |(between b v).translate.x| ≤ 256 ∧
      |(between b v).translate.y| ≤ 256 := by
  obtain ⟨hz, hx, hy⟩ := TileIndex.mk.inj htile
  have hscale : b.scale = v.scale := by rw [b.scale_rat, v.scale_rat, hz]
  have htiles (u : Rat) : b.tileAlong u = v.tileAlong u := by
    rw [MapPosition.tileAlong, hscale]
    rfl
  rw [htiles] at hx hy
  have hworld : 0 < v.worldPixels := v.worldPixels_pos
  have hway {d : Rat} (hd : |d| * v.scale ≤ 1) : |d * v.worldPixels| ≤ 256 := by
    rw [abs_mul, abs_of_pos hworld, v.worldPixels_rat]
    linarith
  refine ⟨?_, ?_, ?_⟩
  · exact (congrArg (v.scale / ·) hscale).trans (div_self v.scale_pos.ne')
  · -- The way around the world is no longer than the one that is not rounded.
    apply hway
    exact (mul_le_mul_of_nonneg_right (abs_sub_round_le (b.x - v.x)) v.scale_pos.le).trans
      (MapPosition.abs_sub_mul_scale_le hb.1 hv.1 hx)
  · apply hway
    exact MapPosition.abs_sub_mul_scale_le hb.2 hv.2 hy

end RenderTransform

end TourMap
