import Mathlib.Algebra.Order.Archimedean.Basic
import TourMap.Proofs.Position

/-!
# Dateline: the way around the world

From one abscissa to another there are many ways, whole worlds apart, of which a single one leads
East by less than half a world or West by no more than that. A transform goes this way, but for a
tie: a way to the West of exactly half a world is taken to the East (`translate_x_iff`). So the two
names of the border between East and West lead to the same drawing, but for that tie.
-/

namespace TourMap

open Arithmetic

/-! ## 1. Ways -/

/-- Whether `d` is the way from the abscissa `y` to `x`, in worlds to the East. -/
structure IsWay (x y d : Rat) : Prop where
  worlds : ∃ k : Int, d = x - y + k
  low : -(1 / 2) ≤ d
  high : d < 1 / 2

theorem existsUnique_isWay (x y : Rat) : ∃! d, IsWay x y d := by
  obtain ⟨k, hk, hunique⟩ := existsUnique_add_zsmul_mem_Ico one_pos (x - y) (-(1 / 2) : Rat)
  have hmem (k : Int) (h : IsWay x y (x - y + k)) :
      x - y + k • (1 : Rat) ∈ Set.Ico (-(1 / 2) : Rat) (-(1 / 2) + 1) := by
    rw [zsmul_one]
    exact ⟨h.low, by linarith [h.high]⟩
  rw [zsmul_one] at hk
  refine ⟨x - y + k, ⟨⟨k, rfl⟩, hk.1, by linarith [hk.2]⟩, ?_⟩
  rintro d h
  obtain ⟨k', rfl⟩ := h.worlds
  rw [hunique k' (hmem k' h)]

theorem IsWay.unique {x y d e : Rat} (hd : IsWay x y d) (he : IsWay x y e) : d = e :=
  (existsUnique_isWay x y).unique hd he

/-- The same position, called by its place on another copy of the world. -/
def MapPosition.IsCopyOf (p q : MapPosition Rat) : Prop := ∃ k : Int, p = { q with x := q.x + k }

theorem IsWay.of_copies {b v b' v' : MapPosition Rat} (hb : b'.IsCopyOf b) (hv : v'.IsCopyOf v)
    {d : Rat} (hd : IsWay b.x v.x d) : IsWay b'.x v'.x d := by
  obtain ⟨i, rfl⟩ := hb
  obtain ⟨j, rfl⟩ := hv
  obtain ⟨k, hk⟩ := hd.worlds
  refine ⟨⟨k - i + j, ?_⟩, hd.low, hd.high⟩
  show d = b.x + i - (v.x + j) + ((k - i + j : Int) : Rat)
  rw [hk]
  push_cast
  ring

/-! ## 2. The nearest integer -/

namespace Arithmetic

theorem roundAway_neg_half : roundAway (-(1 / 2)) = -1 := by
  decide +kernel

/-- Up to one below zero, the only number that is half a unit above its nearest integer is minus a
half. -/
theorem sub_roundAway_bounds {q : Rat} (hlow : -1 ≤ q) (htie : q ≠ -(1 / 2)) :
    -(1 / 2) ≤ q - roundAway q ∧ q - roundAway q < 1 / 2 := by
  obtain ⟨hnear, hnear'⟩ := abs_le.1 (abs_sub_roundAway_le q)
  refine ⟨hnear, lt_of_le_of_ne hnear' fun hhalf => htie ?_⟩
  have hneg : ¬ 0 ≤ q := by
    intro hq
    -- From zero on a half is rounded up, so that nothing is half a unit above.
    have hfloor := Int.lt_floor_add_one (q + 1 / 2)
    rw [roundAway, if_pos hq] at hhalf
    linarith
  -- The integer is half a unit below, and from minus one on there is only minus one.
  have hint : ((roundAway q : Int) : Rat) = q - 1 / 2 := by linarith
  have hlt : ((-2 : Int) : Rat) < roundAway q := by rw [hint]; push_cast; linarith
  have hgt : (roundAway q : Rat) < ((0 : Int) : Rat) := by rw [hint]; push_cast; linarith
  have hone : roundAway q = -1 := by
    have := Int.cast_lt.1 hlt
    have := Int.cast_lt.1 hgt
    omega
  rw [hone] at hint
  push_cast at hint
  linarith

end Arithmetic

/-! ## 3. Transforms -/

namespace RenderTransform

variable {b v : MapPosition Rat}

theorem translate_x (b v : MapPosition Rat) :
    (between b v).translate.x = (b.x - v.x - roundAway (b.x - v.x)) * v.worldPixels := by
  show (b.x - v.x - Arithmetic.round (b.x - v.x)) * v.worldPixels = _
  rw [round_rat]

theorem sub_bounds (hb : Within (ofInt 0) (ofInt 1) b.x) (hv : Within (ofInt 0) (ofInt 1) v.x) :
    -1 ≤ b.x - v.x ∧ b.x - v.x ≤ 1 := by
  obtain ⟨hb₀, hb₁⟩ := within_rat.1 hb
  obtain ⟨hv₀, hv₁⟩ := within_rat.1 hv
  rw [ofInt_rat] at hb₀ hb₁ hv₀ hv₁
  push_cast at hb₀ hb₁ hv₀ hv₁
  constructor <;> linarith

theorem translate_x_of_tie (htie : b.x - v.x = -(1 / 2)) :
    (between b v).translate.x = 1 / 2 * v.worldPixels := by
  rw [translate_x, htie, roundAway_neg_half]
  push_cast
  ring

theorem isWay_of_ne (hb : Within (ofInt 0) (ofInt 1) b.x) (hv : Within (ofInt 0) (ofInt 1) v.x)
    (htie : b.x - v.x ≠ -(1 / 2)) : IsWay b.x v.x (b.x - v.x - roundAway (b.x - v.x)) := by
  obtain ⟨hlow, hhigh⟩ := sub_roundAway_bounds (sub_bounds hb hv).1 htie
  exact ⟨⟨-roundAway (b.x - v.x), by push_cast; ring⟩, hlow, hhigh⟩

/-- A transform goes the way around the world exactly if that is no tie to the West. -/
theorem translate_x_iff (hb : Within (ofInt 0) (ofInt 1) b.x)
    (hv : Within (ofInt 0) (ofInt 1) v.x) {d : Rat} (hd : IsWay b.x v.x d) :
    (between b v).translate.x = d * v.worldPixels ↔ b.x - v.x ≠ -(1 / 2) := by
  constructor
  · intro heq htie
    rw [translate_x_of_tie htie] at heq
    -- The way is less than half a world to the East.
    have := mul_right_cancel₀ v.worldPixels_pos.ne' heq
    linarith [hd.high]
  · intro htie
    rw [translate_x, hd.unique (isWay_of_ne hb hv htie)]

theorem between_eq_iff_of_copies {b' v' : MapPosition Rat} (hb : b'.IsCopyOf b)
    (hv : v'.IsCopyOf v) :
    between b' v' = between b v ↔ (between b' v').translate.x = (between b v).translate.x := by
  obtain ⟨i, rfl⟩ := hb
  obtain ⟨j, rfl⟩ := hv
  -- Neither the heights nor the zoom levels differ.
  refine ⟨fun h => by rw [h], fun h => ?_⟩
  have hpoint := congrArg (Point.mk · ((b.y - v.y) * v.worldPixels)) h
  exact congrArg (RenderTransform.mk · (v.scale / b.scale)) hpoint

/-- Of two pairs of copies both are drawn in one place, unless one of them alone is a tie. -/
theorem between_eq_iff {b' v' : MapPosition Rat} (hb : Within (ofInt 0) (ofInt 1) b.x)
    (hv : Within (ofInt 0) (ofInt 1) v.x) (hb' : Within (ofInt 0) (ofInt 1) b'.x)
    (hv' : Within (ofInt 0) (ofInt 1) v'.x) (hbs : b'.IsCopyOf b) (hvs : v'.IsCopyOf v) :
    between b' v' = between b v ↔ (b'.x - v'.x = -(1 / 2) ↔ b.x - v.x = -(1 / 2)) := by
  obtain ⟨d, hd, -⟩ := existsUnique_isWay b.x v.x
  have hd' : IsWay b'.x v'.x d := hd.of_copies hbs hvs
  have hworld : v'.worldPixels = v.worldPixels := by
    obtain ⟨j, rfl⟩ := hvs
    rfl
  rw [between_eq_iff_of_copies hbs hvs]
  by_cases htie : b.x - v.x = -(1 / 2) <;> by_cases htie' : b'.x - v'.x = -(1 / 2)
  · rw [translate_x_of_tie htie, translate_x_of_tie htie', hworld]
    exact iff_of_true rfl (iff_of_true htie' htie)
  · rw [translate_x_of_tie htie, ← hworld, (translate_x_iff hb' hv' hd').2 htie',
      mul_left_inj' v'.worldPixels_pos.ne']
    exact iff_of_false hd.high.ne fun h => htie' (h.2 htie)
  · rw [translate_x_of_tie htie', hworld, (translate_x_iff hb hv hd).2 htie,
      mul_left_inj' v.worldPixels_pos.ne']
    exact iff_of_false hd.high.ne' fun h => htie (h.1 htie')
  · rw [(translate_x_iff hb hv hd).2 htie, (translate_x_iff hb' hv' hd').2 htie', hworld]
    exact iff_of_true rfl (iff_of_false htie' htie)

/-! ## 4. The nearer way -/

/-- A transform takes what was built the way around the world from the window to it, and does not
tell the two names of the border apart, exactly if this is no tie: if what was built does not lie
half a world to the West. -/
theorem goes_way_around_unless_tie (hb : Within (ofInt 0) (ofInt 1) b.x)
    (hv : Within (ofInt 0) (ofInt 1) v.x) :
    (∃! d, IsWay b.x v.x d) ∧
      (∀ d, IsWay b.x v.x d →
        ((between b v).translate.x = d * v.worldPixels ↔ b.x - v.x ≠ -(1 / 2))) ∧
      ∀ b' v' : MapPosition Rat, Within (ofInt 0) (ofInt 1) b'.x →
        Within (ofInt 0) (ofInt 1) v'.x → b'.IsCopyOf b → v'.IsCopyOf v →
          (between b' v' = between b v ↔ (b'.x - v'.x = -(1 / 2) ↔ b.x - v.x = -(1 / 2))) :=
  ⟨existsUnique_isWay b.x v.x, fun _ hd => translate_x_iff hb hv hd,
    fun _ _ hb' hv' => between_eq_iff hb hv hb' hv'⟩

def westBorder : MapPosition Rat := ⟨0, 1 / 2, 0⟩

def eastBorder : MapPosition Rat := ⟨1, 1 / 2, 0⟩

def meridian : MapPosition Rat := ⟨1 / 2, 1 / 2, 0⟩

def eastOfMeridian : MapPosition Rat := ⟨3 / 4, 1 / 2, 0⟩

/-- Seen from a place to the East of the meridian both names of the border lie a quarter of the
world to the East. -/
theorem goes_way_around_at_border :
    Within (ofInt 0) (ofInt 1) westBorder.x ∧ Within (ofInt 0) (ofInt 1) eastOfMeridian.x ∧
      IsWay westBorder.x eastOfMeridian.x (1 / 4) ∧
      (between westBorder eastOfMeridian).translate.x = 1 / 4 * eastOfMeridian.worldPixels ∧
      eastBorder.IsCopyOf westBorder ∧
      between eastBorder eastOfMeridian = between westBorder eastOfMeridian := by
  have hway : IsWay westBorder.x eastOfMeridian.x (1 / 4) :=
    ⟨⟨1, by norm_num [westBorder, eastOfMeridian]⟩, by norm_num, by norm_num⟩
  have hcopy : eastBorder.IsCopyOf westBorder := ⟨1, by decide +kernel⟩
  have hcopy' : eastOfMeridian.IsCopyOf eastOfMeridian := ⟨0, by decide +kernel⟩
  have htheorem := goes_way_around_unless_tie (b := westBorder) (v := eastOfMeridian)
    (by decide +kernel) (by decide +kernel)
  refine ⟨by decide +kernel, by decide +kernel, hway, ?_, hcopy, ?_⟩
  · exact (htheorem.2.1 _ hway).2 (by decide +kernel)
  · apply (htheorem.2.2 eastBorder eastOfMeridian (by decide +kernel) (by decide +kernel)
      hcopy hcopy').2
    exact iff_of_false (by decide +kernel) (by decide +kernel)

/-- Seen from the meridian the two names of the border lead to two places: the one half a world to
the West is drawn in the East. -/
theorem ties_depend_on_name_of_border :
    (between westBorder meridian).translate.x = 128 ∧
      (¬ ∃ d, IsWay westBorder.x meridian.x d ∧ 128 = d * meridian.worldPixels) ∧
      eastBorder.IsCopyOf westBorder ∧ (between eastBorder meridian).translate.x = -128 := by
  refine ⟨by decide +kernel, ?_, ⟨1, by decide +kernel⟩, by decide +kernel⟩
  rintro ⟨d, hd, heq⟩
  have hworld : meridian.worldPixels = 256 := by decide +kernel
  rw [hworld] at heq
  linarith [hd.high]

end RenderTransform

end TourMap
