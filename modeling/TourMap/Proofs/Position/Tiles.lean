import TourMap.Proofs.Position

/-!
# Tiles: the grid of a level

The tiles of a level part the world: each position lies on exactly one of them, if a tile holds its
borders to the North and to the West, and the last ones of a row or column also the border of the
world. Four tiles of the next level make up one, and a map that is moved by whole tiles to the East
or West goes around the world (`tiles_part_world`).
-/

namespace TourMap

open Arithmetic

/-! ## 1. What a tile holds -/

namespace TileIndex

/-- Whether a tile lies in the world. -/
structure OnGrid (t : TileIndex) : Prop where
  x_lt : t.x < 2 ^ t.z
  y_lt : t.y < 2 ^ t.z

/-- Whether the interval of a size from `low` on holds `v`: it holds its end only if the world ends
there. -/
def Spans (low size v : Rat) : Prop := low ≤ v ∧ (v < low + size ∨ v = 1 ∧ low + size = 1)

/-- Whether the rectangle of a tile holds the center of a window. -/
structure Holds (t : TileIndex) (p : MapPosition Rat) : Prop where
  x : Spans (t.rect : Rect Rat).left (t.rect : Rect Rat).width p.x
  y : Spans (t.rect : Rect Rat).top (t.rect : Rect Rat).height p.y

/-- The tile of the level before that a tile is a quarter of. -/
def parent (t : TileIndex) : TileIndex := ⟨t.z - 1, t.x / 2, t.y / 2⟩

theorem rect_rat {t : TileIndex} (hz : t.z ≤ maxZoom) :
    (t.rect : Rect Rat) = ⟨t.x / 2 ^ t.z, t.y / 2 ^ t.z, 1 / 2 ^ t.z, 1 / 2 ^ t.z⟩ := by
  have hlevel : Int.bmod t.z 4294967296 = t.z := by
    have : t.z ≤ 24 := hz
    apply Int.bmod_eq_of_le <;> omega
  have hsize : (exp2 (-Int.bmod t.z 4294967296) : Rat) = 1 / 2 ^ t.z := by
    rw [hlevel, exp2_rat, zpow_neg, zpow_natCast, one_div]
  have hplace (i : Nat) : (ofInt i : Rat) * (1 / 2 ^ t.z) = i / 2 ^ t.z := by
    rw [mul_one_div]
    rfl
  unfold rect
  dsimp only
  rw [hsize, hplace, hplace]

/-- Along an axis of so many tiles a place lies on the tile with its number, and at the end of the
world on the last one. -/
theorem spans_iff {n i : Nat} (hi : i < 2 ^ n) {v : Rat} (hv₀ : 0 ≤ v) (hv₁ : v ≤ 1) :
    Spans (i / 2 ^ n) (1 / 2 ^ n) v ↔ (i : Int) = Min.min ⌊v * 2 ^ n⌋ (2 ^ n - 1) := by
  have hpow : (0 : Rat) < 2 ^ n := by positivity
  have hint : ((2 ^ n : Int) : Rat) = 2 ^ n := by push_cast; rfl
  have hlast : (i : Int) ≤ 2 ^ n - 1 := by
    have : ((i : Nat) : Int) < ((2 ^ n : Nat) : Int) := Int.ofNat_lt.2 hi
    push_cast at this
    omega
  have hborder : ⌊v * 2 ^ n⌋ ≤ 2 ^ n := by
    rw [Int.floor_le_iff, hint]
    linarith [mul_le_of_le_one_left hpow.le hv₁]
  unfold Spans
  rw [← add_div, div_le_iff₀ hpow, lt_div_iff₀ hpow, div_eq_one_iff_eq hpow.ne']
  by_cases hend : v = 1
  · -- At the end of the world lies the last tile.
    subst hend
    rw [one_mul, ← hint, Int.floor_intCast, min_eq_right (by omega)]
    constructor
    · rintro ⟨-, hlt | ⟨-, heq⟩⟩
      · have : ((2 ^ n : Int) : Rat) < ((i + 1 : Int) : Rat) := by push_cast at hlt ⊢; exact hlt
        have := Int.cast_lt.1 this
        omega
      · have : ((i + 1 : Int) : Rat) = ((2 ^ n : Int) : Rat) := by push_cast at heq ⊢; exact heq
        have := Int.cast_injective this
        omega
    · intro heq
      have hi' : ((i : Int) : Rat) = ((2 ^ n - 1 : Int) : Rat) := by rw [heq]
      push_cast at hi' ⊢
      exact ⟨by linarith, .inr ⟨rfl, by linarith⟩⟩
  · have hlt : v < 1 := lt_of_le_of_ne hv₁ hend
    have hfloor : ⌊v * 2 ^ n⌋ ≤ 2 ^ n - 1 := by
      have : ⌊v * 2 ^ n⌋ < 2 ^ n := by
        rw [Int.floor_lt, hint]
        exact mul_lt_of_lt_one_left hpow hlt
      omega
    rw [min_eq_left hfloor, @eq_comm Int, Int.floor_eq_iff]
    push_cast
    exact and_congr_right fun _ => or_iff_left fun h => hend h.1

end TileIndex

/-! ## 2. The tile at a position -/

namespace MapPosition

variable {p : MapPosition Rat}

theorem InWorld.bounds (hp : p.InWorld) : (0 ≤ p.x ∧ p.x ≤ 1) ∧ 0 ≤ p.y ∧ p.y ≤ 1 :=
  ⟨within_rat.1 hp.1, within_rat.1 hp.2⟩

theorem level_le (p : MapPosition Rat) : p.level ≤ maxZoom := Nat.min_le_right _ _

theorem tileAlong_lt (p : MapPosition Rat) {v : Rat} (hv : 0 ≤ v) :
    p.tileAlong v < 2 ^ p.level := by
  have htile := p.tileAlong_eq hv
  have hle := min_le_right ⌊v * p.scale⌋ (2 ^ p.level - 1)
  have : ((p.tileAlong v : Nat) : Int) < ((2 ^ p.level : Nat) : Int) := by
    push_cast
    omega
  exact Int.ofNat_lt.1 this

theorem tileIndex_onGrid (hp : p.InWorld) : p.tileIndex.OnGrid :=
  ⟨p.tileAlong_lt hp.bounds.1.1, p.tileAlong_lt hp.bounds.2.1⟩

theorem spans_iff_eq_tileAlong {i : Nat} (hi : i < 2 ^ p.level) {v : Rat} (hv₀ : 0 ≤ v)
    (hv₁ : v ≤ 1) : TileIndex.Spans (i / 2 ^ p.level) (1 / 2 ^ p.level) v ↔ i = p.tileAlong v := by
  rw [TileIndex.spans_iff hi hv₀ hv₁, ← scale_rat, ← p.tileAlong_eq hv₀, Int.natCast_inj]

theorem holds_iff (hp : p.InWorld) {t : TileIndex} (hz : t.z = p.tileIndex.z) (ht : t.OnGrid) :
    t.Holds p ↔ t = p.tileIndex := by
  obtain ⟨⟨hx₀, hx₁⟩, hy₀, hy₁⟩ := hp.bounds
  obtain ⟨z, x, y⟩ := t
  obtain rfl : z = p.level := hz
  have hrect := TileIndex.rect_rat (t := ⟨p.level, x, y⟩) p.level_le
  have hx := spans_iff_eq_tileAlong ht.x_lt hx₀ hx₁
  have hy := spans_iff_eq_tileAlong ht.y_lt hy₀ hy₁
  constructor
  · rintro ⟨hspansx, hspansy⟩
    rw [hrect] at hspansx hspansy
    show (⟨p.level, x, y⟩ : TileIndex) = ⟨p.level, p.tileAlong p.x, p.tileAlong p.y⟩
    rw [← hx.1 hspansx, ← hy.1 hspansy]
  · intro heq
    obtain ⟨-, rfl, rfl⟩ := TileIndex.mk.inj heq
    constructor <;> rw [hrect]
    · exact hx.2 rfl
    · exact hy.2 rfl

/-! ## 3. The next level -/

theorem tileAlong_halved {q : MapPosition Rat} (hq : q.level = p.level + 1) {v : Rat}
    (hv : 0 ≤ v) : p.tileAlong v = q.tileAlong v / 2 := by
  have hfloor : ⌊v * p.scale⌋ = ⌊v * q.scale⌋ / 2 := by
    have hhalf : v * p.scale = v * q.scale / (2 : Nat) := by
      rw [p.scale_rat, q.scale_rat, hq, pow_succ]
      push_cast
      ring
    rw [hhalf, Int.floor_div_natCast]
    rfl
  have hp := p.tileAlong_eq hv
  have hq' := q.tileAlong_eq hv
  have hpow : (2 : Int) ^ q.level = 2 * 2 ^ p.level := by rw [hq, pow_succ]; ring
  rw [hfloor] at hp
  rw [hpow] at hq'
  omega

theorem tileIndex_eq_parent (hp : p.InWorld) (hz : p.zoom < maxZoom) :
    p.tileIndex = TileIndex.parent { p with zoom := p.zoom + 1 }.tileIndex := by
  have hlevel : p.level = p.zoom := level_of_le hz.le
  have hnext : ({ p with zoom := p.zoom + 1 } : MapPosition Rat).level = p.level + 1 := by
    rw [hlevel]
    exact level_of_le (Nat.succ_le_of_lt hz)
  have hx := tileAlong_halved hnext hp.bounds.1.1
  have hy := tileAlong_halved hnext hp.bounds.2.1
  show (⟨p.level, p.tileAlong p.x, p.tileAlong p.y⟩ : TileIndex) = _
  rw [hx, hy, TileIndex.parent]
  congr 1
  exact (congrArg (· - 1) hnext).symm

/-! ## 4. Moving by tiles -/

theorem panPixels_tiles_x (p : MapPosition Rat) (k : Int) :
    (p.panPixels (256 * k) 0).x = Int.fract (p.x + k / p.scale) := by
  show fract (p.x + 256 * k / p.worldPixels) = _
  rw [fract_rat, worldPixels_rat, mul_div_mul_left _ _ (by norm_num)]

theorem panPixels_tiles_y (hp : p.InWorld) (k : Int) : (p.panPixels (256 * k) 0).y = p.y := by
  show clamp (p.y + 0 / p.worldPixels) (ofInt 0) (ofInt 1) = p.y
  rw [zero_div, add_zero, hp.2.clamp_eq]

/-- So many tiles further on a map shows the tile with the number further on, around the world. -/
theorem tileAlong_fract {v : Rat} (hv₀ : 0 ≤ v) (hv₁ : v < 1) (k : Int) :
    (p.tileAlong (Int.fract (v + k / p.scale)) : Int) = (p.tileAlong v + k) % 2 ^ p.level := by
  have hscale := p.scale_pos
  have hint : ((2 ^ p.level : Int) : Rat) = p.scale := by rw [scale_rat]; push_cast; rfl
  have hbounds {u : Rat} (hu₀ : 0 ≤ u) (hu₁ : u < 1) :
      0 ≤ ⌊u * p.scale⌋ ∧ ⌊u * p.scale⌋ < 2 ^ p.level := by
    refine ⟨Int.floor_nonneg.2 (mul_nonneg hu₀ hscale.le), ?_⟩
    rw [Int.floor_lt, hint]
    exact mul_lt_of_lt_one_left hscale hu₁
  have htile {u : Rat} (hu₀ : 0 ≤ u) (hu₁ : u < 1) :
      (p.tileAlong u : Int) = ⌊u * p.scale⌋ := by
    have := (hbounds hu₀ hu₁).2
    rw [p.tileAlong_eq hu₀, min_eq_left (by omega)]
  -- The tiles of whole worlds are taken off.
  have hfloor : ⌊Int.fract (v + k / p.scale) * p.scale⌋ =
      ⌊v * p.scale⌋ + k - 2 ^ p.level * ⌊v + k / p.scale⌋ := by
    have hsplit : Int.fract (v + k / p.scale) * p.scale =
        v * p.scale + ((k - 2 ^ p.level * ⌊v + k / p.scale⌋ : Int) : Rat) := by
      have hk : (k : Rat) / p.scale * p.scale = k := div_mul_cancel₀ _ hscale.ne'
      rw [Int.fract, sub_mul, add_mul, hk, Int.cast_sub, Int.cast_mul, hint]
      ring
    rw [hsplit, Int.floor_add_intCast]
    ring
  have hfract := hbounds (Int.fract_nonneg (v + k / p.scale)) (Int.fract_lt_one _)
  rw [htile (Int.fract_nonneg _) (Int.fract_lt_one _), htile hv₀ hv₁]
  rw [hfloor] at hfract ⊢
  rw [← Int.sub_mul_emod_self_left (⌊v * p.scale⌋ + k) (2 ^ p.level) ⌊v + k / p.scale⌋]
  exact (Int.emod_eq_of_lt hfract.1 hfract.2).symm

theorem tileIndex_panPixels_tiles (hp : p.InWorld) (hx : p.x < 1) (k : Int) :
    (p.panPixels (256 * k) 0).zoom = p.zoom ∧
      (p.panPixels (256 * k) 0).tileIndex.z = p.tileIndex.z ∧
      (p.panPixels (256 * k) 0).tileIndex.y = p.tileIndex.y ∧
      ((p.panPixels (256 * k) 0).tileIndex.x : Int) =
        (p.tileIndex.x + k) % 2 ^ p.tileIndex.z := by
  refine ⟨rfl, rfl, ?_, ?_⟩
  · show p.tileAlong (p.panPixels (256 * k) 0).y = p.tileAlong p.y
    rw [panPixels_tiles_y hp]
  · show (p.tileAlong (p.panPixels (256 * k) 0).x : Int) = _
    rw [panPixels_tiles_x, tileAlong_fract hp.bounds.1.1 hx]
    rfl

/-! ## 5. The grid -/

/-- The tile at a position is the only one of its level that holds it, it is made up of tiles of the
next level, and a map that is moved by tiles shows the tiles one after the other. -/
theorem tiles_part_world (hp : p.InWorld) :
    p.tileIndex.z = Min.min p.zoom maxZoom ∧ p.tileIndex.OnGrid ∧
      (∀ t : TileIndex, t.z = p.tileIndex.z → t.OnGrid → (t.Holds p ↔ t = p.tileIndex)) ∧
      (p.zoom < maxZoom →
        p.tileIndex = TileIndex.parent { p with zoom := p.zoom + 1 }.tileIndex) ∧
      (p.x < 1 → ∀ k : Int,
        (p.panPixels (256 * k) 0).zoom = p.zoom ∧
          (p.panPixels (256 * k) 0).tileIndex.z = p.tileIndex.z ∧
          (p.panPixels (256 * k) 0).tileIndex.y = p.tileIndex.y ∧
          ((p.panPixels (256 * k) 0).tileIndex.x : Int) =
            (p.tileIndex.x + k) % 2 ^ p.tileIndex.z) :=
  ⟨rfl, tileIndex_onGrid hp, fun _ hz ht => holds_iff hp hz ht, tileIndex_eq_parent hp,
    tileIndex_panPixels_tiles hp⟩

/-- At the South of the world, on a border of two tiles. -/
def southern : MapPosition Rat := ⟨7 / 8, 1, 3⟩

/-- The last row holds the border of the world, and nine tiles to the West of the last tile lies the
one before it. -/
theorem tiles_part_world_at_border :
    southern.InWorld ∧ southern.x < 1 ∧ (⟨3, 7, 7⟩ : TileIndex).OnGrid ∧
      (⟨3, 7, 7⟩ : TileIndex).Holds southern ∧
      southern.tileIndex = TileIndex.parent { southern with zoom := 4 }.tileIndex ∧
      (southern.panPixels (256 * (-9 : Int)) 0).tileIndex.x = 6 := by
  have hworld : southern.InWorld := ⟨by decide +kernel, by decide +kernel⟩
  have hgrid : (⟨3, 7, 7⟩ : TileIndex).OnGrid := ⟨by decide, by decide⟩
  obtain ⟨-, -, hholds, hparent, hpan⟩ := tiles_part_world hworld
  have hx := (hpan (by decide +kernel) (-9)).2.2.2
  have htile : southern.tileIndex = ⟨3, 7, 7⟩ := by decide +kernel
  rw [htile] at hx
  have hsix : ((7 : Nat) + (-9) : Int) % 2 ^ 3 = (6 : Nat) := by decide
  exact ⟨hworld, by decide +kernel, hgrid, (hholds _ (by rw [htile]) hgrid).2 htile.symm,
    hparent (by decide), Int.ofNat_inj.1 (hx.trans hsix)⟩

end MapPosition

end TourMap
