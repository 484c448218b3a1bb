import TourMap.Proofs.Builder.Completion
import TourMap.Proofs.Builder.Extent
import TourMap.Proofs.Number.Integral

/-!
# Compile: what is built fits into fixed-point numbers

All points of a completed build are in its clip region, and with the settings of a configuration this
reaches 4095 pixels at most. So a build gives a bucket whose coordinates, counted in eighths of a
pixel, need only be rounded to be compiled: none of them has to be brought into the range of 16 bits.
-/

namespace TourMap

open Arithmetic

/-! ## 1. Coordinates -/

/-- Whether an integer counts the eighths of a coordinate: they are rounded to the nearest integer, a
half away from zero, and nothing is brought into range. -/
structure CountsEighths (v : Single) (n : Int) : Prop where
  rounded : ∃ q, v.Denotes q ∧ n = roundAway (8 * q) ∧ |(n : Rat) / 8 - q| ≤ 1 / 16
  inRange : -32760 ≤ n ∧ n ≤ 32760
  unclamped : clamp (round (v * ofInt LineBucket.coordScale)) (ofInt (-32768)) (ofInt 32767) =
    round (v * ofInt LineBucket.coordScale)

structure Point.CountsEighths (p : Point Single) (c : Point Int) : Prop where
  x : TourMap.CountsEighths p.x c.x
  y : TourMap.CountsEighths p.y c.y

namespace LineBucket

theorem denotes_eighths {v : Single} {q : Rat} (hv : v.Denotes q) (hq : |8 * q| ≤ 32760) :
    (v * ofInt coordScale).Denotes (8 * q) := by
  have height : (ofInt coordScale : Single).Denotes (8 : Int) :=
    Binary.denotes_ofInt single_hasIntegers (by decide)
  -- Multiplied by a power of two, no digit is lost.
  have hself : single.nearest (q * (8 : Int)) = 8 * q := by
    have hpow := Format.nearest_eq_self (hv.represents.mul_twoPow 3)
    convert hpow using 1 <;> push_cast <;> ring_nf
  have hlimit : |8 * q| < single.limit := by
    have hspan : single.Spans 15 := ⟨by decide, by decide⟩
    refine (hq.trans ?_).trans_lt hspan.lt_limit
    norm_num
  rw [← hself] at hlimit ⊢
  exact hv.mul height hlimit

theorem countsEighths_toFixedPoint {v : Single} {q : Rat} (hv : v.Denotes q) (hq : |q| ≤ 4095) :
    CountsEighths v (toFixedPoint v) := by
  have hscaled : |8 * q| ≤ 32760 := by
    rw [abs_mul, abs_of_pos (by norm_num)]
    linarith
  have hround : (round (v * ofInt coordScale)).Denotes (roundAway (8 * q)) := by
    refine (denotes_eighths hv hscaled).round single_hasIntegers ⟨by decide, by decide⟩ ?_
    have hprecision : (32760 + 1 : Rat) ≤ 2 ^ single.precision := by norm_num [single]
    linarith
  obtain ⟨hlow, hhigh⟩ := abs_le.1 (abs_roundAway_le (n := 32760) (by exact_mod_cast hscaled))
  obtain ⟨hnear, hnear'⟩ := abs_le.1 (abs_sub_roundAway_le (8 * q))
  obtain ⟨n, hn⟩ : ∃ n, n = roundAway (8 * q) := ⟨_, rfl⟩
  rw [← hn] at hround hlow hhigh hnear hnear'
  have hclamp : clamp (round (v * ofInt coordScale)) (ofInt (-32768)) (ofInt 32767) =
      round (v * ofInt coordScale) := by
    have hmin : (ofInt (-32768) : Single).Denotes (-32768 : Int) :=
      Binary.denotes_ofInt single_hasIntegers (by decide)
    have hmax : (ofInt 32767 : Single).Denotes (32767 : Int) :=
      Binary.denotes_ofInt single_hasIntegers (by decide)
    refine Binary.Denotes.clamp_eq hmin hmax hround ?_ ?_
    · exact Int.cast_le.2 (by omega)
    · exact Int.cast_le.2 (by omega)
  have hcompiled : toFixedPoint v = n := by
    rw [toFixedPoint, hclamp, hround.toInt_eq]
  rw [hcompiled]
  exact ⟨⟨q, hv, hn, abs_le.2 ⟨by linarith, by linarith⟩⟩, ⟨hlow, hhigh⟩, hclamp⟩

end LineBucket

/-! ## 2. Buckets -/

theorem countsEighths_compilePoint {extent : Single} {q : Rat} (hextent : extent.Denotes q)
    (hq : q ≤ 4095) {p : Point Single} (hp : (Region.centered extent).Encloses p) :
    p.CountsEighths (LineBucket.compilePoint p) := by
  have hcoordinate {v : Single} (hv : Within (-extent) extent v) :
      CountsEighths v (LineBucket.toFixedPoint v) := by
    obtain ⟨r, hr, hlow, hhigh⟩ := Binary.exists_denotes_of_within hextent.neg hextent hv
    exact LineBucket.countsEighths_toFixedPoint hr (abs_le.2 ⟨by linarith, by linarith⟩)
  exact ⟨hcoordinate hp.x, hcoordinate hp.y⟩

/-- Whether the points of a compiled bucket count the eighths of its pixels. -/
structure LineBucket.CompiledExactly (l : LineBucket Single) : Prop where
  vertices : List.Forall₂ Point.CountsEighths l.vertices.toList l.compile.positions.toList
  arrows : List.Forall₂ Point.CountsEighths l.arrows.toList l.compile.arrows.toList

theorem LineBucket.All.compiledExactly {l : LineBucket Single}
    (h : l.All fun p => p.CountsEighths (compilePoint p)) : l.CompiledExactly := by
  constructor
  · rw [compile, Array.toList_map, List.forall₂_map_right_iff, List.forall₂_same]
    exact fun p hp => h.vertices p (Array.mem_toList_iff.1 hp)
  · rw [compile, Array.toList_map, List.forall₂_map_right_iff, List.forall₂_same]
    exact fun p hp => h.arrows p (Array.mem_toList_iff.1 hp)

/-! ## 3. Builds -/

namespace Workbench

variable {track : TrackData Double} {position : MapPosition Double} {settings : BuildSettings Single}
  {buckets : RenderBuckets Single}

/-- All points of a completed build are in its clip region. With the settings of a configuration they
are compiled exactly, up to the rounding. -/
theorem Builds.fits_into_words (h : Builds track position settings buckets) :
    (buckets.All fun p => (Region.centered settings.clipExtent).contains p = true) ∧
      ∀ config, settings = .ofConfig config → config.clipExtent ≠ .nan → position.InWorld →
        ∀ l ∈ buckets.lineBucket, l.CompiledExactly := by
  rw [h.eq_geometry]
  refine ⟨Builder.geometry_contains track position settings, ?_⟩
  rintro config rfl hextent hposition l hl
  obtain ⟨q, hq, -, hle⟩ := TrackConfig.exists_clipExtent hextent
  have hpoints := (Builder.geometry_encloses track hposition hextent).mono fun p hp =>
    countsEighths_compilePoint hq hle hp
  exact (hpoints l hl).compiledExactly

/-- A configuration that asks for as much geometry as there is, with arrows. -/
def boundless : TrackConfig Single :=
  { TrackConfig.default with clipExtent := .infinity false, showArrows := true }

theorem Builds.fits_into_words_of_shortTrack :
    Builds shortTrack .corner (.ofConfig boundless)
        (Builder.geometry shortTrack .corner (.ofConfig boundless)) ∧
      boundless.clipExtent ≠ .nan ∧ (.corner : MapPosition Double).InWorld ∧
      ((Builder.geometry shortTrack .corner (.ofConfig boundless)).All fun p =>
        (Region.centered (BuildSettings.ofConfig boundless).clipExtent).contains p = true) ∧
      ∀ l ∈ (Builder.geometry shortTrack .corner (.ofConfig boundless)).lineBucket,
        l.CompiledExactly := by
  have hbuilds := builds_geometry shortTrack .corner (BuildSettings.ofConfig boundless)
  have hextent : boundless.clipExtent ≠ .nan := nofun
  have hcorner : (.corner : MapPosition Double).InWorld := ⟨by decide +kernel, by decide +kernel⟩
  obtain ⟨hinside, hcompiled⟩ := Builds.fits_into_words hbuilds
  exact ⟨hbuilds, hextent, hcorner, hinside, hcompiled boundless rfl hextent hcorner⟩

/-- The first point of the track is half a world away, its pixels counted in eighths. -/
example : (Builder.geometry shortTrack .corner (.ofConfig boundless)).lineBucket.map
    (·.compile.arrows) = some #[⟨1024, 1024⟩] := by
  decide +kernel

end Workbench

end TourMap
