import TourMap.Proofs.Trace.Points
import TourMap.Proofs.World

/-!
# Extent: a geometry stays in its clip region

Seen from a position in the world, the pixels of a track are finite, and so is what the clipper
computes of them. So all that a geometry holds lies in its clip region, which reaches from one pixel
to a few thousand pixels far, as long as the configuration says a number.
-/

namespace TourMap

open Arithmetic Binary

theorem Region.sound_centered {f : Format} {extent : Binary f} {q : Rat} {k : Int}
    (hextent : extent.Denotes q) (hpos : 0 ≤ q) (hle : q ≤ 2 ^ k) :
    (Region.centered extent).Sound k := by
  have hhigh : Binary.Bounded k extent := hextent.bounded (by rwa [abs_of_nonneg hpos])
  -- The borders are in order, as the extent is not negative.
  have horder : ¬ extent < -extent := mt (hextent.lt_iff hextent.neg).1 (by linarith)
  exact ⟨⟨hhigh.neg, hhigh.neg⟩, ⟨hhigh, hhigh⟩, horder, horder⟩

/-- What is far out but finite is clipped to numbers in the region. -/
theorem Region.grants_encloses {r : Region Single} (hr : r.Sound (34 : Nat)) :
    r.Grants (Point.Bounded (34 : Nat)) r.Encloses where
  inside _ hp hin := encloses_of_outcode hp hin
  clipped _ _ _ hp hq hclip :=
    clip_encloses (n := 4) single_hasIntegers ⟨by decide, by decide⟩ hr hp hq hclip

namespace TrackConfig

theorem within_clipExtent {config : TrackConfig Single} (h : config.clipExtent ≠ .nan) :
    Within (Arithmetic.ofInt 1) maxClipExtent config.sanitized.clipExtent :=
  within_clamp (by decide +kernel) (by decide +kernel) (isNaN_eq_false_iff.2 h)

theorem exists_clipExtent {config : TrackConfig Single} (h : config.clipExtent ≠ .nan) :
    ∃ q, config.sanitized.clipExtent.Denotes q ∧ 1 ≤ q ∧ q ≤ 4095 := by
  have hlow : (Arithmetic.ofInt 1 : Single).Denotes 1 := denotes_one single_hasIntegers
  have hhigh : (maxClipExtent : Single).Denotes (4095 : Int) :=
    denotes_ofInt single_hasIntegers (by decide)
  obtain ⟨q, hq, hle, hle'⟩ := exists_denotes_of_within hlow hhigh (within_clipExtent h)
  exact ⟨q, hq, hle, by exact_mod_cast hle'⟩

end TrackConfig

namespace Builder

/-- For any position in the world, all vertices and arrows of a track have numbers for coordinates
that lie in the clip region. -/
theorem geometry_encloses (track : TrackData Double) {position : MapPosition Double}
    (hposition : position.InWorld) {config : TrackConfig Single}
    (hextent : config.clipExtent ≠ .nan) :
    (geometry track position (.ofConfig config)).All
      (Region.centered config.sanitized.clipExtent).Encloses := by
  obtain ⟨q, hq, hlow, hhigh⟩ := TrackConfig.exists_clipExtent hextent
  have hsound : (Region.centered config.sanitized.clipExtent).Sound (34 : Nat) :=
    Region.sound_centered hq (by linarith) (hhigh.trans (by norm_num))
  have hgrants := Region.grants_encloses hsound
  exact geometry_all track position hgrants fun p =>
    MapPosition.pixel_bounded hposition p.project_inSquare

end Builder

end TourMap
