import TourMap.Proofs.Builder
import TourMap.Proofs.Number.Value
import TourMap.Proofs.Trace.Visible

/-!
# Builder: what is seen of a track is drawn

With pixels in exact numbers, a geometry without decimation is made of what the clip region holds of
the ways from each point of its track to the next one. The numbers of the world are any; the pixels
may be rounded, as those of single precision are, before they are followed exactly.
-/

namespace TourMap

/-- Pixels of single precision that are followed in exact numbers. -/
instance Resolution.instDoubleRational : Resolution Double Rat where
  narrow x := (narrow x : Single).toRat
  widen x := .ofRatio double (decide (x < 0)) x.num.natAbs x.den 0

variable {W : Type} [Mercator W]

theorem TrackData.map_fst_path (track : TrackData W) :
    track.path.map Prod.fst = track.points.toList.map GeoPoint.project := by
  have hcolors : track.colors.size = track.points.size := track.colors_size
  refine List.map_fst_zip ?_
  rw [List.length_map, Array.length_toList, Array.length_toList, hcolors]

variable [Resolution W Rat]

/-- The ways of a track from each point to the next one, where it does not break. -/
def TrackData.ways (track : TrackData W) (position : MapPosition W) : List (Segment Rat) :=
  match track.points.toList.map GeoPoint.project with
  | [] => []
  | p :: rest => Trace.waysFrom position track.tourStarts 1 p rest

theorem Region.proper_centered {extent : Rat} (h : 0 ≤ extent) :
    (Region.centered extent).Proper := by
  have hle : -extent ≤ extent := by linarith
  exact ⟨hle, hle⟩

namespace Builder

/-- The segments of the lines of a geometry are what is seen of the ways of its track, in order. -/
theorem geometry_shows_ways (track : TrackData W) (position : MapPosition W)
    (settings : BuildSettings Rat) (hdistance : settings.minDistance ≤ 0)
    (hextent : 0 ≤ settings.clipExtent) :
    (geometry track position settings).Holds (geometry track position settings).lines ∧
      ∃ parts, List.Forall₂ (Region.centered settings.clipExtent).Shows (track.ways position)
          parts ∧
        segmentsOf (geometry track position settings).lines = parts.reduceOption := by
  have hsquare := Region.proper_centered hextent
  have hpath := track.map_fst_path
  unfold TrackData.ways
  rw [geometry_eq, ← hpath, TrackData.boundaries, dropWhile_eq_nextStarts]
  cases track.path with
  | nil => exact ⟨rfl, [], .nil, rfl⟩
  | cons point rest =>
    obtain ⟨p, color⟩ := point
    have hstart := Trace.follows_start hsquare (nextStarts track.tourStarts 1) p
      (position.pixel p) color
    obtain ⟨parts, q, hparts, hfollow⟩ := hstart.follow position hdistance hsquare
      track.starts_increasing rfl rest
    obtain ⟨lines, hlines, hdrawn⟩ := (hfollow.flush_draws q).lines
    have hholds : RenderBuckets.Holds ⟨(Trace.ofPoints settings position
        (nextStarts track.tourStarts 1) ((p, color) :: rest)).map (finish settings)⟩ lines :=
      holds_finish hlines
    rw [hholds.lines_eq]
    refine ⟨hholds, parts, hparts, ?_⟩
    simpa [Run.empty, pointsOf, segmentsBetween] using hdrawn

/-- The middle of the world, all of which fits into a tile. -/
def middle : MapPosition Double := ⟨.exp2 (-1), .exp2 (-1), 0⟩

/-- Settings without decimation, for a window of sixteen pixels. -/
def exactSettings : BuildSettings Rat :=
  { BuildSettings.default with minDistance := 0, clipExtent := 8 }

theorem geometry_shows_ways_of_shortTrack :
    exactSettings.minDistance ≤ 0 ∧ 0 ≤ exactSettings.clipExtent ∧
      (geometry shortTrack middle exactSettings).Holds
        (geometry shortTrack middle exactSettings).lines ∧
      ∃ parts, List.Forall₂ (Region.centered exactSettings.clipExtent).Shows
          (shortTrack.ways middle) parts ∧
        segmentsOf (geometry shortTrack middle exactSettings).lines = parts.reduceOption := by
  have hdistance : exactSettings.minDistance ≤ 0 := by decide
  have hextent : 0 ≤ exactSettings.clipExtent := by decide
  exact ⟨hdistance, hextent, geometry_shows_ways shortTrack middle exactSettings hdistance hextent⟩

/-- Of the way from the middle to the pixel fourteen to the right and seven up, a part is seen. -/
example : shortTrack.ways middle = [⟨⟨0, 0⟩, ⟨14, -7⟩⟩] ∧
    segmentsOf (geometry shortTrack middle exactSettings).lines = [⟨⟨0, 0⟩, ⟨8, -4⟩⟩] := by
  decide +kernel

end Builder

end TourMap
