import TourMap.Proofs.Builder.Order
import TourMap.Proofs.Builder.Visible
import TourMap.Proofs.Number.Absorption
import TourMap.Proofs.Trace.Arrows
import TourMap.Proofs.Trace.Decimation
import TourMap.Proofs.World

/-!
# Builder: decimation keeps the lines and their ends

A geometry with a distance between its vertices has the lines of the geometry without, each with some
vertices left out that are near the last one kept before them, and never the first or the last one.
-/

namespace TourMap

open Arithmetic Binary

/-! ## 1. Pixels -/

namespace MapPosition

variable {position : MapPosition Double}

/-- From a position that is not too far away all pixels have finite coordinates, and from any other one
all points are seen alike. -/
theorem pixel_x_finite_or_same (hx : position.x.isFinite = true) :
    (∀ q : Point Double, q.InSquare →
      (position.pixel q : Pixel Single).point.x.isFinite = true) ∨
    ∀ q q' : Point Double, q.InSquare → q'.InSquare →
      (position.pixel q : Pixel Single).point.x = (position.pixel q' : Pixel Single).point.x := by
  by_cases hnear : Binary.Bounded 55 position.x
  · exact .inl fun q hq => (pixel_x_bounded (by decide) (by decide) hnear hq.x).isFinite
  · refine .inr fun q q' hq hq' => ?_
    have hsame : q.x - position.x = q'.x - position.x :=
      sub_eq_sub_of_large (by decide) (bounded_of_within_unit hq.x) (bounded_of_within_unit hq'.x) hx
        hnear
    exact pixel_x_congr hsame

theorem pixel_y_finite_or_same (hy : position.y.isFinite = true) :
    (∀ q : Point Double, q.InSquare →
      (position.pixel q : Pixel Single).point.y.isFinite = true) ∨
    ∀ q q' : Point Double, q.InSquare → q'.InSquare →
      (position.pixel q : Pixel Single).point.y = (position.pixel q' : Pixel Single).point.y := by
  by_cases hnear : Binary.Bounded 55 position.y
  · exact .inl fun q hq => (pixel_y_bounded (by decide) (by decide) hnear hq.y).isFinite
  · refine .inr fun q q' hq hq' => ?_
    have hsame : q.y - position.y = q'.y - position.y :=
      sub_eq_sub_of_large (by decide) (bounded_of_within_unit hq.y) (bounded_of_within_unit hq'.y) hy
        hnear
    rw [pixel_y_eq, pixel_y_eq, hsame]

/-- Where two coordinates have a distance, so has each of them from the others. -/
theorem lt_abs_sub {P : Point Double → Single}
    (hP : (∀ q, q.InSquare → (P q).isFinite = true) ∨
      ∀ q q' : Point Double, q.InSquare → q'.InSquare → P q = P q')
    {d n : Single} (hn : n < Arithmetic.ofInt 0) {k k' v : Point Double} (hk : k.InSquare)
    (hk' : k'.InSquare) (hv : v.InSquare) (hfar : d < Arithmetic.abs (P k - P v)) :
    n < Arithmetic.abs (P k' - P v) := by
  apply lt_abs_of_neg single_hasIntegers hn
  rcases hP with hfinite | hsame
  · exact sub_ne_nan (hfinite k' hk') (ne_nan_of_isFinite (hfinite v hv))
  · rw [hsame k' k hk' hk]
    exact ne_nan_of_lt_abs hfar

/-- A pixel that is further away from one pixel than a distance is further away from each other one than
a negative distance. -/
theorem furtherThan_of_neg (hx : position.x.isFinite = true) (hy : position.y.isFinite = true)
    {d n : Single} (hn : n < Arithmetic.ofInt 0) {k k' v : Point Double} (hk : k.InSquare)
    (hk' : k'.InSquare) (hv : v.InSquare)
    (hfar : (position.pixel k : Pixel Single).point.furtherThan (position.pixel v).point d = true) :
    (position.pixel k' : Pixel Single).point.furtherThan (position.pixel v).point n = true := by
  unfold Point.furtherThan at hfar ⊢
  rw [Bool.or_eq_true, decide_eq_true_iff, decide_eq_true_iff] at hfar ⊢
  exact hfar.imp (lt_abs_sub (pixel_x_finite_or_same hx) hn hk hk' hv)
    (lt_abs_sub (pixel_y_finite_or_same hy) hn hk hk' hv)

end MapPosition

/-! ## 2. Entries and exits -/

namespace Region

variable {N V : Type} [Arithmetic N] {r : Region N} {mark : Point N → V} {breaks : Bool}
  {p q : Point N} {Stop Entry Exit : V → Prop}

/-- A line goes on at pixels, enters the region where the pixel before is outside, and leaves it where
the next one is. -/
theorem strokeTo_fits (hstop : Stop (mark q))
    (hentry : ∀ part, r.clip 4 ⟨p, q⟩ (r.outcode p) (r.outcode q) = some part →
      r.contains p = false → r.contains q = true → Entry (mark part.first))
    (hexit : ∀ part, r.clip 4 ⟨p, q⟩ (r.outcode p) (r.outcode q) = some part →
      r.contains q = false → Exit (mark part.second)) :
    (r.strokeTo mark breaks p q).Fits Stop Entry Exit := by
  unfold strokeTo
  split
  · intro v hv
    split at hv
    · rwa [← Option.mem_some.1 hv]
    · cases hv
  · split
    · exact hstop
    · rename_i hboth
      split
      · exact nofun
      · rename_i part hclip
        split
        · rename_i hq
          have hp : r.contains p = false := by
            rw [hq, Bool.and_true] at hboth
            exact Bool.eq_false_iff.2 hboth
          have hsecond : part.second = q := by
            rw [contains, beq_iff_eq] at hq
            rw [hq] at hclip
            exact clip_second_eq hclip
          exact ⟨hentry part hclip hp hq, by rwa [hsecond]⟩
        · rename_i hq
          exact hexit part hclip (Bool.eq_false_iff.2 hq)

end Region

namespace TrackData

variable {W N : Type} [Mercator W] [Arithmetic N] [Resolution W N] (track : TrackData W)
  (position : MapPosition W)

/-- Whether a vertex lies at the pixel of a point. -/
def IsPixel (v : Vertex N) : Prop :=
  ∃ (i : Nat) (p : GeoPoint W), track.points[i]? = some p ∧
    v.point = (position.pixel p.project).point

/-- Whether a vertex is where the track enters the clip region, from a point outside to one inside. -/
def IsEntry (extent : N) (v : Vertex N) : Prop :=
  ∃ i p q part, track.points[i]? = some p ∧ track.points[i + 1]? = some q ∧
    (Region.centered extent).contains (position.pixel p.project).point = false ∧
    (Region.centered extent).contains (position.pixel q.project).point = true ∧
    track.partAt position extent (i + 1) = some part ∧ v.point = part.first

/-- Whether a vertex is where the track leaves the clip region on the way to a point outside. -/
def IsExit (extent : N) (v : Vertex N) : Prop :=
  ∃ i q part, track.points[i + 1]? = some q ∧
    (Region.centered extent).contains (position.pixel q.project).point = false ∧
    track.partAt position extent (i + 1) = some part ∧ v.point = part.second

variable {track position} {extent : N}

theorem fits_of_mem_strokes {stroke : Stroke (Vertex N)}
    (h : stroke ∈ track.strokes position extent fun _ v => v) :
    stroke.Fits (track.IsPixel position) (track.IsEntry position extent)
      (track.IsExit position extent) := by
  obtain ⟨i, hi⟩ := List.mem_iff_getElem?.1 h
  obtain ⟨q, color, hq, ⟨rfl, rfl⟩ | ⟨j, p, c, rfl, hp, rfl⟩⟩ := Region.getElem?_strokes _ _ _ _ hi
  · obtain ⟨q, hqPoint, rfl, -⟩ := getElem?_path hq
    intro v hv
    split at hv
    · rw [← Option.mem_some.1 hv]
      exact ⟨0, q, hqPoint, rfl⟩
    · cases hv
  · obtain ⟨q, hqPoint, rfl, -⟩ := getElem?_path hq
    obtain ⟨p, hpPoint, rfl, -⟩ := getElem?_path hp
    refine Region.strokeTo_fits ⟨j + 1, q, hqPoint, rfl⟩ (fun part hclip hout hin => ?_)
      fun part hclip hout => ?_
    · exact ⟨j, p, q, part, hpPoint, hqPoint, hout, hin,
        (partAt_succ hpPoint hqPoint).trans hclip, rfl⟩
    · exact ⟨j, q, part, hqPoint, hout, (partAt_succ hpPoint hqPoint).trans hclip, rfl⟩

end TrackData

/-! ## 3. Geometries -/

namespace Builder

section

variable {W N : Type} [Mercator W] [Arithmetic N] [Resolution W N]

/-- The arrows of a geometry do not depend on the distance between its vertices. -/
theorem geometry_arrows (track : TrackData W) (position : MapPosition W)
    (settings : BuildSettings N) (d n : N) :
    (geometry track position { settings with minDistance := d }).lineBucket.map (·.arrows) =
      (geometry track position { settings with minDistance := n }).lineBucket.map (·.arrows) := by
  rw [geometry_eq, geometry_eq]
  cases track.path with
  | nil => rfl
  | cons point rest =>
    obtain ⟨p, color⟩ := point
    have hstart : Trace.SameArrows
        (Trace.start { settings with minDistance := d } track.boundaries p (position.pixel p) color)
        (Trace.start { settings with minDistance := n } track.boundaries p (position.pixel p)
          color) := ⟨rfl, rfl, rfl, rfl, rfl⟩
    refine congrArg some (Trace.SameArrows.finish (hstart.follow ?_ position 1 rest) ?_)
    · rfl
    · rfl

end

/-- With any distance between its vertices a geometry has the arrows and the lines that it has with a
negative one, from the same first vertices to the same last ones. What is left out of a line is no
further than the distance from the last vertex kept before it; and what is kept is further away from
the vertex before it, but for an entry, a dropped vertex and an exit at the ends of the line. -/
theorem decimation_keeps_lines (track : TrackData Double) (position : MapPosition Double)
    (settings : BuildSettings Single) (d n : Single) (hx : position.x.isFinite = true)
    (hy : position.y.isFinite = true) (hn : n < Arithmetic.ofInt 0) :
    ∃ lines fullLines : List (List (Vertex Single)),
      (geometry track position { settings with minDistance := d }).Holds
        (lines.map List.toArray) ∧
      (geometry track position { settings with minDistance := n }).Holds
        (fullLines.map List.toArray) ∧
      (geometry track position { settings with minDistance := d }).lineBucket.map (·.arrows) =
        (geometry track position { settings with minDistance := n }).lineBucket.map (·.arrows) ∧
      lines.length = fullLines.length ∧
      List.Forall₂ (fun line full => line.Sublist full ∧ line.head? = full.head? ∧
        line.getLast? = full.getLast? ∧ Thinned (Trace.farBy id d) line full) lines fullLines ∧
      ∀ line ∈ lines, Spaced (Trace.farBy id d) (track.IsEntry position settings.clipExtent)
        (track.IsExit position settings.clipExtent) line := by
  have hlines (settings : BuildSettings Single) :
      (geometry track position settings).Holds
        ((Sketch.linesOf (Trace.farBy id settings.minDistance)
          (track.strokes position settings.clipExtent fun _ v => v)).map List.toArray) := by
    have hsketch := geometry_sketch track position settings id (fun _ v => v) fun _ _ => rfl
    simpa only [Trace.erased, List.map_id] using hsketch
  have hfits (stroke : Stroke (Vertex Single))
      (h : stroke ∈ track.strokes position settings.clipExtent fun _ v => v) :=
    TrackData.fits_of_mem_strokes h
  -- The points of a track are projected into the square, so that their pixels have distances.
  have hfar (k k' v : Vertex Single) (hk : track.IsPixel position k)
      (hk' : track.IsPixel position k') (hv : track.IsPixel position v)
      (h : Trace.farBy id d k v = true) : Trace.farBy id n k' v = true := by
    obtain ⟨-, p, -, hp⟩ := hk
    obtain ⟨-, p', -, hp'⟩ := hk'
    obtain ⟨-, q, -, hq⟩ := hv
    unfold Trace.farBy id at h ⊢
    rw [hp, hq] at h
    rw [hp', hq]
    exact MapPosition.furtherThan_of_neg hx hy hn p.project_inSquare p'.project_inSquare
      q.project_inSquare h
  have hthinned := Sketch.thinned_linesOf hfits hfar
  refine ⟨_, _, hlines { settings with minDistance := d },
    hlines { settings with minDistance := n }, geometry_arrows track position settings d n,
    hthinned.length_eq, hthinned.imp fun line full h => ?_, Sketch.spaced_linesOf hfits⟩
  exact ⟨h.thins.sublist, h.ends_eq.1, h.ends_eq.2, h⟩

/-- A track with a point near the first one. -/
def slowTrack : TrackData Double :=
  { shortTrack with
    source := ⟨1, #[⟨.zero false, .zero false⟩, ⟨.zero false, .ofInt 3⟩, ⟨.zero false, .ofInt 20⟩]⟩
    colors := #[.rgb 255 0 0, .rgb 0 255 0, .rgb 0 0 255]
    colors_size := rfl
    starts_lt := by decide }

theorem decimation_keeps_lines_of_slowTrack :
    middle.x.isFinite = true ∧ middle.y.isFinite = true ∧
      (Arithmetic.ofInt (-1) : Single) < Arithmetic.ofInt 0 ∧
      ∃ lines fullLines : List (List (Vertex Single)),
        (geometry slowTrack middle { BuildSettings.default with minDistance := .ofInt 5 }).Holds
          (lines.map List.toArray) ∧
        (geometry slowTrack middle
          { BuildSettings.default with minDistance := Arithmetic.ofInt (-1) }).Holds
            (fullLines.map List.toArray) ∧
        lines.length = fullLines.length ∧
        List.Forall₂ (fun line full => line.head? = full.head? ∧ line.getLast? = full.getLast?)
          lines fullLines := by
  have hx : middle.x.isFinite = true := by decide +kernel
  have hy : middle.y.isFinite = true := by decide +kernel
  have hn : (Arithmetic.ofInt (-1) : Single) < Arithmetic.ofInt 0 := by decide +kernel
  obtain ⟨lines, fullLines, hlines, hfull, -, hlength, hthinned, -⟩ :=
    decimation_keeps_lines slowTrack middle .default (.ofInt 5) (Arithmetic.ofInt (-1)) hx hy hn
  exact ⟨hx, hy, hn, lines, fullLines, hlines, hfull, hlength,
    hthinned.imp fun _ _ h => ⟨h.2.1, h.2.2.1⟩⟩

/-- Of its three vertices two are kept. -/
example :
    (geometry slowTrack middle { BuildSettings.default with
        minDistance := (.ofInt 5 : Single) }).lineBucket.map (·.lineEnds) = some #[2] ∧
      (geometry slowTrack middle { BuildSettings.default with
        minDistance := (Arithmetic.ofInt (-1) : Single) }).lineBucket.map (·.lineEnds) =
          some #[3] := by
  decide +kernel

end Builder

end TourMap
