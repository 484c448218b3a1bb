import TourMap.Proofs.Builder.Decimation
import TourMap.Proofs.Geometry.Exact
import TourMap.Proofs.Trace.Pace

/-!
# Builder: the line at hand and the clipper never drift apart

Along each axis the pixels of a track are all finite or all the same, wherever the map is looked at.
So with pixels that are followed in exact numbers the clipper sees all ways of a track, and after
each step of a build the line at hand, the clipper and the course fit together.
-/

namespace TourMap

open Arithmetic Exact

/-! ## 1. Pixels -/

/-- From what is not finite all finite numbers are equally far away. -/
theorem Binary.sub_eq_sub_of_not_isFinite {f : Format} {x y c : Binary f} (hx : x.isFinite = true)
    (hy : y.isFinite = true) (hc : c.isFinite = false) : x - c = y - c := by
  cases x with
  | nan | infinity => cases hx
  | finite =>
    cases y with
    | nan | infinity => cases hy
    | finite =>
      cases c with
      | nan | infinity => rfl
      | finite => cases hc

namespace MapPosition

variable {p q : Point Double}

/-- The coordinates are those of the pixels of single precision. -/
theorem pixel_point_exact (position : MapPosition Double) (q : Point Double) :
    (position.pixel q : Pixel Exact).point.x =
        ofBinary (position.pixel q : Pixel Single).point.x ∧
      (position.pixel q : Pixel Exact).point.y =
        ofBinary (position.pixel q : Pixel Single).point.y := by
  unfold pixel
  dsimp only
  split
  · exact ⟨rfl, rfl⟩
  · split <;> exact ⟨rfl, rfl⟩

theorem alike_of_finite_or_same {x y : Single}
    (h : (x.isFinite = true ∧ y.isFinite = true) ∨ x = y) : Alike (ofBinary x) (ofBinary y) := by
  rcases h with ⟨hx, hy⟩ | rfl
  · obtain ⟨a, ha⟩ := exists_finite_of_isFinite hx
    obtain ⟨b, hb⟩ := exists_finite_of_isFinite hy
    exact Or.inr ⟨a, b, ha, hb⟩
  · exact Alike.refl _

theorem pixel_x_alike (position : MapPosition Double) (hp : p.InSquare) (hq : q.InSquare) :
    Alike (position.pixel p : Pixel Exact).point.x (position.pixel q : Pixel Exact).point.x := by
  rw [(position.pixel_point_exact p).1, (position.pixel_point_exact q).1]
  apply alike_of_finite_or_same
  cases hx : position.x.isFinite with
  | true =>
    exact (pixel_x_finite_or_same hx).imp (fun h => ⟨h p hp, h q hq⟩) fun h => h p q hp hq
  | false =>
    exact Or.inr (pixel_x_congr (Binary.sub_eq_sub_of_not_isFinite
      (bounded_of_within_unit hp.x).isFinite (bounded_of_within_unit hq.x).isFinite hx))

theorem pixel_y_alike (position : MapPosition Double) (hp : p.InSquare) (hq : q.InSquare) :
    Alike (position.pixel p : Pixel Exact).point.y (position.pixel q : Pixel Exact).point.y := by
  rw [(position.pixel_point_exact p).2, (position.pixel_point_exact q).2]
  apply alike_of_finite_or_same
  cases hy : position.y.isFinite with
  | true =>
    exact (pixel_y_finite_or_same hy).imp (fun h => ⟨h p hp, h q hq⟩) fun h => h p q hp hq
  | false =>
    rw [pixel_y_eq, pixel_y_eq, Binary.sub_eq_sub_of_not_isFinite
      (bounded_of_within_unit hp.y).isFinite (bounded_of_within_unit hq.y).isFinite hy]
    exact Or.inr rfl

/-- The clipper sees all ways between pixels of the world. -/
theorem seesWay (position : MapPosition Double) (extent : Exact) (hp : p.InSquare)
    (hq : q.InSquare) :
    (Region.centered extent).SeesWay (position.pixel p).point (position.pixel q).point :=
  Region.exists_clip_of_contains extent (position.pixel_x_alike hp hq)
    (position.pixel_y_alike hp hq)

end MapPosition

theorem TrackData.length_path {W : Type} [Mercator W] (track : TrackData W) :
    track.path.length = track.size := by
  have hcolors : track.colors.size = track.points.size := track.colors_size
  rw [path, List.length_zip, List.length_map, Array.length_toList, Array.length_toList, hcolors,
    Nat.min_self, size]

theorem TrackData.inSquare_of_mem_path {track : TrackData Double} {a : Point Double × Color}
    (h : a ∈ track.path) : a.1.InSquare := by
  obtain ⟨q, color⟩ := a
  obtain ⟨i, hi⟩ := List.mem_iff_getElem?.1 h
  obtain ⟨p, -, rfl, -⟩ := getElem?_path hi
  exact p.project_inSquare

/-! ## 2. The loop of a build -/

namespace Builder

/-- Before each step of a build, and after the last one, there is a line at hand if and only if the
clipper is inside, that is if the pixel of the last point is beyond no border. The line has as many
colors as points, and it has come to that pixel, in the color of its point. The course tells how the
point was moved, where it lies, and which tour starts next. -/
theorem run_keeps_pace_with_clipper (track : TrackData Double) (position : MapPosition Double)
    (settings : BuildSettings Exact) (i : Fin track.size) :
    ∃ t p color,
      Trace.ofPoints settings position track.boundaries (track.path.take (i + 1)) = some t ∧
      Pass.ofPoints settings position track.tourStarts (track.path.take (i + 1)) = some t.buffers ∧
      track.points[i.val]? = some p ∧ track.colors[i.val]? = some color ∧
      t.buffers.KeepsPace (.centered settings.clipExtent) track.tourStarts i p.project.x
        (position.pixel p.project) color := by
  have hlt : i.val < track.path.length := i.isLt.trans_eq track.length_path.symm
  have hpath : track.path[i.val]? = some track.path[i.val] := List.getElem?_eq_getElem hlt
  obtain ⟨p, hp, hproject, hcolor⟩ := TrackData.getElem?_path hpath
  have hways : ∀ a ∈ track.path, ∀ b ∈ track.path, (Region.centered settings.clipExtent).SeesWay
      (position.pixel a.1).point (position.pixel b.1).point := fun a ha b hb =>
    position.seesWay settings.clipExtent (TrackData.inSquare_of_mem_path ha)
      (TrackData.inSquare_of_mem_path hb)
  obtain ⟨t, ht, hpace⟩ := Trace.inPace_ofPoints track.starts_increasing hways hpath
  have hkeeps := hpace.keepsPace track.starts_increasing
  rw [← dropWhile_eq_nextStarts] at ht
  rw [hproject] at hkeeps
  exact ⟨t, p, _, ht, by rw [Pass.ofPoints_eq, ht, Option.map_some], hp, hcolor, hkeeps⟩

/-- The second point of the track is too near to the first one to become a vertex. It is dropped,
and the line has come to it all the same. -/
example :
    (Pass.ofPoints { BuildSettings.default with minDistance := (finite 5 : Exact) } middle
        slowTrack.tourStarts (slowTrack.path.take 2)).map (·.run) =
      some ⟨#[⟨finite 0, finite 0⟩], #[.rgb 255 0 0],
        some ⟨⟨finite 2, finite 0⟩, .rgb 0 255 0⟩⟩ := by
  decide +kernel

end Builder

end TourMap
