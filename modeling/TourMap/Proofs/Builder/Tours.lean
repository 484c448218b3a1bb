import TourMap.Proofs.Builder
import TourMap.Proofs.Trace.Tours

/-!
# Builder: no tour is drawn otherwise for the tours around it

The geometry of several tours has the lines of each tour alone, one tour after the other.
-/

namespace TourMap

variable {W N : Type} [Mercator W]

def Tour.path (tour : Tour W) : List (Point W × Color) :=
  (tour.points.toList.map GeoPoint.project).zip tour.colors.toList

theorem Tour.length_path {tour : Tour W} (h : tour.points.size = tour.colors.size) :
    tour.path.length = tour.points.size := by
  rw [path, List.length_zip, List.length_map, Array.length_toList, Array.length_toList, ← h,
    Nat.min_self]

theorem zip_tours {tours : List (Tour W)}
    (htours : ∀ tour ∈ tours, tour.points.size = tour.colors.size) :
    ((tours.flatMap (·.points.toList)).map GeoPoint.project).zip
        (tours.flatMap (·.colors.toList)) = (tours.map Tour.path).flatten := by
  induction tours with
  | nil => rfl
  | cons tour rest ih =>
    have htour : (tour.points.toList.map GeoPoint.project).length = tour.colors.toList.length := by
      rw [List.length_map, Array.length_toList, Array.length_toList]
      exact htours tour List.mem_cons_self
    rw [List.flatMap_cons, List.flatMap_cons, List.map_append, List.zip_append htour,
      ih fun t ht => htours t (List.mem_cons_of_mem _ ht), List.map_cons, List.flatten_cons,
      Tour.path]

namespace TrackData

variable [Arithmetic N] [Resolution W N]

open Builder

/-- The lines of the geometry of tours are those of the traces of each tour. -/
theorem holds_geometry_ofTours (name : Nat) {tours : List (Tour W)}
    (htours : ∀ tour ∈ tours, tour.points.size = tour.colors.size) (position : MapPosition W)
    (settings : BuildSettings N) :
    ∃ track, ofTours name tours = .ok track ∧
      (geometry track position settings).Holds
        (tours.flatMap fun tour => Trace.linesOf settings position [] tour.path) := by
  obtain ⟨track, htrack, -, hpoints, hcolors, hstarts⟩ := ofTours_eq_ok name htours
  have hsizes : tours.map (·.points.size) = (tours.map Tour.path).map List.length := by
    rw [List.map_map]
    exact List.map_congr_left fun tour ht => (Tour.length_path (htours tour ht)).symm
  have hpath : track.path = (tours.map Tour.path).flatten := by
    rw [path, hpoints, hcolors, zip_tours htours]
  refine ⟨track, htrack, ?_⟩
  rw [geometry_eq, boundaries, hstarts, hsizes, hpath, ← List.flatMap_map]
  cases htrace : Trace.ofPoints settings position
      ((startsFrom 0 ((tours.map Tour.path).map List.length)).dropWhile (· == 0))
      (tours.map Tour.path).flatten with
  | some t => exact holds_finish (Trace.ofPoints_tours settings position htrace)
  | none =>
    -- Without a point there is no tour that draws a line.
    have hnone := List.flatten_eq_nil_iff.1 (Trace.ofPoints_eq_none settings htrace)
    show _ = []
    rw [List.flatMap_eq_nil_iff]
    intro tour ht
    rw [hnone tour ht]
    rfl

/-- No tour's geometry depends on the tours around it: the buffers of the whole geometry are those of
the lines of each tour alone, one tour after the other. -/
theorem tours_are_separate (name : Nat) (nameAlone : Tour W → Nat) {tours : List (Tour W)}
    (htours : ∀ tour ∈ tours, tour.points.size = tour.colors.size) (position : MapPosition W)
    (settings : BuildSettings N) :
    ∃ (track : TrackData W) (alone : Tour W → TrackData W), ofTours name tours = .ok track ∧
      (∀ tour ∈ tours, ofTours (nameAlone tour) [tour] = .ok (alone tour) ∧
        (geometry (alone tour) position settings).Holds
          (geometry (alone tour) position settings).lines) ∧
      (geometry track position settings).Holds
        (tours.flatMap fun tour => (geometry (alone tour) position settings).lines) := by
  let alone (tour : Tour W) : TrackData W :=
    match ofTours (nameAlone tour) [tour] with
    | .ok track => track
    | .error _ => .empty
  have halone (tour : Tour W) (ht : tour ∈ tours) :
      ofTours (nameAlone tour) [tour] = .ok (alone tour) ∧
        (geometry (alone tour) position settings).Holds
          (Trace.linesOf settings position [] tour.path) := by
    have hsingle (t : Tour W) (h : t ∈ [tour]) : t.points.size = t.colors.size :=
      List.mem_singleton.1 h ▸ htours tour ht
    obtain ⟨track, htrack, hholds⟩ :=
      holds_geometry_ofTours (nameAlone tour) hsingle position settings
    have heq : alone tour = track := by simp only [alone, htrack]
    rw [List.flatMap_singleton] at hholds
    exact ⟨by rw [htrack, heq], by rwa [heq]⟩
  obtain ⟨track, htrack, hholds⟩ := holds_geometry_ofTours name htours position settings
  refine ⟨track, alone, htrack, fun tour ht => ?_, ?_⟩
  · obtain ⟨htrack, hholds⟩ := halone tour ht
    refine ⟨htrack, ?_⟩
    rwa [hholds.lines_eq]
  · rw [List.flatMap_def, List.map_congr_left fun tour ht => (halone tour ht).2.lines_eq,
      ← List.flatMap_def]
    exact hholds

/-- Two tours, one of them a single place. -/
def twoTours : List (Tour Double) :=
  [.withColor #[⟨.zero false, .zero false⟩, ⟨.ofInt 10, .ofInt 20⟩] (.rgb 255 0 0),
    .withColor #[⟨.ofInt 10, .ofInt 20⟩] (.rgb 0 255 0)]

theorem tours_are_separate_of_twoTours :
    (∀ tour ∈ twoTours, tour.points.size = tour.colors.size) ∧
      ∃ (track : TrackData Double) (alone : Tour Double → TrackData Double),
        ofTours 1 twoTours = .ok track ∧
        (∀ tour ∈ twoTours, ofTours 2 [tour] = .ok (alone tour) ∧
          (geometry (alone tour) .corner (.default : BuildSettings Single)).Holds
            (geometry (alone tour) .corner (.default : BuildSettings Single)).lines) ∧
        (geometry track .corner (.default : BuildSettings Single)).Holds
          (twoTours.flatMap fun tour =>
            (geometry (alone tour) .corner (.default : BuildSettings Single)).lines) := by
  have htours : ∀ tour ∈ twoTours, tour.points.size = tour.colors.size := by decide
  exact ⟨htours, tours_are_separate 1 (fun _ => 2) htours .corner .default⟩

end TrackData

end TourMap
