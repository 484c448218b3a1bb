import TourMap.Proofs.Animation.Events
import TourMap.Proofs.Builder.Extent
import TourMap.Proofs.CommandLine.Options
import TourMap.Proofs.Program

/-!
# World: which command lines keep the map in the world

The options of an accepted command line are in their ranges, but the way that the map moves has none.
As long as that is finite to the East and a number to the South, the map stays in the world, and all
that is drawn stays in its clip region. Any other way leads out of the world for good.
-/

namespace TourMap.Program

open Animation Binary

/-- What the geometry of a program is clipped to. -/
def clipRegion (options : CommandLine.Options) : Region Single :=
  .centered (options.config.getD .default).sanitized.clipExtent

theorem positions_inWorld {options : CommandLine.Options} (hx : options.panX.isFinite = true)
    (hy : options.panY ≠ .nan) (track : TrackData Double) (k : Nat) :
    (positions options track k).InWorld :=
  MapPosition.along_inWorld (MapPosition.ofGeo_inWorld _ _) hx hy k

/-- Whatever is drawn at any moment lies in the clip region, if the map stays in the world. -/
theorem picture_enclosed {options : CommandLine.Options} (hrange : options.InRange)
    {track : TrackData Double} {a : Animation Double Single}
    (hworld : ∀ k, (positions options track k).InWorld)
    (h : Reachable options.frames (animation options track) a) :
    a.picture.buckets.All (clipRegion options).Encloses := by
  have hstored : track.StoredIn fun _ => track.points := .inr rfl
  obtain ⟨past, hderives⟩ := h.derives hstored (P := MapPosition.InWorld) fun k _ => hworld k
  change a.system.layer.active.buckets.All _
  rcases hderives.drawn with hempty | ⟨track', settings, style, hposition, rfl, -, hbuckets⟩
  · rw [hempty]
    exact .empty
  · rw [hbuckets]
    have hextent := hrange.measured.sanitized.clipExtent
    have hall := Builder.geometry_encloses track' hposition hextent
    rw [TrackConfig.sanitized_sanitized] at hall
    exact hall.setStyle style

def noFiles : CommandLine.FileSystem := fun _ => none

/-- What the plainest order of a program without any files leads to can be found by running it. -/
theorem exists_ended_of_run (words : List String)
    {P : CommandLine.Options → Animation Double Single → Prop} [∀ o, DecidablePred (P o)]
    (h : ((CommandLine.parse noFiles words).toOption.any fun invocation =>
      (TrackData.ofTours 1 (paint (fun _ => .rgb 255 0 0) shortTours)).toOption.any fun track =>
        let frames := invocation.options.frames
        let a := runFor frames (stepBound frames track.size) (animation invocation.options track)
        a.stage.isEnded ∧ P invocation.options a) = true) :
    ∃ invocation track a, CommandLine.parse noFiles words = .ok invocation ∧
      TrackData.ofTours 1 (paint (fun _ => .rgb 255 0 0) shortTours) = .ok track ∧
      Reachable invocation.options.frames (animation invocation.options track) a ∧
      a.stage = .ended ∧ P invocation.options a := by
  obtain ⟨track, htrack⟩ := ofTours_paint (fun _ => .rgb 255 0 0) shortTours
  cases hparse : CommandLine.parse noFiles words with
  | error refusal =>
    rw [hparse] at h
    cases h
  | ok invocation =>
    rw [hparse, htrack, Except.toOption, Except.toOption, Option.any_some, Option.any_some,
      decide_eq_true_eq, Stage.isEnded_iff] at h
    exact ⟨invocation, track, _, rfl, htrack, reachable_runFor _ _ _, h⟩

/-- For any accepted command line that moves the map by a finite way to the East and by a number to
the South, for any tours, and however the program and the worker thread take turns: the map stays in
the world, and all vertices and arrows that are drawn have numbers for coordinates, which lie in the
clip region. -/
theorem map_stays_in_world {files : CommandLine.FileSystem} {words : List String}
    {invocation : CommandLine.Invocation} (hparse : CommandLine.parse files words = .ok invocation)
    (hx : invocation.options.panX.isFinite = true) (hy : invocation.options.panY ≠ .nan)
    (color : Nat → Color) (tours : List Places) :
    ∃ track, TrackData.ofTours 1 (paint color tours) = .ok track ∧
      ∀ a, Reachable invocation.options.frames (animation invocation.options track) a →
        a.viewport.InWorld ∧
          a.picture.buckets.All (clipRegion invocation.options).Encloses := by
  obtain ⟨track, htrack⟩ := ofTours_paint color tours
  refine ⟨track, htrack, fun a ha => ?_⟩
  have hworld := positions_inWorld hx hy track
  obtain ⟨past, hcourse⟩ := exists_onCourse ha
  obtain ⟨k, -, hviewport⟩ := hcourse.exists_viewport
  refine ⟨?_, picture_enclosed (CommandLine.parse_inRange hparse) hworld ha⟩
  rw [hviewport]
  exact hworld k

def westward : List String :=
  ["--zoom", "3", "--pan-x", "-300.5", "--frames", "2", "gpx", "--file", "tour"]

theorem map_stays_in_world_westward :
    ∃ invocation track a, CommandLine.parse noFiles westward = .ok invocation ∧
      TrackData.ofTours 1 (paint (fun _ => .rgb 255 0 0) shortTours) = .ok track ∧
      Reachable invocation.options.frames (animation invocation.options track) a ∧
      a.stage = .ended ∧ invocation.options.panX.isNegative = true ∧ a.viewport.InWorld ∧
      a.picture.buckets.All (clipRegion invocation.options).Encloses := by
  obtain ⟨invocation, track, a, hparse, htrack, ha, hended, hwest, hx, hy⟩ :=
    exists_ended_of_run westward
      (P := fun o _ => o.panX.isNegative = true ∧ o.panX.isFinite = true ∧ o.panY ≠ .nan)
      (by decide +kernel)
  obtain ⟨track', htrack', hall⟩ :=
    map_stays_in_world hparse hx hy (fun _ => .rgb 255 0 0) shortTours
  obtain rfl := Except.ok.inj (htrack.symm.trans htrack')
  exact ⟨invocation, track, a, hparse, htrack, ha, hended, hwest, hall a ha⟩

def infinitelyFar : List String :=
  ["--zoom", "3", "--pan-x", "inf", "--frames", "1", "gpx", "--file", "tour"]

/-- A map that is moved infinitely far is nowhere, and neither is what is drawn. -/
theorem map_leaves_world_infinitelyFar :
    ∃ invocation track a, CommandLine.parse noFiles infinitelyFar = .ok invocation ∧
      TrackData.ofTours 1 (paint (fun _ => .rgb 255 0 0) shortTours) = .ok track ∧
      Reachable invocation.options.frames (animation invocation.options track) a ∧
      a.stage = .ended ∧ ¬ a.viewport.InWorld ∧
      ¬ a.picture.buckets.All (clipRegion invocation.options).Encloses := by
  obtain ⟨invocation, track, a, hparse, htrack, ha, hended, hviewport, hdrawn⟩ :=
    exists_ended_of_run infinitelyFar
      (P := fun _ a => a.viewport.x = .nan ∧ (a.picture.buckets.lineBucket.any fun l =>
        l.vertices.any fun p => Arithmetic.isNaN p.x) = true)
      (by decide +kernel)
  refine ⟨invocation, track, a, hparse, htrack, ha, hended,
    MapPosition.not_inWorld_of_eq_nan (.inl hviewport), fun hall => ?_⟩
  obtain ⟨l, hl, hvertices⟩ := (Option.any_eq_true _ _).1 hdrawn
  obtain ⟨i, hi, hnan⟩ := Array.any_eq_true.1 hvertices
  have hnumber := ((hall l hl).vertices _ (Array.getElem_mem hi)).x.number
  rw [hnan] at hnumber
  cases hnumber

/-- Any other way leads out of the world: an accepted command line ends with the map in the world
exactly if it moves it by a finite way to the East and by a number to the South. -/
theorem ended_inWorld_iff {files : CommandLine.FileSystem} {words : List String}
    {invocation : CommandLine.Invocation} (hparse : CommandLine.parse files words = .ok invocation)
    {track : TrackData Double} {a : Animation Double Single}
    (ha : Reachable invocation.options.frames (animation invocation.options track) a)
    (hended : a.stage = .ended) :
    a.viewport.InWorld ↔
      invocation.options.panX.isFinite = true ∧ invocation.options.panY ≠ .nan := by
  have hframes := (CommandLine.parse_inRange hparse).frames
  obtain ⟨past, hcourse⟩ := exists_onCourse ha
  have hat := hcourse.stage
  rw [hended] at hat
  rw [hat.1]
  exact MapPosition.along_inWorld_iff (MapPosition.ofGeo_inWorld _ _) hframes.1

end TourMap.Program
