import TourMap.Program
import TourMap.Proofs.Animation.Course
import TourMap.Proofs.Config
import TourMap.Proofs.Track

/-!
# Program: the same picture under every schedule

Whatever tours are loaded, they make a track, and what is drawn of it is what a program would draw
that computes its geometry on the spot.
-/

namespace TourMap

open Animation

def Stage.isEnded {W : Type} : Stage W → Bool
  | .ended => true
  | _ => false

theorem Stage.isEnded_iff {W : Type} {stage : Stage W} : stage.isEnded = true ↔ stage = .ended := by
  cases stage <;> simp [isEnded]

/-! ## 1. The plainest order -/

namespace Animation

variable {W N : Type} [Mercator W] [Arithmetic N] [Resolution W N]

theorem Reachable.trans {frames : Nat} {a b c : Animation W N} (hab : Reachable frames a b)
    (hbc : Reachable frames b c) : Reachable frames a c := by
  induction hbc with
  | start => exact hab
  | step e _ ih => exact ih.step e

theorem reachable_foldl (frames : Nat) (events : List Event) (a : Animation W N) :
    Reachable frames a (events.foldl (step frames) a) := by
  induction events generalizing a with
  | nil => exact .start
  | cons e rest ih => exact Reachable.trans (.step e .start) (ih _)

theorem reachable_runFor (frames steps : Nat) (a : Animation W N) :
    Reachable frames a (runFor frames steps a) := by
  induction steps generalizing a with
  | zero => exact .start
  | succ n ih =>
    unfold runFor
    split
    · exact .start
    · exact Reachable.trans (.step a.next .start) (ih _)

end Animation

/-! ## 2. What the program shows -/

namespace Program

def animation (options : CommandLine.Options) (track : TrackData Double) :
    Animation Double Single :=
  .new (options.config.getD .default) track (.ofGeo (centerOf track) options.zoom)
    ⟨options.panX, options.panY⟩

def positions (options : CommandLine.Options) (track : TrackData Double) :
    Nat → MapPosition Double :=
  (MapPosition.ofGeo (centerOf track) options.zoom).along ⟨options.panX, options.panY⟩

/-- Tours in a single color each make a track. -/
theorem ofTours_paint (color : Nat → Color) (tours : List Places) :
    ∃ track, TrackData.ofTours 1 (paint color tours) = .ok track := by
  have hsizes (tour : Tour Double) (hmem : tour ∈ paint color tours) :
      tour.points.size = tour.colors.size := by
    obtain ⟨p, -, rfl⟩ := List.mem_map.1 hmem
    simp [Tour.withColor]
  obtain ⟨track, htrack, -⟩ := TrackData.ofTours_eq_ok 1 hsizes
  exact ⟨track, htrack⟩

/-- Any tours in any colors make a track, and however the program and the worker thread take turns:
if the program ends because the geometry is fresh, it draws the geometry for the position `j` placed
into the window at the last position, where `j` is the least index from which on all positions are in
one tile; and between two frames, as long as the geometry is not fresh, a request waits under a token
that is not cancelled, or a current computation runs, or a finished task waits. -/
theorem picture_is_sequential (color : Nat → Color) (tours : List Places)
    (options : CommandLine.Options) :
    ∃ track, TrackData.ofTours 1 (paint color tours) = .ok track ∧
      ∀ a, Reachable options.frames (animation options track) a →
        (a.stage = .ended → ∃ j, IsTurn (positions options track) options.frames j ∧
          a.picture =
            ⟨Builder.geometry track (positions options track j)
                (.ofConfig (options.config.getD .default)),
              .between (positions options track j) (positions options track options.frames)⟩) ∧
        (a.system.call = none → a.system.layer.viewport ≠ none →
          a.system.state ≠ .geometryFresh → a.system.PendingWork) := by
  obtain ⟨track, htrack⟩ := ofTours_paint color tours
  refine ⟨track, htrack, fun a ha => ⟨fun hended => ?_, fun hcall hviewport hfresh => ?_⟩⟩
  · refine ⟨turn (positions options track) options.frames, isTurn_turn _ _, ?_⟩
    have hstored : track.StoredIn fun _ => track.points := .inr rfl
    have hpicture := picture_of_ended hstored ha hended
    -- The layer brings the settings into range, and a build would do so again.
    have hsettings (config : TrackConfig Single) :
        BuildSettings.ofConfig config.sanitized = .ofConfig config := by
      rw [BuildSettings.ofConfig, config.sanitized_sanitized]
      rfl
    rwa [hsettings] at hpicture
  · exact pendingWork_of_reachable ha hcall hviewport hfresh

def shortTours : List Places := [[⟨.zero false, .zero false⟩, ⟨.ofInt 10, .ofInt 20⟩]]

def oneFrame : CommandLine.Options := { CommandLine.Options.default with frames := 1 }

theorem picture_is_sequential_at_oneFrame :
    ∃ track a, TrackData.ofTours 1 (paint (fun _ => .rgb 255 0 0) shortTours) = .ok track ∧
      Reachable oneFrame.frames (animation oneFrame track) a ∧ a.stage = .ended ∧
      ∃ j, IsTurn (positions oneFrame track) oneFrame.frames j ∧
        a.picture = ⟨Builder.geometry track (positions oneFrame track j) .default,
          .between (positions oneFrame track j) (positions oneFrame track oneFrame.frames)⟩ := by
  obtain ⟨track, htrack, hall⟩ :=
    picture_is_sequential (fun _ => .rgb 255 0 0) shortTours oneFrame
  have hrun : (TrackData.ofTours 1 (paint (fun _ => .rgb 255 0 0) shortTours)).toOption.any
      (fun track => (runFor 1 (stepBound 1 track.size) (animation oneFrame track)).stage.isEnded) =
        true := by
    decide +kernel
  rw [htrack, Except.toOption, Option.any_some, Stage.isEnded_iff] at hrun
  have hreachable := reachable_runFor 1 (stepBound 1 track.size) (animation oneFrame track)
  exact ⟨track, _, htrack, hreachable, hrun, (hall _ hreachable).1 hrun⟩

/-- The track is set and the first frame shown, and the worker thread ends its computation. -/
def finishedTask : List Animation.Event :=
  List.replicate 8 .proceed ++ List.replicate 5 .advance

/-- A finished task can wait between two frames, with nothing queued or running. -/
theorem finished_task_waits_at_oneFrame :
    ∃ track a, TrackData.ofTours 1 (paint (fun _ => .rgb 255 0 0) shortTours) = .ok track ∧
      Reachable oneFrame.frames (animation oneFrame track) a ∧ a.system.call = none ∧
      a.system.layer.viewport ≠ none ∧ a.system.state ≠ .geometryFresh ∧
      a.system.worker.state.request = none ∧ a.system.worker.phase.job? = none := by
  obtain ⟨track, htrack⟩ := ofTours_paint (fun _ => .rgb 255 0 0) shortTours
  have hrun : (TrackData.ofTours 1 (paint (fun _ => .rgb 255 0 0) shortTours)).toOption.any
      (fun track =>
        let a := finishedTask.foldl (step 1) (animation oneFrame track)
        a.system.call.isNone ∧ a.system.layer.viewport.isSome ∧ a.system.state ≠ .geometryFresh ∧
          a.system.worker.state.request.isNone ∧ a.system.worker.phase.job?.isNone) = true := by
    decide +kernel
  rw [htrack, Except.toOption, Option.any_some, decide_eq_true_eq] at hrun
  obtain ⟨hcall, hviewport, hfresh, hrequest, hjob⟩ := hrun
  exact ⟨track, _, htrack, reachable_foldl 1 finishedTask _, Option.isNone_iff_eq_none.1 hcall,
    Option.isSome_iff_ne_none.1 hviewport, hfresh, Option.isNone_iff_eq_none.1 hrequest,
    Option.isNone_iff_eq_none.1 hjob⟩

end Program

end TourMap
