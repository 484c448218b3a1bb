import TourMap.Layer.Schedule
import TourMap.Proofs.Builder
import TourMap.Proofs.Track.Validation

/-!
# Replacement: a track is replaced as a whole or not at all

Points, colors and tour starts come from outside of the layer. They are checked before anything is
touched, so those that do not belong together leave every state of the layer, its worker and its
source as it was. Those that do are put in place in three steps, which other threads may see one by
one; with the last of them the worker is told which work is outdated.
-/

namespace TourMap.LayerSystem

variable {W N : Type} [Mercator W] [Arithmetic N] [Resolution W N]

omit [Mercator W] [Arithmetic N] [Resolution W N] in
theorem proceedUpdate_mark {s : LayerSystem W N} {pending : List TrackUpdate} {revision : Nat}
    (h : s.updates = pending ++ [.mark revision]) :
    s.proceedUpdate pending.length = { s with
      worker := { s.worker with source := s.worker.source.mark }
      updates := pending ++ [.cancelStale revision] } := by
  have hlast : s.updates[pending.length]? = some (.mark revision) := by simp [h]
  have hset : s.updates.set pending.length (.cancelStale revision) =
      pending ++ [.cancelStale revision] := by simp [h]
  rw [proceedUpdate, hlast]
  simp only [hset]

omit [Mercator W] [Arithmetic N] [Resolution W N] in
theorem proceedUpdate_cancelStale {s : LayerSystem W N} {pending : List TrackUpdate}
    {revision : Nat} (h : s.updates = pending ++ [.cancelStale revision]) :
    s.proceedUpdate pending.length = { s with
      worker := s.worker.modifyState (·.cancelStale revision)
      updates := pending } := by
  have hlast : s.updates[pending.length]? = some (.cancelStale revision) := by simp [h]
  have herase : s.updates.eraseIdx pending.length = pending := by
    rw [h, List.eraseIdx_append_of_length_le (Nat.le_refl _), Nat.sub_self]
    exact List.append_nil pending
  rw [proceedUpdate, hlast]
  simp only [herase]

omit [Mercator W] [Arithmetic N] [Resolution W N] in
/-- Replacements by other threads stay where they are. -/
theorem setTrack_eq (s : LayerSystem W N) (track : TrackData W) :
    s.setTrack track = { s with
      worker := { s.worker with
        source := ⟨track, s.worker.source.revision + 1, true⟩
        state := s.worker.state.cancelStale (s.worker.source.revision + 1) } } := by
  rw [setTrack, proceedUpdate_mark (s := s.beginUpdate track) rfl, proceedUpdate_cancelStale rfl]
  rfl

/-- To replace a track takes three steps. -/
theorem foldlM_step_setTrack (s : LayerSystem W N) (track : TrackData W) :
    [.update track, .proceedUpdate s.updates.length, .proceedUpdate s.updates.length].foldlM
      step s = some (s.setTrack track) := by
  have hmark : s.updates.length < (s.beginUpdate track).updates.length := by simp [beginUpdate]
  have hcancel :
      s.updates.length < ((s.beginUpdate track).proceedUpdate s.updates.length).updates.length := by
    rw [proceedUpdate_mark (s := s.beginUpdate track) rfl]
    simp
  simp only [List.foldlM_cons, List.foldlM_nil, step, if_pos hmark, if_pos hcancel,
    Option.bind_eq_bind, Option.bind_some, setTrack]
  rfl

/-- The check accepts exactly points and colors of one number with starts in range and in strict
order, and otherwise names the first thing that is wrong: the number of colors, else the first start
that is out of range or not above the one before it. What it refuses changes nothing at all. What it
accepts is in place afterwards, under the next revision and with the flag raised; besides, only the
worker is told that older work is outdated. -/
theorem setPoints_is_exact_and_atomic (s : LayerSystem W N) (source : NamedPoints W)
    (colors : Array Color) (tourStarts : List Nat) :
    ((∃ track, TrackData.new source colors tourStarts = .ok track) ↔
      colors.size = source.points.size ∧ (∀ start ∈ tourStarts, start < source.points.size) ∧
        tourStarts.Pairwise (· < ·)) ∧
    (∀ error, TrackData.new source colors tourStarts = .error error ↔
      (colors.size ≠ source.points.size ∧
        error = .colorCountMismatch source.points.size colors.size) ∨
      (colors.size = source.points.size ∧
        FirstStartFault source.points.size tourStarts error)) ∧
    (∀ error, TrackData.new source colors tourStarts = .error error →
      s.setPoints source colors tourStarts = (s, .error error)) ∧
    (∀ track, TrackData.new source colors tourStarts = .ok track →
      track.source = source ∧ track.colors = colors ∧ track.tourStarts = tourStarts ∧
        s.setPoints source colors tourStarts =
          ({ s with
            worker := { s.worker with
              source := ⟨track, s.worker.source.revision + 1, true⟩
              state := s.worker.state.cancelStale (s.worker.source.revision + 1) } }, .ok ()) ∧
        [.update track, .proceedUpdate s.updates.length, .proceedUpdate s.updates.length].foldlM
          step s = some (s.setPoints source colors tourStarts).1) := by
  refine ⟨TrackData.exists_new_eq_ok_iff, fun error => TrackData.new_eq_error_iff, ?_, ?_⟩
  · intro error hnew
    rw [setPoints, hnew]
  · intro track hnew
    obtain ⟨hsource, hcolors, hstarts⟩ := TrackData.new_eq_ok_iff.1 hnew
    have hset : s.setPoints source colors tourStarts = (s.setTrack track, .ok ()) := by
      rw [setPoints, hnew]
    rw [hset]
    exact ⟨hsource, hcolors, hstarts, by rw [setTrack_eq], foldlM_step_setTrack s track⟩

/-- The second start is not above the first one; that the third one is out of range comes later. -/
theorem setPoints_is_exact_and_atomic_at_shortTrack :
    (new (W := Double) (N := Single) .default).setPoints shortTrack.source shortTrack.colors
        [1, 1, 5] = (new .default, .error (.tourStartsNotIncreasing 1 1)) ∧
      ((new (W := Double) (N := Single) .default).setPoints shortTrack.source shortTrack.colors
        [0]).1.worker.source = ⟨shortTrack, 1, true⟩ := by
  have hrefused : FirstStartFault 2 [1, 1, 5] (.tourStartsNotIncreasing 1 1) := by
    refine ⟨1, .notIncreasing rfl rfl (by decide) (by decide), fun j hj other h => ?_⟩
    obtain rfl : j = 0 := Nat.lt_one_iff.1 hj
    cases h with
    | outOfRange hstart hout =>
      cases hstart
      exact absurd hout (by decide)
  obtain ⟨-, herror, hunchanged, -⟩ := setPoints_is_exact_and_atomic
    (new (W := Double) (N := Single) .default) shortTrack.source shortTrack.colors [1, 1, 5]
  obtain ⟨-, -, -, hinstalled⟩ := setPoints_is_exact_and_atomic
    (new (W := Double) (N := Single) .default) shortTrack.source shortTrack.colors [0]
  refine ⟨hunchanged _ ((herror _).2 (.inr ⟨rfl, hrefused⟩)), ?_⟩
  obtain ⟨-, -, -, hset, -⟩ := hinstalled shortTrack (TrackData.new_eq_ok_iff.2 ⟨rfl, rfl, rfl⟩)
  rw [hset]
  rfl

end TourMap.LayerSystem
