import TourMap.Builder
import TourMap.Proofs.Trace

/-!
# Builder: what a build gives does not depend on the builds before it

The builder keeps the projection of one array of points under the array's name. A `memory` says
which points stand under a name; as long as it speaks the truth about every track that is built, a
projection at hand is as good as a new one, and a build gives the `Builder.geometry` of its track.
-/

namespace TourMap

variable {W N : Type}

/-- Whether the points of a track are those under their name. Where there are no points, no name is
needed. -/
def TrackData.StoredIn (memory : Nat → Array (GeoPoint W)) (t : TrackData W) : Prop :=
  t.isEmpty = true ∨ t.points = memory t.source.name

/-- The points of a track in the world, each with its color. -/
def TrackData.path [Mercator W] (t : TrackData W) : List (Point W × Color) :=
  (t.points.toList.map GeoPoint.project).zip t.colors.toList

/-- Of two styles the last one counts. -/
theorem RenderBuckets.setStyle_setStyle (b : RenderBuckets N) (first second : LineStyle N) :
    (b.setStyle first).setStyle second = b.setStyle second := by
  obtain ⟨line⟩ := b
  cases line <;> rfl

theorem RenderBuckets.setStyle_eq_self {b : RenderBuckets N} {style : LineStyle N}
    (h : ∀ l ∈ b.lineBucket, l.style = style) : b.setStyle style = b := by
  obtain ⟨line⟩ := b
  cases line with
  | none => rfl
  | some l =>
    obtain rfl := h l rfl
    rfl

/-- A track from one place to another. -/
def shortTrack : TrackData Double where
  source := ⟨1, #[⟨.zero false, .zero false⟩, ⟨.ofInt 10, .ofInt 20⟩]⟩
  colors := #[.rgb 255 0 0, .rgb 255 0 0]
  tourStarts := [0]
  colors_size := rfl
  starts_lt := by decide
  starts_increasing := List.pairwise_singleton _ _

namespace Builder

variable [Mercator W] {memory : Nat → Array (GeoPoint W)} {b : Builder W} {track : TrackData W}

/-! ## 1. The projection at hand -/

/-- Whether the projection at hand is that of the points under its name. -/
def Remembers (memory : Nat → Array (GeoPoint W)) (b : Builder W) : Prop :=
  ∀ name, b.projectedFrom = some name → b.projected = (memory name).map GeoPoint.project

theorem remembers_new : (new : Builder W).Remembers memory := by
  intro name h
  cases h

theorem remembers_forget : b.forget.Remembers memory := by
  intro name h
  cases h

theorem project_projected (hb : b.Remembers memory)
    (ht : track.points = memory track.source.name) :
    (b.project track).projected = track.points.map GeoPoint.project := by
  unfold project
  split
  · rename_i h
    rw [hasProjection, Bool.and_eq_true, beq_iff_eq] at h
    rw [hb _ h.1, ht]
  · rfl

theorem remembers_project (hb : b.Remembers memory)
    (ht : track.points = memory track.source.name) : (b.project track).Remembers memory := by
  intro name h
  by_cases hp : b.hasProjection track = true
  · rw [project, if_pos hp] at h ⊢
    exact hb name h
  · rw [project, if_neg hp] at h ⊢
    obtain rfl := Option.some.inj h
    simp only [ht]

variable [Arithmetic N] [Resolution W N] {position : MapPosition W} {settings : BuildSettings N}

/-- No build, complete or cancelled, leaves a wrong projection behind. -/
theorem remembers_build (hb : b.Remembers memory) (ht : track.StoredIn memory)
    {buckets : RenderBuckets N} {cancelledAt : Option Nat} :
    (b.build track position settings buckets cancelledAt).1.Remembers memory := by
  unfold build
  rcases ht with hempty | ht
  · -- A track without points is not projected.
    rw [if_pos hempty]
    exact hb
  · split
    · exact hb
    · cases cancelledAt with
      | none => exact remembers_project hb ht
      | some k =>
        -- A build that is given up keeps a projection only if that one is complete.
        simp only
        split
        · exact remembers_forget
        · exact remembers_project hb ht

/-! ## 2. The geometry of a track -/

/-- The geometry of a track seen from a position, as a builder computes it that has not built
before. -/
def geometry (track : TrackData W) (position : MapPosition W) (settings : BuildSettings N) :
    RenderBuckets N :=
  ((new : Builder W).build track position settings .empty none).2.1

/-- A trace that is not given up is complete. -/
theorem trace_none (track : TrackData W) (projected : Array (Point W)) (position : MapPosition W)
    (settings : BuildSettings N) :
    ∃ stats, (trace track projected position settings none).2 = .ok stats := by
  unfold trace
  dsimp only
  split <;> exact ⟨_, rfl⟩

/-- A build that is not cancelled is complete. -/
theorem build_complete (b : Builder W) (track : TrackData W) (position : MapPosition W)
    (settings : BuildSettings N) (buckets : RenderBuckets N) :
    ∃ stats, (b.build track position settings buckets none).2.2 = .ok stats := by
  unfold build
  split
  · exact ⟨_, rfl⟩
  · exact trace_none track (b.project track).projected position settings

/-- A build that is not cancelled gives the geometry of its track, whatever was built before. -/
theorem build_none (hb : b.Remembers memory) (ht : track.StoredIn memory)
    {buckets : RenderBuckets N} :
    ∃ stats, (b.build track position settings buckets none).2 =
      (geometry track position settings, .ok stats) := by
  unfold geometry build
  by_cases hempty : track.isEmpty = true
  · simp only [if_pos hempty]
    exact ⟨_, rfl⟩
  · obtain ht := ht.resolve_left hempty
    simp only [if_neg hempty, project_projected hb ht, project_projected remembers_new ht]
    obtain ⟨stats, hstats⟩ := trace_none track (track.points.map GeoPoint.project) position settings
    exact ⟨stats, by rw [hstats]⟩

/-! ## 3. The lines of the geometry -/

theorem isEmpty_iff_path_eq_nil : track.isEmpty = true ↔ track.path = [] := by
  have hcolors : track.colors.size = track.points.size := track.colors_size
  rw [← List.length_eq_zero_iff, TrackData.path, List.length_zip, List.length_map,
    Array.length_toList, Array.length_toList, hcolors, Nat.min_self, TrackData.isEmpty, beq_iff_eq]
  rfl

/-- The geometry of a track is what its trace leaves in a bucket. -/
theorem geometry_eq (track : TrackData W) (position : MapPosition W) (settings : BuildSettings N) :
    geometry track position settings =
      ⟨(Trace.ofPoints settings position track.boundaries track.path).map (finish settings)⟩ := by
  unfold geometry build
  by_cases hempty : track.isEmpty = true
  · rw [if_pos hempty, isEmpty_iff_path_eq_nil.1 hempty]
    rfl
  · rw [if_neg hempty]
    have hnew : (new : Builder W).Remembers fun _ => track.points := remembers_new
    have hprojected : ((new : Builder W).project track).projected =
        track.points.map GeoPoint.project := project_projected hnew rfl
    obtain ⟨point, rest, hpath⟩ := List.exists_cons_of_ne_nil
      (fun hpath => hempty (isEmpty_iff_path_eq_nil.2 hpath))
    simp only [hprojected, trace, Array.toList_map]
    rw [← TrackData.path, hpath]
    rfl

omit [Mercator W] [Arithmetic N] [Resolution W N] in
/-- Arrows are no lines. -/
theorem holds_finish {t : Trace W N} {lines : List (Array (Vertex N))}
    (h : t.flush.bucket.Holds lines) : (finish settings t).Holds lines := by
  unfold finish
  dsimp only
  split
  · exact h.setArrows _
  · exact h

/-! ## 4. The style of the geometry -/

/-- Geometry is in the style of its settings from the start. -/
theorem geometry_setStyle (track : TrackData W) (position : MapPosition W)
    (settings : BuildSettings N) :
    (geometry track position settings).setStyle settings.style =
      geometry track position settings := by
  rw [geometry_eq]
  refine RenderBuckets.setStyle_eq_self fun l hl => ?_
  obtain ⟨t, ht, rfl⟩ := Option.map_eq_some_iff.1 hl
  unfold finish
  dsimp only
  split <;> simp [LineBucket.setArrows, Trace.ofPoints_style settings ht]

end Builder

end TourMap
