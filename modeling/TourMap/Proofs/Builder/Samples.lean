import TourMap.Proofs.Builder.Completion
import TourMap.Proofs.Builder.Order
import TourMap.Proofs.Builder.Visible
import TourMap.Proofs.Trace.Samples

/-!
# Builder: arrows are greedy samples

The arrows of a geometry are taken greedily from the points that its track reaches inside the clip
region without a break. The first point of the track counts as taken, and has an arrow if it is inside.
-/

namespace TourMap

def RenderBuckets.arrows {N : Type} (b : RenderBuckets N) : List (Point N) :=
  b.toList.flatMap (·.arrows.toList)

theorem RenderBuckets.arrows_some {N : Type} (b : LineBucket N) :
    (⟨some b⟩ : RenderBuckets N).arrows = b.arrows.toList :=
  List.flatMap_singleton _ _

variable {W N : Type} [Mercator W] [Arithmetic N] [Resolution W N]

namespace TrackData

variable (track : TrackData W) (position : MapPosition W)

/-! ## 1. Candidates -/

/-- For each point after the first one, its pixel if it may have an arrow. -/
def candidates (extent : N) : List (Option (Point N)) :=
  (track.strokes position extent fun _ v => v.point).tail.map Stroke.inside?

variable {track position} {extent : N} {i : Nat} {x : Point N}

theorem length_strokes {V : Type} (mark : Nat → Vertex N → V) :
    (track.strokes position extent mark).length = track.points.size := by
  have hcolors : track.colors.size = track.points.size := track.colors_size
  rw [strokes, Region.length_strokes, path, List.length_zip, List.length_map,
    Array.length_toList, Array.length_toList, hcolors, Nat.min_self]

theorem getElem?_candidates {p q : GeoPoint W} (hp : track.points[i]? = some p)
    (hq : track.points[i + 1]? = some q) :
    (track.candidates position extent)[i]? = some (
      if !position.breaks N track.tourStarts (i + 1) p.project q.project &&
          ((Region.centered extent).contains (position.pixel p.project).point &&
            (Region.centered extent).contains (position.pixel q.project).point) then
        some (position.pixel q.project).point
      else none) := by
  have hlt : i + 1 < (track.strokes position extent fun _ v => v.point).length := by
    rw [length_strokes]
    exact (Array.getElem?_eq_some_iff.1 hq).1
  have hstroke := List.getElem?_eq_getElem hlt
  obtain ⟨q', color, hq', ⟨hzero, -⟩ | ⟨j, p', c, hj, hp', heq⟩⟩ :=
    Region.getElem?_strokes _ _ _ _ hstroke
  · cases hzero
  · obtain rfl : i = j := Nat.succ.inj hj
    obtain ⟨q'', hq'', rfl, -⟩ := getElem?_path hq'
    obtain ⟨p'', hp'', rfl, -⟩ := getElem?_path hp'
    obtain rfl : p = p'' := Option.some.inj (hp.symm.trans hp'')
    obtain rfl : q = q'' := Option.some.inj (hq.symm.trans hq'')
    rw [candidates, List.getElem?_map, List.getElem?_tail, hstroke, heq, Option.map_some,
      Region.inside?_strokeTo]

theorem getElem?_candidates_eq_some_iff :
    (track.candidates position extent)[i]? = some (some x) ↔
      track.pixelAt? N position (i + 1) = some x ∧ (Region.centered extent).contains x = true ∧
        (∃ p, track.pixelAt? N position i = some p ∧
          (Region.centered extent).contains p = true) ∧ ¬ track.BreaksAt N position (i + 1) := by
  by_cases hlt : i + 1 < track.points.size
  · have hp := Array.getElem?_eq_getElem (Nat.lt_of_succ_lt hlt)
    have hq := Array.getElem?_eq_getElem hlt
    rw [getElem?_candidates hp hq, breaksAt_iff hp hq, pixelAt?, pixelAt?, hp, hq]
    simp only [Option.map_some, Option.some.injEq, Option.ite_none_right_eq_some,
      Bool.and_eq_true, Bool.not_eq_true', Bool.not_eq_true, exists_eq_left']
    constructor
    · rintro ⟨⟨hbreaks, hp, hq⟩, rfl⟩
      exact ⟨rfl, hq, hp, hbreaks⟩
    · rintro ⟨rfl, hq, hp, hbreaks⟩
      exact ⟨⟨hbreaks, hp, hq⟩, rfl⟩
  · -- Behind the last point there is neither a candidate nor a pixel.
    have hend := Nat.le_of_not_lt hlt
    have hnone : (track.candidates position extent)[i]? = none := by
      rw [candidates, List.getElem?_map, List.getElem?_tail, List.getElem?_eq_none,
        Option.map_none]
      rwa [length_strokes]
    have hpixel : track.pixelAt? N position (i + 1) = none := by
      rw [pixelAt?, Array.getElem?_eq_none hend, Option.map_none]
    rw [hnone, hpixel]
    exact iff_of_false (Option.some_ne_none _).symm fun h => (Option.some_ne_none x).symm h.1

/-! ## 2. Samples -/

variable (track position) in
/-- The samples among the points of a track, with their indices. -/
def samples (settings : BuildSettings N) : List (Nat × Point N) :=
  match track.pixelAt? N position 0 with
  | none => []
  | some first =>
    samplesAfter (Trace.farFor settings) ((Region.centered settings.clipExtent).contains first)
      first (track.candidates position settings.clipExtent)

theorem samples_of_first {settings : BuildSettings N} {first : Point N}
    (h : track.pixelAt? N position 0 = some first) :
    track.samples position settings = samplesAfter (Trace.farFor settings)
      ((Region.centered settings.clipExtent).contains first) first
      (track.candidates position settings.clipExtent) := by
  rw [samples, h]

theorem samples_of_none {settings : BuildSettings N}
    (h : track.pixelAt? N position 0 = none) : track.samples position settings = [] := by
  rw [samples, h]

/-- Whether samples are taken greedily: a point that may be taken is taken if it is far enough from
the sample before it, or, if there is none, from the first point. -/
structure SampledGreedily (track : TrackData W) (position : MapPosition W)
    (settings : BuildSettings N) (samples : List (Nat × Point N)) : Prop where
  pixels : ∀ s ∈ samples, track.pixelAt? N position s.1 = some s.2
  inside : ∀ s ∈ samples, (Region.centered settings.clipExtent).contains s.2 = true
  increasing : samples.Pairwise (·.1 < ·.1)
  spaced : samples.IsChain fun s s' => s.2.furtherThan s'.2 settings.arrowDistance = true
  first : ∀ p, track.pixelAt? N position 0 = some p →
    ((0, p) ∈ samples ↔ (Region.centered settings.clipExtent).contains p = true)
  later : ∀ i first p q, track.pixelAt? N position 0 = some first →
    track.pixelAt? N position i = some p → track.pixelAt? N position (i + 1) = some q →
    ((i + 1, q) ∈ samples ↔
      ((Region.centered settings.clipExtent).contains p = true ∧
        (Region.centered settings.clipExtent).contains q = true ∧
        ¬ track.BreaksAt N position (i + 1)) ∧
      (lastSample first samples (i + 1)).furtherThan q settings.arrowDistance = true)

theorem sampledGreedily_samples (track : TrackData W) (position : MapPosition W)
    (settings : BuildSettings N) :
    track.SampledGreedily position settings (track.samples position settings) := by
  cases hfirst : track.pixelAt? N position 0 with
  | none =>
    rw [samples_of_none hfirst]
    exact ⟨nofun, nofun, .nil, .nil, fun p hp => absurd (hfirst.symm.trans hp) nofun,
      fun i first p q hp => absurd (hfirst.symm.trans hp) nofun⟩
  | some first =>
    -- A sample is the first point or one of the candidates.
    have hmem (s : Nat × Point N) (hs : s ∈ samplesAfter (Trace.farFor settings)
        ((Region.centered settings.clipExtent).contains first) first
        (track.candidates position settings.clipExtent)) :
        track.pixelAt? N position s.1 = some s.2 ∧
          (Region.centered settings.clipExtent).contains s.2 = true := by
      obtain ⟨i, q⟩ := s
      cases i with
      | zero =>
        obtain ⟨hkeep, rfl⟩ := zero_mem_samplesAfter_iff.1 hs
        exact ⟨hfirst, hkeep⟩
      | succ i =>
        obtain ⟨hpixel, hinside, -⟩ :=
          getElem?_candidates_eq_some_iff.1 (succ_mem_samplesAfter_iff.1 hs).1
        exact ⟨hpixel, hinside⟩
    rw [samples_of_first hfirst]
    refine ⟨fun s hs => (hmem s hs).1, fun s hs => (hmem s hs).2, samplesAfter_pairwise _ _ _ _,
      samplesAfter_isChain (Trace.farFor settings) _ _ _, fun p hp => ?_,
      fun i first' p q hfirst' hp hq => ?_⟩
    · obtain rfl := Option.some.inj (hfirst.symm.trans hp)
      rw [zero_mem_samplesAfter_iff, and_iff_left rfl]
    · obtain rfl := Option.some.inj (hfirst.symm.trans hfirst')
      rw [succ_mem_samplesAfter_iff, getElem?_candidates_eq_some_iff, hp, hq]
      simp only [true_and, Option.some.injEq, exists_eq_left']
      rw [and_left_comm]
      rfl

end TrackData

/-! ## 3. Geometries -/

namespace Builder

omit [Mercator W] [Arithmetic N] [Resolution W N] in
theorem finish_arrows (settings : BuildSettings N) (t : Trace W N) :
    (finish settings t).arrows = if settings.showArrows then t.arrows else t.bucket.arrows := by
  unfold finish
  dsimp only
  split
  · rfl
  · exact t.bucket.addLine_arrows _

theorem geometry_samples (track : TrackData W) (position : MapPosition W)
    (settings : BuildSettings N) :
    (geometry track position settings).arrows =
      if settings.showArrows then (track.samples position settings).map Prod.snd else [] := by
  rw [geometry_eq, TrackData.boundaries, dropWhile_eq_nextStarts]
  cases hpath : track.path with
  | nil =>
    have hsize : track.points.size = 0 := by
      simpa [TrackData.isEmpty, TrackData.size] using isEmpty_iff_path_eq_nil.2 hpath
    have hfirst : track.pixelAt? N position 0 = none := by
      rw [TrackData.pixelAt?, Array.getElem?_eq_none (Nat.le_of_eq hsize), Option.map_none]
    -- Without points there is no bucket, and no sample.
    rw [TrackData.samples_of_none hfirst]
    exact (ite_self _).symm
  | cons point rest =>
    obtain ⟨p, color⟩ := point
    have harrows := Trace.arrows_follow_start settings position
      track.starts_increasing p color rest
    have hbucket := (Trace.start settings (nextStarts track.tourStarts 1) p (position.pixel p)
      color).follow_bucket_arrows settings position 1 rest
    obtain ⟨p, hp, rfl, -⟩ : ∃ p', track.points[0]? = some p' ∧ p = p'.project ∧ _ :=
      TrackData.getElem?_path (by rw [hpath]; rfl)
    have hfirst : track.pixelAt? N position 0 = some (position.pixel p.project).point := by
      rw [TrackData.pixelAt?, hp, Option.map_some]
    rw [TrackData.samples_of_first hfirst, TrackData.candidates, TrackData.strokes, hpath,
      Trace.ofPoints, Option.map_some, RenderBuckets.arrows_some, finish_arrows]
    split
    · exact harrows
    · -- On the way a bucket gets no arrows, and it has none at the start.
      rw [hbucket]
      rfl

end Builder

namespace Workbench

/-- The arrows of a completed build are greedy samples of the points of its track; or there are none,
whatever the buckets held before. -/
theorem Builds.arrows_sampled {track : TrackData W} {position : MapPosition W}
    {settings : BuildSettings N} {buckets : RenderBuckets N}
    (h : Builds track position settings buckets) :
    ∃ samples, track.SampledGreedily position settings samples ∧
      buckets.arrows = if settings.showArrows then samples.map Prod.snd else [] :=
  ⟨track.samples position settings, track.sampledGreedily_samples position settings,
    h.eq_geometry ▸ Builder.geometry_samples track position settings⟩

/-- Settings that show arrows ten pixels apart from each other. -/
def arrowSettings : BuildSettings Single :=
  { BuildSettings.default with showArrows := true, arrowDistance := .ofInt 10 }

theorem Builds.arrows_sampled_of_shortTrack :
    Builds shortTrack Builder.middle arrowSettings
        (Builder.geometry shortTrack Builder.middle arrowSettings) ∧
      ∃ samples, shortTrack.SampledGreedily Builder.middle arrowSettings samples ∧
        (Builder.geometry shortTrack Builder.middle arrowSettings).arrows =
          samples.map Prod.snd := by
  have hbuilds := builds_geometry shortTrack Builder.middle arrowSettings
  exact ⟨hbuilds, Builds.arrows_sampled hbuilds⟩

/-- The second point is fourteen pixels to the right of the first one and seven above it. -/
example : (Builder.geometry shortTrack Builder.middle arrowSettings).arrows.map
      (fun p => (Arithmetic.toInt p.x, Arithmetic.toInt p.y)) = [(0, 0), (14, -7)] := by
  decide +kernel

end Workbench

end TourMap
