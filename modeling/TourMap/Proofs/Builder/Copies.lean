import TourMap.Proofs.Builder.Completion
import TourMap.Proofs.Builder.Order
import TourMap.Proofs.Trace.Pixel

/-!
# Copies: no line jumps across the world

A line is drawn from a stretch of its track (`TrackData.Stretch`), over which the track does not break.
So all points of the stretch are moved to the same copy of the world, and from each one to the next
the track goes around at most half of the world: no line jumps from one border of the world to the
other one.
-/

namespace TourMap

/-! ## 1. Stretches -/

section

variable {W N : Type} [Mercator W] [Arithmetic N] [Resolution W N]

/-- Whether a line is drawn from the points of a track with the indices from `first` to `last`. Each
vertex lies at the pixel of its own point, or at an end of what is seen of the way to it from the
point before it. Both of these points are among the others, unless the track breaks between them, and
it breaks nowhere between the first point and the last. -/
structure TrackData.Stretch (track : TrackData W) (position : MapPosition W) (extent : N)
    (first last : Nat) (line : List (Nat × Vertex N)) : Prop where
  vertices : ∀ m ∈ line, track.pixelAt? N position m.1 = some m.2.point ∨
    ¬ track.BreaksAt N position m.1 ∧ ∃ part, track.partAt position extent m.1 = some part ∧
      (m.2.point = part.first ∨ m.2.point = part.second)
  within : ∀ m ∈ line, first ≤ m.1 ∧ m.1 ≤ last
  before : ∀ m ∈ line, 0 < m.1 → ¬ track.BreaksAt N position m.1 → first < m.1
  unbroken : ∀ i, first < i → i ≤ last → ¬ track.BreaksAt N position i

namespace TrackData

variable {track : TrackData W} {position : MapPosition W} {extent : N}

theorem exists_stretch {line : List (Nat × Vertex N)} (horder : line.Pairwise (·.1 ≤ ·.1))
    (hunbroken : Unbroken (track.BreaksAt N position) line)
    (hvertices : ∀ m ∈ line, track.pixelAt? N position m.1 = some m.2.point ∨
      ¬ track.BreaksAt N position m.1 ∧ ∃ part, track.partAt position extent m.1 = some part ∧
        (m.2.point = part.first ∨ m.2.point = part.second)) :
    ∃ first last, track.Stretch position extent first last line := by
  by_cases hempty : line = []
  · subst hempty
    exact ⟨0, 0, nofun, nofun, nofun, fun i hlow hhigh => by omega⟩
  · obtain ⟨start, hstart⟩ : ∃ start, start = line.head hempty := ⟨_, rfl⟩
    obtain ⟨stop, hstop⟩ : ∃ stop, stop = line.getLast hempty := ⟨_, rfl⟩
    have hstartMem : start ∈ line := hstart ▸ line.head_mem hempty
    have hstopMem : stop ∈ line := hstop ▸ line.getLast_mem hempty
    have hlow (m : Nat × Vertex N) (hm : m ∈ line) : start.1 ≤ m.1 :=
      hstart ▸ horder.rel_head_of_rel_head_head hm (Nat.le_refl _)
    have hhigh (m : Nat × Vertex N) (hm : m ∈ line) : m.1 ≤ stop.1 :=
      hstop ▸ horder.rel_getLast_of_rel_getLast_getLast hm (Nat.le_refl _)
    -- A break within the stretch would lie between the first vertex and the last one.
    have hinner (i : Nat) (hi : start.1 < i) (hle : i ≤ stop.1) :
        ¬ track.BreaksAt N position i := fun hbreak => by
      rcases hunbroken i hbreak with hall | hall
      · exact Nat.not_lt.2 hle (hall stop hstopMem)
      · exact Nat.not_le.2 hi (hall start hstartMem)
    -- After a break the stretch begins at the first vertex itself, else at the point before it.
    by_cases hbreak : track.BreaksAt N position start.1
    · refine ⟨start.1, stop.1, hvertices, fun m hm => ⟨hlow m hm, hhigh m hm⟩,
        fun m hm _ hnot => Nat.lt_of_le_of_ne (hlow m hm) fun heq => hnot (heq ▸ hbreak), hinner⟩
    · refine ⟨start.1 - 1, stop.1, hvertices,
        fun m hm => ⟨(Nat.sub_le _ _).trans (hlow m hm), hhigh m hm⟩,
        fun m hm hpos _ => ?_, fun i hi hle => ?_⟩
      · have := hlow m hm
        omega
      · rcases Nat.eq_or_lt_of_le (by omega : start.1 ≤ i) with rfl | hlt
        · exact hbreak
        · exact hinner i hlt hle

variable {first last i : Nat} {line : List (Nat × Vertex N)} {p q : GeoPoint W}

omit [Arithmetic N] in
theorem eq_of_not_breaksAt (h : ¬ track.BreaksAt N position (i + 1))
    (hp : track.points[i]? = some p) (hq : track.points[i + 1]? = some q) :
    (position.pixel q.project : Pixel N).flip = (position.pixel p.project : Pixel N).flip ∧
      ¬ Arithmetic.half < Arithmetic.abs (q.project.x - p.project.x) := by
  have hnot := not_or.1 fun hbreak => h (Or.inr ⟨i, p, q, rfl, hp, hq, hbreak⟩)
  exact ⟨not_not.1 hnot.1, hnot.2⟩

theorem Stretch.exists_flip (h : track.Stretch position extent first last line) :
    ∃ k : Int, ∀ i p, first ≤ i → i ≤ last → track.points[i]? = some p →
      (position.pixel p.project : Pixel N).flip = k := by
  cases hfirst : track.points[first]? with
  | none =>
    have hend := Array.getElem?_eq_none_iff.1 hfirst
    refine ⟨0, fun i p hi _ hp => ?_⟩
    rw [Array.getElem?_eq_none (hend.trans hi)] at hp
    cases hp
  | some start =>
    refine ⟨(position.pixel start.project : Pixel N).flip, fun i q hi => ?_⟩
    -- From one point to the next the copy stays the same.
    induction i, hi using Nat.le_induction generalizing q with
    | base =>
      intro _ hq
      obtain rfl := Option.some.inj (hfirst.symm.trans hq)
      rfl
    | succ i hi ih =>
      intro hle hq
      have hlt := (Array.getElem?_eq_some_iff.1 hq).1
      have hp := Array.getElem?_eq_getElem (Nat.lt_of_succ_lt hlt)
      have hbreak := h.unbroken (i + 1) (Nat.lt_succ_of_le hi) hle
      rw [(eq_of_not_breaksAt hbreak hp hq).1]
      exact ih _ (Nat.le_of_succ_le hle) hp

end TrackData

namespace Builder

theorem geometry_stretches (track : TrackData W) (position : MapPosition W)
    (settings : BuildSettings N) :
    ∃ marked : List (List (Nat × Vertex N)),
      (geometry track position settings).Holds
        (marked.map fun line => (line.map Prod.snd).toArray) ∧
      ∀ line ∈ marked, ∃ first last,
        track.Stretch position settings.clipExtent first last line := by
  have hholds := geometry_sketch track position settings Prod.snd Prod.mk fun _ _ => rfl
  have horder := Sketch.inOrder_linesOf (Trace.farBy Prod.snd settings.minDistance)
    fun i stroke (h : (track.strokes position settings.clipExtent Prod.mk)[i]? = some stroke) =>
      TrackData.at_of_getElem?_strokes h
  refine ⟨_, hholds, fun line hline => TrackData.exists_stretch
    (horder.linesRise line hline).pairwise_le (horder.unbroken line hline) ?_⟩
  refine Sketch.all_linesOf _ (fun stroke hstroke m hm => ?_) line hline
  obtain ⟨i, hi⟩ := List.mem_iff_getElem?.1 hstroke
  obtain ⟨rfl, -, hplace⟩ := TrackData.of_mem_vertices hi hm
  exact hplace

end Builder

end

/-! ## 2. Exact numbers -/

namespace Workbench

open Arithmetic

theorem project_x_mem (p : GeoPoint Rat) : 0 ≤ p.project.x ∧ p.project.x ≤ 1 :=
  within_rat.1 (within_clamp (within_rat.2 ⟨le_rfl, zero_le_one⟩)
    (within_rat.2 ⟨zero_le_one, le_rfl⟩) (isNaN_rat _))

variable {track : TrackData Rat} {position : MapPosition Rat} {settings : BuildSettings Rat}
  {buckets : RenderBuckets Rat}

/-- Seen from a position in the world, no line of a completed build jumps across the world. All points
of its stretch are moved to one copy of the world, and from one to the next their pixels are about half
of a world apart at most. -/
theorem Builds.lines_stay_on_one_copy (hposition : position.InWorld)
    (h : Builds track position settings buckets) :
    (∀ p : GeoPoint Rat, position.Folds p.project) ∧
      ∃ marked : List (List (Nat × Vertex Rat)),
        buckets.Holds (marked.map fun line => (line.map Prod.snd).toArray) ∧
        ∀ line ∈ marked, ∃ first last, track.Stretch position settings.clipExtent first last line ∧
          (∃ k : Int, ∀ i p, first ≤ i → i ≤ last → track.points[i]? = some p →
            (position.pixel p.project : Pixel Rat).flip = k) ∧
          ∀ i p q, first ≤ i → i < last → track.points[i]? = some p →
            track.points[i + 1]? = some q →
            |(position.pixel q.project : Pixel Rat).point.x -
              (position.pixel p.project : Pixel Rat).point.x| ≤ position.worldPixels / 2 + 1 := by
  rw [h.eq_geometry]
  obtain ⟨hlow, hhigh⟩ := within_rat.1 hposition.1
  obtain ⟨marked, hholds, hlines⟩ := Builder.geometry_stretches track position settings
  refine ⟨fun p => MapPosition.folds (abs_le.2 ?_), marked, hholds, fun line hline => ?_⟩
  · -- Both lie in the world, so they are at most one world apart.
    obtain ⟨hlow', hhigh'⟩ := project_x_mem p
    change (0 : Rat) ≤ _ at hlow
    change _ ≤ (1 : Rat) at hhigh
    constructor <;> linarith
  · obtain ⟨first, last, hstretch⟩ := hlines line hline
    refine ⟨first, last, hstretch, hstretch.exists_flip, fun i p q hi hlt hp hq => ?_⟩
    have hbreak := hstretch.unbroken (i + 1) (Nat.lt_succ_of_le hi) hlt
    obtain ⟨hflip, hway⟩ := TrackData.eq_of_not_breaksAt hbreak hp hq
    rw [abs_rat, half_rat] at hway
    exact MapPosition.abs_pixel_x_sub_le hflip (not_lt.1 hway)

/-- A single place, and a tour over the border between East and West. -/
def pacificTrack : TrackData Rat where
  source := ⟨1, #[⟨0, 150⟩, ⟨0, 160⟩, ⟨0, 170⟩, ⟨0, -170⟩, ⟨0, -160⟩]⟩
  colors := #[.rgb 0 0 255, .rgb 255 0 0, .rgb 255 0 0, .rgb 255 0 0, .rgb 255 0 0]
  tourStarts := [0, 1]
  colors_size := rfl
  starts_lt := by decide
  starts_increasing := by decide

/-- The Eastern end of the world. -/
def dateline : MapPosition Rat := ⟨1, 1 / 2, 0⟩

theorem Builds.lines_stay_on_one_copy_over_dateline :
    dateline.InWorld ∧
      Builds pacificTrack dateline (.default : BuildSettings Rat)
        (Builder.geometry pacificTrack dateline .default) ∧
      ∃ marked : List (List (Nat × Vertex Rat)),
        (Builder.geometry pacificTrack dateline .default).Holds
          (marked.map fun line => (line.map Prod.snd).toArray) ∧
        ∀ line ∈ marked, ∃ first last,
          pacificTrack.Stretch dateline BuildSettings.default.clipExtent first last line ∧
          ∃ k : Int, ∀ (i : Nat) (p : GeoPoint Rat), first ≤ i → i ≤ last →
            pacificTrack.points[i]? = some p →
              (dateline.pixel p.project : Pixel Rat).flip = k := by
  have hposition : dateline.InWorld := ⟨by decide +kernel, by decide +kernel⟩
  have hbuilds := builds_geometry pacificTrack dateline (.default : BuildSettings Rat)
  obtain ⟨-, marked, hholds, hlines⟩ := Builds.lines_stay_on_one_copy hposition hbuilds
  refine ⟨hposition, hbuilds, marked, hholds, fun line hline => ?_⟩
  obtain ⟨first, last, hstretch, hflip, -⟩ := hlines line hline
  exact ⟨first, last, hstretch, hflip⟩

/-- The tour is drawn in two lines, on both sides of the border. -/
example : (Builder.geometry pacificTrack dateline (.default : BuildSettings Rat)).lines.map
    (·.toList.map (·.point.x)) = [[-14, -7], [8, 15]] := by
  decide +kernel

end Workbench

end TourMap
