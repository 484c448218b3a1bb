import TourMap.Proofs.Builder.InPlace

/-!
# Builder: completed builds

Whatever a workbench has built before, whatever the buckets held that it fills up, and however often
it looked at its token: a build that is completed leaves the `Builder.geometry` of its track.
-/

namespace TourMap

variable {W N : Type} [Mercator W]

namespace Builder

variable [Arithmetic N] [Resolution W N] {b : Builder W} {track : TrackData W}
  {memory : Nat → Array (GeoPoint W)} {position : MapPosition W} {settings : BuildSettings N}
  {buckets : RenderBuckets N} {cancelledAt : Option Nat} {stats : BuildStats}

/-- A build is completed only if it does not find its token cancelled. -/
theorem checks_le_of_ok {k : Nat} (hb : b.Remembers memory) (ht : track.StoredIn memory)
    (hempty : track.isEmpty = false)
    (hok : (b.build track position settings buckets (some k)).2.2 = .ok stats) :
    b.checks track ≤ k := by
  have hprojected : (b.project track).projected = track.points.map GeoPoint.project :=
    project_projected hb (ht.resolve_left (Bool.eq_false_iff.1 hempty))
  obtain ⟨⟨p, color⟩, rest, hpath⟩ := List.exists_cons_of_ne_nil
    fun hpath => Bool.eq_false_iff.1 hempty (isEmpty_iff_path_eq_nil.2 hpath)
  have hthis : (b.project track).projected.toList.zip track.colors.toList = (p, color) :: rest := by
    rw [hprojected, Array.toList_map, ← hpath, TrackData.path]
  refine Nat.le_of_not_lt fun hlt => ?_
  -- Its token is found cancelled while the track is projected, or while it is traced.
  by_cases hprojection : k < b.projectionChecks track
  · rw [build_of_lt_projectionChecks hempty hprojection] at hok
    cases hok
  · rw [build_of_lt_checks hthis hempty (Nat.le_of_not_lt hprojection) hlt] at hok
    cases hok

theorem eq_geometry_of_build (hb : b.Remembers memory) (ht : track.StoredIn memory)
    {earlier : RenderBuckets N}
    (h : (b.build track position settings earlier cancelledAt).2 = (buckets, .ok stats)) :
    buckets = geometry track position settings := by
  have hok : (b.build track position settings earlier cancelledAt).2.2 = .ok stats :=
    congrArg Prod.snd h
  cases hempty : track.isEmpty with
  | true =>
    unfold geometry build
    unfold build at h
    rw [if_pos hempty] at h ⊢
    exact (congrArg Prod.fst h).symm
  | false =>
    have hnone : b.build track position settings earlier cancelledAt =
        b.build track position settings earlier none := by
      refine build_of_checks_le fun k hk => ?_
      subst hk
      exact checks_le_of_ok hb ht hempty hok
    obtain ⟨stats', hstats⟩ : ∃ stats', (b.build track position settings earlier none).2 =
        (geometry track position settings, .ok stats') := build_none hb ht
    rw [hnone, hstats] at h
    exact (congrArg Prod.fst h).symm

end Builder

namespace Workbench

variable {w : Workbench W N} {b : Builder W} {track : TrackData W}

theorem Matches.remembers (h : w.Matches b) (hadmits : w.Admits track) :
    ∃ memory, b.Remembers memory ∧ track.StoredIn memory := by
  cases hfrom : w.projectedFrom with
  | none =>
    refine ⟨fun _ => track.points, fun name hname => ?_, .inr rfl⟩
    rw [h.name, hfrom] at hname
    cases hname
  | some held =>
    obtain ⟨hw, hb⟩ := h.projected held hfrom
    have hheld : b.projected = held.points.map GeoPoint.project := hb.trans hw
    by_cases hsame : held.name = track.source.name
    · refine ⟨fun _ => held.points, fun _ _ => hheld, ?_⟩
      exact (hadmits held hfrom hsame).imp id Eq.symm
    · -- The name held so far stands for the points held, so the track's name is free for its own.
      refine ⟨fun name => if name = track.source.name then track.points else held.points,
        fun name hname => ?_, .inr (if_pos rfl).symm⟩
      rw [h.name, hfrom, Option.map_some] at hname
      obtain rfl := Option.some.inj hname
      exact hheld.trans (congrArg (Array.map _) (if_neg hsame).symm)

variable [Arithmetic N] [Resolution W N] {position : MapPosition W} {settings : BuildSettings N}
  {buckets : RenderBuckets N}

/-- Whether a completed build of a track leaves the given buckets. The buffers and the buckets that
it fills up may have been used before. -/
def Builds (track : TrackData W) (position : MapPosition W) (settings : BuildSettings N)
    (buckets : RenderBuckets N) : Prop :=
  ∃ (b : Builder W) (w w' : Workbench W N) (earlier : RenderBuckets N) (cancelledAt : Option Nat)
    (stats : BuildStats), w.Matches b ∧ w.Admits track ∧
      w.build track position settings earlier cancelledAt = some (w', buckets, .ok stats)

theorem Builds.eq_geometry (h : Builds track position settings buckets) :
    buckets = Builder.geometry track position settings := by
  obtain ⟨b, w, w', earlier, cancelledAt, stats, hmatches, hadmits, hbuild⟩ := h
  obtain ⟨memory, hb, ht⟩ := hmatches.remembers hadmits
  obtain ⟨_, hw, -⟩ := build_eq hmatches hadmits position settings earlier cancelledAt
  rw [hbuild] at hw
  exact Builder.eq_geometry_of_build hb ht (Prod.mk.inj (Option.some.inj hw)).2.symm

theorem builds_geometry (track : TrackData W) (position : MapPosition W)
    (settings : BuildSettings N) :
    Builds track position settings (Builder.geometry track position settings) := by
  have hmemory : (Builder.new : Builder W).Remembers fun _ => track.points :=
    Builder.remembers_new
  obtain ⟨stats, hstats⟩ : ∃ stats,
      ((Builder.new : Builder W).build track position settings .empty none).2 =
        (Builder.geometry track position settings, .ok stats) :=
    Builder.build_none hmemory (.inr rfl)
  obtain ⟨w', hw, -⟩ :=
    build_eq matches_new (admits_new (N := N)) position settings .empty none
  rw [hstats] at hw
  exact ⟨.new, .new, w', .empty, none, stats, matches_new, admits_new, hw⟩

end Workbench

end TourMap
