import TourMap.Proofs.Animation.Course
import TourMap.Proofs.Layer.Drawn

/-!
# Events: what an animation does to its layer

Every step of an animation is a sequence of events of its layer, and all of them are plain ones: the
program sets its track and shows the positions along its way, but never changes the configuration nor
disables the layer. So what holds of every history of plain events holds of every animation.
-/

namespace TourMap.Animation

open LayerSystem

variable {W N : Type} [Mercator W] [Arithmetic N] [Resolution W N]

/-! ## 1. Steps as events -/

omit [Mercator W] [Arithmetic N] [Resolution W N] in
/-- Whether an event shows a position with a property, sets the given track, or is a step of what was
begun so far. -/
def Plain (track : TrackData W) (P : MapPosition W → Prop) : LayerSystem.Event W N → Prop
  | .frame v => P v
  | .config _ _ | .enable _ => False
  | .update other => other = track
  | .proceed | .proceedUpdate _ | .advance | .wake | .tick => True

variable {track : TrackData W} {P : MapPosition W → Prop} {frames : Nat} {a : Animation W N}

/-- Whether plain events lead from one system to another. -/
def PlainRun (track : TrackData W) (P : MapPosition W → Prop) (s t : LayerSystem W N) : Prop :=
  ∃ events : List (LayerSystem.Event W N), events.foldlM LayerSystem.step s = some t ∧
    ∀ e ∈ events, Plain track P e

namespace PlainRun

variable {s t : LayerSystem W N} {e : LayerSystem.Event W N}

theorem none (s : LayerSystem W N) : PlainRun track P s s :=
  ⟨[], rfl, fun _ he => (List.not_mem_nil he).elim⟩

theorem one (he : s.step e = some t) (hplain : Plain track P e) : PlainRun track P s t := by
  refine ⟨[e], ?_, fun e' he' => ?_⟩
  · rw [List.foldlM_cons, he]
    rfl
  · rwa [List.mem_singleton.1 he']

theorem proceed (hviewport : P a.viewport)
    (htrack : ∀ other, a.stage = .opening other → other = track) :
    PlainRun track P a.system (a.proceed frames).system := by
  -- A step of the program is one of a call or of a replacement, begins one, or only counts.
  unfold Animation.proceed
  split
  · rename_i hcall
    exact one (e := .proceed) (if_pos hcall) trivial
  · rename_i hcall
    rw [Bool.not_eq_true, Option.isSome_eq_false_iff] at hcall
    have hframe : PlainRun track P a.system a.beginFrame.system :=
      one (e := .frame a.viewport) (if_pos hcall) hviewport
    split
    · rename_i hupdates
      have hlt : 0 < a.system.updates.length := by simpa [List.length_pos_iff] using hupdates
      exact one (e := .proceedUpdate 0) (if_pos hlt) trivial
    · split
      · rename_i other begun hstage
        exact one (e := .update _) rfl (htrack _ hstage)
      · exact none _
      · exact hframe
      · exact none _
      · exact hframe
      · split <;> exact none _
      · exact none _

theorem foldlM_tick (n : Nat) (s : LayerSystem W N) :
    (List.replicate n LayerSystem.Event.tick).foldlM LayerSystem.step s =
      some { s with worker := { s.worker with clock := s.worker.clock + n } } := by
  induction n generalizing s with
  | zero => rfl
  | succ n ih =>
    rw [List.replicate_succ, List.foldlM_cons]
    change (List.replicate n LayerSystem.Event.tick).foldlM LayerSystem.step _ = _
    rw [ih, Nat.add_right_comm]
    rfl

theorem step (e : Event) (hviewport : P a.viewport)
    (htrack : ∀ other, a.stage = .opening other → other = track) :
    PlainRun track P a.system (a.step frames e).system := by
  cases e with
  | proceed => exact proceed hviewport htrack
  | advance => exact one (e := .advance) rfl trivial
  | wake => exact one (e := .wake) rfl trivial
  | sleep milliseconds =>
    -- Time passes millisecond by millisecond.
    refine ⟨_, foldlM_tick milliseconds a.system, fun e he => ?_⟩
    rw [List.eq_of_mem_replicate he]
    trivial

end PlainRun

/-! ## 2. Histories -/

variable {config : TrackConfig N} {start : MapPosition W} {pan : Point W} {past : Past W N}

theorem OnCourse.exists_viewport (h : OnCourse config track start pan frames past a) :
    ∃ k, k ≤ frames ∧ a.viewport = start.along pan k := by
  have hat := h.stage
  cases hstage : a.stage with
  | opening other =>
    rw [hstage] at hat
    exact ⟨0, Nat.zero_le _, hat.2.1⟩
  | panning left =>
    rw [hstage] at hat
    exact ⟨frames - left, Nat.sub_le _ _, hat.2.1⟩
  | settling =>
    rw [hstage] at hat
    exact ⟨frames, Nat.le_refl _, hat.1⟩
  | ended =>
    rw [hstage] at hat
    exact ⟨frames, Nat.le_refl _, hat.1⟩

theorem OnCourse.opening (h : OnCourse config track start pan frames past a) {other : TrackData W}
    (hstage : a.stage = .opening other) : other = track := by
  have hat := h.stage
  rw [hstage] at hat
  exact hat.1

/-- The layer of an animation has a history of plain events, which shows the positions along the way
only. -/
theorem Reachable.exists_hasPast (h : Reachable frames (new config track start pan) a)
    (hP : ∀ k, k ≤ frames → P (start.along pan k)) :
    ∃ past, HasPast config past a.system ∧ ∀ m e, (m, e) ∈ past → Plain track P e := by
  induction h with
  | start => exact ⟨[], .start, fun _ _ hmem => (List.not_mem_nil hmem).elim⟩
  | @step a e hreach ih =>
    obtain ⟨past, hpast, hplain⟩ := ih
    obtain ⟨_, hcourse⟩ := exists_onCourse hreach
    obtain ⟨k, hk, hviewport⟩ := hcourse.exists_viewport
    have hP' : P a.viewport := by
      rw [hviewport]
      exact hP k hk
    obtain ⟨events, hevents, hplain'⟩ : PlainRun track P a.system (a.step frames e).system :=
      .step e hP' fun _ => hcourse.opening
    obtain ⟨recent, hrecent, hmap⟩ := hpast.extend hevents
    refine ⟨recent ++ past, hrecent, fun m e hmem => ?_⟩
    rcases List.mem_append.1 hmem with hnew | hold
    · exact hplain' e (History.mem_events hnew hmap)
    · exact hplain m e hold

/-- Whatever an animation draws at any moment is nothing, or geometry for a position along its way
and for the settings that it has. -/
theorem Reachable.derives {memory : Nat → Array (GeoPoint W)} (hstored : track.StoredIn memory)
    (h : Reachable frames (new config track start pan) a)
    (hP : ∀ k, k ≤ frames → P (start.along pan k)) :
    ∃ past, Derives P (· = .ofConfig config.sanitized) past a.system := by
  obtain ⟨past, hpast, hplain⟩ := h.exists_hasPast hP
  have hall (m : LayerSystem W N) (other : TrackData W) (hmem : (m, .update other) ∈ past) :
      other.StoredIn memory := by
    obtain rfl : other = track := hplain m _ hmem
    exact hstored
  exact ⟨past, hpast.derives hall (fun m v hmem => hplain m _ hmem) rfl
    fun m c b hmem => (hplain m _ hmem).elim⟩

end TourMap.Animation
