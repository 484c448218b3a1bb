import TourMap.Animation
import TourMap.Proofs.Animation.Looking

/-!
# Course: an animation under every schedule

The program shows the frames at the positions along its way, and the worker thread takes its steps in
between. Where the program is tells which frame the layer has looked at (`OnCourse`), so what is drawn
in the end does not depend on the worker thread.
-/

namespace TourMap

open LayerSystem

variable {W N : Type} [Mercator W] [Arithmetic N] [Resolution W N]

namespace Animation

/-! ## 1. The course -/

section

variable (track : TrackData W) (v : Nat → MapPosition W) (past : Past W N)

/-- How far the program is with the frame `k`, which was begun or not. -/
inductive InFrame (s : LayerSystem W N) (k : Nat) : Bool → Prop where
  | due (hcall : s.call = none) (hbefore : Before track v past s k)
    (hshown : s.layer.viewport ≠ none → ∃ m, Looked track v past s m) : InFrame s k false
  | begun (hcall : s.call = some (.lookAtTrack (v k))) (hupdates : s.updates = [])
    (hbefore : Before track v past s k) : InFrame s k true
  | looked (hcall : ∀ viewport, s.call ≠ some (.lookAtTrack viewport))
    (hlooked : Looked track v past s k) : InFrame s k true

/-- What holds at a stage of an animation of so many frames. -/
def AtStage (frames : Nat) (s : LayerSystem W N) (viewport : MapPosition W) (begun : Bool) :
    Stage W → Prop
  | .opening other => other = track ∧ viewport = v 0 ∧ begun = false ∧
      s.call = none ∧ s.updates = [] ∧ s.Blank ∧ s.layer.viewport = none
  | .panning left => left ≤ frames ∧ viewport = v (frames - left) ∧
      InFrame track v past s (frames - left) begun
  | .settling => viewport = v frames ∧ InFrame track v past s frames begun
  | .ended => viewport = v frames ∧ s.call = none ∧ s.layer.state = .geometryFresh ∧
      Looked track v past s frames

end

/-- Whether an animation is where it must be. -/
structure OnCourse (config : TrackConfig N) (track : TrackData W) (start : MapPosition W)
    (pan : Point W) (frames : Nat) (past : Past W N) (a : Animation W N) : Prop where
  steady : Steady config track past a.system
  pan_eq : a.pan = pan
  stage : AtStage track (start.along pan) past frames a.system a.viewport a.begun a.stage

variable {config : TrackConfig N} {track : TrackData W} {start : MapPosition W} {pan : Point W}
  {frames : Nat} {past : Past W N} {a : Animation W N}

theorem onCourse_new : OnCourse config track start pan frames [] (new config track start pan) where
  steady := steady_new
  pan_eq := rfl
  stage := ⟨rfl, rfl, rfl, rfl, rfl, ⟨rfl, rfl, ⟨rfl, rfl, rfl⟩⟩, rfl⟩

/-! ## 2. Steps of the worker thread -/

/-- The steps that are none of the render thread or of a replacement. -/
def IsBackground (e : LayerSystem.Event W N) : Prop := e = .advance ∨ e = .wake ∨ e = .tick

section

variable {v : Nat → MapPosition W} {s : LayerSystem W N} {e : LayerSystem.Event W N}
  {worker : Worker W N} {k : Nat}

omit [Mercator W] [Arithmetic N] [Resolution W N] in
theorem IsBackground.not_asks (h : IsBackground e) : ¬ s.Asks e := by
  rcases h with rfl | rfl | rfl <;> simp [Asks]

theorem InFrame.of_worker {begun : Bool} (h : InFrame track v past s k begun)
    (he : s.step e = some { s with worker }) (hother : IsBackground e)
    (hsource : worker.source = s.worker.source) (hidle : s.worker.Idle → worker.Idle) :
    InFrame track v ((s, e) :: past) { s with worker } k begun := by
  have hlooked {m : Nat} (hm : Looked track v past s m) :
      Looked track v ((s, e) :: past) { s with worker } m :=
    hm.transfer hother.not_asks hm.state hsource rfl rfl rfl fun _ _ => Iff.rfl
  have hbefore (hb : Before track v past s k) :
      Before track v ((s, e) :: past) { s with worker } k :=
    hb.transfer (move_of_step he) hother.not_asks rfl rfl rfl hsource rfl (fun _ _ => Iff.rfl) hidle
  cases h with
  | due hcall hb hshown =>
    refine .due hcall (hbefore hb) fun hviewport => ?_
    obtain ⟨m, hm⟩ := hshown hviewport
    exact ⟨m, hlooked hm⟩
  | begun hcall hupdates hb => exact .begun hcall hupdates (hbefore hb)
  | looked hcall hm => exact .looked hcall (hlooked hm)

/-- The course does not depend on what the worker thread does. -/
theorem OnCourse.of_worker (h : OnCourse config track start pan frames past a)
    (he : a.system.step e = some { a.system with worker }) (hother : IsBackground e)
    (hsource : worker.source = a.system.worker.source)
    (hidle : a.system.worker.Idle → worker.Idle) :
    OnCourse config track start pan frames ((a.system, e) :: past)
      { a with system := { a.system with worker } } := by
  have hat := h.stage
  refine ⟨?_, h.pan_eq, ?_⟩
  · -- Such a step is no call and cuts nothing off.
    refine h.steady.next he ?_ ?_ ?_ ?_ <;> rcases hother with rfl | rfl | rfl <;> simp [Cuts]
  · cases hstage : a.stage with
    | opening other =>
      rw [hstage] at hat
      obtain ⟨hopen, hviewport, hbegun, hcall, hupdates, hblank, hnone⟩ := hat
      exact ⟨hopen, hviewport, hbegun, hcall, hupdates, hblank.transfer rfl rfl hidle, hnone⟩
    | panning left =>
      rw [hstage] at hat
      exact ⟨hat.1, hat.2.1, hat.2.2.of_worker he hother hsource hidle⟩
    | settling =>
      rw [hstage] at hat
      exact ⟨hat.1, hat.2.of_worker he hother hsource hidle⟩
    | ended =>
      rw [hstage] at hat
      obtain ⟨hviewport, hcall, hfresh, hlooked⟩ := hat
      exact ⟨hviewport, hcall, hfresh,
        hlooked.transfer hother.not_asks hlooked.state hsource rfl rfl rfl fun _ _ => Iff.rfl⟩

theorem OnCourse.advance (h : OnCourse config track start pan frames past a) :
    ∃ past, OnCourse config track start pan frames past (a.step frames .advance) := by
  have hadvance := Worker.advance_advance a.system.worker
  exact ⟨_, h.of_worker (e := .advance) rfl (.inl rfl) hadvance.source fun hidle =>
    hidle.advance hadvance⟩

theorem OnCourse.wake (h : OnCourse config track start pan frames past a) :
    ∃ past, OnCourse config track start pan frames past (a.step frames .wake) :=
  ⟨_, h.of_worker (e := .wake) rfl (.inr (.inl rfl)) (Worker.wake_source _) .wake⟩

/-- Time passes millisecond by millisecond. -/
theorem OnCourse.sleep (h : OnCourse config track start pan frames past a) (milliseconds : Nat) :
    ∃ past, OnCourse config track start pan frames past (a.step frames (.sleep milliseconds)) := by
  induction milliseconds with
  | zero => exact ⟨past, h⟩
  | succ n ih =>
    obtain ⟨past, ih⟩ := ih
    exact ⟨_, ih.of_worker (e := .tick) rfl (.inr (.inr rfl)) rfl fun hidle =>
      ⟨hidle.request, hidle.done, hidle.job⟩⟩

end

/-! ## 3. Steps of the program -/

section

variable {v : Nat → MapPosition W} {s : LayerSystem W N} {k : Nat} {begun : Bool}

/-- In a call the layer looks at the frame, and has looked at it from then on. -/
theorem InFrame.proceed (h : InFrame track v past s k begun) (hc : s.Coherent)
    (hsome : s.call.isSome = true) :
    InFrame track v ((s, .proceed) :: past) s.proceed k begun := by
  have hmove := move_proceed hsome
  cases h with
  | due hcall hbefore hshown =>
    rw [hcall] at hsome
    cases hsome
  | begun hcall hupdates hbefore =>
    obtain ⟨hlooked, hcall⟩ := hmove.looked_of_lookAtTrack hcall hupdates hbefore
    exact .looked hcall hlooked
  | looked hcall hlooked =>
    obtain ⟨hlooked, hcall⟩ := hmove.looked_of_call hc hcall hlooked
    exact .looked hcall hlooked

/-- The replacement of the track ends before the first frame. -/
theorem InFrame.of_update {t : LayerSystem W N} {i : Nat} (h : InFrame track v past s k begun)
    (hmove : Move s (.proceedUpdate i) t) (hupdates : s.updates ≠ []) :
    InFrame track v ((s, .proceedUpdate i) :: past) t k begun ∧ s.worker.Idle := by
  cases h with
  | begun hcall hnone hbefore => exact (hupdates hnone).elim
  | looked hcall hlooked => exact (hupdates hlooked.updates).elim
  | due hcall hbefore hshown =>
    cases hbefore with
    | again k hlooked | moved k hlooked => exact (hupdates hlooked.updates).elim
    | first hblank hnews htrack =>
      have hnews' := hmove.hasNews (by simp [Asks]) hnews
      -- No frame was shown before the replacement ended.
      have hviewport (hviewport : s.layer.viewport ≠ none) : False := by
        obtain ⟨m, hlooked⟩ := hshown hviewport
        exact hupdates hlooked.updates
      refine ⟨?_, hblank.idle⟩
      cases hmove with
      | mark i r hupdate =>
        exact .due hcall (.first (hblank.transfer rfl rfl fun h => ⟨h.request, h.done, h.job⟩)
          hnews' htrack) fun h => (hviewport h).elim
      | cancelStale i r hupdate =>
        exact .due hcall (.first (hblank.transfer rfl rfl fun h => h.cancelStale r) hnews' htrack)
          fun h => (hviewport h).elim

/-- A frame that is due can be begun. -/
theorem InFrame.of_frame (h : InFrame track v past s k false) (hupdates : s.updates = [])
    (henabled : s.layer.enabled = true) :
    InFrame track v ((s, .frame (v k)) :: past) (s.beginFrame (v k)) k true := by
  cases h with
  | due hcall hbefore hshown =>
    have hstep : s.step (.frame (v k)) = some (s.beginFrame (v k)) := by
      rw [LayerSystem.step, hcall]
      rfl
    have hmove := move_of_step hstep
    rw [LayerSystem.beginFrame, if_pos henabled] at hmove ⊢
    exact .begun rfl hupdates (hbefore.transfer hmove (by simp [Asks]) rfl rfl rfl rfl rfl
      (by simp [hcall]) id)

omit [Arithmetic N] [Resolution W N] in
/-- A frame that was begun and whose call has ended was looked at. -/
theorem InFrame.looked_of_call (h : InFrame track v past s k true) (hcall : s.call = none) :
    Looked track v past s k := by
  cases h with
  | begun hlook hupdates hbefore =>
    rw [hcall] at hlook
    cases hlook
  | looked hnot hlooked => exact hlooked

end

theorem OnCourse.call (h : OnCourse config track start pan frames past a)
    (hsome : a.system.call.isSome = true) :
    OnCourse config track start pan frames ((a.system, .proceed) :: past)
      { a with system := a.system.proceed } := by
  have hat := h.stage
  have hcoherent := h.steady.hasPast.coherent
  have hnone (hcall : a.system.call = none) : False := by
    rw [hcall] at hsome
    cases hsome
  refine ⟨h.steady.next (if_pos hsome) nofun nofun nofun (by simp [Cuts]), h.pan_eq, ?_⟩
  cases hstage : a.stage with
  | opening other =>
    rw [hstage] at hat
    exact (hnone hat.2.2.2.1).elim
  | panning left =>
    rw [hstage] at hat
    exact ⟨hat.1, hat.2.1, hat.2.2.proceed hcoherent hsome⟩
  | settling =>
    rw [hstage] at hat
    exact ⟨hat.1, hat.2.proceed hcoherent hsome⟩
  | ended =>
    rw [hstage] at hat
    exact (hnone hat.2.1).elim

theorem OnCourse.update (h : OnCourse config track start pan frames past a)
    (hupdates : a.system.updates ≠ []) :
    OnCourse config track start pan frames ((a.system, .proceedUpdate 0) :: past)
      { a with system := a.system.proceedUpdate 0 } := by
  have hat := h.stage
  have hstep : a.system.step (.proceedUpdate 0) = some (a.system.proceedUpdate 0) :=
    if_pos (List.length_pos_iff.2 hupdates)
  have hmove := move_of_step hstep
  -- Nothing runs yet that the replacement could cut off.
  have next (hidle : a.system.worker.Idle) :
      Steady config track ((a.system, .proceedUpdate 0) :: past) (a.system.proceedUpdate 0) := by
    refine h.steady.next hstep nofun nofun nofun ?_
    simp [Cuts, h.steady.hasPast.orderly.running_eq, hidle.job]
  cases hstage : a.stage with
  | opening other =>
    rw [hstage] at hat
    exact (hupdates hat.2.2.2.2.1).elim
  | panning left =>
    rw [hstage] at hat
    obtain ⟨hframe, hidle⟩ := hat.2.2.of_update hmove hupdates
    exact ⟨next hidle, h.pan_eq, by simpa only [hstage] using ⟨hat.1, hat.2.1, hframe⟩⟩
  | settling =>
    rw [hstage] at hat
    obtain ⟨hframe, hidle⟩ := hat.2.of_update hmove hupdates
    exact ⟨next hidle, h.pan_eq, by simpa only [hstage] using ⟨hat.1, hframe⟩⟩
  | ended =>
    rw [hstage] at hat
    exact (hupdates hat.2.2.2.updates).elim

theorem OnCourse.beginFrame (h : OnCourse config track start pan frames past a)
    (hcall : a.system.call = none)
    (hat : AtStage track (start.along pan) ((a.system, .frame a.viewport) :: past) frames
      (a.system.beginFrame a.viewport) a.viewport true a.stage) :
    OnCourse config track start pan frames ((a.system, .frame a.viewport) :: past) a.beginFrame where
  steady := h.steady.next (by rw [LayerSystem.step, hcall]; rfl) nofun nofun nofun (by simp [Cuts])
  pan_eq := h.pan_eq
  stage := hat

theorem OnCourse.setTrack (h : OnCourse config track start pan frames past a) {other : TrackData W}
    (hstage : a.stage = .opening other) :
    OnCourse config track start pan frames ((a.system, .update other) :: past)
      { a with system := a.system.beginUpdate other, stage := .panning frames } := by
  have hat := h.stage
  rw [hstage] at hat
  obtain ⟨rfl, hviewport, hbegun, hcall, hupdates, hblank, hnone⟩ := hat
  refine ⟨h.steady.next rfl nofun nofun (fun _ heq => by cases heq; rfl) (by simp [Cuts]), h.pan_eq,
    Nat.le_refl _, ?_, ?_⟩
  · rw [Nat.sub_self]
    exact hviewport
  · rw [Nat.sub_self, hbegun]
    refine .due hcall (.first (hblank.transfer rfl rfl fun h => ⟨h.request, h.done, h.job⟩)
      (.inr (.inl ⟨_, List.mem_append_right _ (List.mem_singleton_self _)⟩)) rfl) fun hviewport => ?_
    exact (hviewport hnone).elim

/-- A frame whose call has ended was looked at, and the map moves on. -/
theorem OnCourse.moveOn (h : OnCourse config track start pan frames past a) {left : Nat}
    (hcall : a.system.call = none) (hstage : a.stage = .panning (left + 1))
    (hbegun : a.begun = true) :
    OnCourse config track start pan frames past
      { a with
        viewport := a.viewport.panPixels a.pan.x a.pan.y
        stage := .panning left
        begun := false } := by
  have hat := h.stage
  rw [hstage, hbegun] at hat
  obtain ⟨hle, hviewport, hframe⟩ := hat
  have hlooked := hframe.looked_of_call hcall
  have hnext : frames - left = frames - (left + 1) + 1 := by omega
  refine ⟨h.steady, h.pan_eq, Nat.le_of_succ_le hle, ?_, ?_⟩
  · rw [hnext, hviewport, h.pan_eq]
    rfl
  · rw [hnext]
    exact .due hcall (.moved _ hlooked) fun _ => ⟨_, hlooked⟩

/-- The program stays on course, whatever it does next. -/
theorem OnCourse.proceed (h : OnCourse config track start pan frames past a) :
    ∃ past, OnCourse config track start pan frames past (a.proceed frames) := by
  unfold Animation.proceed
  split
  · exact ⟨_, h.call ‹_›⟩
  · rename_i hcall
    rw [Bool.not_eq_true, Option.isSome_eq_false_iff, Option.isNone_iff_eq_none] at hcall
    split
    · rename_i hupdates
      exact ⟨_, h.update (by simpa using hupdates)⟩
    · rename_i hupdates
      have hupdates : a.system.updates = [] := by simpa using hupdates
      have hat := h.stage
      -- In no call, what the program does next depends on its stage alone.
      split
      · rename_i other begun hstage
        exact ⟨_, h.setTrack hstage⟩
      · -- From now on the map stands still.
        rename_i begun hstage
        rw [hstage] at hat
        exact ⟨past, h.steady, h.pan_eq, hat.2.1, hat.2.2⟩
      · -- The next frame of a moving map is due.
        rename_i left hstage hbegun
        rw [hstage, hbegun] at hat
        obtain ⟨hle, hviewport, hframe⟩ := hat
        refine ⟨_, h.beginFrame hcall ?_⟩
        rw [hstage, hviewport]
        exact ⟨hle, rfl, hframe.of_frame hupdates h.steady.enabled⟩
      · -- The frame was looked at.
        rename_i left hstage hbegun
        exact ⟨past, h.moveOn hcall hstage hbegun⟩
      · -- The last frame is due again.
        rename_i hstage hbegun
        rw [hstage, hbegun] at hat
        obtain ⟨hviewport, hframe⟩ := hat
        refine ⟨_, h.beginFrame hcall ?_⟩
        rw [hstage, hviewport]
        exact ⟨rfl, hframe.of_frame hupdates h.steady.enabled⟩
      · -- The last frame was looked at once more.
        rename_i hstage hbegun
        rw [hstage, hbegun] at hat
        obtain ⟨hviewport, hframe⟩ := hat
        have hlooked := hframe.looked_of_call hcall
        split
        · rename_i hfresh
          exact ⟨past, h.steady, h.pan_eq, hviewport, hcall, (state_eq_geometryFresh.1 hfresh).1,
            hlooked⟩
        · refine ⟨past, h.steady, h.pan_eq, ?_⟩
          rw [hstage]
          exact ⟨hviewport, .due hcall (.again _ hlooked) fun _ => ⟨_, hlooked⟩⟩
      · exact ⟨past, h⟩

theorem OnCourse.step (h : OnCourse config track start pan frames past a) (e : Event) :
    ∃ past, OnCourse config track start pan frames past (a.step frames e) := by
  cases e with
  | proceed => exact h.proceed
  | advance => exact h.advance
  | wake => exact h.wake
  | sleep milliseconds => exact h.sleep milliseconds

theorem exists_onCourse (h : Reachable frames (new config track start pan) a) :
    ∃ past, OnCourse config track start pan frames past a := by
  induction h with
  | start => exact ⟨[], onCourse_new⟩
  | step e _ ih =>
    obtain ⟨past, hcourse⟩ := ih
    exact hcourse.step e

/-! ## 4. The picture -/

/-- Whatever the worker thread did in between: what is drawn in the end is the geometry for the
position where the map last came to another tile, placed into the window at the last position. -/
theorem picture_of_ended {memory : Nat → Array (GeoPoint W)} (hstored : track.StoredIn memory)
    (h : Reachable frames (new config track start pan) a) (hended : a.stage = .ended) :
    a.picture =
      ⟨Builder.geometry track (start.along pan (turn (start.along pan) frames))
          (.ofConfig config.sanitized),
        .between (start.along pan (turn (start.along pan) frames)) (start.along pan frames)⟩ := by
  obtain ⟨past, hcourse⟩ := exists_onCourse h
  have hat := hcourse.stage
  rw [hended] at hat
  obtain ⟨hviewport, hcall, hfresh, hlooked⟩ := hat
  obtain ⟨hposition, hbuckets⟩ := hlooked.drawn hcourse.steady hstored hcall hfresh
  rw [picture, renderTransform, hposition, hbuckets, hviewport]

/-- Between two frames there is pending work as long as the geometry is not fresh. -/
theorem pendingWork_of_reachable (h : Reachable frames (new config track start pan) a)
    (hcall : a.system.call = none) (hviewport : a.system.layer.viewport ≠ none)
    (hfresh : a.system.state ≠ .geometryFresh) : a.system.PendingWork := by
  obtain ⟨past, hcourse⟩ := exists_onCourse h
  have hlooked {k : Nat} {begun : Bool}
      (hframe : InFrame track (start.along pan) past a.system k begun) :
      ∃ m, Looked track (start.along pan) past a.system m := by
    cases hframe with
    | due hcall hbefore hshown => exact hshown hviewport
    | begun hlook hupdates hbefore =>
      rw [hcall] at hlook
      cases hlook
    | looked hnot hlooked => exact ⟨k, hlooked⟩
  -- A layer with a viewport was shown a frame, at any stage.
  have hat := hcourse.stage
  obtain ⟨m, hm⟩ : ∃ m, Looked track (start.along pan) past a.system m := by
    cases hstage : a.stage with
    | opening other =>
      rw [hstage] at hat
      exact (hviewport hat.2.2.2.2.2.2).elim
    | panning left =>
      rw [hstage] at hat
      exact hlooked hat.2.2
    | settling =>
      rw [hstage] at hat
      exact hlooked hat.2
    | ended =>
      rw [hstage] at hat
      exact ⟨frames, hat.2.2.2⟩
  exact hm.pendingWork hcourse.steady hcall hfresh

end Animation

end TourMap
