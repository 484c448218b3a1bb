import TourMap.Layer.TourLayer
import TourMap.Proofs.Layer.Orders
import TourMap.Proofs.Layer.Progress

/-!
# Moves: what one step of a layer can do

Every step of a `LayerSystem` is a `Move`, with all that is known where it takes place. A move acts on
the worker as at most one event of it (`workerEvent?`), so the past of a layer tells that of its
worker.
-/

namespace TourMap

@[simp] theorem TourLayer.setConfig_state {W N : Type} [Arithmetic N] (l : TourLayer W N)
    (config : TrackConfig N) : (l.setConfig config).state = l.state := rfl

namespace LayerSystem

variable {W N : Type} [Mercator W] [Arithmetic N] [Resolution W N] {s t : LayerSystem W N}
  {e : Event W N}

/-! ## 1. Moves -/

/-- What an event makes of a layer. -/
inductive Move (s : LayerSystem W N) : Event W N → LayerSystem W N → Prop where
  | ignoreFrame (viewport : MapPosition W) (hcall : s.call = none)
    (hdisabled : s.layer.enabled = false) : Move s (.frame viewport) s
  | beginFrame (viewport : MapPosition W) (hcall : s.call = none)
    (henabled : s.layer.enabled = true) :
    Move s (.frame viewport) { s with
      layer := { s.layer with viewport := some viewport }
      call := some (.lookAtTrack viewport) }
  | configure (config : TrackConfig N) (hcall : s.call = none)
    (hvoid : s.layer.viewport = none ∨ s.layer.state = .noData) :
    Move s (.config config true) { s with layer := s.layer.setConfig config }
  | askAgain (config : TrackConfig N) (viewport : MapPosition W) (hcall : s.call = none)
    (hviewport : s.layer.viewport = some viewport) (hstate : s.layer.state ≠ .noData) :
    Move s (.config config true) { s with
      layer := (s.layer.setConfig config).expect viewport
      call := some (.submit viewport false) }
  | restyle (config : TrackConfig N) (hcall : s.call = none) :
    Move s (.config config false) { s with
      layer := (s.layer.setConfig config).restyle
      worker := { s.worker with redraws := s.worker.redraws + 1 } }
  | keepEnabled (hcall : s.call = none) : Move s (.enable s.layer.enabled) s
  | toggle (enabled : Bool) (hcall : s.call = none) (hne : s.layer.enabled ≠ enabled) :
    Move s (.enable enabled) { s with
      layer := { s.layer with
        enabled
        lastTile := none
        state := if s.layer.state = .geometryFresh then .geometryStale else s.layer.state }
      call := if enabled then none else some .cancel }
  | endFrame (viewport : MapPosition W) (hcall : s.call = some (.lookAtTrack viewport))
    (hdirty : s.worker.source.dirty = false) (hstate : s.layer.state = .noData) :
    Move s .proceed { s with call := none }
  | ask (viewport : MapPosition W) (hcall : s.call = some (.lookAtTrack viewport))
    (hcause : s.worker.source.dirty = true ∨
      s.layer.state ≠ .noData ∧ s.layer.lastTile ≠ some viewport.tileIndex) :
    Move s .proceed { s with
      worker := { s.worker with source := s.worker.source.clear }
      layer := s.layer.expect viewport
      call := some (.submit viewport true) }
  | goOn (viewport : MapPosition W) (hcall : s.call = some (.lookAtTrack viewport))
    (hdirty : s.worker.source.dirty = false) (hstate : s.layer.state ≠ .noData)
    (htile : s.layer.lastTile = some viewport.tileIndex) :
    Move s .proceed { s with call := some .poll }
  | submit (viewport : MapPosition W) (isFrame : Bool)
    (hcall : s.call = some (.submit viewport isFrame)) :
    Move s .proceed { s with
      worker := s.worker.submit viewport s.layer.settings s.layer.delay
      call := some (.notify isFrame) }
  | notify (isFrame : Bool) (hcall : s.call = some (.notify isFrame)) :
    Move s .proceed { s with
      worker := s.worker.wake
      call := if isFrame then some .poll else none }
  | pollNothing (hcall : s.call = some .poll) (hdone : s.worker.state.done = none) :
    Move s .proceed { s with worker := s.worker.poll.2, call := none }
  | poll (task : RenderTask W N) (hcall : s.call = some .poll)
    (hdone : s.worker.state.done = some task) :
    Move s .proceed { s with
      worker := s.worker.poll.2
      layer := { s.layer with active := task }.restyle
      call := some (.recycle s.layer.active) }
  | recycle (task : RenderTask W N) (hcall : s.call = some (.recycle task)) :
    Move s .proceed { s with
      worker := s.worker.modifyState (·.recycle task)
      call := some .notifySpare }
  | notifySpare (hcall : s.call = some .notifySpare) :
    Move s .proceed { s with
      worker := s.worker.wake
      layer := { s.layer with state := .geometryFresh }
      call := none }
  | cancel (hcall : s.call = some .cancel) :
    Move s .proceed { s with worker := s.worker.modifyState (·.cancel), call := none }
  | update (track : TrackData W) :
    Move s (.update track) { s with
      worker := { s.worker with source := s.worker.source.swap track }
      updates := s.updates ++ [.mark (s.worker.source.revision + 1)] }
  | mark (i revision : Nat) (hupdate : s.updates[i]? = some (.mark revision)) :
    Move s (.proceedUpdate i) { s with
      worker := { s.worker with source := s.worker.source.mark }
      updates := s.updates.set i (.cancelStale revision) }
  | cancelStale (i revision : Nat) (hupdate : s.updates[i]? = some (.cancelStale revision)) :
    Move s (.proceedUpdate i) { s with
      worker := s.worker.modifyState (·.cancelStale revision)
      updates := s.updates.eraseIdx i }
  | advance : Move s .advance { s with worker := s.worker.advance }
  | wake : Move s .wake { s with worker := s.worker.wake }
  | tick : Move s .tick { s with worker := { s.worker with clock := s.worker.clock + 1 } }

omit [Mercator W] [Resolution W N] in
/-- To lower a flag that is not raised changes nothing. -/
theorem clear_eq_self {source : TrackSource W} (h : source.dirty = false) :
    source.clear = source := by
  cases source
  cases h
  rfl

omit [Mercator W] [Arithmetic N] [Resolution W N] in
/-- A step that only a layer in no call can take. -/
theorem eq_of_isNone {u : LayerSystem W N} (h : (if s.call.isNone then some u else none) = some t) :
    s.call = none ∧ u = t := by
  split at h
  · exact ⟨Option.isNone_iff_eq_none.1 ‹_›, Option.some.inj h⟩
  · cases h

/-- The steps that a frame takes after it looked at the track. -/
theorem move_of_lookAtTrack {viewport : MapPosition W}
    (hcall : s.call = some (.lookAtTrack viewport)) : Move s .proceed s.proceed := by
  rw [proceed, hcall]
  simp only [frameAfterFlag]
  cases hdirty : s.worker.source.dirty with
  | true =>
    -- A layer that had no track has one now, so geometry is asked for.
    have hstate : (if true = true ∧ s.layer.state = .noData then LayerState.pointsSet
        else s.layer.state) ≠ .noData := by
      split
      · exact nofun
      · rename_i hne
        exact fun hnoData => hne ⟨rfl, hnoData⟩
    rw [if_neg hstate, if_pos (.inl rfl)]
    exact .ask viewport hcall (.inl hdirty)
  | false =>
    have hnone : ¬ (false = true ∧ s.layer.state = .noData) := fun h => by cases h.1
    rw [if_neg hnone]
    by_cases hstate : s.layer.state = .noData
    · rw [if_pos hstate, clear_eq_self hdirty]
      exact .endFrame viewport hcall hdirty hstate
    · rw [if_neg hstate]
      by_cases htile : s.layer.lastTile = some viewport.tileIndex
      · have hsame : ¬ (false = true ∨ s.layer.lastTile ≠ some viewport.tileIndex) := by
          simpa using htile
        rw [if_neg hsame, clear_eq_self hdirty]
        exact .goOn viewport hcall hdirty hstate htile
      · rw [if_pos (.inr htile)]
        exact .ask viewport hcall (.inr ⟨hstate, htile⟩)

theorem move_proceed (h : s.call.isSome = true) : Move s .proceed s.proceed := by
  obtain ⟨call, hcall⟩ := Option.isSome_iff_exists.1 h
  cases call with
  | lookAtTrack viewport => exact move_of_lookAtTrack hcall
  | submit viewport isFrame => simpa only [proceed, hcall] using Move.submit viewport isFrame hcall
  | notify isFrame => simpa only [proceed, hcall] using Move.notify isFrame hcall
  | poll =>
    cases hdone : s.worker.state.done with
    | none =>
      simpa [proceed, hcall, Worker.poll, WorkerState.poll, hdone] using
        Move.pollNothing hcall hdone
    | some task =>
      simpa [proceed, hcall, Worker.poll, WorkerState.poll, hdone] using Move.poll task hcall hdone
  | recycle task => simpa only [proceed, hcall] using Move.recycle task hcall
  | notifySpare => simpa only [proceed, hcall] using Move.notifySpare hcall
  | cancel => simpa only [proceed, hcall] using Move.cancel hcall

/-- A change of the configuration that affects the vertices asks for geometry if there is any. -/
theorem move_beginConfig (config : TrackConfig N) (hcall : s.call = none) :
    Move s (.config config true) (s.beginConfig config true) := by
  have hviewport : (s.layer.setConfig config).viewport = s.layer.viewport := rfl
  have hstate : (s.layer.setConfig config).state = s.layer.state := rfl
  simp only [beginConfig, hviewport, hstate, if_true]
  cases hv : s.layer.viewport with
  | none => exact .configure config hcall (.inl hv)
  | some viewport =>
    simp only
    split
    · rename_i hnoData
      exact .configure config hcall (.inr hnoData)
    · rename_i hdata
      exact .askAgain config viewport hcall hv hdata

/-- Every step is one of these moves. -/
theorem move_of_step (h : s.step e = some t) : Move s e t := by
  cases e with
  | frame viewport =>
    obtain ⟨hcall, rfl⟩ := eq_of_isNone h
    cases henabled : s.layer.enabled with
    | true => simpa [beginFrame, henabled] using Move.beginFrame viewport hcall henabled
    | false => simpa [beginFrame, henabled] using Move.ignoreFrame viewport hcall henabled
  | config config verticesAffected =>
    obtain ⟨hcall, rfl⟩ := eq_of_isNone h
    cases verticesAffected with
    | true => exact move_beginConfig config hcall
    | false => exact .restyle config hcall
  | enable enabled =>
    obtain ⟨hcall, rfl⟩ := eq_of_isNone h
    by_cases henabled : s.layer.enabled = enabled
    · simpa [beginEnable, henabled] using Move.keepEnabled hcall
    · simpa [beginEnable, henabled] using Move.toggle enabled hcall henabled
  | proceed =>
    rw [step] at h
    split at h
    · rename_i hcall
      obtain rfl := Option.some.inj h
      exact move_proceed hcall
    · cases h
  | update track =>
    obtain rfl := Option.some.inj h
    exact .update track
  | proceedUpdate i =>
    rw [step] at h
    split at h
    · rename_i hlt
      obtain rfl := Option.some.inj h
      have hupdate : s.updates[i]? = some s.updates[i] := List.getElem?_eq_getElem hlt
      cases hi : s.updates[i] with
      | mark revision =>
        rw [hi] at hupdate
        simpa only [proceedUpdate, hupdate] using Move.mark i revision hupdate
      | cancelStale revision =>
        rw [hi] at hupdate
        simpa only [proceedUpdate, hupdate] using Move.cancelStale i revision hupdate
    · cases h
  | advance =>
    obtain rfl := Option.some.inj h
    exact .advance
  | wake =>
    obtain rfl := Option.some.inj h
    exact .wake
  | tick =>
    obtain rfl := Option.some.inj h
    exact .tick

/-! ## 2. The worker of a layer -/

omit [Mercator W] [Arithmetic N] [Resolution W N] in
/-- What an event does to the worker, apart from the flag of the track source and the redraws, which
no work depends on. -/
def workerEvent? (s : LayerSystem W N) : Event W N → Option (Worker.Event W N)
  | .proceed =>
    match s.call with
    | some (.submit viewport _) => some (.submit viewport s.layer.settings s.layer.delay)
    | some (.notify _) => some .wake
    | some .poll => some .poll
    | some (.recycle task) => some (.recycle task)
    | some .notifySpare => some .wake
    | some .cancel => some .cancel
    | _ => none
  | .update track => some (.swap track)
  | .proceedUpdate i =>
    match s.updates[i]? with
    | some (.mark _) => some .mark
    | some (.cancelStale revision) => some (.cancelStale revision)
    | none => none
  | .advance => some .advance
  | .wake => some .wake
  | .tick => some .tick
  | _ => none

omit [Mercator W] [Arithmetic N] [Resolution W N] in
/-- Whether an event is the request for geometry of the call that the render thread is in. -/
def Asks (s : LayerSystem W N) (e : Event W N) : Prop :=
  e = .proceed ∧ ∃ viewport isFrame, s.call = some (.submit viewport isFrame)

omit [Mercator W] [Arithmetic N] [Resolution W N] in
theorem asks_of_workerEvent? {position : MapPosition W} {settings : BuildSettings N} {delay : Nat}
    (h : s.workerEvent? e = some (.submit position settings delay)) : s.Asks e := by
  unfold workerEvent? at h
  split at h
  · split at h
    · rename_i viewport isFrame hcall
      exact ⟨rfl, viewport, isFrame, hcall⟩
    all_goals cases h
  · cases h
  · split at h <;> cases h
  all_goals cases h

omit [Mercator W] [Arithmetic N] [Resolution W N] in
/-- Only a replacement puts another track in place. -/
theorem eq_update_of_workerEvent? {track : TrackData W}
    (h : s.workerEvent? e = some (.swap track)) : e = .update track := by
  unfold workerEvent? at h
  split at h
  · split at h <;> cases h
  · cases h
    rfl
  · split at h <;> cases h
  all_goals cases h

/-- The worker with another flag and another number of redraws. -/
def withFlags (w : Worker W N) (dirty : Bool) (redraws : Nat) : Worker W N :=
  { w with source := { w.source with dirty }, redraws }

theorem Move.worker (h : Move s e t) :
    ∃ dirty redraws,
      t.worker = withFlags ((s.workerEvent? e).elim s.worker s.worker.step) dirty redraws := by
  cases h with
  | ask viewport hcall => exact ⟨false, s.worker.redraws, by simp only [workerEvent?, hcall]; rfl⟩
  | endFrame viewport hcall | goOn viewport hcall | submit viewport isFrame hcall
  | notify isFrame hcall | pollNothing hcall | poll task hcall | recycle task hcall
  | notifySpare hcall | cancel hcall => exact ⟨_, _, by simp only [workerEvent?, hcall]; rfl⟩
  | mark i revision hupdate | cancelStale i revision hupdate =>
    exact ⟨_, _, by simp only [workerEvent?, hupdate]; rfl⟩
  | ignoreFrame | beginFrame | configure | askAgain | restyle | keepEnabled | toggle | update
  | advance | wake | tick => exact ⟨_, _, rfl⟩

omit [Mercator W] [Arithmetic N] [Resolution W N] in
theorem orderly_withFlags {w : Worker W N} (h : w.Orderly) (dirty : Bool) (redraws : Nat) :
    (withFlags w dirty redraws).Orderly :=
  ⟨h.running_eq, h.job_le, h.job_alone, h.done_alone, h.done_le, h.computation_le, h.givenUp⟩

theorem booked_withFlags {memory : Nat → Array (GeoPoint W)} {past : Worker.Past W N}
    {w : Worker W N} (h : Worker.Booked memory past w) (dirty : Bool) (redraws : Nat) :
    Worker.Booked memory past (withFlags w dirty redraws) :=
  ⟨h.length_tracks, h.track, h.stored, h.builder, h.request, h.job, h.computation, h.done⟩

theorem Move.orderly (h : Move s e t) (ho : s.worker.Orderly) : t.worker.Orderly := by
  obtain ⟨dirty, redraws, hworker⟩ := h.worker
  rw [hworker]
  refine orderly_withFlags ?_ dirty redraws
  cases s.workerEvent? e with
  | none => exact ho
  | some event => exact ho.step event

/-! ## 3. Histories of a layer -/

/-- What happened to a layer, the latest event first. -/
abbrev Past (W N : Type) : Type := List (LayerSystem W N × Event W N)

/-- The events of `past` lead from a layer that was just made to `s`. -/
abbrev HasPast (config : TrackConfig N) (past : Past W N) (s : LayerSystem W N) : Prop :=
  History step (new config) past s

omit [Mercator W] [Arithmetic N] [Resolution W N] in
/-- What happened to the worker of a layer. -/
def workerPast : Past W N → Worker.Past W N
  | [] => []
  | (s, e) :: past =>
    match s.workerEvent? e with
    | some event => (s.worker, event) :: workerPast past
    | none => workerPast past

variable {past : Past W N}

omit [Mercator W] [Arithmetic N] [Resolution W N] in
/-- The last request is that of the last call that asked. -/
theorem latestOrder_workerPast_cons (h : ¬ s.Asks e) :
    Worker.latestOrder (workerPast ((s, e) :: past)) = Worker.latestOrder (workerPast past) := by
  rw [workerPast]
  split
  · rename_i event hevent
    refine Worker.latestOrder_cons fun position settings delay hsubmit => ?_
    rw [hsubmit] at hevent
    exact h (asks_of_workerEvent? hevent)
  · rfl

omit [Mercator W] [Arithmetic N] [Resolution W N] in
theorem getElem?_tracks_workerPast_cons {r : Nat} {track : TrackData W}
    (h : (Worker.tracks (workerPast past))[r]? = some track) :
    (Worker.tracks (workerPast ((s, e) :: past)))[r]? = some track := by
  rw [workerPast]
  split
  · exact Worker.getElem?_tracks_cons h _
  · exact h

variable {config : TrackConfig N} {memory : Nat → Array (GeoPoint W)}

/-- Whatever can be reached has a past. -/
theorem Reachable.hasPast (h : Reachable config s) : ∃ past, HasPast config past s := by
  induction h with
  | new => exact ⟨[], .start⟩
  | step e _ he ih =>
    obtain ⟨past, hpast⟩ := ih
    exact ⟨_, hpast.next e he⟩

/-- What a run leads to has a past. -/
theorem exists_hasPast_of_run {events : List (Event W N)} {P : LayerSystem W N → Prop}
    [DecidablePred P] (h : (events.foldlM step (new config)).any (fun s => P s) = true) :
    ∃ past s, HasPast config past s ∧ past.map Prod.snd = events.reverse ∧ P s := by
  obtain ⟨s, hs, hP⟩ := (Option.any_eq_true _ _).1 h
  obtain ⟨past, hpast, hevents⟩ := History.start.extend hs
  rw [List.append_nil] at hpast
  exact ⟨past, s, hpast, hevents, of_decide_eq_true hP⟩

theorem HasPast.orderly (h : HasPast config past s) : s.worker.Orderly :=
  h.invariant .new fun _ _ _ ho ht => (move_of_step ht).orderly ho

/-- The books of the worker are kept along every history of its layer. -/
theorem HasPast.booked (h : HasPast config past s)
    (hstored : ∀ m track, (m, .update track) ∈ past → track.StoredIn memory) :
    Worker.Booked memory (workerPast past) s.worker := by
  induction h with
  | start => exact .new
  | @next past s t e h he ih =>
    have hbooked := ih fun m track hmem => hstored m track (List.mem_cons_of_mem _ hmem)
    -- The step is one of the worker, or none, but for what the books do not speak of.
    obtain ⟨dirty, redraws, hworker⟩ := (move_of_step he).worker
    rw [hworker]
    refine booked_withFlags ?_ dirty redraws
    rw [workerPast]
    cases hevent : s.workerEvent? e with
    | none => exact hbooked
    | some event =>
      refine hbooked.step (HasPast.orderly h) event fun track hswap => ?_
      rw [hswap] at hevent
      exact hstored s track (by rw [eq_update_of_workerEvent? hevent]; exact List.mem_cons_self)

end LayerSystem

end TourMap
