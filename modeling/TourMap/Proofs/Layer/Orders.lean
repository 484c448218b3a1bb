import TourMap.Proofs.History
import TourMap.Proofs.Layer.Worker

/-!
# Orders: the work in progress is what was asked for

The past of a worker tells which tracks its source held, which request was made last, and whether
that request was answered or withdrawn since. Whatever is queued, computed or published for the
current generation is the answer to it (`Worker.Booked`).
-/

namespace TourMap

/-- What a request asks for. -/
structure Order (W N : Type) where
  position : MapPosition W
  settings : BuildSettings N

namespace Worker

variable {W N : Type}

/-! ## 1. What the past tells -/

/-- What happened to a worker, the latest event first. -/
abbrev Past (W N : Type) : Type := List (Worker W N × Event W N)

def latestOrder : Past W N → Option (Order W N)
  | [] => none
  | (_, .submit position settings _) :: _ => some ⟨position, settings⟩
  | _ :: past => latestOrder past

/-- The request that was made last, if no task was polled and nothing was cancelled since. -/
def openOrder : Past W N → Option (Order W N)
  | [] => none
  | (_, .submit position settings _) :: _ => some ⟨position, settings⟩
  | (_, .cancel) :: _ => none
  | (w, .poll) :: past => if w.state.done = none then openOrder past else none
  | _ :: past => openOrder past

/-- The tracks of the source, that of revision `r` at the index `r`. -/
def tracks : Past W N → List (TrackData W)
  | [] => [.empty]
  | (_, .swap track) :: past => tracks past ++ [track]
  | _ :: past => tracks past

/-- Whether an event neither makes, answers nor withdraws a request. -/
def Leaves (w : Worker W N) : Event W N → Prop
  | .submit .. => False
  | .cancel => False
  | .poll => w.state.done = none
  | _ => True

/-- No other event makes a request. -/
theorem latestOrder_cons {past : Past W N} {w : Worker W N} {e : Event W N}
    (h : ∀ position settings delay, e ≠ .submit position settings delay) :
    latestOrder ((w, e) :: past) = latestOrder past := by
  cases e with
  | submit position settings delay => exact (h position settings delay rfl).elim
  | advance | wake | tick | mark | swap | cancel | cancelStale | poll | recycle => rfl

/-- An open request was just made, or was open before and is left alone. -/
theorem openOrder_cons {past : Past W N} {w : Worker W N} {e : Event W N} {o : Order W N}
    (h : openOrder ((w, e) :: past) = some o) :
    (∃ delay, e = .submit o.position o.settings delay) ∨ w.Leaves e ∧ openOrder past = some o := by
  cases e with
  | submit position settings delay =>
    cases h
    exact .inl ⟨delay, rfl⟩
  | cancel => cases h
  | poll =>
    -- A poll answers the request only if a task is published.
    rw [openOrder] at h
    split at h
    · rename_i hdone
      exact .inr ⟨hdone, h⟩
    · cases h
  | advance | wake | tick | swap | mark | cancelStale | recycle => exact .inr ⟨trivial, h⟩

/-- An open request was made at some moment, and nothing befell it since. -/
theorem openOrder_eq_some {past : Past W N} {o : Order W N} (h : openOrder past = some o) :
    ∃ recent older v delay, past = recent ++ (v, .submit o.position o.settings delay) :: older ∧
      ∀ u e, (u, e) ∈ recent → u.Leaves e := by
  induction past with
  | nil => cases h
  | cons p past ih =>
    rcases openOrder_cons h with ⟨delay, hsubmit⟩ | ⟨hleaves, hopen⟩
    · exact ⟨[], past, p.1, delay, by rw [← hsubmit, List.nil_append], fun u e hmem => by cases hmem⟩
    · obtain ⟨recent, older, v, delay, rfl, hrecent⟩ := ih hopen
      refine ⟨p :: recent, older, v, delay, rfl, ?_⟩
      intro u e hmem
      rcases List.mem_cons.1 hmem with rfl | hmem
      · exact hleaves
      · exact hrecent u e hmem

/-- An open request is the last one that was made. -/
theorem latestOrder_of_openOrder {past : Past W N} {o : Order W N} (h : openOrder past = some o) :
    latestOrder past = some o := by
  induction past with
  | nil => cases h
  | cons p past ih =>
    obtain ⟨w, e⟩ := p
    rcases openOrder_cons h with ⟨delay, rfl⟩ | ⟨hleaves, hopen⟩
    · rfl
    · rw [latestOrder_cons, ih hopen]
      rintro position settings delay rfl
      exact hleaves

/-- A track keeps its revision. -/
theorem getElem?_tracks_cons {past : Past W N} {r : Nat} {track : TrackData W}
    (h : (tracks past)[r]? = some track) (p : Worker W N × Event W N) :
    (tracks (p :: past))[r]? = some track := by
  obtain ⟨w, e⟩ := p
  cases e with
  | swap other =>
    obtain ⟨hlt, rfl⟩ := List.getElem?_eq_some_iff.1 h
    rw [tracks, List.getElem?_append_left hlt, List.getElem?_eq_getElem hlt]
  | advance | wake | tick | mark | submit | cancel | cancelStale | poll | recycle => exact h

/-! ## 2. The books -/

variable [Mercator W] [Arithmetic N] [Resolution W N] {memory : Nat → Array (GeoPoint W)}
  {past : Past W N} {w : Worker W N}

/-- Whether the work in progress is the answer to the open request, computed from the tracks of the
past. -/
structure Booked (memory : Nat → Array (GeoPoint W)) (past : Past W N) (w : Worker W N) : Prop where
  length_tracks : (tracks past).length = w.source.revision + 1
  track : (tracks past)[w.source.revision]? = some w.source.track
  stored : ∀ t ∈ tracks past, t.StoredIn memory
  builder : w.builder.Remembers memory
  request : ∀ r, w.state.request = some r → openOrder past = some ⟨r.position, r.settings⟩
  job : ∀ job, w.phase.job? = some job → job.generation = w.state.generation →
    openOrder past = some ⟨job.request.position, job.request.settings⟩
  computation : ∀ c, w.phase.computation? = some c → (tracks past)[c.revision]? = some c.track
  done : ∀ task, w.state.done = some task → ∃ settings track,
    openOrder past = some ⟨task.position, settings⟩ ∧
      (tracks past)[task.revision]? = some track ∧
      task.buckets = Builder.geometry track task.position settings

namespace Booked

theorem new : Booked memory [] (Worker.new : Worker W N) where
  length_tracks := rfl
  track := rfl
  stored t ht := .inl (by rw [List.mem_singleton.1 ht]; rfl)
  builder := Builder.remembers_new
  request _ h := by cases h
  job _ h := by cases h
  computation _ h := by cases h
  done _ h := by cases h

/-- A build of a track of the past leaves a true projection behind. -/
theorem remembers_build (h : Booked memory past w) {r : Nat} {track : TrackData W}
    (htrack : (tracks past)[r]? = some track) {position : MapPosition W}
    {settings : BuildSettings N} {buckets buckets' : RenderBuckets N} {cancelledAt : Option Nat}
    {builder : Builder W} {result : Except Cancelled BuildStats}
    (hbuild : w.builder.build track position settings buckets cancelledAt =
      (builder, buckets', result)) : builder.Remembers memory := by
  have hstored := h.stored _ (List.mem_of_getElem? htrack)
  have hbuilder : (w.builder.build track position settings buckets cancelledAt).1 = builder := by
    rw [hbuild]
  rw [← hbuilder]
  exact Builder.remembers_build h.builder hstored

/-- Without a job only the projection at hand has to be looked at. -/
theorem of_job?_eq_none {t : Worker W N} (h : Booked memory past w) (hsource : t.source = w.source)
    (hbuilder : t.builder.Remembers memory) (hrequest : t.state.request = w.state.request)
    (hdone : t.state.done = w.state.done) (hphase : t.phase.job? = none) :
    Booked memory past t where
  length_tracks := by rw [hsource, h.length_tracks]
  track := by rw [hsource, h.track]
  stored := h.stored
  builder := hbuilder
  request := by rw [hrequest]; exact h.request
  job job hjob := by rw [hphase] at hjob; cases hjob
  computation c hc := by
    have hjob := Phase.job?_of_computation? hc
    rw [hphase] at hjob
    cases hjob
  done := by rw [hdone]; exact h.done

theorem wake (h : Booked memory past w) : Booked memory past w.wake := by
  rw [Worker.wake]
  split
  · exact h.of_job?_eq_none rfl h.builder rfl rfl rfl
  · exact h

/-- What a step of the thread publishes is the complete geometry of the track that it read. -/
theorem advance {t : Worker W N} (h : Booked memory past w) (ho : w.Orderly) (ht : Advance w t) :
    Booked memory past t := by
  have hjob := h.job
  have hcomputation := h.computation
  cases ht with
  | rest timed hphase => exact h
  | pause | doze | announce => exact h.of_job?_eq_none rfl h.builder rfl rfl rfl
  | take request task hphase hrequest hspare =>
    refine { h with
      request := (fun _ hr => by cases hr)
      job := fun _ hj _ => ?_
      computation := (fun _ hc => by cases hc) }
    cases hj
    exact h.request request hrequest
  | read job hphase =>
    simp only [hphase, Phase.job?] at hjob
    refine { h with job := hjob, computation := fun _ hc => ?_ }
    cases hc
    exact h.track
  | giveUp c looks hphase hlooks hcancelled =>
    simp only [hphase, Phase.job?, Phase.computation?] at hjob hcomputation
    exact { h with job := hjob, computation := hcomputation }
  | look c looks hphase hlooks hcancelled =>
    simp only [hphase, Phase.job?, Phase.computation?] at hjob hcomputation
    exact { h with job := hjob, computation := hcomputation }
  | complete c looks hphase hlooks =>
    simp only [hphase, Phase.job?, Phase.computation?] at hjob hcomputation
    exact { h with job := hjob, computation := hcomputation }
  | publish c cancelledAt builder buckets stats hphase hbuild hcurrent =>
    obtain ⟨hcancelled, hgeneration, hrevision⟩ := hcurrent
    -- A computation that gave up has a cancelled token, and would not be current.
    have hcomplete : cancelledAt = none := by
      cases cancelledAt with
      | none => rfl
      | some k =>
        have hrevoked := (ho.givenUp c k hphase).2
        rw [hcancelled] at hrevoked
        cases hrevoked
    subst hcomplete
    -- What is built of a stored track is its geometry, whatever was built before.
    have htrack := hcomputation c (by rw [hphase]; rfl)
    have hstored := h.stored _ (List.mem_of_getElem? htrack)
    have horder := hjob c.job (by rw [hphase]; rfl) hgeneration.symm
    have hremembers := h.remembers_build htrack hbuild
    obtain ⟨built, hbuilt⟩ : ∃ stats, (w.builder.build c.track c.job.request.position
        c.job.request.settings c.job.task.buckets none).2 =
          (Builder.geometry c.track c.job.request.position c.job.request.settings, .ok stats) :=
      Builder.build_none h.builder hstored
    rw [hbuild] at hbuilt
    refine { h with
      builder := hremembers
      job := (fun _ hj => by cases hj)
      computation := (fun _ hc => by cases hc)
      done := fun _ htask => ?_ }
    cases htask
    exact ⟨c.job.request.settings, c.track, horder, htrack, (Prod.mk.inj hbuilt).1⟩
  | discard c cancelledAt builder buckets stats hphase hbuild houtdated =>
    have htrack := hcomputation c (by rw [hphase]; rfl)
    exact h.of_job?_eq_none rfl (h.remembers_build htrack hbuild) rfl rfl rfl
  | abort c cancelledAt builder buckets hphase hbuild =>
    have htrack := hcomputation c (by rw [hphase]; rfl)
    exact h.of_job?_eq_none rfl (h.remembers_build htrack hbuild) rfl rfl rfl

/-- Every event keeps the books, if the tracks that it puts in place are stored. -/
theorem step (h : Booked memory past w) (ho : w.Orderly) (e : Event W N)
    (hstored : ∀ track, e = .swap track → track.StoredIn memory) :
    Booked memory ((w, e) :: past) (w.step e) := by
  cases e with
  | advance => exact { h.advance ho (advance_advance w) with }
  | wake => exact { h.wake with }
  | tick => exact { h with }
  | swap track =>
    refine { h with length_tracks := ?_, track := ?_, stored := ?_, computation := ?_, done := ?_ }
    · rw [tracks, List.length_append, h.length_tracks]
      rfl
    · -- The new track comes to stand at the index of its revision.
      change (tracks past ++ [track])[w.source.revision + 1]? = some track
      rw [← h.length_tracks, List.getElem?_concat_length]
    · intro t ht
      rcases List.mem_append.1 ht with ht | ht
      · exact h.stored t ht
      · exact hstored t (by rw [List.mem_singleton.1 ht])
    · intro c hc
      exact getElem?_tracks_cons (h.computation c hc) _
    · intro task htask
      obtain ⟨settings, t, horder, ht, hbuckets⟩ := h.done task htask
      exact ⟨settings, t, horder, getElem?_tracks_cons ht _, hbuckets⟩
  | mark => exact { h with }
  | submit position settings delay =>
    refine { h with request := ?_, job := ?_, done := ?_ }
    · intro r hr
      cases hr
      rfl
    · -- A job in progress is of an earlier generation now.
      intro job hjob hgeneration
      have hle := ho.job_le job hjob
      simp only [Worker.step, Worker.submit, modifyState, WorkerState.submit_generation]
        at hgeneration
      omega
    · intro task htask
      simp [Worker.step, Worker.submit, modifyState] at htask
  | cancel =>
    refine { h with request := ?_, job := ?_, done := ?_ }
    · intro r hr
      simp [Worker.step, modifyState] at hr
    · intro job hjob hgeneration
      have hle := ho.job_le job hjob
      simp only [Worker.step, modifyState, WorkerState.cancel_generation] at hgeneration
      omega
    · intro task htask
      simp [Worker.step, modifyState] at htask
  | cancelStale r =>
    refine { h with request := ?_, job := ?_, done := ?_ }
    · intro request hr
      exact h.request request (by simpa [Worker.step, modifyState] using hr)
    · intro job hjob hgeneration
      exact h.job job hjob (by simpa [Worker.step, modifyState] using hgeneration)
    · intro task htask
      exact h.done task (w.state.cancelStale_done.1 htask).1
  | poll =>
    by_cases hdone : w.state.done = none
    · -- A poll that finds nothing leaves the request open.
      have horder : openOrder ((w, .poll) :: past) = openOrder past := by rw [openOrder, if_pos hdone]
      refine { h with request := ?_, job := ?_, done := (fun _ htask => by cases htask) }
      · intro r hr
        rw [horder]
        exact h.request r hr
      · intro job hjob hgeneration
        rw [horder]
        exact h.job job hjob hgeneration
    · -- Beside a published task there is neither a request nor a job.
      obtain ⟨hrequest, hrunning, -⟩ := ho.done_alone hdone
      refine { h with request := ?_, job := ?_, done := (fun _ htask => by cases htask) }
      · intro r hr
        change w.state.request = some r at hr
        rw [hrequest] at hr
        cases hr
      · intro job hjob
        change w.phase.job? = some job at hjob
        rw [ho.running_eq, hjob] at hrunning
        cases hrunning
  | recycle task => exact { h with }

end Booked

/-! ## 3. Histories of a worker -/

/-- The events of `past` lead from the worker that was just started to `w`. -/
abbrev HasPast (past : Past W N) (w : Worker W N) : Prop :=
  History (fun w e => some (step w e)) new past w

theorem HasPast.orderly (h : HasPast past w) : w.Orderly :=
  h.invariant .new fun _ e _ ho he => Option.some.inj he ▸ ho.step e

/-- The books are kept along every history. -/
theorem HasPast.booked (h : HasPast past w)
    (hstored : ∀ v track, (v, .swap track) ∈ past → track.StoredIn memory) :
    Booked memory past w := by
  induction h with
  | start => exact .new
  | @next past w t e h he ih =>
    obtain rfl := Option.some.inj he
    have hbooked := ih fun v track hmem => hstored v track (List.mem_cons_of_mem _ hmem)
    refine hbooked.step (HasPast.orderly h) e ?_
    intro track heq
    exact hstored w track (by rw [heq]; exact List.mem_cons_self)

/-- Anything can happen to a worker at any time. -/
theorem HasPast.ofEvents (events : List (Event W N)) :
    ∃ past, HasPast past (events.foldl step new) ∧ past.map Prod.snd = events.reverse := by
  have htotal (w : Worker W N) :
      events.foldlM (fun w e => some (step w e)) w = some (events.foldl step w) := by
    induction events generalizing w with
    | nil => rfl
    | cons e events ih => exact ih (w.step e)
  obtain ⟨past, hpast, hevents⟩ := History.start.extend (htotal new)
  rw [List.append_nil] at hpast
  exact ⟨past, hpast, hevents⟩

end Worker

end TourMap
