import TourMap.Proofs.Layer.Worker

/-!
# Progress: work that will be published

A worker is `Busy` with a request until its task is polled, unless the token was cancelled; what it
computes for the current generation is of the current track as long as the track was not replaced
since the request (`Timely`); and once its task was polled it is `Idle`.
-/

namespace TourMap.Worker

variable {W N : Type} {w : Worker W N}

/-! ## 1. Timely work -/

/-- Whether the work of the current generation is on the current track. -/
structure Timely (w : Worker W N) : Prop where
  done : ∀ task, w.state.done = some task → task.revision = w.source.revision
  computation : ∀ c, w.phase.computation? = some c → c.job.generation = w.state.generation →
    c.revision = w.source.revision

theorem timely_new [Arithmetic W] : (new : Worker W N).Timely where
  done _ htask := by cases htask
  computation _ hc := by cases hc

/-- No work of a new generation has begun. -/
theorem Orderly.timely_submit (h : w.Orderly) (position : MapPosition W)
    (settings : BuildSettings N) (delay : Nat) : (w.submit position settings delay).Timely where
  done task htask := by simp [Worker.submit, modifyState] at htask
  computation c hc hgeneration := by
    have hle := h.job_le c.job (Phase.job?_of_computation? hc)
    simp only [Worker.submit, modifyState, WorkerState.submit_generation] at hgeneration
    omega

theorem Orderly.timely_cancel (h : w.Orderly) : (w.modifyState (·.cancel)).Timely where
  done task htask := by simp [modifyState] at htask
  computation c hc hgeneration := by
    have hle := h.job_le c.job (Phase.job?_of_computation? hc)
    simp only [modifyState, WorkerState.cancel_generation] at hgeneration
    omega

namespace Timely

theorem wake (h : w.Timely) : w.wake.Timely := by
  rw [Worker.wake]
  split
  · exact ⟨h.done, fun _ hc => by cases hc⟩
  · exact h

theorem cancelStale (h : w.Timely) (r : Nat) : (w.modifyState (·.cancelStale r)).Timely where
  done task htask := h.done task (w.state.cancelStale_done.1 htask).1
  computation c hc hgeneration :=
    h.computation c hc (by simpa [modifyState] using hgeneration)

theorem poll (h : w.Timely) : w.poll.2.Timely where
  done _ htask := by cases htask
  computation := h.computation

variable [Mercator W] [Arithmetic N] [Resolution W N] {t : Worker W N}

theorem advance (h : w.Timely) (ht : Advance w t) : t.Timely := by
  have hcomputation := h.computation
  cases ht with
  | rest timed hphase => exact h
  | pause | doze | take | discard | abort | announce => exact ⟨h.done, fun _ hc => by cases hc⟩
  | read job hphase =>
    refine ⟨h.done, fun c hc _ => ?_⟩
    cases hc
    rfl
  | giveUp c looks hphase | look c looks hphase | complete c looks hphase =>
    simp only [hphase, Phase.computation?] at hcomputation
    exact ⟨h.done, hcomputation⟩
  | publish c cancelledAt builder buckets stats hphase hbuild hcurrent =>
    refine ⟨fun task htask => ?_, fun _ hc => by cases hc⟩
    cases htask
    exact hcurrent.2.2.symm

end Timely

/-! ## 2. Work in progress -/

/-- Whether a job of the current generation is in progress. -/
def HasJob (w : Worker W N) : Prop :=
  ∃ job, w.phase.job? = some job ∧ job.generation = w.state.generation

/-- Whether the worker is at work for the current generation, or was when its token was
cancelled. -/
def Busy (w : Worker W N) : Prop :=
  w.state.cancelled = true ∨ w.state.request ≠ none ∨ w.state.done ≠ none ∨ w.HasJob

theorem busy_submit (w : Worker W N) (position : MapPosition W) (settings : BuildSettings N)
    (delay : Nat) : (w.submit position settings delay).Busy :=
  .inr (.inl (by simp [Worker.submit, modifyState]))

namespace Busy

theorem wake (h : w.Busy) : w.wake.Busy := by
  simpa only [Busy, HasJob, wake_state, wake_phase_job?] using h

/-- A published task stays if it is of the current track. -/
theorem cancelStale (h : w.Busy) (ht : w.Timely) {r : Nat} (hr : r ≤ w.source.revision) :
    (w.modifyState (·.cancelStale r)).Busy := by
  rcases h with hcancelled | hrequest | hdone | hjob
  · exact .inl (by simp [modifyState, hcancelled])
  · exact .inr (.inl (by simpa [modifyState] using hrequest))
  · obtain ⟨task, htask⟩ := Option.ne_none_iff_exists'.1 hdone
    have hle : r ≤ task.revision := by rw [ht.done task htask]; exact hr
    have hstays := w.state.cancelStale_done.2 ⟨htask, hle⟩
    exact .inr (.inr (.inl (by simp [modifyState, hstays])))
  · exact .inr (.inr (.inr (by simpa [HasJob, modifyState] using hjob)))

theorem poll (h : w.Busy) (hdone : w.state.done = none) : w.poll.2.Busy := by
  rcases h with hcancelled | hrequest | hne | hjob
  · exact .inl hcancelled
  · exact .inr (.inl hrequest)
  · exact (hne hdone).elim
  · exact .inr (.inr (.inr hjob))

variable [Mercator W] [Arithmetic N] [Resolution W N] {t : Worker W N}

omit [Mercator W] [Arithmetic N] [Resolution W N] in
theorem of_phase {phase : Phase W N} {redraws : Nat} (h : w.Busy)
    (hjob : ∀ job, w.phase.job? = some job → phase.job? = some job) :
    ({ w with phase, redraws } : Worker W N).Busy := by
  rcases h with hcancelled | hrequest | hdone | ⟨job, hphase, hgeneration⟩
  · exact .inl hcancelled
  · exact .inr (.inl hrequest)
  · exact .inr (.inr (.inl hdone))
  · exact .inr (.inr (.inr ⟨job, hjob job hphase, hgeneration⟩))

omit [Mercator W] [Arithmetic N] [Resolution W N] in
/-- If only a cancelled job can end like this, there still is work after it. -/
theorem of_end {c : Computation W N} {cancelledAt : Option Nat} (h : w.Busy)
    (hphase : w.phase = .finishing c cancelledAt)
    (hcancelled : c.job.generation = w.state.generation → w.state.cancelled = true) :
    w.state.cancelled = true ∨ w.state.request ≠ none ∨ w.state.done ≠ none := by
  rcases h with h | h | h | ⟨job, hjob, hgeneration⟩
  · exact .inl h
  · exact .inr (.inl h)
  · exact .inr (.inr h)
  · rw [hphase] at hjob
    cases hjob
    exact .inl (hcancelled hgeneration)

/-- A job of the current generation that ends without a task published has a cancelled token. -/
theorem advance (h : w.Busy) (ho : w.Orderly) (ht : w.Timely) (hadvance : Advance w t) :
    t.Busy := by
  cases hadvance with
  | rest timed hphase => exact h
  | pause hphase | doze request task hphase | announce hphase =>
    refine h.of_phase fun job hjob => ?_
    rw [hphase] at hjob
    cases hjob
  | take request task hphase hrequest hspare => exact .inr (.inr (.inr ⟨_, rfl, rfl⟩))
  | read job hphase | giveUp c looks hphase | look c looks hphase | complete c looks hphase =>
    refine h.of_phase fun job hjob => ?_
    rw [hphase] at hjob
    exact hjob
  | publish c cancelledAt builder buckets stats hphase hbuild hcurrent =>
    exact .inr (.inr (.inl (Option.some_ne_none _)))
  | discard c cancelledAt builder buckets stats hphase hbuild houtdated =>
    -- A current computation would have been published.
    have hend := h.of_end hphase fun hgeneration => by
      cases hcancelled : w.state.cancelled with
      | true => rfl
      | false =>
        refine (houtdated ⟨?_, hgeneration.symm, ?_⟩).elim
        · rw [hgeneration, WorkerState.isCancelled_generation, hcancelled]
        · exact (ht.computation c (by rw [hphase]; rfl) hgeneration).symm
    exact hend.imp_right fun h => h.imp_right .inl
  | abort c cancelledAt builder buckets hphase hbuild =>
    have hend := h.of_end hphase fun hgeneration => by
      cases cancelledAt with
      | none =>
        -- A build breaks off only if it finds its token cancelled.
        obtain ⟨stats, hstats⟩ := w.builder.build_complete c.track c.job.request.position
          c.job.request.settings c.job.task.buckets
        rw [hbuild] at hstats
        cases hstats
      | some k =>
        have hcancelled := (ho.givenUp c k hphase).2
        rwa [hgeneration, WorkerState.isCancelled_generation] at hcancelled
    exact hend.imp_right fun h => h.imp_right .inl

end Busy

/-! ## 3. No work at all -/

/-- Whether there is nothing to do and nothing to hand out. -/
structure Idle (w : Worker W N) : Prop where
  request : w.state.request = none
  done : w.state.done = none
  job : w.phase.job? = none

/-- A published task is the last thing that there is. -/
theorem Orderly.idle_poll (h : w.Orderly) (hdone : w.state.done ≠ none) : w.poll.2.Idle := by
  obtain ⟨hrequest, hrunning, -⟩ := h.done_alone hdone
  rw [h.running_eq, Option.isSome_eq_false_iff, Option.isNone_iff_eq_none] at hrunning
  exact ⟨hrequest, rfl, hrunning⟩

namespace Idle

theorem wake (h : w.Idle) : w.wake.Idle :=
  ⟨by rw [wake_state, h.request], by rw [wake_state, h.done], by rw [wake_phase_job?, h.job]⟩

theorem cancelStale (h : w.Idle) (r : Nat) : (w.modifyState (·.cancelStale r)).Idle where
  request := by simpa [modifyState] using h.request
  done := by
    refine Option.eq_none_iff_forall_ne_some.2 fun task htask => ?_
    have hdone := (w.state.cancelStale_done.1 htask).1
    rw [h.done] at hdone
    cases hdone
  job := h.job

variable [Mercator W] [Arithmetic N] [Resolution W N] {t : Worker W N}

theorem advance (h : w.Idle) (ht : Advance w t) : t.Idle := by
  have hjob := h.job
  cases ht with
  | rest timed hphase => exact h
  | pause | doze | announce => exact ⟨h.request, h.done, rfl⟩
  | take request task hphase hrequest hspare =>
    rw [h.request] at hrequest
    cases hrequest
  -- There is no job that could go on.
  | read job hphase | giveUp c looks hphase | look c looks hphase | complete c looks hphase
  | publish c cancelledAt builder buckets stats hphase
  | discard c cancelledAt builder buckets stats hphase
  | abort c cancelledAt builder buckets hphase =>
    rw [hphase] at hjob
    cases hjob

end Idle

end TourMap.Worker
