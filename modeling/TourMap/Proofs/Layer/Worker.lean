import TourMap.Layer.Worker
import TourMap.Proofs.Builder
import TourMap.Proofs.Layer.WorkerState

/-!
# Worker: which work is current

What a step of the thread can do (`Worker.Advance`), and the invariant that keeps queued, running
and published work apart (`Worker.Orderly`): at most one of them belongs to the current generation,
and a published task has nothing else beside it.
-/

namespace TourMap

/-! ## 1. The job in progress -/

namespace Phase

variable {W N : Type}

def job? : Phase W N → Option (Job W N)
  | .starting job => some job
  | .building c _ => some c.job
  | .finishing c _ => some c.job
  | _ => none

/-- The computation that the thread is at, once it has read the track. -/
def computation? : Phase W N → Option (Computation W N)
  | .building c _ => some c
  | .finishing c _ => some c
  | _ => none

theorem job?_of_computation? {p : Phase W N} {c : Computation W N} (h : p.computation? = some c) :
    p.job? = some c.job := by
  cases p <;> simp_all [job?, computation?]

end Phase

namespace Worker

variable {W N : Type}

theorem wake_phase_job? (w : Worker W N) : w.wake.phase.job? = w.phase.job? := by
  unfold wake
  split
  · rename_i h
    rw [h]
    rfl
  · rfl

theorem wake_source (w : Worker W N) : w.wake.source = w.source := by
  unfold wake
  split <;> rfl

theorem wake_state (w : Worker W N) : w.wake.state = w.state := by
  unfold wake
  split <;> rfl

/-! ## 2. Revoked generations -/

/-- Whether the token of a generation that there was is cancelled. -/
def Revoked (w : Worker W N) (g : Nat) : Prop :=
  g ≤ w.state.generation ∧ w.state.isCancelled g = true

theorem revoked_iff {w : Worker W N} {g : Nat} :
    w.Revoked g ↔ g < w.state.generation ∨ g = w.state.generation ∧ w.state.cancelled = true := by
  simp only [Revoked, WorkerState.isCancelled, Bool.or_eq_true, decide_eq_true_eq]
  by_cases hcancelled : w.state.cancelled = true
  · simp only [hcancelled, or_true, and_true]
    omega
  · simp only [hcancelled, Bool.false_eq_true, or_false, and_false]
    omega

theorem revoked_of_lt {w : Worker W N} {g : Nat} (h : g < w.state.generation) : w.Revoked g :=
  revoked_iff.2 (.inl h)

/-! ## 3. Order -/

/-- What always holds of the work in progress. -/
structure Orderly (w : Worker W N) : Prop where
  running_eq : w.state.running = w.phase.job?.isSome
  job_le : ∀ job, w.phase.job? = some job → job.generation ≤ w.state.generation
  job_alone : ∀ job, w.phase.job? = some job → job.generation = w.state.generation →
    w.state.request = none
  done_alone : w.state.done ≠ none →
    w.state.request = none ∧ w.state.running = false ∧ w.state.cancelled = false
  done_le : ∀ task, w.state.done = some task → task.revision ≤ w.source.revision
  computation_le : ∀ c, w.phase.computation? = some c → c.revision ≤ w.source.revision
  givenUp : ∀ c k, w.phase = .finishing c (some k) → w.Revoked c.job.generation

namespace Orderly

variable {w : Worker W N}

/-- While a job is in progress no task is published. -/
theorem done_eq_none (h : w.Orderly) (hjob : w.phase.job? ≠ none) : w.state.done = none := by
  refine Classical.byContradiction fun hne => hjob ?_
  have hrunning := (h.done_alone hne).2.1
  rwa [h.running_eq, Option.isSome_eq_false_iff, Option.isNone_iff_eq_none] at hrunning

/-- Without a job only the published task has to be looked at. -/
theorem of_job?_eq_none (hphase : w.phase.job? = none) (hrunning : w.state.running = false)
    (hdone : w.state.done ≠ none → w.state.request = none ∧ w.state.cancelled = false)
    (hle : ∀ task, w.state.done = some task → task.revision ≤ w.source.revision) :
    w.Orderly where
  running_eq := by rw [hphase, hrunning]; rfl
  job_le job hjob := by rw [hphase] at hjob; cases hjob
  job_alone job hjob := by rw [hphase] at hjob; cases hjob
  done_alone hne := ⟨(hdone hne).1, hrunning, (hdone hne).2⟩
  done_le := hle
  computation_le c hc := by
    have hjob := Phase.job?_of_computation? hc
    rw [hphase] at hjob
    cases hjob
  givenUp c k hc := by rw [hc] at hphase; cases hphase

theorem new [Arithmetic W] : (Worker.new : Worker W N).Orderly :=
  of_job?_eq_none rfl rfl (fun hne => (hne rfl).elim) (fun _ htask => by cases htask)

/-- As long as no task is published and no job taken, the thread may go on to wait or to look. -/
theorem of_phase {phase : Phase W N} {builder : Builder W} {redraws : Nat} (h : w.Orderly)
    (hold : w.phase.job? = none) (hnew : phase.job? = none) :
    ({ w with phase, builder, redraws } : Worker W N).Orderly :=
  of_job?_eq_none hnew (by rw [h.running_eq, hold]; rfl)
    (fun hne => ⟨(h.done_alone hne).1, (h.done_alone hne).2.2⟩) h.done_le

theorem wake (h : w.Orderly) : w.wake.Orderly := by
  unfold Worker.wake
  split
  · rename_i hphase
    exact h.of_phase (by rw [hphase]; rfl) rfl
  · exact h

/-- A new generation leaves no task published, and a job in progress is not of it. -/
theorem submit (h : w.Orderly) (position : MapPosition W) (settings : BuildSettings N)
    (delay : Nat) : (w.submit position settings delay).Orderly := by
  refine ⟨?_, ?_, ?_, ?_, ?_, h.computation_le, ?_⟩
  · simpa [Worker.submit, modifyState] using h.running_eq
  · intro job hjob
    simpa [Worker.submit, modifyState] using Nat.le_succ_of_le (h.job_le job hjob)
  · -- A job in progress is of an earlier generation now.
    intro job hjob hgeneration
    have hle := h.job_le job hjob
    simp only [Worker.submit, modifyState, WorkerState.submit_generation] at hgeneration
    omega
  · simp [Worker.submit, modifyState]
  · simp [Worker.submit, modifyState]
  · intro c k hphase
    refine revoked_of_lt ?_
    simpa [Worker.submit, modifyState] using Nat.lt_succ_of_le (h.givenUp c k hphase).1

theorem cancel (h : w.Orderly) : (w.modifyState (·.cancel)).Orderly := by
  refine ⟨?_, ?_, ?_, ?_, ?_, h.computation_le, ?_⟩
  · simpa [modifyState] using h.running_eq
  · intro job hjob
    simpa [modifyState] using Nat.le_succ_of_le (h.job_le job hjob)
  · intro job hjob hgeneration
    simp [modifyState]
  · simp [modifyState]
  · simp [modifyState]
  · intro c k hphase
    refine revoked_of_lt ?_
    simpa [modifyState] using Nat.lt_succ_of_le (h.givenUp c k hphase).1

theorem cancelStale (h : w.Orderly) (r : Nat) : (w.modifyState (·.cancelStale r)).Orderly := by
  refine ⟨?_, ?_, ?_, ?_, ?_, h.computation_le, ?_⟩
  · simpa [modifyState] using h.running_eq
  · simpa [modifyState] using h.job_le
  · simpa [modifyState] using h.job_alone
  · -- A task that stays was published, so nothing runs whose token could be cancelled.
    intro hne
    obtain ⟨task, htask⟩ := Option.ne_none_iff_exists'.1 hne
    have hdone := h.done_alone (by rw [(w.state.cancelStale_done.1 htask).1]; simp)
    simpa [modifyState, hdone.2.1] using hdone
  · intro task htask
    exact h.done_le task (w.state.cancelStale_done.1 htask).1
  · intro c k hphase
    have hrevoked := revoked_iff.1 (h.givenUp c k hphase)
    exact revoked_iff.2 (by simpa [modifyState] using hrevoked.imp_right fun h => ⟨h.1, .inr h.2⟩)

theorem poll (h : w.Orderly) : w.poll.2.Orderly where
  running_eq := h.running_eq
  job_le := h.job_le
  job_alone := h.job_alone
  done_alone hne := (hne rfl).elim
  done_le _ htask := by cases htask
  computation_le := h.computation_le
  givenUp := h.givenUp

theorem recycle (h : w.Orderly) (task : RenderTask W N) :
    (w.modifyState (·.recycle task)).Orderly :=
  ⟨h.running_eq, h.job_le, h.job_alone, h.done_alone, h.done_le, h.computation_le, h.givenUp⟩

/-- Another track gets a greater revision. -/
theorem swap (h : w.Orderly) (track : TrackData W) :
    ({ w with source := w.source.swap track } : Worker W N).Orderly where
  running_eq := h.running_eq
  job_le := h.job_le
  job_alone := h.job_alone
  done_alone := h.done_alone
  done_le task htask := Nat.le_succ_of_le (h.done_le task htask)
  computation_le c hc := Nat.le_succ_of_le (h.computation_le c hc)
  givenUp := h.givenUp

end Orderly

/-! ## 4. Steps of the thread -/

variable [Mercator W] [Arithmetic N] [Resolution W N]

/-- Whether a computation is that of the current generation and track, and not cancelled. -/
def IsCurrent (w : Worker W N) (c : Computation W N) : Prop :=
  w.state.isCancelled c.job.generation = false ∧ w.state.generation = c.job.generation ∧
    w.source.revision = c.revision

/-- What a step of the thread makes of a worker. -/
inductive Advance (w : Worker W N) : Worker W N → Prop where
  | rest (timed : Bool) (hphase : w.phase = .waiting timed) : Advance w w
  | pause (hphase : w.phase = .looking)
    (hnothing : w.state.request = none ∨ w.state.spare = none) :
    Advance w { w with phase := .waiting false }
  | doze (request : Request W N) (task : RenderTask W N) (hphase : w.phase = .looking)
    (hrequest : w.state.request = some request) (hspare : w.state.spare = some task)
    (hearly : w.clock < request.notBefore) :
    Advance w { w with phase := .waiting true }
  | take (request : Request W N) (task : RenderTask W N) (hphase : w.phase = .looking)
    (hrequest : w.state.request = some request) (hspare : w.state.spare = some task) :
    Advance w { w with
      state := { w.state with request := none, spare := none, running := true }
      phase := .starting ⟨request, task, w.state.generation⟩ }
  | read (job : Job W N) (hphase : w.phase = .starting job) :
    Advance w { w with phase := .building ⟨job, w.source.track, w.source.revision⟩ 0 }
  | giveUp (c : Computation W N) (looks : Nat) (hphase : w.phase = .building c looks)
    (hlooks : looks < w.builder.checks c.track)
    (hcancelled : w.state.isCancelled c.job.generation = true) :
    Advance w { w with phase := .finishing c (some looks) }
  | look (c : Computation W N) (looks : Nat) (hphase : w.phase = .building c looks)
    (hlooks : looks < w.builder.checks c.track)
    (hcancelled : w.state.isCancelled c.job.generation = false) :
    Advance w { w with phase := .building c (looks + 1) }
  | complete (c : Computation W N) (looks : Nat) (hphase : w.phase = .building c looks)
    (hlooks : w.builder.checks c.track ≤ looks) :
    Advance w { w with phase := .finishing c none }
  | publish (c : Computation W N) (cancelledAt : Option Nat) (builder : Builder W)
    (buckets : RenderBuckets N) (stats : BuildStats)
    (hphase : w.phase = .finishing c cancelledAt)
    (hbuild : w.builder.build c.track c.job.request.position c.job.request.settings
      c.job.task.buckets cancelledAt = (builder, buckets, .ok stats))
    (hcurrent : w.IsCurrent c) :
    Advance w { w with
      builder
      state := { w.state with
        running := false
        done := some ⟨buckets, c.job.request.position, c.revision⟩
        stats := { w.state.stats with completed := w.state.stats.completed + 1 } }
      phase := .announcing }
  | discard (c : Computation W N) (cancelledAt : Option Nat) (builder : Builder W)
    (buckets : RenderBuckets N) (stats : BuildStats)
    (hphase : w.phase = .finishing c cancelledAt)
    (hbuild : w.builder.build c.track c.job.request.position c.job.request.settings
      c.job.task.buckets cancelledAt = (builder, buckets, .ok stats))
    (houtdated : ¬ w.IsCurrent c) :
    Advance w { w with
      builder
      state := { w.state with
        running := false
        spare := some ⟨buckets, c.job.request.position, c.revision⟩
        stats := { w.state.stats with discarded := w.state.stats.discarded + 1 } }
      phase := .looking }
  | abort (c : Computation W N) (cancelledAt : Option Nat) (builder : Builder W)
    (buckets : RenderBuckets N)
    (hphase : w.phase = .finishing c cancelledAt)
    (hbuild : w.builder.build c.track c.job.request.position c.job.request.settings
      c.job.task.buckets cancelledAt = (builder, buckets, .error ⟨⟩)) :
    Advance w { w with
      builder
      state := { w.state with
        running := false
        spare := some ⟨buckets, c.job.request.position, c.revision⟩
        stats := { w.state.stats with cancelled := w.state.stats.cancelled + 1 } }
      phase := .looking }
  | announce (hphase : w.phase = .announcing) :
    Advance w { w with redraws := w.redraws + 1, phase := .looking }

theorem finish_advance (w : Worker W N) {c : Computation W N} {cancelledAt : Option Nat}
    (hphase : w.phase = .finishing c cancelledAt) : Advance w (w.finish c cancelledAt) := by
  obtain ⟨builder, buckets, result, hbuild⟩ : ∃ builder buckets result,
      w.builder.build c.track c.job.request.position c.job.request.settings c.job.task.buckets
        cancelledAt = (builder, buckets, result) := ⟨_, _, _, rfl⟩
  cases result with
  | error e =>
    simpa [finish, WorkerState.finish, hbuild] using
      Advance.abort c cancelledAt builder buckets hphase hbuild
  | ok stats =>
    -- What is checked under the lock is whether the computation is current.
    by_cases hcurrent : w.IsCurrent c
    · obtain ⟨hcancelled, hgeneration, hrevision⟩ := id hcurrent
      simpa [finish, WorkerState.finish, hbuild, hcancelled, hgeneration, hrevision] using
        Advance.publish c cancelledAt builder buckets stats hphase hbuild hcurrent
    · have hfalse : (!w.state.isCancelled c.job.generation &&
          w.state.generation == c.job.generation && w.source.revision == c.revision) = false := by
        refine Bool.eq_false_iff.2 fun htrue => hcurrent ?_
        simp only [Bool.and_eq_true, Bool.not_eq_true', beq_iff_eq] at htrue
        exact ⟨htrue.1.1, htrue.1.2, htrue.2⟩
      simpa [finish, WorkerState.finish, hbuild, hfalse] using
        Advance.discard c cancelledAt builder buckets stats hphase hbuild hcurrent

/-- Every step of the thread is one of these. -/
theorem advance_advance (w : Worker W N) : Advance w w.advance := by
  unfold advance
  split
  · rename_i hphase
    split
    · rename_i hnothing
      exact .pause hphase (w.state.findJob_eq_nothing hnothing)
    · rename_i hnotYet
      obtain ⟨request, task, hrequest, hspare, hearly⟩ := w.state.findJob_eq_notYet hnotYet
      exact .doze request task hphase hrequest hspare hearly
    · rename_i job state hjob
      obtain ⟨request, task, hrequest, hspare, rfl, rfl⟩ := w.state.findJob_eq_job hjob
      exact .take request task hphase hrequest hspare
  · rename_i timed hphase
    exact .rest timed hphase
  · rename_i job hphase
    exact .read job hphase
  · rename_i c looks hphase
    split
    · rename_i hlooks
      split
      · rename_i hcancelled
        exact .giveUp c looks hphase hlooks hcancelled
      · rename_i hcancelled
        exact .look c looks hphase hlooks (Bool.eq_false_iff.2 hcancelled)
    · rename_i hlooks
      exact .complete c looks hphase (Nat.le_of_not_lt hlooks)
  · rename_i c cancelledAt hphase
    exact finish_advance w hphase
  · rename_i hphase
    exact .announce hphase

theorem Advance.source {w t : Worker W N} (h : Advance w t) : t.source = w.source := by
  cases h <;> rfl

theorem Advance.generation {w t : Worker W N} (h : Advance w t) :
    t.state.generation = w.state.generation := by
  cases h <;> rfl

theorem Advance.cancelled {w t : Worker W N} (h : Advance w t) :
    t.state.cancelled = w.state.cancelled := by
  cases h <;> rfl

/-- A cancelled token stays cancelled. -/
theorem Revoked.step {w : Worker W N} {g : Nat} (h : w.Revoked g) (e : Event W N) :
    (w.step e).Revoked g := by
  rw [revoked_iff] at h ⊢
  cases e with
  | advance =>
    have hadvance := advance_advance w
    rwa [Worker.step, hadvance.generation, hadvance.cancelled]
  | wake => rwa [Worker.step, wake_state]
  | tick => exact h
  | swap track => exact h
  | mark => exact h
  -- The generation of the token lies behind.
  | submit position settings delay =>
    simp only [Worker.step, submit, modifyState, WorkerState.submit_generation]
    omega
  | cancel =>
    simp only [Worker.step, modifyState, WorkerState.cancel_generation]
    omega
  | cancelStale r =>
    simp only [Worker.step, modifyState, WorkerState.cancelStale_generation,
      WorkerState.cancelStale_cancelled, Bool.or_eq_true]
    exact h.imp_right fun h => ⟨h.1, .inr h.2⟩
  | poll => exact h
  | recycle task => exact h

namespace Orderly

variable {w : Worker W N}

theorem advance {t : Worker W N} (h : w.Orderly) (ht : Advance w t) : t.Orderly := by
  have hrunning := h.running_eq
  have hjob := h.job_le
  have halone := h.job_alone
  have hcomputation := h.computation_le
  cases ht with
  | rest timed hphase => exact h
  | pause hphase hnothing => exact h.of_phase (by rw [hphase]; rfl) rfl
  | doze request task hphase hrequest hspare hearly =>
    exact h.of_phase (by rw [hphase]; rfl) rfl
  | take request task hphase hrequest hspare =>
    refine ⟨rfl, ?_, fun _ _ _ => rfl, ?_, h.done_le, (fun _ hc => by cases hc),
      (fun _ _ hc => by cases hc)⟩
    · intro job heq
      cases heq
      exact Nat.le_refl _
    · -- There was a request, so no task is published.
      intro hne
      rw [(h.done_alone hne).1] at hrequest
      cases hrequest
  | read job hphase =>
    simp only [hphase, Phase.job?] at hrunning hjob halone
    refine ⟨hrunning, hjob, halone, h.done_alone, h.done_le, ?_, fun _ _ hc => by cases hc⟩
    intro c hc
    cases hc
    exact Nat.le_refl _
  | giveUp c looks hphase hlooks hcancelled =>
    simp only [hphase, Phase.job?, Phase.computation?] at hrunning hjob halone hcomputation
    refine ⟨hrunning, hjob, halone, h.done_alone, h.done_le, hcomputation, ?_⟩
    intro _ _ hc
    cases hc
    exact ⟨hjob _ rfl, hcancelled⟩
  | look c looks hphase hlooks hcancelled =>
    simp only [hphase, Phase.job?, Phase.computation?] at hrunning hjob halone hcomputation
    exact ⟨hrunning, hjob, halone, h.done_alone, h.done_le, hcomputation,
      fun _ _ hc => by cases hc⟩
  | complete c looks hphase hlooks =>
    simp only [hphase, Phase.job?, Phase.computation?] at hrunning hjob halone hcomputation
    exact ⟨hrunning, hjob, halone, h.done_alone, h.done_le, hcomputation,
      fun _ _ hc => by cases hc⟩
  | publish c cancelledAt builder buckets stats hphase hbuild hcurrent =>
    obtain ⟨hcancelled, hgeneration, hrevision⟩ := hcurrent
    -- The job is of the current generation, so no request was made since it was taken.
    have hrequest : w.state.request = none := halone c.job (by rw [hphase]; rfl) hgeneration.symm
    rw [← hgeneration, WorkerState.isCancelled_generation] at hcancelled
    refine of_job?_eq_none rfl rfl (fun _ => ⟨hrequest, hcancelled⟩) ?_
    intro task htask
    cases htask
    exact Nat.le_of_eq hrevision.symm
  | discard c cancelledAt builder buckets stats hphase hbuild houtdated =>
    exact of_job?_eq_none rfl rfl
      (fun hne => ⟨(h.done_alone hne).1, (h.done_alone hne).2.2⟩) h.done_le
  | abort c cancelledAt builder buckets hphase hbuild =>
    exact of_job?_eq_none rfl rfl
      (fun hne => ⟨(h.done_alone hne).1, (h.done_alone hne).2.2⟩) h.done_le
  | announce hphase => exact h.of_phase (by rw [hphase]; rfl) rfl

theorem step (h : w.Orderly) (e : Event W N) : (w.step e).Orderly := by
  cases e with
  | advance => exact h.advance (advance_advance w)
  | wake => exact h.wake
  | tick => exact ⟨h.1, h.2, h.3, h.4, h.5, h.6, h.7⟩
  | swap track => exact h.swap track
  | mark => exact ⟨h.1, h.2, h.3, h.4, h.5, h.6, h.7⟩
  | submit position settings delay => exact h.submit position settings delay
  | cancel => exact h.cancel
  | cancelStale r => exact h.cancelStale r
  | poll => exact h.poll
  | recycle task => exact h.recycle task

end Orderly

end Worker

end TourMap
