import TourMap.Proofs.Layer.Orders

/-!
# Polling: no outdated task is handed out

Whatever a client polls is the answer to the request that was made last. Once a revision counts as
old, because a task of a later one was polled or because the work on it was made outdated, nothing
older than it is published any more (`Worker.IsPast`), and a computation whose token is cancelled is
never published.
-/

namespace TourMap.Worker

variable {W N : Type} {w : Worker W N}

/-! ## 1. Revisions of the past -/

/-- Whether neither the track nor the published task is of a revision before `r`. -/
def IsPast (r : Nat) (w : Worker W N) : Prop :=
  r ≤ w.source.revision ∧ ∀ task, w.state.done = some task → r ≤ task.revision

variable [Mercator W] [Arithmetic N] [Resolution W N]

theorem IsPast.advance {r : Nat} {t : Worker W N} (h : w.IsPast r) (ht : Advance w t) :
    t.IsPast r := by
  cases ht with
  | publish c cancelledAt builder buckets stats hphase hbuild hcurrent =>
    refine ⟨h.1, fun task htask => ?_⟩
    cases htask
    -- What is published is of the revision that the source has now.
    exact hcurrent.2.2 ▸ h.1
  | rest | pause | doze | take | read | giveUp | look | complete | discard | abort | announce =>
    exact h

theorem IsPast.step {r : Nat} (h : w.IsPast r) (e : Event W N) : (w.step e).IsPast r := by
  cases e with
  | advance => exact h.advance (advance_advance w)
  | wake =>
    rw [Worker.step, wake]
    split <;> exact h
  | swap track => exact ⟨Nat.le_succ_of_le h.1, h.2⟩
  | submit position settings delay =>
    exact ⟨h.1, fun task htask => by simp [Worker.step, Worker.submit, modifyState] at htask⟩
  | cancel => exact ⟨h.1, fun task htask => by simp [Worker.step, modifyState] at htask⟩
  | cancelStale q =>
    exact ⟨h.1, fun task htask => h.2 task (w.state.cancelStale_done.1 htask).1⟩
  | poll => exact ⟨h.1, fun task htask => by cases htask⟩
  | tick | mark | recycle => exact h

/-- A polled task makes all revisions before its own a thing of the past. -/
theorem isPast_poll {task : RenderTask W N} (ho : w.Orderly) (htask : w.poll.1 = some task) :
    (w.step .poll).IsPast task.revision :=
  ⟨ho.done_le task htask, fun other hother => by cases hother⟩

/-- Work that is made outdated stays so. -/
theorem isPast_cancelStale {r : Nat} (hr : r ≤ w.source.revision) :
    (w.step (.cancelStale r)).IsPast r :=
  ⟨hr, fun _ htask => (w.state.cancelStale_done.1 htask).2⟩

/-! ## 2. Cancelled tokens -/

/-- A computation with a cancelled token ends without a task published. -/
theorem Revoked.advance_done {c : Computation W N} {cancelledAt : Option Nat} (ho : w.Orderly)
    (hphase : w.phase = .finishing c cancelledAt) (hrevoked : w.Revoked c.job.generation) :
    w.advance.state.done = none ∧ w.advance.state.stats.completed = w.state.stats.completed := by
  -- While a job runs, no older task is published either.
  have hdone : w.state.done = none := ho.done_eq_none (by rw [hphase]; exact Option.some_ne_none _)
  have hadvance := advance_advance w
  generalize w.advance = t at hadvance ⊢
  cases hadvance with
  | publish c' cancelledAt' builder buckets stats hphase' hbuild hcurrent =>
    rw [hphase] at hphase'
    cases hphase'
    -- The token is looked at once more before anything is published.
    have hcancelled := hrevoked.2
    rw [hcurrent.1] at hcancelled
    cases hcancelled
  | rest | pause | doze | take | read | giveUp | look | complete | discard | abort | announce =>
    exact ⟨hdone, rfl⟩

variable {memory : Nat → Array (GeoPoint W)} {past : Past W N}

/-- What was revoked at any time is revoked. -/
theorem HasPast.revoked (h : HasPast past w) {u : Worker W N} {g : Nat}
    (hu : u = w ∨ ∃ e, (u, e) ∈ past) (hrevoked : u.Revoked g) : w.Revoked g := by
  rcases hu with rfl | ⟨e, hmem⟩
  · exact hrevoked
  · exact History.since (P := fun w => w.Revoked g) h hmem
      (fun t ht => Option.some.inj ht ▸ hrevoked.step e)
      (fun s e t hs ht => Option.some.inj ht ▸ hs.step e)

/-! ## 3. Answers -/

/-- Whether a task has the position of the request that was made last and the geometry that its
settings ask for, of the track that the source held under the revision of the task. Since that
request nothing was cancelled and no task was polled. -/
def IsAnswer (past : Past W N) (task : RenderTask W N) : Prop :=
  ∃ recent older v settings delay track,
    past = recent ++ (v, .submit task.position settings delay) :: older ∧
      (∀ u e, (u, e) ∈ recent → u.Leaves e) ∧
      (tracks past)[task.revision]? = some track ∧
      task.buckets = Builder.geometry track task.position settings

theorem HasPast.isAnswer_poll (h : HasPast past w)
    (hstored : ∀ v track, (v, .swap track) ∈ past → track.StoredIn memory)
    {task : RenderTask W N} (htask : w.poll.1 = some task) : IsAnswer past task := by
  obtain ⟨settings, track, horder, htrack, hbuckets⟩ := (h.booked hstored).done task htask
  obtain ⟨recent, older, v, delay, hpast, hrecent⟩ := openOrder_eq_some horder
  exact ⟨recent, older, v, settings, delay, track, hpast, hrecent, htrack, hbuckets⟩

/-- However the calls of the clients, the replacements of the track and the steps of the thread
follow one another: a polled task is the answer to the request that was made last, which was not
answered before; its revision is no less than that of any task polled before and than any revision
the work before which was made outdated; and a computation whose token was cancelled at any time
before it ends is not published. The tracks may come from anywhere, as long as arrays of the same
name hold the same points. -/
theorem polled_tasks_are_current (h : HasPast past w)
    (hstored : ∀ v track, (v, .swap track) ∈ past → track.StoredIn memory) :
    (∀ task, w.poll.1 = some task →
      IsAnswer past task ∧
      (∀ v old, (v, .poll) ∈ past → v.poll.1 = some old → old.revision ≤ task.revision) ∧
      (∀ v r, (v, .cancelStale r) ∈ past → r ≤ v.source.revision → r ≤ task.revision)) ∧
    (∀ c cancelledAt u, w.phase = .finishing c cancelledAt → (u = w ∨ ∃ e, (u, e) ∈ past) →
      u.Revoked c.job.generation →
        w.advance.state.done = none ∧
          w.advance.state.stats.completed = w.state.stats.completed) := by
  have isPast_since {v : Worker W N} {e : Event W N} {r : Nat} (hmem : (v, e) ∈ past)
      (hpast : (v.step e).IsPast r) : w.IsPast r :=
    History.since (P := IsPast r) h hmem (fun t ht => Option.some.inj ht ▸ hpast)
      (fun s e t hs ht => Option.some.inj ht ▸ hs.step e)
  refine ⟨fun task htask => ⟨h.isAnswer_poll hstored htask, ?_, ?_⟩, ?_⟩
  · intro v old hmem hold
    obtain ⟨older, hv⟩ := h.earlier hmem
    exact (isPast_since hmem (isPast_poll (HasPast.orderly hv) hold)).2 task htask
  · intro v r hmem hr
    exact (isPast_since hmem (isPast_cancelStale hr)).2 task htask
  · intro c cancelledAt u hphase hu hrevoked
    exact (h.revoked hu hrevoked).advance_done h.orderly hphase

/-- A track is put in place and asked for, and the thread computes its geometry. -/
def firstAnswer : List (Event Double Single) :=
  [.swap shortTrack, .mark, .cancelStale 1, .submit .corner .default 0,
    .advance, .advance, .advance, .advance, .advance]

theorem polled_tasks_are_current_at_firstAnswer :
    ∃ past w task, HasPast past w ∧ past.map Prod.snd = firstAnswer.reverse ∧
      w.poll.1 = some task ∧ IsAnswer past task := by
  obtain ⟨past, hpast, hevents⟩ := HasPast.ofEvents firstAnswer
  have hpoll : ((firstAnswer.foldl step new).poll.1).isSome = true := by decide +kernel
  obtain ⟨task, htask⟩ := Option.isSome_iff_exists.1 hpoll
  have hstored (v : Worker Double Single) (track : TrackData Double)
      (hmem : (v, Event.swap track) ∈ past) : track.StoredIn fun _ => shortTrack.points := by
    have hevent := History.mem_events hmem hevents
    simp only [firstAnswer, List.mem_cons, List.not_mem_nil, Event.swap.injEq, reduceCtorEq,
      or_false] at hevent
    exact .inr (by rw [hevent])
  exact ⟨past, _, task, hpast, hevents, htask,
    ((polled_tasks_are_current hpast hstored).1 task htask).1⟩

end TourMap.Worker
