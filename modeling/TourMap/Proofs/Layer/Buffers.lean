import TourMap.Proofs.Layer.Calls

/-!
# Buffers: two tasks, and a thread that is woken when there is work

Besides the task that a layer draws there is one other task, which its worker and the render thread
hand to one another. It is in one `Place` at a time, so whatever is put into a slot of the worker
finds that slot empty. A worker thread that waits for a notification has nothing to do, unless the
render thread is about to notify it.
-/

namespace TourMap

variable {W N : Type}

/-! ## 1. The slots of a worker -/

namespace WorkerState

variable (s : WorkerState W N)

@[simp] theorem discardDone_spare : s.discardDone.spare = s.done.or s.spare := by
  unfold discardDone
  split <;> simp_all

@[simp] theorem submit_spare (r : Request W N) : (s.submit r).spare = s.done.or s.spare := by
  simp [submit, invalidate]

@[simp] theorem cancel_spare : s.cancel.spare = s.done.or s.spare := by
  simp [cancel, invalidate]

/-- A replaced track leaves the slots alone, or has an outdated task thrown away. -/
theorem cancelStale_slots (r : Nat) :
    ((s.cancelStale r).spare = s.spare ∧ (s.cancelStale r).done = s.done) ∨
      ∃ task, s.done = some task ∧ task.revision < r ∧
        (s.cancelStale r).spare = s.done.or s.spare ∧ (s.cancelStale r).done = none := by
  unfold cancelStale
  cases hdone : s.done with
  | none => by_cases hrunning : s.running = true <;> simp [hrunning, hdone]
  | some task =>
    by_cases hr : task.revision < r <;> by_cases hrunning : s.running = true <;>
      simp [hrunning, hdone, hr]

end WorkerState

/-- Whether the thread waits for a notification and for nothing else. -/
def Phase.waitsForNotice : Phase W N → Bool
  | .waiting timed => !timed
  | _ => false

theorem Phase.waitsForNotice_iff {p : Phase W N} : p.waitsForNotice = true ↔ p = .waiting false := by
  cases p <;> simp [waitsForNotice]

namespace LayerSystem

variable {s t : LayerSystem W N} {e : Event W N}

/-! ## 2. One other task -/

/-- Where a task can be that is not drawn. -/
inductive Place where
  | spare
  | done
  | job
  /-- With the render thread, which polled another task and has not handed this one back yet. -/
  | call
  deriving DecidableEq

def taskAt (s : LayerSystem W N) : Place → Option (RenderTask W N)
  | .spare => s.worker.state.spare
  | .done => s.worker.state.done
  | .job => s.worker.phase.job?.map (·.task)
  | .call =>
    match s.call with
    | some (.recycle task) => some task
    | _ => none

/-- Whether there is one task besides the one that is drawn, at the given place. -/
structure OnlyAt (s : LayerSystem W N) (p : Place) : Prop where
  here : s.taskAt p ≠ none
  elsewhere : ∀ q, q ≠ p → s.taskAt q = none

namespace OnlyAt

variable {p : Place}

theorem of_eq (hs : s.OnlyAt p) (h : ∀ q, t.taskAt q = s.taskAt q) : ∃ q, t.OnlyAt q :=
  ⟨p, by rw [h]; exact hs.here, fun q hq => by rw [h]; exact hs.elsewhere q hq⟩

/-- A task that is handed over is at its new place only. -/
theorem move {q : Place} (hs : s.OnlyAt p) (hp : t.taskAt p = none) (hq : t.taskAt q ≠ none)
    (h : ∀ r, r ≠ p → r ≠ q → t.taskAt r = s.taskAt r) : ∃ q, t.OnlyAt q := by
  refine ⟨q, hq, fun r hr => ?_⟩
  by_cases hrp : r = p
  · rw [hrp, hp]
  · rw [h r hrp hr, hs.elsewhere r hrp]

theorem eq_of_ne_none {q : Place} (hs : s.OnlyAt p) (h : s.taskAt q ≠ none) : q = p :=
  Decidable.byContradiction fun hne => h (hs.elsewhere q hne)

/-- Where a published task is thrown away, its buffer becomes the spare one. -/
theorem discard (hs : s.OnlyAt p) (hspare : t.taskAt .spare = (s.taskAt .done).or (s.taskAt .spare))
    (hdone : t.taskAt .done = none) (hjob : t.taskAt .job = s.taskAt .job)
    (hcall : t.taskAt .call = s.taskAt .call) : ∃ q, t.OnlyAt q := by
  cases htask : s.taskAt .done with
  | none =>
    refine hs.of_eq fun q => ?_
    cases q with
    | spare => rw [hspare, htask, Option.none_or]
    | done => rw [hdone, htask]
    | job => exact hjob
    | call => exact hcall
  | some task =>
    obtain rfl := hs.eq_of_ne_none (q := .done) (by rw [htask]; exact Option.some_ne_none task)
    refine hs.move (q := .spare) hdone (by rw [hspare, htask]; exact Option.some_ne_none task) ?_
    intro r hr hr'
    cases r with
    | spare => exact (hr' rfl).elim
    | done => exact (hr rfl).elim
    | job => exact hjob
    | call => exact hcall

end OnlyAt

/-! ## 3. Slots that are filled -/

/-- Whether an event can put a task into a slot of the worker. -/
inductive CanPut (s : LayerSystem W N) : Event W N → Place → Prop where
  | submit (viewport : MapPosition W) (isFrame : Bool)
    (hcall : s.call = some (.submit viewport isFrame)) (hdone : s.worker.state.done ≠ none) :
    CanPut s .proceed .spare
  | cancel (hcall : s.call = some .cancel) (hdone : s.worker.state.done ≠ none) :
    CanPut s .proceed .spare
  | cancelStale (i revision : Nat) (hupdate : s.updates[i]? = some (.cancelStale revision))
    (hdone : s.worker.state.done ≠ none) : CanPut s (.proceedUpdate i) .spare
  | recycle (task : RenderTask W N) (hcall : s.call = some (.recycle task)) :
    CanPut s .proceed .spare
  | publish (c : Computation W N) (cancelledAt : Option Nat)
    (hphase : s.worker.phase = .finishing c cancelledAt) : CanPut s .advance .done
  | takeBack (c : Computation W N) (cancelledAt : Option Nat)
    (hphase : s.worker.phase = .finishing c cancelledAt) : CanPut s .advance .spare

/-- What is put somewhere comes from the one place where the task is. -/
theorem OnlyAt.slot_empty {p q : Place} (hs : s.OnlyAt p) (h : s.CanPut e q) :
    s.taskAt q = none := by
  cases h with
  | submit viewport isFrame hcall hdone | cancel hcall hdone | cancelStale i revision hupdate hdone =>
    obtain rfl := hs.eq_of_ne_none (q := .done) hdone
    exact hs.elsewhere .spare (by decide)
  | recycle task hcall =>
    obtain rfl := hs.eq_of_ne_none (q := .call) (by simp [taskAt, hcall])
    exact hs.elsewhere .spare (by decide)
  | publish c cancelledAt hphase | takeBack c cancelledAt hphase =>
    obtain rfl := hs.eq_of_ne_none (q := .job) (by simp [taskAt, hphase, Phase.job?])
    exact hs.elsewhere _ (by decide)

/-! ## 4. Notifications -/

/-- Whether the next thing that the render thread does is to notify the worker thread. -/
def NotifiesNext (s : LayerSystem W N) : Prop :=
  (∃ isFrame, s.call = some (.notify isFrame)) ∨ s.call = some .notifySpare

/-- Whether a worker thread that waits for a notification has nothing to do, or will get one. -/
def Watchful (s : LayerSystem W N) : Prop :=
  s.worker.phase = .waiting false →
    s.worker.state.request = none ∨ s.worker.state.spare = none ∨ s.NotifiesNext

theorem wake_phase_ne_waiting (w : Worker W N) : w.wake.phase ≠ .waiting false := by
  unfold Worker.wake
  split
  · exact nofun
  · rename_i h
    exact h false

/-- A step that brings neither a request nor a buffer, from where no notification was due. -/
theorem Watchful.transfer (hs : s.Watchful) (hcall : ¬ s.NotifiesNext)
    (hphase : t.worker.phase = s.worker.phase)
    (hwork : s.worker.state.request = none ∨ s.worker.state.spare = none →
      t.worker.state.request = none ∨ t.worker.state.spare = none) : t.Watchful := by
  intro hwaiting
  rw [hphase] at hwaiting
  rw [← or_assoc]
  refine .inl (hwork ?_)
  rcases hs hwaiting with h | h | h
  · exact .inl h
  · exact .inr h
  · exact (hcall h).elim

variable [Mercator W] [Arithmetic N] [Resolution W N]

/-! ## 5. Moves -/

theorem Move.onlyAt {p : Place} (h : Move s e t) (hs : s.OnlyAt p) : ∃ q, t.OnlyAt q := by
  cases h with
  | ignoreFrame | keepEnabled => exact ⟨p, hs⟩
  | beginFrame viewport hcall | configure config hcall | askAgain config viewport hcall
  | restyle config hcall | endFrame viewport hcall | ask viewport hcall | goOn viewport hcall =>
    exact hs.of_eq fun q => by cases q <;> simp only [taskAt, hcall]
  | toggle enabled hcall =>
    exact hs.of_eq fun q => by cases q <;> cases enabled <;> simp [taskAt, hcall]
  | submit viewport isFrame hcall | cancel hcall =>
    refine hs.discard ?_ ?_ rfl (by simp only [taskAt, hcall]) <;>
      simp [taskAt, Worker.submit, Worker.modifyState]
  | notify isFrame hcall =>
    refine hs.of_eq fun q => ?_
    cases q <;> cases isFrame <;>
      simp [taskAt, hcall, Worker.wake_state, Worker.wake_phase_job?]
  | pollNothing hcall hdone =>
    refine hs.of_eq fun q => ?_
    cases q <;> simp [taskAt, hcall, Worker.poll, WorkerState.poll, hdone]
  | poll task hcall hdone =>
    -- The task that was drawn takes the place of the polled one.
    obtain rfl := hs.eq_of_ne_none (q := .done) (by simp [taskAt, hdone])
    refine hs.move (q := .call) rfl (Option.some_ne_none _) fun r hr hr' => ?_
    cases r with
    | spare | job => rfl
    | done => exact (hr rfl).elim
    | call => exact (hr' rfl).elim
  | recycle task hcall =>
    obtain rfl := hs.eq_of_ne_none (q := .call) (by simp [taskAt, hcall])
    refine hs.move (q := .spare) rfl (Option.some_ne_none _) fun r hr hr' => ?_
    cases r with
    | done | job => rfl
    | spare => exact (hr' rfl).elim
    | call => exact (hr rfl).elim
  | notifySpare hcall =>
    refine hs.of_eq fun q => ?_
    cases q <;> simp [taskAt, hcall, Worker.wake_state, Worker.wake_phase_job?]
  | update | mark | tick => exact hs.of_eq fun q => by cases q <;> rfl
  | cancelStale i r hupdate =>
    rcases s.worker.state.cancelStale_slots r with ⟨hspare, hdone⟩ | ⟨task, -, -, hspare, hdone⟩
    · exact hs.of_eq fun q => by cases q <;> simp [taskAt, Worker.modifyState, hspare, hdone]
    · exact hs.discard hspare hdone rfl rfl
  | wake =>
    refine hs.of_eq fun q => ?_
    cases q <;> simp [taskAt, Worker.wake_state, Worker.wake_phase_job?]
  | advance =>
    have hadvance := Worker.advance_advance s.worker
    generalize s.worker.advance = w at hadvance
    cases hadvance with
    | rest timed hphase => exact ⟨p, hs⟩
    | pause hphase | doze request task hphase | read job hphase | giveUp c looks hphase
    | look c looks hphase | complete c looks hphase | announce hphase =>
      exact hs.of_eq fun q => by cases q <;> simp [taskAt, hphase, Phase.job?]
    | take request task hphase hrequest hspare =>
      obtain rfl := hs.eq_of_ne_none (q := .spare) (by simp [taskAt, hspare])
      refine hs.move (q := .job) rfl (Option.some_ne_none _) fun r hr hr' => ?_
      cases r with
      | done | call => rfl
      | spare => exact (hr rfl).elim
      | job => exact (hr' rfl).elim
    | publish c cancelledAt builder buckets stats hphase =>
      obtain rfl := hs.eq_of_ne_none (q := .job) (by simp [taskAt, hphase, Phase.job?])
      refine hs.move (q := .done) rfl (Option.some_ne_none _) fun r hr hr' => ?_
      cases r with
      | spare | call => rfl
      | done => exact (hr' rfl).elim
      | job => exact (hr rfl).elim
    | discard c cancelledAt builder buckets stats hphase | abort c cancelledAt builder buckets hphase =>
      obtain rfl := hs.eq_of_ne_none (q := .job) (by simp [taskAt, hphase, Phase.job?])
      refine hs.move (q := .spare) rfl (Option.some_ne_none _) fun r hr hr' => ?_
      cases r with
      | done | call => rfl
      | spare => exact (hr' rfl).elim
      | job => exact (hr rfl).elim

theorem Move.watchful (h : Move s e t) (ho : s.worker.Orderly) (hs : s.Watchful) :
    t.Watchful := by
  cases h with
  | ignoreFrame | keepEnabled => exact hs
  | beginFrame viewport hcall | configure config hcall | askAgain config viewport hcall
  | restyle config hcall | endFrame viewport hcall | ask viewport hcall | goOn viewport hcall
  | toggle enabled hcall | pollNothing hcall | poll task hcall =>
    exact hs.transfer (by simp [NotifiesNext, hcall]) rfl id
  | submit viewport isFrame hcall => exact fun _ => .inr (.inr (.inl ⟨isFrame, rfl⟩))
  | recycle task hcall => exact fun _ => .inr (.inr (.inr rfl))
  | notify | notifySpare | wake => exact fun hwaiting => (wake_phase_ne_waiting _ hwaiting).elim
  | cancel hcall => exact fun _ => .inl (by simp [Worker.modifyState])
  | update | mark | tick => exact hs
  | cancelStale i r hupdate =>
    intro hwaiting
    rcases s.worker.state.cancelStale_slots r with ⟨hspare, hdone⟩ | ⟨task, htask, -⟩
    · rcases hs hwaiting with h | h | h
      · exact .inl (by simpa [Worker.modifyState] using h)
      · exact .inr (.inl (by simpa [Worker.modifyState, hspare] using h))
      · exact .inr (.inr h)
    · -- Beside a published task there is no request that could use the buffer.
      have hrequest := (ho.done_alone (by rw [htask]; exact Option.some_ne_none task)).1
      exact .inl (by simpa [Worker.modifyState] using hrequest)
  | advance =>
    have hadvance := Worker.advance_advance s.worker
    generalize s.worker.advance = w at hadvance
    cases hadvance with
    | rest => exact hs
    | pause hphase hnothing => exact fun _ => hnothing.imp_right .inl
    | doze | take | read | giveUp | look | complete | publish | discard | abort | announce =>
      intro hwaiting
      cases hwaiting

/-- Nothing else fills a slot. -/
theorem Move.slots (h : Move s e t) {p : Place} (hp : p = .spare ∨ p = .done) :
    t.taskAt p = none ∨ t.taskAt p = s.taskAt p ∨ s.CanPut e p := by
  have or_discard {w : WorkerState W N} {e : Event W N}
      (hput : s.worker.state.done ≠ none → s.CanPut e .spare)
      (hspare : w.spare = s.worker.state.done.or s.worker.state.spare) :
      w.spare = none ∨ w.spare = s.worker.state.spare ∨ s.CanPut e .spare := by
    by_cases hdone : s.worker.state.done = none
    · exact .inr (.inl (by rw [hspare, hdone, Option.none_or]))
    · exact .inr (.inr (hput hdone))
  cases h with
  | submit viewport isFrame hcall =>
    rcases hp with rfl | rfl
    · exact or_discard (.submit viewport isFrame hcall) (WorkerState.submit_spare _ _)
    · exact .inl (by simp [taskAt, Worker.submit, Worker.modifyState])
  | cancel hcall =>
    rcases hp with rfl | rfl
    · exact or_discard (.cancel hcall) (WorkerState.cancel_spare _)
    · exact .inl (by simp [taskAt, Worker.modifyState])
  | cancelStale i r hupdate =>
    rcases s.worker.state.cancelStale_slots r with ⟨hspare, hdone⟩ | ⟨task, -, -, hspare, hdone⟩
    · rcases hp with rfl | rfl
      · exact .inr (.inl hspare)
      · exact .inr (.inl hdone)
    · rcases hp with rfl | rfl
      · exact or_discard (.cancelStale i r hupdate) hspare
      · exact .inl hdone
  | recycle task hcall =>
    rcases hp with rfl | rfl
    · exact .inr (.inr (.recycle task hcall))
    · exact .inr (.inl rfl)
  | pollNothing | poll =>
    rcases hp with rfl | rfl
    · exact .inr (.inl rfl)
    · exact .inl rfl
  | notify | notifySpare | wake =>
    rcases hp with rfl | rfl <;> exact .inr (.inl (by simp [taskAt, Worker.wake_state]))
  | ignoreFrame | beginFrame | configure | askAgain | restyle | keepEnabled | toggle | endFrame
  | ask | goOn | update | mark | tick =>
    rcases hp with rfl | rfl <;> exact .inr (.inl rfl)
  | advance =>
    have hadvance := Worker.advance_advance s.worker
    generalize s.worker.advance = w at hadvance
    cases hadvance with
    | rest | pause | doze | read | giveUp | look | complete | announce =>
      rcases hp with rfl | rfl <;> exact .inr (.inl rfl)
    | take =>
      rcases hp with rfl | rfl
      · exact .inl rfl
      · exact .inr (.inl rfl)
    | publish c cancelledAt builder buckets stats hphase =>
      rcases hp with rfl | rfl
      · exact .inr (.inl rfl)
      · exact .inr (.inr (.publish c cancelledAt hphase))
    | discard c cancelledAt builder buckets stats hphase | abort c cancelledAt builder buckets hphase =>
      rcases hp with rfl | rfl
      · exact .inr (.inr (.takeBack c cancelledAt hphase))
      · exact .inr (.inl rfl)

/-! ## 6. Histories -/

variable {config : TrackConfig N} {past : Past W N}

theorem HasPast.onlyAt (h : HasPast config past s) : ∃ p, s.OnlyAt p := by
  induction h with
  | start =>
    refine ⟨.spare, nofun, fun q hq => ?_⟩
    cases q with
    | spare => exact (hq rfl).elim
    | done | job | call => rfl
  | next e h he ih =>
    obtain ⟨p, hp⟩ := ih
    exact (move_of_step he).onlyAt hp

theorem HasPast.watchful (h : HasPast config past s) : s.Watchful := by
  induction h with
  | start => exact nofun
  | next e h he ih => exact (move_of_step he).watchful (HasPast.orderly h) ih

/-- Whatever the threads did and in whatever order: besides the task that is drawn there is one other
task, in one place; there never is a request beside a published task; what a step puts into a slot of
the worker finds the slot empty, and no other step fills one; and where the worker thread waits for a
notification, and the next thing that the render thread does is not to notify it, there is no request
or no buffer for it. -/
theorem buffers_are_kept (h : HasPast config past s) :
    (∃ p, s.OnlyAt p) ∧
      (s.worker.state.request = none ∨ s.worker.state.done = none) ∧
      (∀ e p, s.CanPut e p → s.taskAt p = none) ∧
      (∀ e t p, s.step e = some t → p = .spare ∨ p = .done →
        t.taskAt p = none ∨ t.taskAt p = s.taskAt p ∨ s.CanPut e p) ∧
      (s.worker.phase = .waiting false → ¬ s.NotifiesNext →
        s.worker.state.request = none ∨ s.worker.state.spare = none) := by
  obtain ⟨p, hp⟩ := h.onlyAt
  refine ⟨⟨p, hp⟩, ?_, fun e q hput => hp.slot_empty hput,
    fun e t q ht hq => (move_of_step ht).slots hq, fun hwaiting hcall => ?_⟩
  · by_cases hdone : s.worker.state.done = none
    · exact .inr hdone
    · exact .inl (h.orderly.done_alone hdone).1
  · rcases h.watchful hwaiting with hrequest | hspare | hnext
    · exact .inl hrequest
    · exact .inr hspare
    · exact (hcall hnext).elim

/-- The worker thread waits for work; a layer gets a track and shows two frames, and has polled the
geometry in the second one. -/
def handover : List (Event Double Single) :=
  [.advance, .update shortTrack, .proceedUpdate 0, .proceedUpdate 0, .frame .corner,
    .proceed, .proceed, .proceed, .proceed,
    .advance, .advance, .advance, .advance, .advance, .advance, .advance,
    .frame .corner, .proceed, .proceed]

/-- The thread waits without a buffer, which the render thread is about to hand back. -/
theorem buffers_are_kept_at_handover :
    ∃ past s, HasPast .default past s ∧ past.map Prod.snd = handover.reverse ∧
      s.OnlyAt .call ∧ s.worker.phase = .waiting false ∧
      (s.worker.state.request = none ∨ s.worker.state.spare = none) := by
  have hrun : (handover.foldlM step (new .default)).any
      (fun s => (s.taskAt .call).isSome = true ∧ s.worker.phase.waitsForNotice = true) = true := by
    decide +kernel
  obtain ⟨past, s, hpast, hevents, htask, hphase⟩ := exists_hasPast_of_run hrun
  have hwaiting := Phase.waitsForNotice_iff.1 hphase
  have hnotifies : ¬ s.NotifiesNext := by
    rintro (⟨isFrame, hcall⟩ | hcall) <;> simp [taskAt, hcall] at htask
  obtain ⟨⟨p, hp⟩, -, -, -, hwork⟩ := buffers_are_kept hpast
  obtain rfl := hp.eq_of_ne_none (Option.isSome_iff_ne_none.1 htask)
  exact ⟨past, s, hpast, hevents, hp, hwaiting, hwork hwaiting hnotifies⟩

end LayerSystem

end TourMap
