import TourMap.Proofs.Layer.Orders

/-!
# Counters: what became of every request

A request is queued, and from there it is taken by the thread or dropped; what the thread takes ends
as a cancelled computation, a discarded task or a published one, and a published task is polled or
discarded. The counters of a worker, with what is still in progress, account for all requests that
were made (`Worker.Balanced`).
-/

namespace TourMap

variable {W N : Type}

/-! ## 1. The counters of each critical section -/

namespace WorkerState

variable (s : WorkerState W N)

theorem discardDone_stats :
    s.discardDone.stats =
      { s.stats with discarded := s.stats.discarded + s.done.isSome.toNat } := by
  unfold discardDone
  split
  · rename_i hdone
    rw [hdone]
    rfl
  · rename_i hdone
    rw [hdone]
    rfl

theorem submit_stats (r : Request W N) :
    (s.submit r).stats = { s.stats with
      submitted := s.stats.submitted + 1
      discarded := s.stats.discarded + s.done.isSome.toNat } := by
  simp only [submit, invalidate, discardDone_stats]

theorem cancel_stats :
    s.cancel.stats =
      { s.stats with discarded := s.stats.discarded + s.done.isSome.toNat } := by
  simp only [cancel, invalidate, discardDone_stats]

/-- A published task that is outdated counts as discarded from then on. -/
theorem cancelStale_stats (r : Nat) :
    ∃ discarded, (s.cancelStale r).stats = { s.stats with discarded } ∧
      s.stats.discarded ≤ discarded ∧ discarded + (s.cancelStale r).done.isSome.toNat =
        s.stats.discarded + s.done.isSome.toNat := by
  unfold cancelStale
  cases hdone : s.done with
  | none => cases s.running <;> exact ⟨s.stats.discarded, by simp [hdone]⟩
  | some task =>
    by_cases hr : task.revision < r
    · refine ⟨s.stats.discarded + 1, ?_⟩
      cases s.running <;> simp [hdone, hr, discardDone_stats]
    · refine ⟨s.stats.discarded, ?_⟩
      cases s.running <;> simp [hdone, hr]

end WorkerState

namespace Worker

/-! ## 2. What the past tells -/

/-- How many polls returned a task. -/
def answered : Past W N → Nat
  | [] => 0
  | (w, .poll) :: past => answered past + w.poll.1.isSome.toNat
  | _ :: past => answered past

/-- How many requests were replaced or dropped while they were queued. -/
def dropped : Past W N → Nat
  | [] => 0
  | (w, .submit ..) :: past => dropped past + w.state.request.isSome.toNat
  | (w, .cancel) :: past => dropped past + w.state.request.isSome.toNat
  | _ :: past => dropped past

/-! ## 3. Balance -/

/-- Whether the counters account for all requests and all published tasks. -/
structure Balanced (past : Past W N) (w : Worker W N) : Prop where
  requests : answered past + w.state.stats.discarded + w.state.stats.cancelled +
    w.state.running.toNat + w.state.done.isSome.toNat + w.state.request.isSome.toNat +
      dropped past = w.state.stats.submitted
  published : answered past + w.state.done.isSome.toNat ≤ w.state.stats.completed
  accounted : w.state.stats.completed ≤
    answered past + w.state.done.isSome.toNat + w.state.stats.discarded

variable [Mercator W] [Arithmetic N] [Resolution W N] {past : Past W N} {w : Worker W N}

namespace Balanced

omit [Arithmetic N] [Resolution W N] in
theorem new : Balanced [] (Worker.new : Worker W N) := ⟨rfl, Nat.le_refl _, Nat.le_refl _⟩

/-- A step of the thread moves at most one request on. -/
theorem advance {t : Worker W N} (h : Balanced past w) (ho : w.Orderly) (ht : Advance w t) :
    Balanced past t := by
  obtain ⟨hrequests, hpublished, haccounted⟩ := h
  have hrunning := ho.running_eq
  cases ht with
  | rest | pause | doze | read | giveUp | look | complete | announce =>
    exact ⟨hrequests, hpublished, haccounted⟩
  | take request task hphase hrequest hspare =>
    rw [hphase] at hrunning
    refine ⟨?_, hpublished, haccounted⟩
    simp only [hrunning, hrequest, Phase.job?, Option.isSome_some, Option.isSome_none,
      Bool.toNat_true, Bool.toNat_false] at hrequests ⊢
    omega
  | publish c cancelledAt builder buckets stats hphase hbuild hcurrent =>
    -- While a job runs no task is published, so none is lost.
    have hdone : w.state.done = none := ho.done_eq_none (by rw [hphase]; exact Option.some_ne_none _)
    rw [hphase] at hrunning
    simp only [hrunning, hdone, Phase.job?, Option.isSome_some, Option.isSome_none,
      Bool.toNat_true, Bool.toNat_false] at hrequests hpublished haccounted
    refine ⟨?_, ?_, ?_⟩ <;>
      simp only [Option.isSome_some, Bool.toNat_true, Bool.toNat_false] <;> omega
  | discard c cancelledAt builder buckets stats hphase =>
    rw [hphase] at hrunning
    simp only [hrunning, Phase.job?, Option.isSome_some, Bool.toNat_true] at hrequests
    exact ⟨by simp only [Bool.toNat_false]; omega, hpublished, by simp only; omega⟩
  | abort c cancelledAt builder buckets hphase =>
    rw [hphase] at hrunning
    simp only [hrunning, Phase.job?, Option.isSome_some, Bool.toNat_true] at hrequests
    exact ⟨by simp only [Bool.toNat_false]; omega, hpublished, haccounted⟩

theorem step (h : Balanced past w) (ho : w.Orderly) (e : Event W N) :
    Balanced ((w, e) :: past) (w.step e) := by
  cases e with
  | advance => exact { h.advance ho (advance_advance w) with }
  | wake =>
    rw [Worker.step, Worker.wake]
    split <;> exact { h with }
  | tick | swap | mark | recycle => exact { h with }
  | submit position settings delay =>
    obtain ⟨hrequests, hpublished, haccounted⟩ := h
    refine ⟨?_, ?_, ?_⟩ <;>
      simp only [Worker.step, Worker.submit, modifyState, answered, dropped,
        WorkerState.submit_stats, WorkerState.submit_request, WorkerState.submit_running,
        WorkerState.submit_done, Option.isSome_some, Option.isSome_none, Bool.toNat_true,
        Bool.toNat_false] <;> omega
  | cancel =>
    obtain ⟨hrequests, hpublished, haccounted⟩ := h
    refine ⟨?_, ?_, ?_⟩ <;>
      simp only [Worker.step, modifyState, answered, dropped, WorkerState.cancel_stats,
        WorkerState.cancel_request, WorkerState.cancel_running, WorkerState.cancel_done,
        Option.isSome_none, Bool.toNat_false] <;> omega
  | cancelStale r =>
    obtain ⟨hrequests, hpublished, haccounted⟩ := h
    obtain ⟨discarded, hstats, hle, hdone⟩ := w.state.cancelStale_stats r
    refine ⟨?_, ?_, ?_⟩ <;>
      simp only [Worker.step, modifyState, answered, dropped, hstats,
        WorkerState.cancelStale_request, WorkerState.cancelStale_running] <;> omega
  | poll =>
    obtain ⟨hrequests, hpublished, haccounted⟩ := h
    refine ⟨?_, ?_, ?_⟩ <;>
      simp only [Worker.step, Worker.poll, WorkerState.poll, answered, dropped,
        Option.isSome_none, Bool.toNat_false] <;> omega

end Balanced

theorem HasPast.balanced (h : HasPast past w) : Balanced past w := by
  induction h with
  | start => exact .new
  | next e h he ih =>
    obtain rfl := Option.some.inj he
    exact ih.step (HasPast.orderly h) e

/-- However the calls of the clients, the replacements of the track and the steps of the thread
follow one another: every request that was made was answered, discarded, cancelled or dropped, or
is still computed, published or queued; and every published task was answered or discarded, or is
still published. -/
theorem requests_are_accounted_for (h : HasPast past w) :
    answered past + w.state.stats.discarded + w.state.stats.cancelled + w.state.running.toNat +
          w.state.done.isSome.toNat + w.state.request.isSome.toNat + dropped past =
        w.state.stats.submitted ∧
      answered past + w.state.done.isSome.toNat ≤ w.state.stats.completed ∧
      w.state.stats.completed ≤
        answered past + w.state.done.isSome.toNat + w.state.stats.discarded :=
  ⟨h.balanced.requests, h.balanced.published, h.balanced.accounted⟩

/-- Of four requests the first one is replaced while it is queued, the second one answered, the third
one cancelled once its task is published, and the last one computed. -/
def fourRequests : List (Event Double Single) :=
  [.swap shortTrack, .submit .corner .default 0, .submit .corner .default 0,
    .advance, .advance, .advance, .advance, .advance, .poll, .recycle .blank,
    .submit .corner .default 0, .advance, .advance, .advance, .advance, .advance, .advance, .cancel,
    .submit .corner .default 0, .advance, .advance]

theorem requests_are_accounted_for_at_fourRequests :
    ∃ past w, HasPast past w ∧ past.map Prod.snd = fourRequests.reverse ∧
      w.state.stats = ⟨4, 2, 0, 1⟩ ∧ w.state.running = true ∧ answered past + dropped past = 2 ∧
      answered past ≤ 2 ∧ 1 ≤ answered past := by
  obtain ⟨past, hpast, hevents⟩ := HasPast.ofEvents fourRequests
  have hstats : (fourRequests.foldl step new).state.stats = ⟨4, 2, 0, 1⟩ := by decide +kernel
  have hrunning : (fourRequests.foldl step new).state.running = true := by decide +kernel
  have hdone : (fourRequests.foldl step new).state.done.isSome = false := by decide +kernel
  have hrequest : (fourRequests.foldl step new).state.request.isSome = false := by decide +kernel
  obtain ⟨hrequests, hpublished, haccounted⟩ := requests_are_accounted_for hpast
  simp only [hstats, hrunning, hdone, hrequest, Bool.toNat_true, Bool.toNat_false]
    at hrequests hpublished haccounted
  exact ⟨past, _, hpast, hevents, hstats, hrunning, by omega, by omega, by omega⟩

end Worker

end TourMap
