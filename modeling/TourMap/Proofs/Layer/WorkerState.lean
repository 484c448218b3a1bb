import TourMap.Layer.WorkerState

/-!
# WorkerState: what each critical section does

The effect of every operation on the parts of the state that decide which work is current: the
request, the published task, whether a computation runs, the generation and its token.
-/

namespace TourMap.WorkerState

variable {W N : Type} (s : WorkerState W N)

/-! ## 1. Throwing a task away -/

@[simp] theorem discardDone_request : s.discardDone.request = s.request := by
  unfold discardDone; split <;> rfl

@[simp] theorem discardDone_running : s.discardDone.running = s.running := by
  unfold discardDone; split <;> rfl

@[simp] theorem discardDone_generation : s.discardDone.generation = s.generation := by
  unfold discardDone; split <;> rfl

@[simp] theorem discardDone_cancelled : s.discardDone.cancelled = s.cancelled := by
  unfold discardDone; split <;> rfl

@[simp] theorem discardDone_done : s.discardDone.done = none := by
  unfold discardDone
  split
  · rfl
  · assumption

/-! ## 2. Requests -/

@[simp] theorem submit_request (r : Request W N) : (s.submit r).request = some r := rfl

@[simp] theorem submit_running (r : Request W N) : (s.submit r).running = s.running := by
  simp [submit, invalidate]

@[simp] theorem submit_generation (r : Request W N) :
    (s.submit r).generation = s.generation + 1 := by
  simp [submit, invalidate]

@[simp] theorem submit_cancelled (r : Request W N) : (s.submit r).cancelled = false := by
  simp [submit, invalidate]

@[simp] theorem submit_done (r : Request W N) : (s.submit r).done = none := by
  simp [submit, invalidate]

@[simp] theorem cancel_request : s.cancel.request = none := by
  simp [cancel, invalidate]

@[simp] theorem cancel_running : s.cancel.running = s.running := by
  simp [cancel, invalidate]

@[simp] theorem cancel_generation : s.cancel.generation = s.generation + 1 := by
  simp [cancel, invalidate]

@[simp] theorem cancel_cancelled : s.cancel.cancelled = false := by
  simp [cancel, invalidate]

@[simp] theorem cancel_done : s.cancel.done = none := by
  simp [cancel, invalidate]

/-! ## 3. Outdated tracks -/

@[simp] theorem cancelStale_request (r : Nat) : (s.cancelStale r).request = s.request := by
  unfold cancelStale; grind [discardDone_request]

@[simp] theorem cancelStale_running (r : Nat) : (s.cancelStale r).running = s.running := by
  unfold cancelStale; grind [discardDone_running]

@[simp] theorem cancelStale_generation (r : Nat) :
    (s.cancelStale r).generation = s.generation := by
  unfold cancelStale; grind [discardDone_generation]

@[simp] theorem cancelStale_cancelled (r : Nat) :
    (s.cancelStale r).cancelled = (s.running || s.cancelled) := by
  unfold cancelStale; grind [discardDone_cancelled]

/-- A published task stays if its track is not outdated. -/
theorem cancelStale_done {r : Nat} {task : RenderTask W N} :
    (s.cancelStale r).done = some task ↔ s.done = some task ∧ r ≤ task.revision := by
  unfold cancelStale
  cases hd : s.done with
  | none => cases s.running <;> simp [hd]
  | some other =>
    by_cases hr : other.revision < r
    · have hne : ¬ (other = task ∧ r ≤ task.revision) := by
        rintro ⟨rfl, hle⟩
        omega
      cases s.running <;> simp [hd, hr, hne]
    · have hle : other = task → r ≤ task.revision := by
        rintro rfl
        omega
      cases s.running <;> simpa [hd, hr] using hle

/-! ## 4. Looking for work -/

/-- A job is made of the request and the spare buffer. -/
theorem findJob_eq_job {now : Nat} {job : Job W N} {t : WorkerState W N}
    (h : s.findJob now = .job job t) :
    ∃ request task, s.request = some request ∧ s.spare = some task ∧
      job = ⟨request, task, s.generation⟩ ∧
      t = { s with request := none, spare := none, running := true } := by
  unfold findJob at h
  split at h
  · rename_i request task hrequest hspare
    split at h
    · cases h
    · cases h
      exact ⟨request, task, hrequest, hspare, rfl, rfl⟩
  · cases h

theorem findJob_eq_nothing {now : Nat} (h : s.findJob now = .nothing) :
    s.request = none ∨ s.spare = none := by
  unfold findJob at h
  split at h
  · split at h <;> cases h
  · rename_i hnone
    cases hrequest : s.request with
    | none => exact .inl rfl
    | some request =>
      cases hspare : s.spare with
      | none => exact .inr rfl
      | some task => exact (hnone request task hrequest hspare).elim

theorem findJob_eq_notYet {now : Nat} (h : s.findJob now = .notYet) :
    ∃ request task, s.request = some request ∧ s.spare = some task ∧ now < request.notBefore := by
  unfold findJob at h
  split at h
  · rename_i request task hrequest hspare
    split at h
    · exact ⟨request, task, hrequest, hspare, ‹_›⟩
    · cases h
  · cases h

/-! ## 5. Tokens -/

@[simp] theorem isCancelled_generation : s.isCancelled s.generation = s.cancelled := by
  simp [isCancelled]

end TourMap.WorkerState
