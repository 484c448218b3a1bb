import TourMap.Proofs.Layer.Attention

/-!
# PendingWork: when a layer that waits gets its geometry

A layer at rest with stale geometry has work in progress that can still make it fresh, unless a
replacement of the track cancelled a computation after geometry was asked for the last time: the
request made since then, or the computation on the new track, runs under the same token.
-/

namespace TourMap.LayerSystem

variable {W N : Type} {s t : LayerSystem W N}

/-! ## 1. Pending work -/

/-- Whether there is work in progress that can make the geometry fresh: a request with a token that
is not cancelled, a published task, or a job of the current generation with a token that is not
cancelled and, if it was read already, the current track. -/
def PendingWork (s : LayerSystem W N) : Prop :=
  (s.worker.state.request ≠ none ∧
      s.worker.state.isCancelled s.worker.state.generation = false) ∨
    s.worker.state.done ≠ none ∨
    ∃ job, s.worker.phase.job? = some job ∧ job.generation = s.worker.state.generation ∧
      s.worker.state.isCancelled job.generation = false ∧
      ∀ c, s.worker.phase.computation? = some c → c.revision = s.worker.source.revision

/-- A layer at rest that waits for geometry and has not heard of another track. -/
structure Waiting (s : LayerSystem W N) : Prop where
  call : s.call = none
  updates : s.updates = []
  enabled : s.layer.enabled = true
  state : s.layer.state = .geometryStale
  lastTile : s.layer.lastTile ≠ none
  dirty : s.worker.source.dirty = false

namespace Waiting

instance (s : LayerSystem W N) : Decidable s.Waiting :=
  decidable_of_iff (s.call.isNone = true ∧ s.updates = [] ∧ s.layer.enabled = true ∧
      s.layer.state = .geometryStale ∧ s.layer.lastTile ≠ none ∧ s.worker.source.dirty = false)
    ⟨fun h => ⟨Option.isNone_iff_eq_none.1 h.1, h.2.1, h.2.2.1, h.2.2.2.1, h.2.2.2.2.1,
        h.2.2.2.2.2⟩,
      fun h => ⟨Option.isNone_iff_eq_none.2 h.call, h.updates, h.enabled, h.state, h.lastTile,
        h.dirty⟩⟩

theorem not_hasNews (h : s.Waiting) : ¬ s.HasNews := by
  simp [HasNews, h.call, h.updates, h.dirty]

theorem awaitsTask (h : s.Waiting) : s.AwaitsTask :=
  ⟨h.state, h.lastTile, by simp [HandsBack, h.call]⟩

/-- The token tells whether there is pending work. -/
theorem pendingWork_iff_cancelled (h : s.Waiting) (ho : s.worker.Orderly) (hs : s.Attentive) :
    s.PendingWork ↔ s.worker.state.cancelled = false := by
  constructor
  · intro hwork
    rcases hwork with ⟨-, hcancelled⟩ | hdone | ⟨job, -, hgeneration, hcancelled, -⟩
    · rwa [WorkerState.isCancelled_generation] at hcancelled
    · exact (ho.done_alone hdone).2.2
    · rwa [hgeneration, WorkerState.isCancelled_generation] at hcancelled
  · intro hcancelled
    rcases hs.busy h.not_hasNews h.awaitsTask with htrue | hrequest | hdone | ⟨job, hjob, hgeneration⟩
    · rw [hcancelled] at htrue
      cases htrue
    · exact .inl ⟨hrequest, by rw [WorkerState.isCancelled_generation, hcancelled]⟩
    · exact .inr (.inl hdone)
    · -- The job is on the current track, as there is no news of another one.
      refine .inr (.inr ⟨job, hjob, hgeneration, ?_, fun c hc => ?_⟩)
      · rw [hgeneration, WorkerState.isCancelled_generation, hcancelled]
      · have hjobc := Phase.job?_of_computation? hc
        rw [hjob] at hjobc
        cases hjobc
        exact (hs.timely h.not_hasNews).computation c hc hgeneration

end Waiting

/-! ## 2. Computations that were cut off -/

/-- Whether a replacement of the track makes work outdated while a computation runs. -/
def Cuts (s : LayerSystem W N) (e : Event W N) : Prop :=
  ∃ i r, e = .proceedUpdate i ∧ s.updates[i]? = some (.cancelStale r) ∧
    s.worker.state.running = true

/-- Whether that happened in the generation `g`. -/
def CutOff (past : Past W N) (g : Nat) : Prop :=
  ∃ m e, (m, e) ∈ past ∧ m.Cuts e ∧ m.worker.state.generation = g

theorem cutOff_cons {past : Past W N} {e : Event W N} {g : Nat} :
    CutOff ((s, e) :: past) g ↔ s.Cuts e ∧ s.worker.state.generation = g ∨ CutOff past g := by
  simp only [CutOff, List.mem_cons, Prod.mk.injEq, or_and_right, exists_or]
  refine or_congr ⟨?_, fun h => ⟨s, e, ⟨rfl, rfl⟩, h⟩⟩ Iff.rfl
  intro h
  obtain ⟨m, e', ⟨rfl, rfl⟩, hcut⟩ := h
  exact hcut

variable [Mercator W] [Arithmetic N] [Resolution W N] {config : TrackConfig N} {past : Past W N}
  {e : Event W N}

/-- What a step does to the token. -/
theorem Move.token (h : Move s e t) :
    (t.worker.state.generation = s.worker.state.generation ∧
      t.worker.state.cancelled = s.worker.state.cancelled ∧ ¬ s.Cuts e) ∨
    (t.worker.state.generation = s.worker.state.generation ∧
      t.worker.state.cancelled = true ∧ s.Cuts e) ∨
    (t.worker.state.generation = s.worker.state.generation + 1 ∧
      t.worker.state.cancelled = false) := by
  cases h with
  | submit | cancel => exact .inr (.inr (by simp [Worker.submit, Worker.modifyState]))
  | cancelStale i r hupdate =>
    cases hrunning : s.worker.state.running with
    | true =>
      exact .inr (.inl ⟨by simp [Worker.modifyState], by simp [Worker.modifyState, hrunning],
        i, r, rfl, hupdate, hrunning⟩)
    | false =>
      refine .inl ⟨by simp [Worker.modifyState], by simp [Worker.modifyState, hrunning], ?_⟩
      simp [Cuts, hrunning]
  | mark i r hupdate => exact .inl ⟨rfl, rfl, by simp [Cuts, hupdate]⟩
  | advance =>
    have hadvance := Worker.advance_advance s.worker
    exact .inl ⟨hadvance.generation, hadvance.cancelled, by simp [Cuts]⟩
  | notify | notifySpare | wake =>
    exact .inl ⟨by rw [Worker.wake_state], by rw [Worker.wake_state], by simp [Cuts]⟩
  | ignoreFrame | beginFrame | configure | askAgain | restyle | keepEnabled | toggle | endFrame
  | ask | goOn | pollNothing | poll | recycle | update | tick =>
    exact .inl ⟨rfl, rfl, by simp [Cuts]⟩

theorem Move.generation_le (h : Move s e t) :
    s.worker.state.generation ≤ t.worker.state.generation := by
  rcases h.token with ⟨hgeneration, -, -⟩ | ⟨hgeneration, -, -⟩ | ⟨hgeneration, -⟩ <;> omega

/-- No moment of the past is of a later generation. -/
theorem HasPast.generation_le (h : HasPast config past s) {m : LayerSystem W N}
    (hmem : (m, e) ∈ past) : m.worker.state.generation ≤ s.worker.state.generation :=
  History.since (P := fun s => m.worker.state.generation ≤ s.worker.state.generation) h hmem
    (fun _ ht => (move_of_step ht).generation_le)
    (fun _ _ _ hs ht => Nat.le_trans hs (move_of_step ht).generation_le)

/-- The token of the current generation is cancelled if a computation was cut off in it. -/
theorem HasPast.cancelled_iff (h : HasPast config past s) :
    s.worker.state.cancelled = true ↔ CutOff past s.worker.state.generation := by
  induction h with
  | start =>
    constructor
    · intro hcancelled
      cases hcancelled
    · intro hcut
      obtain ⟨m, e, hmem, -⟩ := hcut
      cases hmem
  | @next past s t e h he ih =>
    rw [cutOff_cons]
    rcases (move_of_step he).token with
      ⟨hgeneration, hcancelled, hcuts⟩ | ⟨hgeneration, hcancelled, hcuts⟩ |
      ⟨hgeneration, hcancelled⟩
    · -- The token is the same one, and was not touched.
      rw [hgeneration, hcancelled, ih]
      exact ⟨.inr, fun hcut => hcut.resolve_left fun hnow => hcuts hnow.1⟩
    · exact ⟨fun _ => .inl ⟨hcuts, hgeneration.symm⟩, fun _ => hcancelled⟩
    · -- The generation is a new one.
      rw [hcancelled, hgeneration]
      refine ⟨nofun, fun hcut => ?_⟩
      rcases hcut with ⟨-, hnow⟩ | ⟨m, e', hmem, -, hthen⟩
      · omega
      · -- What was cut off before was of an earlier one.
        have hle := HasPast.generation_le h hmem
        omega

/-! ## 3. Updates that get lost -/

/-- A layer at rest that waits for geometry has pending work if and only if no computation was cut
off since it asked. -/
theorem pendingWork_iff_not_cutOff (h : HasPast config past s) (hwaiting : s.Waiting) :
    s.PendingWork ↔ ¬ CutOff past s.worker.state.generation := by
  rw [hwaiting.pendingWork_iff_cancelled h.orderly h.attentive, ← h.cancelled_iff,
    Bool.not_eq_true]

/-- A layer gets a track and shows a frame. -/
def firstFrame : List (Event Double Single) :=
  [.update shortTrack, .proceedUpdate 0, .proceedUpdate 0, .frame .corner,
    .proceed, .proceed, .proceed, .proceed]

/-- While its geometry is computed the track is replaced, and a frame asks for new geometry before
the replacement makes the old work outdated. -/
def overtakenUpdate : List (Event Double Single) :=
  firstFrame ++ [.advance, .update .empty, .proceedUpdate 0, .frame .corner,
    .proceed, .proceed, .proceed, .proceed, .proceedUpdate 0]

theorem pendingWork_iff_not_cutOff_at_firstFrame :
    ∃ past s, HasPast .default past s ∧ past.map Prod.snd = firstFrame.reverse ∧ s.Waiting ∧
      s.PendingWork ∧ ¬ CutOff past s.worker.state.generation := by
  have hrun : (firstFrame.foldlM step (new .default)).any
      (fun s => s.Waiting ∧ s.worker.state.cancelled = false) = true := by decide +kernel
  obtain ⟨past, s, hpast, hevents, hwaiting, hcancelled⟩ := exists_hasPast_of_run hrun
  have hwork := (hwaiting.pendingWork_iff_cancelled hpast.orderly hpast.attentive).2 hcancelled
  exact ⟨past, s, hpast, hevents, hwaiting, hwork,
    (pendingWork_iff_not_cutOff hpast hwaiting).1 hwork⟩

/-- A frame that overtakes an update leaves a layer behind that waits for nothing. -/
theorem not_pendingWork_after_overtakenUpdate :
    ∃ past s, HasPast .default past s ∧ past.map Prod.snd = overtakenUpdate.reverse ∧ s.Waiting ∧
      ¬ s.PendingWork := by
  have hrun : (overtakenUpdate.foldlM step (new .default)).any
      (fun s => s.Waiting ∧ s.worker.state.cancelled = true) = true := by decide +kernel
  obtain ⟨past, s, hpast, hevents, hwaiting, hcancelled⟩ := exists_hasPast_of_run hrun
  refine ⟨past, s, hpast, hevents, hwaiting, ?_⟩
  rw [hwaiting.pendingWork_iff_cancelled hpast.orderly hpast.attentive, hcancelled]
  exact nofun

end TourMap.LayerSystem
