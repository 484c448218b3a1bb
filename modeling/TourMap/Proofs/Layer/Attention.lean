import TourMap.Proofs.Layer.Calls

/-!
# Attention: a replaced track is not forgotten

From the moment a track is put in place until geometry is asked for the next time, there is
something that will make the layer ask (`HasNews`). While there is no news, the work of the worker is
on the current track, and a layer that waits for geometry has a busy worker (`Attentive`).
-/

namespace TourMap

def TrackUpdate.revision : TrackUpdate → Nat
  | .mark r => r
  | .cancelStale r => r

namespace LayerSystem

variable {W N : Type} {s t : LayerSystem W N}

/-! ## 1. News -/

/-- Whether the track may have been replaced since geometry was asked for, and the layer will notice:
the flag is raised or about to be, or the layer is about to ask. -/
def HasNews (s : LayerSystem W N) : Prop :=
  s.worker.source.dirty = true ∨ (∃ r, .mark r ∈ s.updates) ∨
    ∃ viewport isFrame, s.call = some (.submit viewport isFrame)

/-- Whether the render thread has polled a task that it does not call fresh yet. -/
def HandsBack (s : LayerSystem W N) : Prop :=
  (∃ task, s.call = some (.recycle task)) ∨ s.call = some .notifySpare

/-- Whether the layer waits for the task that it asked for. -/
def AwaitsTask (s : LayerSystem W N) : Prop :=
  s.layer.state = .geometryStale ∧ s.layer.lastTile ≠ none ∧ ¬ s.HandsBack

/-- Whether the worker is at work on what the layer waits for. -/
structure Attentive (s : LayerSystem W N) : Prop where
  updates : ∀ u ∈ s.updates, u.revision ≤ s.worker.source.revision
  timely : ¬ s.HasNews → s.worker.Timely
  busy : ¬ s.HasNews → s.AwaitsTask → s.worker.Busy

namespace Attentive

/-- As long as there is news, only the revisions in progress have to be looked at. -/
theorem of_hasNews (hnews : s.HasNews)
    (hupdates : ∀ u ∈ s.updates, u.revision ≤ s.worker.source.revision) : s.Attentive :=
  ⟨hupdates, fun h => (h hnews).elim, fun h => (h hnews).elim⟩

/-- A move that does not settle the news and keeps the worker busy if the layer still waits. -/
theorem transfer (hs : s.Attentive) (hnews : s.HasNews → t.HasNews)
    (hupdates : ∀ u ∈ t.updates, u.revision ≤ t.worker.source.revision)
    (htimely : s.worker.Timely → t.worker.Timely)
    (hawaits : t.AwaitsTask → s.AwaitsTask ∧
      (s.worker.Timely → s.worker.Busy → t.worker.Busy)) : t.Attentive := by
  have hquiet (h : ¬ t.HasNews) : ¬ s.HasNews := fun hs => h (hnews hs)
  refine ⟨hupdates, fun h => htimely (hs.timely (hquiet h)), fun h ht => ?_⟩
  obtain ⟨hstill, hbusy⟩ := hawaits ht
  exact hbusy (hs.timely (hquiet h)) (hs.busy (hquiet h) hstill)

end Attentive

/-! ## 2. Moves -/

variable [Mercator W] [Arithmetic N] [Resolution W N] {e : Event W N}

/-- Only a request settles the news. -/
theorem Move.hasNews (h : Move s e t) (hasks : ¬ s.Asks e) (hs : s.HasNews) : t.HasNews := by
  cases h with
  | submit viewport isFrame hcall => exact (hasks ⟨rfl, viewport, isFrame, hcall⟩).elim
  | askAgain config viewport hcall => exact .inr (.inr ⟨viewport, false, rfl⟩)
  | ask viewport hcall hcause => exact .inr (.inr ⟨viewport, true, rfl⟩)
  | update track =>
    exact .inr (.inl ⟨_, List.mem_append_right _ (List.mem_singleton_self _)⟩)
  | mark i r hupdate => exact .inl rfl
  | cancelStale i r hupdate =>
    rcases hs with hdirty | ⟨q, hq⟩ | hcall
    · exact .inl hdirty
    · -- Another replacement than this one still has to raise the flag.
      obtain ⟨j, hj⟩ := List.mem_iff_getElem?.1 hq
      refine .inr (.inl ⟨q, List.mem_eraseIdx_iff_getElem?.2 ⟨j, ?_, hj⟩⟩)
      intro hij
      rw [hij, hupdate] at hj
      cases hj
    · exact .inr (.inr hcall)
  | beginFrame viewport hcall | configure config hcall | restyle config hcall
  | endFrame viewport hcall | goOn viewport hcall | pollNothing hcall | poll task hcall
  | recycle task hcall | cancel hcall =>
    simpa [HasNews, hcall, Worker.poll, Worker.modifyState] using hs
  | toggle enabled hcall => cases enabled <;> simpa [HasNews, hcall] using hs
  | notify isFrame hcall => cases isFrame <;> simpa [HasNews, hcall, Worker.wake_source] using hs
  | notifySpare hcall => simpa [HasNews, hcall, Worker.wake_source] using hs
  | advance =>
    have hadvance := Worker.advance_advance s.worker
    simpa only [HasNews, hadvance.source] using hs
  | wake => simpa only [HasNews, Worker.wake_source] using hs
  | ignoreFrame | keepEnabled | tick => exact hs

/-- A replacement in progress is no newer than the track. -/
theorem Move.updates_le (h : Move s e t)
    (hs : ∀ u ∈ s.updates, u.revision ≤ s.worker.source.revision) :
    ∀ u ∈ t.updates, u.revision ≤ t.worker.source.revision := by
  cases h with
  | update track =>
    intro u hu
    rcases List.mem_append.1 hu with hu | hu
    · exact Nat.le_succ_of_le (hs u hu)
    · rw [List.mem_singleton.1 hu]
      exact Nat.le_refl _
  | mark i r hupdate =>
    have hr : r ≤ s.worker.source.revision := hs (.mark r) (List.mem_of_getElem? hupdate)
    intro u hu
    rcases List.mem_or_eq_of_mem_set hu with hu | rfl
    · exact hs u hu
    · exact hr
  | cancelStale i r hupdate => exact fun u hu => hs u (List.mem_of_mem_eraseIdx hu)
  | notify | notifySpare | wake => simpa only [Worker.wake_source] using hs
  | advance =>
    have hadvance := Worker.advance_advance s.worker
    simpa only [hadvance.source] using hs
  | ignoreFrame | beginFrame | configure | askAgain | restyle | keepEnabled | toggle | endFrame
  | ask | goOn | submit | pollNothing | poll | recycle | cancel | tick => exact hs

theorem Move.attentive (h : Move s e t) (ho : s.worker.Orderly) (hc : s.Coherent)
    (hs : s.Attentive) : t.Attentive := by
  have hupdates := h.updates_le hs.updates
  have hnews := h.hasNews
  cases h with
  | ignoreFrame | keepEnabled => exact hs
  | beginFrame viewport hcall | configure config hcall | restyle config hcall
  | endFrame viewport hcall | goOn viewport hcall =>
    refine hs.transfer (hnews (by simp [Asks, hcall])) hupdates
      (fun h => ⟨h.done, h.computation⟩) ?_
    exact fun hawaits => ⟨⟨hawaits.1, hawaits.2.1, by simp [HandsBack, hcall]⟩, fun _ => id⟩
  | askAgain config viewport hcall =>
    exact .of_hasNews (.inr (.inr ⟨viewport, false, rfl⟩)) hupdates
  | toggle enabled hcall hne =>
    -- The layer has forgotten its tile, and will ask again.
    refine hs.transfer (hnews (by simp [Asks])) hupdates id ?_
    exact fun hawaits => (hawaits.2.1 rfl).elim
  | ask viewport hcall hcause => exact .of_hasNews (.inr (.inr ⟨viewport, true, rfl⟩)) hupdates
  | submit viewport isFrame hcall =>
    -- All work from here on is done for this request, on the track of now.
    exact ⟨hupdates, fun _ => ho.timely_submit _ _ _, fun _ _ => Worker.busy_submit _ _ _ _⟩
  | notify isFrame hcall =>
    refine hs.transfer (hnews (by simp [Asks, hcall])) hupdates .wake ?_
    exact fun hawaits => ⟨⟨hawaits.1, hawaits.2.1, by simp [HandsBack, hcall]⟩, fun _ => .wake⟩
  | pollNothing hcall hdone =>
    refine hs.transfer (hnews (by simp [Asks, hcall])) hupdates .poll ?_
    exact fun hawaits =>
      ⟨⟨hawaits.1, hawaits.2.1, by simp [HandsBack, hcall]⟩, fun _ hbusy => hbusy.poll hdone⟩
  | poll task hcall hdone =>
    -- From here to the end of the call the layer has what it waited for.
    refine hs.transfer (hnews (by simp [Asks, hcall])) hupdates .poll ?_
    exact fun hawaits => (hawaits.2.2 (.inl ⟨_, rfl⟩)).elim
  | recycle task hcall =>
    refine hs.transfer (hnews (by simp [Asks, hcall])) hupdates
      (fun h => ⟨h.done, h.computation⟩) ?_
    exact fun hawaits => (hawaits.2.2 (.inr rfl)).elim
  | notifySpare hcall =>
    refine hs.transfer (hnews (by simp [Asks, hcall])) hupdates .wake ?_
    exact fun hawaits => by cases hawaits.1
  | cancel hcall =>
    have hlast := hc.call
    rw [hcall] at hlast
    exact ⟨hupdates, fun _ => ho.timely_cancel, fun _ hawaits => (hawaits.2.1 hlast.1).elim⟩
  | update track =>
    exact .of_hasNews (.inr (.inl ⟨_, List.mem_append_right _ (List.mem_singleton_self _)⟩)) hupdates
  | mark i r hupdate => exact .of_hasNews (.inl rfl) hupdates
  | cancelStale i r hupdate =>
    -- What is on the current track is not older than the replacement.
    have hr : r ≤ s.worker.source.revision :=
      hs.updates (.cancelStale r) (List.mem_of_getElem? hupdate)
    exact hs.transfer (hnews (by simp [Asks])) hupdates (fun h => h.cancelStale r)
      fun hawaits => ⟨hawaits, fun ht hbusy => hbusy.cancelStale ht hr⟩
  | advance =>
    have hadvance := Worker.advance_advance s.worker
    exact hs.transfer (hnews (by simp [Asks])) hupdates (fun h => h.advance hadvance)
      fun hawaits => ⟨hawaits, fun ht hbusy => hbusy.advance ho ht hadvance⟩
  | wake =>
    exact hs.transfer (hnews (by simp [Asks])) hupdates .wake
      fun hawaits => ⟨hawaits, fun _ => .wake⟩
  | tick =>
    exact hs.transfer (hnews (by simp [Asks])) hupdates (fun h => ⟨h.done, h.computation⟩)
      fun hawaits => ⟨hawaits, fun _ => id⟩

theorem HasPast.attentive {config : TrackConfig N} {past : Past W N} (h : HasPast config past s) :
    s.Attentive := by
  induction h with
  | start =>
    have hstate (hawaits : (new config : LayerSystem W N).AwaitsTask) : False := by
      cases hawaits.1
    have hupdates (u : TrackUpdate) (hu : u ∈ (new config : LayerSystem W N).updates) : False := by
      cases hu
    exact ⟨fun u hu => (hupdates u hu).elim, fun _ => Worker.timely_new, fun _ h => (hstate h).elim⟩
  | next e h he ih =>
    exact (move_of_step he).attentive (HasPast.orderly h) (HasPast.coherent h) ih

end LayerSystem

end TourMap
