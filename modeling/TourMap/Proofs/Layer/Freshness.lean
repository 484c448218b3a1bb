import TourMap.Proofs.Layer.Attention

/-!
# Freshness: geometry that is called fresh is fresh

From the moment a task is polled until geometry is asked for again, the layer shows the answer to the
request that was made last (`Shows`), restyled whenever the style changes. If nothing is known of
another track, it is the geometry of the current one.
-/

namespace TourMap

variable {W N : Type}

namespace LayerSystem

variable [Mercator W] [Arithmetic N] [Resolution W N] {s t : LayerSystem W N} {e : Event W N}
  {past : Past W N}

/-! ## 1. The tile of the last request -/

/-- Whether the tile of the layer, if there is one, is that of the request made last. A layer that is
about to ask has noted the tile already. -/
def Aimed (past : Past W N) (s : LayerSystem W N) : Prop :=
  (∀ viewport isFrame, s.call ≠ some (.submit viewport isFrame)) →
    ∀ tile, s.layer.lastTile = some tile →
      ∃ o, Worker.latestOrder (workerPast past) = some o ∧ o.position.tileIndex = tile

omit [Arithmetic N] [Resolution W N] in
theorem Aimed.transfer (hs : Aimed past s) (hasks : ¬ s.Asks e)
    (hcall : ∀ viewport isFrame, s.call = some (.submit viewport isFrame) →
      t.call = some (.submit viewport isFrame))
    (htile : t.layer.lastTile = none ∨ t.layer.lastTile = s.layer.lastTile) :
    Aimed ((s, e) :: past) t := by
  intro hnot tile ht
  rw [latestOrder_workerPast_cons hasks]
  rcases htile with hnone | hlast
  · rw [hnone] at ht
    cases ht
  · exact hs (fun viewport isFrame h => hnot viewport isFrame (hcall viewport isFrame h)) tile
      (hlast ▸ ht)

theorem Move.aimed (h : Move s e t) (hc : s.Coherent) (hs : Aimed past s) :
    Aimed ((s, e) :: past) t := by
  cases h with
  | submit viewport isFrame hcall =>
    -- The tile was noted when the call began.
    intro _ tile htile
    have hfits := hc.call
    rw [hcall] at hfits
    refine ⟨⟨viewport, s.layer.settings⟩, ?_, ?_⟩
    · simp only [workerPast, workerEvent?, hcall, Worker.latestOrder]
    · exact Option.some.inj (hfits.2.1 ▸ htile)
  | askAgain config viewport hcall | ask viewport hcall =>
    exact fun hnot => (hnot viewport _ rfl).elim
  | toggle enabled hcall => exact hs.transfer (by simp [Asks]) (by simp [hcall]) (.inl rfl)
  | beginFrame viewport hcall | configure config hcall | restyle config hcall
  | endFrame viewport hcall | goOn viewport hcall | notify isFrame hcall | pollNothing hcall
  | poll task hcall | recycle task hcall | notifySpare hcall | cancel hcall =>
    exact hs.transfer (by simp [Asks, hcall]) (by simp [hcall]) (.inr rfl)
  | ignoreFrame | keepEnabled | update | mark | cancelStale | advance | wake | tick =>
    exact hs.transfer (by simp [Asks]) (fun _ _ h => h) (.inr rfl)

/-! ## 2. What is shown -/

/-- Whether the layer has polled a task since it asked. -/
def HasPolled (s : LayerSystem W N) : Prop := s.layer.state = .geometryFresh ∨ s.HandsBack

/-- Whether the layer shows the answer to the request made last, in the current style, and nothing
else is in progress. -/
structure Shows (past : Past W N) (s : LayerSystem W N) : Prop where
  idle : s.worker.Idle
  revision : ¬ s.HasNews → s.layer.active.revision = s.worker.source.revision
  answer : ∃ o track, Worker.latestOrder (workerPast past) = some o ∧
    s.layer.active.position = o.position ∧ s.layer.lastTile = some o.position.tileIndex ∧
    (Worker.tracks (workerPast past))[s.layer.active.revision]? = some track ∧
    s.layer.active.buckets =
      (Builder.geometry track o.position o.settings).setStyle s.layer.settings.style

/-- A step that changes neither the drawn geometry nor what it is compared with. -/
theorem Shows.transfer (hs : Shows past s) (h : Move s e t) (hasks : ¬ s.Asks e)
    (hidle : s.worker.Idle → t.worker.Idle)
    (hrevision : ¬ t.HasNews → t.worker.source.revision = s.worker.source.revision)
    (hactive : t.layer.active = s.layer.active) (htile : t.layer.lastTile = s.layer.lastTile)
    (hsettings : t.layer.settings = s.layer.settings) : Shows ((s, e) :: past) t where
  idle := hidle hs.idle
  revision hquiet := by
    rw [hactive, hrevision hquiet]
    exact hs.revision fun hnews => hquiet (h.hasNews hasks hnews)
  answer := by
    obtain ⟨o, track, horder, hposition, hlast, htrack, hbuckets⟩ := hs.answer
    rw [latestOrder_workerPast_cons hasks, hactive, htile, hsettings]
    exact ⟨o, track, horder, hposition, hlast, getElem?_tracks_workerPast_cons htrack, hbuckets⟩

/-- The polled task is the answer to the request made last. -/
theorem shows_poll {memory : Nat → Array (GeoPoint W)} {task : RenderTask W N}
    (hcall : s.call = some .poll) (hdone : s.worker.state.done = some task)
    (ho : s.worker.Orderly) (hc : s.Coherent) (ha : s.Attentive) (haimed : Aimed past s)
    (hb : Worker.Booked memory (workerPast past) s.worker) :
    Shows ((s, .proceed) :: past) { s with
      worker := s.worker.poll.2
      layer := { s.layer with active := task }.restyle
      call := some (.recycle s.layer.active) } := by
  have hasks : ¬ s.Asks .proceed := by simp [Asks, hcall]
  have hfits := hc.call
  rw [hcall] at hfits
  obtain ⟨tile, htile⟩ := Option.ne_none_iff_exists'.1 hfits.2.1
  obtain ⟨o, ho', hindex⟩ := haimed (by simp [hcall]) tile htile
  obtain ⟨settings, track, hopen, htrack, hbuckets⟩ := hb.done task hdone
  -- The open order is the latest one.
  rw [Worker.latestOrder_of_openOrder hopen] at ho'
  obtain rfl := Option.some.inj ho'
  refine ⟨ho.idle_poll (by rw [hdone]; exact Option.some_ne_none task), ?_, ?_⟩
  · intro hquiet
    have hquiet' : ¬ s.HasNews := by simpa [HasNews, hcall, Worker.poll] using hquiet
    exact (ha.timely hquiet').done task hdone
  · refine ⟨⟨task.position, settings⟩, track, ?_, rfl, ?_, ?_, ?_⟩
    · rw [latestOrder_workerPast_cons hasks, Worker.latestOrder_of_openOrder hopen]
    · rw [hindex]
      exact htile
    · exact getElem?_tracks_workerPast_cons htrack
    · rw [← hbuckets]
      rfl

/-- Only the drawn style can change as long as geometry is not asked for. -/
theorem shows_restyle (hs : Shows past s) {config : TrackConfig N} {redraws : Nat} :
    Shows ((s, .config config false) :: past) { s with
      layer := (s.layer.setConfig config).restyle
      worker := { s.worker with redraws } } where
  idle := ⟨hs.idle.request, hs.idle.done, hs.idle.job⟩
  revision := hs.revision
  answer := by
    obtain ⟨o, track, horder, hposition, hlast, htrack, hbuckets⟩ := hs.answer
    refine ⟨o, track, horder, hposition, hlast, htrack, ?_⟩
    -- The style that was drawn until now is gone, as if it had never been set.
    change s.layer.active.buckets.setStyle _ = _
    rw [hbuckets, RenderBuckets.setStyle_setStyle]
    rfl

theorem Move.shows {memory : Nat → Array (GeoPoint W)} (h : Move s e t) (ho : s.worker.Orderly)
    (hc : s.Coherent) (ha : s.Attentive) (haimed : Aimed past s)
    (hb : Worker.Booked memory (workerPast past) s.worker) (hs : s.HasPolled → Shows past s)
    (hpolled : t.HasPolled) : Shows ((s, e) :: past) t := by
  have hmove := h
  have hfits := hc.call
  cases h with
  | poll task hcall hdone => exact shows_poll hcall hdone ho hc ha haimed hb
  | restyle config hcall => exact shows_restyle (hs hpolled)
  | ignoreFrame | keepEnabled =>
    exact (hs hpolled).transfer hmove (by simp [Asks]) id (fun _ => rfl) rfl rfl rfl
  | beginFrame viewport hcall | endFrame viewport hcall | goOn viewport hcall =>
    have hfresh : s.layer.state = .geometryFresh := by simpa [HasPolled, HandsBack] using hpolled
    exact (hs (.inl hfresh)).transfer hmove (by simp [Asks, hcall]) id (fun _ => rfl) rfl rfl rfl
  | configure config hcall hvoid =>
    -- There is no fresh geometry without a viewport and a track.
    have hfresh : s.layer.state = .geometryFresh := by
      simpa [HasPolled, HandsBack, hcall] using hpolled
    have hdata : s.layer.state ≠ .noData := by simp [hfresh]
    rcases hvoid with hnone | hnone
    · exact (hc.viewport hdata hnone).elim
    · exact (hdata hnone).elim
  -- Where geometry is asked for, it is not fresh any more.
  | askAgain | ask => simp [HasPolled, HandsBack, TourLayer.expect] at hpolled
  | toggle enabled hcall hne =>
    rcases hpolled with hfresh | hback
    · exact (toggledState_ne_fresh _ hfresh).elim
    · cases enabled <;> simp [HandsBack] at hback
  | submit viewport isFrame hcall =>
    rw [hcall] at hfits
    simp [HasPolled, HandsBack, hfits.2.2] at hpolled
  | notify isFrame hcall =>
    have hfresh : s.layer.state = .geometryFresh := by
      cases isFrame <;> simpa [HasPolled, HandsBack] using hpolled
    exact (hs (.inl hfresh)).transfer hmove (by simp [Asks, hcall]) .wake
      (fun _ => by rw [Worker.wake_source]) rfl rfl rfl
  | pollNothing hcall hdone =>
    have hfresh : s.layer.state = .geometryFresh := by simpa [HasPolled, HandsBack] using hpolled
    exact (hs (.inl hfresh)).transfer hmove (by simp [Asks, hcall]) (fun h => ⟨h.request, rfl, h.job⟩)
      (fun _ => rfl) rfl rfl rfl
  | recycle task hcall =>
    exact (hs (.inr (.inl ⟨task, hcall⟩))).transfer hmove (by simp [Asks, hcall])
      (fun h => ⟨h.request, h.done, h.job⟩) (fun _ => rfl) rfl rfl rfl
  | notifySpare hcall =>
    exact (hs (.inr (.inr hcall))).transfer hmove (by simp [Asks, hcall]) .wake
      (fun _ => by rw [Worker.wake_source]) rfl rfl rfl
  | cancel hcall =>
    rw [hcall] at hfits
    simp [HasPolled, HandsBack, hfits.2] at hpolled
  | update track =>
    -- The revision is another one, but this is news.
    refine (hs hpolled).transfer hmove (by simp [Asks]) (fun h => ⟨h.request, h.done, h.job⟩) ?_
      rfl rfl rfl
    intro hquiet
    exact (hquiet (.inr (.inl ⟨_, List.mem_append_right _ (List.mem_singleton_self _)⟩))).elim
  | mark i r hupdate =>
    exact (hs hpolled).transfer hmove (by simp [Asks]) (fun h => ⟨h.request, h.done, h.job⟩)
      (fun _ => rfl) rfl rfl rfl
  | cancelStale i r hupdate =>
    exact (hs hpolled).transfer hmove (by simp [Asks]) (fun h => h.cancelStale r)
      (fun _ => rfl) rfl rfl rfl
  | advance =>
    have hadvance := Worker.advance_advance s.worker
    exact (hs hpolled).transfer hmove (by simp [Asks]) (fun h => h.advance hadvance)
      (fun _ => by rw [hadvance.source]) rfl rfl rfl
  | wake =>
    exact (hs hpolled).transfer hmove (by simp [Asks]) .wake (fun _ => by rw [Worker.wake_source])
      rfl rfl rfl
  | tick =>
    exact (hs hpolled).transfer hmove (by simp [Asks]) (fun h => ⟨h.request, h.done, h.job⟩)
      (fun _ => rfl) rfl rfl rfl

/-! ## 3. Histories -/

variable {config : TrackConfig N} {memory : Nat → Array (GeoPoint W)}

theorem HasPast.aimed (h : HasPast config past s) : Aimed past s := by
  induction h with
  | start => exact fun _ _ htile => by cases htile
  | next e h he ih => exact (move_of_step he).aimed (HasPast.coherent h) ih

theorem HasPast.shows (h : HasPast config past s)
    (hstored : ∀ m track, (m, .update track) ∈ past → track.StoredIn memory) :
    s.HasPolled → Shows past s := by
  induction h with
  | start =>
    intro hpolled
    rcases hpolled with hfresh | ⟨_, hback⟩ | hback
    · cases hfresh
    · cases hback
    · cases hback
  | @next past s t e h he ih =>
    have hearlier (m : LayerSystem W N) (track : TrackData W) (hmem : (m, .update track) ∈ past) :
        track.StoredIn memory := hstored m track (List.mem_cons_of_mem _ hmem)
    exact (move_of_step he).shows (HasPast.orderly h) (HasPast.coherent h) (HasPast.attentive h)
      (HasPast.aimed h) (HasPast.booked h hearlier) (ih hearlier)

/-- While there is no news, what is shown is the geometry of the current track. -/
theorem HasPast.shows_current (h : HasPast config past s)
    (hstored : ∀ m track, (m, .update track) ∈ past → track.StoredIn memory)
    (hpolled : s.HasPolled) (hquiet : ¬ s.HasNews) :
    s.layer.active.revision = s.worker.source.revision ∧
      ∃ o, Worker.latestOrder (workerPast past) = some o ∧
        s.layer.active.position = o.position ∧
        s.layer.lastTile = some o.position.tileIndex ∧
        s.layer.active.buckets =
          (Builder.geometry s.worker.source.track o.position o.settings).setStyle
            s.layer.settings.style := by
  have hshows := h.shows hstored hpolled
  have hrevision := hshows.revision hquiet
  obtain ⟨o, track, horder, hposition, hlast, htrack, hbuckets⟩ := hshows.answer
  -- The track of the current revision is the current track.
  rw [hrevision, (h.booked hstored).track] at htrack
  obtain rfl := Option.some.inj htrack
  exact ⟨hrevision, o, horder, hposition, hlast, hbuckets⟩

omit [Mercator W] [Arithmetic N] [Resolution W N] in
theorem state_eq_geometryFresh :
    s.state = .geometryFresh ↔
      s.layer.state = .geometryFresh ∧ s.worker.source.dirty = false := by
  unfold state
  cases s.layer.state <;> cases s.worker.source.dirty <;> simp

/-- Whatever the threads did and in whatever order: if a layer in no call reports fresh geometry, and
no replacement of the track is still to raise the flag, then the layer is enabled, draws the geometry
of the current track at the position and with the settings of the last request, in its current style,
as a builder computes it that has not built before, and nothing is queued, running or published. The
tracks may come from anywhere, as long as arrays of the same name hold the same points. -/
theorem fresh_geometry_is_current (h : HasPast config past s)
    (hstored : ∀ m track, (m, .update track) ∈ past → track.StoredIn memory)
    (hcall : s.call = none) (hfresh : s.state = .geometryFresh)
    (hmarked : ∀ r, .mark r ∉ s.updates) :
    s.layer.enabled = true ∧
      s.layer.active.revision = s.worker.source.revision ∧
      (s.worker.state.request = none ∧ s.worker.state.done = none ∧
        s.worker.state.running = false ∧ s.worker.phase.job? = none) ∧
      ∃ o, Worker.latestOrder (workerPast past) = some o ∧
        s.layer.active.position = o.position ∧
        s.layer.lastTile = some o.position.tileIndex ∧
        s.layer.active.buckets =
          (Builder.geometry s.worker.source.track o.position o.settings).setStyle
            s.layer.settings.style := by
  obtain ⟨hstate, hdirty⟩ := state_eq_geometryFresh.1 hfresh
  have hquiet : ¬ s.HasNews := by simp [HasNews, hcall, hdirty, hmarked]
  have hidle := (h.shows hstored (.inl hstate)).idle
  have hrunning : s.worker.state.running = false := by
    rw [h.orderly.running_eq, hidle.job]
    rfl
  obtain ⟨hrevision, hanswer⟩ := h.shows_current hstored (.inl hstate) hquiet
  exact ⟨h.coherent.enabled hstate, hrevision,
    ⟨hidle.request, hidle.done, hrunning, hidle.job⟩, hanswer⟩

/-- A layer gets a track and shows a frame, and shows it again when the geometry is there. -/
def secondFrame : List (Event Double Single) :=
  [.update shortTrack, .proceedUpdate 0, .proceedUpdate 0, .frame .corner,
    .proceed, .proceed, .proceed, .proceed,
    .advance, .advance, .advance, .advance, .advance,
    .frame .corner, .proceed, .proceed, .proceed, .proceed]

theorem fresh_geometry_is_current_at_secondFrame :
    ∃ past s, HasPast .default past s ∧ past.map Prod.snd = secondFrame.reverse ∧
      s.state = .geometryFresh ∧ s.layer.active.revision = s.worker.source.revision := by
  have hrun : (secondFrame.foldlM step (new .default)).any
      (fun s => s.call.isNone = true ∧ s.state = .geometryFresh ∧ s.updates = []) = true := by
    decide +kernel
  obtain ⟨past, s, hpast, hevents, hcall, hfresh, hupdates⟩ := exists_hasPast_of_run hrun
  have hstored (m : LayerSystem Double Single) (track : TrackData Double)
      (hmem : (m, .update track) ∈ past) : track.StoredIn fun _ => shortTrack.points := by
    have hevent := History.mem_events hmem hevents
    simp only [secondFrame, List.mem_cons, List.not_mem_nil, Event.update.injEq, reduceCtorEq,
      or_false] at hevent
    exact .inr (by rw [hevent])
  exact ⟨past, s, hpast, hevents, hfresh,
    (fresh_geometry_is_current hpast hstored (Option.isNone_iff_eq_none.1 hcall) hfresh
      (by simp [hupdates])).2.1⟩

end LayerSystem

end TourMap
