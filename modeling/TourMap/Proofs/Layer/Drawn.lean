import TourMap.Proofs.Layer.Nearness

/-!
# Drawn: whatever is drawn was asked for

Geometry that is outdated, or was computed under settings that have changed since, is still drawn
until there is something better. But at every moment it is geometry that the layer once asked for, at
the position of a frame and under settings that it had (`Derives`).
-/

namespace TourMap.LayerSystem

variable {W N : Type} [Mercator W] [Arithmetic N] [Resolution W N] {s t : LayerSystem W N}
  {e : Event W N} {past : Past W N} {config : TrackConfig N} {P : MapPosition W → Prop}
  {C : BuildSettings N → Prop}

/-- Whether the settings and those of the last request have a property, and the layer draws nothing
or the geometry of a track for such settings and for a position with another property. -/
structure Derives (P : MapPosition W → Prop) (C : BuildSettings N → Prop) (past : Past W N)
    (s : LayerSystem W N) : Prop where
  settings : C s.layer.settings
  order : ∀ o, Worker.latestOrder (workerPast past) = some o → C o.settings
  drawn : s.layer.active.buckets = .empty ∨ ∃ track settings style,
    P s.layer.active.position ∧ C settings ∧
      (Worker.tracks (workerPast past))[s.layer.active.revision]? = some track ∧
      s.layer.active.buckets =
        (Builder.geometry track s.layer.active.position settings).setStyle style

theorem Derives.transfer (hs : Derives P C past s) (hasks : ¬ s.Asks e)
    (hsettings : C t.layer.settings) (hactive : t.layer.active = s.layer.active) :
    Derives P C ((s, e) :: past) t where
  settings := hsettings
  order := by
    rw [latestOrder_workerPast_cons hasks]
    exact hs.order
  drawn := by
    rw [hactive]
    refine hs.drawn.imp id ?_
    rintro ⟨track, settings, style, hposition, hC, htrack, hbuckets⟩
    exact ⟨track, settings, style, hposition, hC, getElem?_tracks_workerPast_cons htrack, hbuckets⟩

theorem Derives.restyle (hs : Derives P C past s) {config : TrackConfig N} {redraws : Nat}
    (hconfig : C (.ofConfig config.sanitized)) :
    Derives P C ((s, .config config false) :: past) { s with
      layer := (s.layer.setConfig config).restyle
      worker := { s.worker with redraws } } where
  settings := hconfig
  order := hs.order
  drawn := by
    rcases hs.drawn with hempty | ⟨track, settings, style, hposition, hC, htrack, hbuckets⟩
    · left
      change s.layer.active.buckets.setStyle _ = _
      rw [hempty]
      rfl
    · -- The buckets get another style, in place of the one that they had.
      refine .inr ⟨track, settings, (s.layer.setConfig config).settings.style, hposition, hC,
        htrack, ?_⟩
      change s.layer.active.buckets.setStyle _ = _
      rw [hbuckets, RenderBuckets.setStyle_setStyle]
      rfl

/-- A task is polled with the position and the settings of the last request. -/
theorem Derives.poll {memory : Nat → Array (GeoPoint W)} {task : RenderTask W N}
    (hs : Derives P C past s) (hstems : Stems P past s)
    (hb : Worker.Booked memory (workerPast past) s.worker) (hcall : s.call = some .poll)
    (hdone : s.worker.state.done = some task) :
    Derives P C ((s, .proceed) :: past) { s with
      worker := s.worker.poll.2
      layer := { s.layer with active := task }.restyle
      call := some (.recycle s.layer.active) } := by
  have hasks : ¬ s.Asks .proceed := by simp [Asks, hcall]
  obtain ⟨settings, track, hopen, htrack, hbuckets⟩ := hb.done task hdone
  have hlatest := Worker.latestOrder_of_openOrder hopen
  refine ⟨hs.settings, ?_, .inr ⟨track, settings, s.layer.settings.style, ?_, ?_, ?_, ?_⟩⟩
  · rw [latestOrder_workerPast_cons hasks]
    exact hs.order
  · exact hstems.order _ hlatest
  · exact hs.order _ hlatest
  · exact getElem?_tracks_workerPast_cons htrack
  · change task.buckets.setStyle _ = _
    rw [hbuckets]
    rfl

theorem Move.derives {memory : Nat → Array (GeoPoint W)} (h : Move s e t)
    (hs : Derives P C past s) (hstems : Stems P past s)
    (hb : Worker.Booked memory (workerPast past) s.worker)
    (hconfig : ∀ c verticesAffected, e = .config c verticesAffected → C (.ofConfig c.sanitized)) :
    Derives P C ((s, e) :: past) t := by
  -- Geometry is asked for by one move and taken over by another one; a third one restyles it.
  cases h with
  | configure config hcall => exact hs.transfer (by simp [Asks]) (hconfig _ _ rfl) rfl
  | askAgain config viewport hcall => exact hs.transfer (by simp [Asks]) (hconfig _ _ rfl) rfl
  | restyle config hcall => exact hs.restyle (hconfig _ _ rfl)
  | submit viewport isFrame hcall =>
    have hpast : workerPast ((s, .proceed) :: past) =
        (s.worker, .submit viewport s.layer.settings s.layer.delay) :: workerPast past := by
      simp only [workerPast, workerEvent?, hcall]
    refine ⟨hs.settings, ?_, ?_⟩
    · rw [hpast]
      rintro o ⟨⟩
      exact hs.settings
    · rw [hpast]
      exact hs.drawn
  | poll task hcall hdone => exact hs.poll hstems hb hcall hdone
  | ask viewport hcall | goOn viewport hcall | endFrame viewport hcall | notify isFrame hcall
  | pollNothing hcall | recycle task hcall | notifySpare hcall | cancel hcall =>
    exact hs.transfer (by simp [Asks, hcall]) hs.settings rfl
  | ignoreFrame | beginFrame | keepEnabled | toggle | update | mark | cancelStale | advance | wake
  | tick => exact hs.transfer (by simp [Asks]) hs.settings rfl

/-- Whatever the threads did and in whatever order: if the frames were shown at positions with a
property, and all configurations led to settings with another one, then the layer draws nothing, or
the geometry of a track for such a position and such settings. -/
theorem HasPast.derives {memory : Nat → Array (GeoPoint W)} (h : HasPast config past s)
    (hstored : ∀ m track, (m, .update track) ∈ past → track.StoredIn memory)
    (hframes : ∀ m v, (m, .frame v) ∈ past → P v) (hstart : C (.ofConfig config.sanitized))
    (hconfigs : ∀ m c verticesAffected, (m, .config c verticesAffected) ∈ past →
      C (.ofConfig c.sanitized)) : Derives P C past s := by
  induction h with
  | start => exact ⟨hstart, nofun, .inl rfl⟩
  | @next past s t e h he ih =>
    have hstored' (m : LayerSystem W N) (track : TrackData W)
        (hmem : (m, .update track) ∈ past) : track.StoredIn memory :=
      hstored m track (List.mem_cons_of_mem _ hmem)
    have hframes' (m : LayerSystem W N) (v : MapPosition W) (hmem : (m, .frame v) ∈ past) : P v :=
      hframes m v (List.mem_cons_of_mem _ hmem)
    have hearlier := ih hstored' hframes' fun m c b hmem =>
      hconfigs m c b (List.mem_cons_of_mem _ hmem)
    refine (move_of_step he).derives hearlier (HasPast.stems h hframes')
      (HasPast.booked h hstored') fun c b hc => hconfigs s c b ?_
    rw [hc]
    exact List.mem_cons_self

end TourMap.LayerSystem
