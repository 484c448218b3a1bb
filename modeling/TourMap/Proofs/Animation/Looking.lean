import TourMap.Proofs.Animation.Turn
import TourMap.Proofs.Layer.Freshness
import TourMap.Proofs.Layer.PendingWork

/-!
# Looking: a layer that is shown one frame after the other

A layer gets one track and is shown the frames at the positions `v 0`, `v 1` and so on, the last one
any number of times. Once it has looked at the frame `m` (`Looked`), its last request is the one for
the `turn` of `m`, whatever became of the requests before.
-/

namespace TourMap.LayerSystem

variable {W N : Type} [Mercator W] [Arithmetic N] [Resolution W N] {s t : LayerSystem W N}
  {e : Event W N} {past : Past W N}

/-! ## 1. What stays as it is -/

/-- The parts of a layer that no frame changes: it is enabled, its settings are the given ones, its
only track is the given one, and no computation is cut off. -/
structure Steady (config : TrackConfig N) (track : TrackData W) (past : Past W N)
    (s : LayerSystem W N) : Prop where
  hasPast : HasPast config past s
  only : ∀ m other, (m, .update other) ∈ past → other = track
  settings : s.layer.settings = .ofConfig config.sanitized
  enabled : s.layer.enabled = true
  cancelled : s.worker.state.cancelled = false

variable {config : TrackConfig N} {track : TrackData W}

theorem steady_new : Steady config track [] (new config) :=
  ⟨.start, fun _ _ h => (List.not_mem_nil h).elim, rfl, rfl, rfl⟩

theorem Move.settings (h : Move s e t) (hconfig : ∀ c b, e ≠ .config c b) :
    t.layer.settings = s.layer.settings := by
  cases h with
  | configure | askAgain | restyle => exact (hconfig _ _ rfl).elim
  | ignoreFrame | beginFrame | keepEnabled | toggle | endFrame | ask | goOn | submit | notify
  | pollNothing | poll | recycle | notifySpare | cancel | update | mark | cancelStale | advance
  | wake | tick => rfl

theorem Move.enabled (h : Move s e t) (henable : ∀ b, e ≠ .enable b) :
    t.layer.enabled = s.layer.enabled := by
  cases h with
  | toggle => exact (henable _ rfl).elim
  | ignoreFrame | beginFrame | configure | askAgain | restyle | keepEnabled | endFrame | ask | goOn
  | submit | notify | pollNothing | poll | recycle | notifySpare | cancel | update | mark
  | cancelStale | advance | wake | tick => rfl

theorem Steady.next (h : Steady config track past s) (he : s.step e = some t)
    (hconfig : ∀ c b, e ≠ .config c b) (henable : ∀ b, e ≠ .enable b)
    (hupdate : ∀ other, e = .update other → other = track) (hcuts : ¬ s.Cuts e) :
    Steady config track ((s, e) :: past) t := by
  have hmove := move_of_step he
  refine ⟨h.hasPast.next e he, ?_, ?_, ?_, ?_⟩
  · intro m other hmem
    rcases List.mem_cons.1 hmem with heq | hmem
    · exact hupdate other (Prod.mk.inj heq).2.symm
    · exact h.only m other hmem
  · rw [hmove.settings hconfig, h.settings]
  · rw [hmove.enabled henable, h.enabled]
  · -- A token is cancelled only where a computation is cut off.
    rcases hmove.token with ⟨-, hsame, -⟩ | ⟨-, -, hcut⟩ | ⟨-, hnew⟩
    · rw [hsame, h.cancelled]
    · exact (hcuts hcut).elim
    · exact hnew

/-! ## 2. What the layer has looked at -/

/-- A layer that was not shown a frame with a track yet. -/
structure Blank (s : LayerSystem W N) : Prop where
  state : s.layer.state = .noData
  lastTile : s.layer.lastTile = none
  idle : s.worker.Idle

/-- A layer that has looked at the frame `m`. It has asked for the `turn` of `m`, or is about to. -/
structure Looked (track : TrackData W) (v : Nat → MapPosition W) (past : Past W N)
    (s : LayerSystem W N) (m : Nat) : Prop where
  state : s.layer.state = .geometryStale ∨ s.layer.state = .geometryFresh
  dirty : s.worker.source.dirty = false
  track : s.worker.source.track = track
  updates : s.updates = []
  lastTile : s.layer.lastTile = some (v m).tileIndex
  asks : ∀ viewport isFrame, s.call = some (.submit viewport isFrame) → viewport = v (turn v m)
  asked : (∀ viewport isFrame, s.call ≠ some (.submit viewport isFrame)) →
    Worker.latestOrder (workerPast past) = some ⟨v (turn v m), s.layer.settings⟩

variable {v : Nat → MapPosition W} {m k : Nat}

omit [Arithmetic N] [Resolution W N] in
/-- A step that neither asks nor looks. -/
theorem Looked.transfer (h : Looked track v past s m) (hasks : ¬ s.Asks e)
    (hstate : t.layer.state = .geometryStale ∨ t.layer.state = .geometryFresh)
    (hsource : t.worker.source = s.worker.source) (hupdates : t.updates = s.updates)
    (hlast : t.layer.lastTile = s.layer.lastTile) (hsettings : t.layer.settings = s.layer.settings)
    (hcall : ∀ viewport isFrame, t.call = some (.submit viewport isFrame) ↔
      s.call = some (.submit viewport isFrame)) : Looked track v ((s, e) :: past) t m where
  state := hstate
  dirty := by rw [hsource, h.dirty]
  track := by rw [hsource, h.track]
  updates := by rw [hupdates, h.updates]
  lastTile := by rw [hlast, h.lastTile]
  asks viewport isFrame hsubmit := h.asks viewport isFrame ((hcall viewport isFrame).1 hsubmit)
  asked hnot := by
    rw [latestOrder_workerPast_cons hasks, hsettings]
    exact h.asked fun viewport isFrame hsubmit =>
      hnot viewport isFrame ((hcall viewport isFrame).2 hsubmit)

omit [Arithmetic N] [Resolution W N] in
/-- A frame in the same tile changes nothing. -/
theorem Looked.succ (h : Looked track v past s m)
    (htile : (v (m + 1)).tileIndex = (v m).tileIndex) : Looked track v past s (m + 1) := by
  refine ⟨h.state, h.dirty, h.track, h.updates, ?_, ?_, ?_⟩
  · rw [htile, h.lastTile]
  · rw [turn_succ_of_eq htile]
    exact h.asks
  · rw [turn_succ_of_eq htile]
    exact h.asked

/-- What the layer has looked at when the frame `k` is due: nothing, the frame `k` already, or the
one before it. -/
inductive Before (track : TrackData W) (v : Nat → MapPosition W) (past : Past W N)
    (s : LayerSystem W N) : Nat → Prop where
  | first (hblank : s.Blank) (hnews : s.HasNews) (htrack : s.worker.source.track = track) :
    Before track v past s 0
  | again (k : Nat) (hlooked : Looked track v past s k) : Before track v past s k
  | moved (k : Nat) (hlooked : Looked track v past s k) : Before track v past s (k + 1)

omit [Arithmetic N] [Resolution W N] in
theorem Before.track_eq (h : Before track v past s k) : s.worker.source.track = track := by
  cases h with
  | first hblank hnews htrack => exact htrack
  | again k hlooked => exact hlooked.track
  | moved k hlooked => exact hlooked.track

omit [Arithmetic N] [Resolution W N] in
/-- A layer that asks for a frame has come to another tile, or had none. -/
theorem Before.turn_eq (h : Before track v past s k)
    (hcause : s.worker.source.dirty = true ∨
      s.layer.state ≠ .noData ∧ s.layer.lastTile ≠ some (v k).tileIndex) : turn v k = k := by
  cases h with
  | first hblank hnews htrack => rfl
  | again k hlooked =>
    rcases hcause with hdirty | ⟨-, htile⟩
    · rw [hlooked.dirty] at hdirty
      cases hdirty
    · exact (htile hlooked.lastTile).elim
  | moved k hlooked =>
    rcases hcause with hdirty | ⟨-, htile⟩
    · rw [hlooked.dirty] at hdirty
      cases hdirty
    · refine turn_succ_of_ne fun heq => htile ?_
      rw [hlooked.lastTile, heq]

/-- The layer asks for a frame if it is the first one or in another tile than the one before. -/
theorem Move.looked_of_lookAtTrack (h : Move s .proceed t)
    (hcall : s.call = some (.lookAtTrack (v k))) (hupdates : s.updates = [])
    (hbefore : Before track v past s k) :
    Looked track v ((s, .proceed) :: past) t k ∧
      ∀ viewport, t.call ≠ some (.lookAtTrack viewport) := by
  cases h with
  | endFrame viewport hlook hdirty hstate =>
    cases hbefore with
    -- The news of the track has come to the flag by now.
    | first hblank hnews htrack => simp [HasNews, hdirty, hupdates, hcall] at hnews
    | again k hlooked | moved k hlooked =>
      rcases hlooked.state with h | h <;> rw [hstate] at h <;> cases h
  | ask viewport hlook hcause =>
    rw [hcall] at hlook
    cases hlook
    have hturn := hbefore.turn_eq hcause
    -- The request itself is still to come.
    refine ⟨⟨.inl rfl, rfl, hbefore.track_eq, hupdates, rfl, ?_, ?_⟩, by simp⟩
    · intro viewport isFrame hsubmit
      cases hsubmit
      rw [hturn]
    · exact fun hnot => (hnot _ _ rfl).elim
  | goOn viewport hlook hdirty hstate htile =>
    rw [hcall] at hlook
    cases hlook
    have hasks : ¬ s.Asks .proceed := by simp [Asks, hcall]
    cases hbefore with
    | first hblank hnews htrack =>
      rw [hblank.lastTile] at htile
      cases htile
    | again k hlooked =>
      exact ⟨hlooked.transfer hasks hlooked.state rfl rfl rfl rfl (by simp [hcall]), by simp⟩
    | moved k hlooked =>
      rw [hlooked.lastTile] at htile
      have hsame := hlooked.succ (Option.some.inj htile).symm
      exact ⟨hsame.transfer hasks hsame.state rfl rfl rfl rfl (by simp [hcall]), by simp⟩
  | submit viewport isFrame h | notify isFrame h | pollNothing h | poll task h | recycle task h
  | notifySpare h | cancel h =>
    rw [hcall] at h
    cases h

/-- A call goes on as it was begun. -/
theorem Move.looked_of_call (h : Move s .proceed t) (hc : s.Coherent)
    (hcall : ∀ viewport, s.call ≠ some (.lookAtTrack viewport)) (hlooked : Looked track v past s m) :
    Looked track v ((s, .proceed) :: past) t m ∧ ∀ viewport, t.call ≠ some (.lookAtTrack viewport) := by
  have hfits := hc.call
  cases h with
  | endFrame viewport hlook | ask viewport hlook | goOn viewport hlook =>
    exact (hcall viewport hlook).elim
  | submit viewport isFrame hsubmit =>
    refine ⟨⟨hlooked.state, hlooked.dirty, hlooked.track, hlooked.updates, hlooked.lastTile,
      by simp, fun _ => ?_⟩, by simp⟩
    rw [← hlooked.asks viewport isFrame hsubmit]
    simp only [workerPast, workerEvent?, hsubmit, Worker.latestOrder]
  | notify isFrame hnotify =>
    refine ⟨hlooked.transfer (by simp [Asks, hnotify]) hlooked.state (Worker.wake_source _) rfl rfl
      rfl (by cases isFrame <;> simp [hnotify]), by cases isFrame <;> simp⟩
  | pollNothing hpoll hdone =>
    exact ⟨hlooked.transfer (by simp [Asks, hpoll]) hlooked.state rfl rfl rfl rfl (by simp [hpoll]),
      by simp⟩
  | poll task hpoll hdone =>
    exact ⟨hlooked.transfer (by simp [Asks, hpoll]) hlooked.state rfl rfl rfl rfl (by simp [hpoll]),
      by simp⟩
  | recycle task hrecycle =>
    exact ⟨hlooked.transfer (by simp [Asks, hrecycle]) hlooked.state rfl rfl rfl rfl
      (by simp [hrecycle]), by simp⟩
  | notifySpare hspare =>
    exact ⟨hlooked.transfer (by simp [Asks, hspare]) (.inr rfl) (Worker.wake_source _) rfl rfl rfl
      (by simp [hspare]), by simp⟩
  | cancel hcancel =>
    -- A layer is cancelled only after it forgot its tile.
    rw [hcancel] at hfits
    have hlast := hlooked.lastTile
    rw [hfits.1] at hlast
    cases hlast

/-! ## 3. Steps of the worker -/

omit [Mercator W] [Arithmetic N] [Resolution W N] in
theorem Blank.transfer (h : s.Blank) (hstate : t.layer.state = s.layer.state)
    (hlast : t.layer.lastTile = s.layer.lastTile) (hidle : s.worker.Idle → t.worker.Idle) :
    t.Blank :=
  ⟨by rw [hstate, h.state], by rw [hlast, h.lastTile], hidle h.idle⟩

/-- A step that neither asks nor looks, whatever the layer has looked at. -/
theorem Before.transfer (h : Before track v past s k) (hmove : Move s e t) (hasks : ¬ s.Asks e)
    (hstate : t.layer.state = s.layer.state) (hlast : t.layer.lastTile = s.layer.lastTile)
    (hsettings : t.layer.settings = s.layer.settings)
    (hsource : t.worker.source = s.worker.source) (hupdates : t.updates = s.updates)
    (hcall : ∀ viewport isFrame, t.call = some (.submit viewport isFrame) ↔
      s.call = some (.submit viewport isFrame))
    (hidle : s.worker.Idle → t.worker.Idle) : Before track v ((s, e) :: past) t k := by
  cases h with
  | first hblank hnews htrack =>
    exact .first (hblank.transfer hstate hlast hidle) (hmove.hasNews hasks hnews)
      (by rw [hsource, htrack])
  | again k hlooked =>
    exact .again k (hlooked.transfer hasks (hstate ▸ hlooked.state) hsource hupdates hlast hsettings
      hcall)
  | moved k hlooked =>
    exact .moved k (hlooked.transfer hasks (hstate ▸ hlooked.state) hsource hupdates hlast hsettings
      hcall)

/-! ## 4. What comes of it -/

/-- A layer that waits for geometry after a frame has pending work. -/
theorem Looked.pendingWork (h : Looked track v past s m) (hs : Steady config track past s)
    (hcall : s.call = none) (hfresh : s.state ≠ .geometryFresh) : s.PendingWork := by
  have hstale : s.layer.state = .geometryStale :=
    h.state.resolve_right fun hstate => hfresh (state_eq_geometryFresh.2 ⟨hstate, h.dirty⟩)
  have hwaiting : s.Waiting := by
    refine ⟨hcall, h.updates, hs.enabled, hstale, ?_, h.dirty⟩
    rw [h.lastTile]
    exact Option.some_ne_none _
  exact (hwaiting.pendingWork_iff_cancelled hs.hasPast.orderly hs.hasPast.attentive).2 hs.cancelled

/-- Fresh geometry is that of the `turn` of the last frame. -/
theorem Looked.drawn {memory : Nat → Array (GeoPoint W)} (h : Looked track v past s m)
    (hs : Steady config track past s) (hstored : track.StoredIn memory) (hcall : s.call = none)
    (hfresh : s.layer.state = .geometryFresh) :
    s.layer.active.position = v (turn v m) ∧
      s.layer.active.buckets =
        Builder.geometry track (v (turn v m)) (.ofConfig config.sanitized) := by
  have hall (m : LayerSystem W N) (other : TrackData W) (hmem : (m, .update other) ∈ past) :
      other.StoredIn memory := by
    rw [hs.only m other hmem]
    exact hstored
  have hquiet : ¬ s.HasNews := by simp [HasNews, hcall, h.dirty, h.updates]
  obtain ⟨-, o, horder, hposition, -, hbuckets⟩ :=
    hs.hasPast.shows_current hall (.inl hfresh) hquiet
  rw [h.asked (by simp [hcall])] at horder
  obtain rfl := Option.some.inj horder
  rw [h.track, hs.settings, Builder.geometry_setStyle] at hbuckets
  exact ⟨hposition, hbuckets⟩

end TourMap.LayerSystem
