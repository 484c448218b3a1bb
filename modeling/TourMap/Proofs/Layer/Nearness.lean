import TourMap.Proofs.Geometry.Segment
import TourMap.Proofs.Layer.Freshness
import TourMap.Proofs.Position

/-!
# Nearness: fresh geometry is off by a tile at most

Once a frame is over, the tile of the last request is that of the frame, or there is no track to
draw (`Minds`). Whatever the layer asks for is asked for at the position of a frame (`Stems`). So
geometry that is called fresh was computed for a position on the tile of the frame shown last.
-/

namespace TourMap

open Arithmetic

/-- What a transform without scaling that moves by a tile at most shows in a window: all of it that
is a tile away from the border of what was drawn. -/
theorem RenderTransform.centered_subset {t : RenderTransform Rat} (hscale : t.scale = 1)
    (hx : |t.translate.x| ≤ 256) (hy : |t.translate.y| ≤ 256) (extent : Rat) :
    (Region.centered (extent - 256)).points ⊆
      (t.apply (N := Rat)) '' (Region.centered extent).points := by
  rintro q ⟨hleft, hright, htop, hbottom⟩
  obtain ⟨hx₁, hx₂⟩ := abs_le.1 hx
  obtain ⟨hy₁, hy₂⟩ := abs_le.1 hy
  change -(extent - 256) ≤ q.x at hleft
  change q.x ≤ extent - 256 at hright
  change -(extent - 256) ≤ q.y at htop
  change q.y ≤ extent - 256 at hbottom
  refine ⟨⟨q.x - t.translate.x, q.y - t.translate.y⟩, ⟨?_, ?_, ?_, ?_⟩, ?_⟩
  · change -extent ≤ q.x - t.translate.x
    linarith
  · change q.x - t.translate.x ≤ extent
    linarith
  · change -extent ≤ q.y - t.translate.y
    linarith
  · change q.y - t.translate.y ≤ extent
    linarith
  · change Point.mk ((q.x - t.translate.x) * t.scale + t.translate.x)
      ((q.y - t.translate.y) * t.scale + t.translate.y) = q
    rw [hscale, mul_one, mul_one, sub_add_cancel, sub_add_cancel]

namespace LayerSystem

variable {W N : Type} [Mercator W] [Arithmetic N] [Resolution W N] {s t : LayerSystem W N}
  {e : Event W N} {past : Past W N} {config : TrackConfig N}

/-! ## 1. Positions of frames -/

omit [Mercator W] [Arithmetic N] [Resolution W N] in
/-- The position of the last call, if that was a frame; the latest event comes first. -/
def lastFrame : List (Event W N) → Option (MapPosition W)
  | [] => none
  | .frame viewport :: _ => some viewport
  | .config _ _ :: _ | .enable _ :: _ => none
  | _ :: events => lastFrame events

omit [Mercator W] [Arithmetic N] [Resolution W N] in
theorem mem_of_lastFrame {v : MapPosition W} (h : lastFrame (past.map Prod.snd) = some v) :
    ∃ m, (m, .frame v) ∈ past := by
  induction past with
  | nil => cases h
  | cons entry past ih =>
    obtain ⟨m, e⟩ := entry
    cases e with
    | frame viewport =>
      obtain rfl := Option.some.inj h
      exact ⟨m, List.mem_cons_self⟩
    | config | enable => cases h
    | proceed | update | proceedUpdate | advance | wake | tick =>
      obtain ⟨m', hmem⟩ := ih h
      exact ⟨m', List.mem_cons_of_mem _ hmem⟩

/-- Whether every position that the layer holds, or that geometry was last asked for at, is one of
those with a property. -/
structure Stems (P : MapPosition W → Prop) (past : Past W N) (s : LayerSystem W N) : Prop where
  viewport : ∀ v, s.layer.viewport = some v → P v
  look : ∀ v, s.call = some (.lookAtTrack v) → P v
  submit : ∀ v isFrame, s.call = some (.submit v isFrame) → P v
  order : ∀ o, Worker.latestOrder (workerPast past) = some o → P o.position

variable {P : MapPosition W → Prop}

omit [Mercator W] [Arithmetic N] [Resolution W N] in
/-- A step that asks for nothing and brings no new position. -/
theorem Stems.transfer (hs : Stems P past s) (hasks : ¬ s.Asks e)
    (hviewport : t.layer.viewport = s.layer.viewport)
    (hlook : ∀ v, t.call = some (.lookAtTrack v) → s.call = some (.lookAtTrack v))
    (hsubmit : ∀ v isFrame, t.call = some (.submit v isFrame) → P v) :
    Stems P ((s, e) :: past) t where
  viewport v hv := hs.viewport v (hviewport ▸ hv)
  look v hv := hs.look v (hlook v hv)
  submit := hsubmit
  order o ho := hs.order o (by rwa [latestOrder_workerPast_cons hasks] at ho)

theorem Move.stems (h : Move s e t) (hs : Stems P past s)
    (hframe : ∀ v, e = .frame v → P v) : Stems P ((s, e) :: past) t := by
  cases h with
  | beginFrame viewport hcall henabled =>
    have hP := hframe viewport rfl
    refine ⟨?_, ?_, by simp, ?_⟩
    · rintro v ⟨⟩
      exact hP
    · rintro v ⟨⟩
      exact hP
    · rw [latestOrder_workerPast_cons (by simp [Asks])]
      exact hs.order
  | askAgain config viewport hcall hviewport hstate =>
    refine hs.transfer (by simp [Asks]) rfl (by simp) ?_
    rintro v isFrame ⟨⟩
    exact hs.viewport viewport hviewport
  | ask viewport hcall hcause =>
    refine hs.transfer (by simp [Asks, hcall]) rfl (by simp) ?_
    rintro v isFrame ⟨⟩
    exact hs.look viewport hcall
  | submit viewport isFrame hcall =>
    refine ⟨hs.viewport, by simp, by simp, ?_⟩
    simp only [workerPast, workerEvent?, hcall, Worker.latestOrder]
    rintro o ⟨⟩
    exact hs.submit viewport isFrame hcall
  | toggle enabled hcall hne =>
    refine hs.transfer (by simp [Asks]) rfl ?_ ?_ <;> cases enabled <;> simp
  | notify isFrame hcall =>
    refine hs.transfer (by simp [Asks, hcall]) rfl ?_ ?_ <;> cases isFrame <;> simp
  | configure config hcall | restyle config hcall | endFrame viewport hcall | goOn viewport hcall
  | pollNothing hcall | poll task hcall | recycle task hcall | notifySpare hcall | cancel hcall =>
    exact hs.transfer (by simp [Asks, hcall]) rfl (by simp [hcall]) (by simp [hcall])
  | ignoreFrame | keepEnabled | update | mark | cancelStale | advance | wake | tick =>
    exact hs.transfer (by simp [Asks]) rfl (fun _ h => h) hs.submit

theorem HasPast.stems (h : HasPast config past s) (hframes : ∀ m v, (m, .frame v) ∈ past → P v) :
    Stems P past s := by
  induction h with
  | start => exact ⟨nofun, nofun, nofun, nofun⟩
  | @next past s t e h he ih =>
    have hearlier := ih fun m v hmem => hframes m v (List.mem_cons_of_mem _ hmem)
    refine (move_of_step he).stems hearlier fun v hv => hframes s v ?_
    rw [hv]
    exact List.mem_cons_self

/-! ## 2. The tile of the last frame -/

/-- Whether an enabled layer is about to look at a frame, or minds its tile since it did. -/
def Minds (v : MapPosition W) (s : LayerSystem W N) : Prop :=
  s.layer.enabled = true →
    s.call = some (.lookAtTrack v) ∨
      (∀ u, s.call ≠ some (.lookAtTrack u)) ∧
        (s.layer.state = .noData ∨ s.layer.lastTile = some v.tileIndex)

variable {v : MapPosition W}

omit [Arithmetic N] [Resolution W N] in
/-- A step after a frame was looked at, that changes neither the tile nor that there is a track. -/
theorem Minds.transfer (hs : Minds v s) (henabled : t.layer.enabled = s.layer.enabled)
    (hlooked : ∀ u, s.call ≠ some (.lookAtTrack u)) (hcall : ∀ u, t.call ≠ some (.lookAtTrack u))
    (hstate : s.layer.state = .noData → t.layer.state = .noData)
    (htile : t.layer.lastTile = s.layer.lastTile) : Minds v t := by
  intro ht
  rcases hs (henabled ▸ ht) with hlook | ⟨-, hmind⟩
  · exact (hlooked v hlook).elim
  · exact .inr ⟨hcall, hmind.imp hstate htile.trans⟩

omit [Arithmetic N] [Resolution W N] in
theorem Minds.eq_of_lookAtTrack {u : MapPosition W} (hs : Minds v s)
    (hcall : s.call = some (.lookAtTrack u)) (henabled : s.layer.enabled = true) : u = v := by
  rcases hs henabled with hlook | ⟨hnot, -⟩
  · rw [hcall] at hlook
    cases hlook
    rfl
  · exact (hnot u hcall).elim

theorem Move.minds (h : Move s e t) (hc : s.Coherent)
    (hs : ∀ v, lastFrame (past.map Prod.snd) = some v → Minds v s) :
    ∀ v, lastFrame (((s, e) :: past).map Prod.snd) = some v → Minds v t := by
  have hfits := hc.call
  intro v hv
  cases h with
  | ignoreFrame viewport hcall hdisabled =>
    intro henabled
    rw [hdisabled] at henabled
    cases henabled
  | beginFrame viewport hcall henabled =>
    obtain rfl := Option.some.inj hv
    exact fun _ => .inl rfl
  | configure | askAgain | restyle | keepEnabled | toggle => cases hv
  | endFrame viewport hcall hdirty hstate => exact fun _ => .inr ⟨nofun, .inl hstate⟩
  | ask viewport hcall hcause =>
    rw [hcall] at hfits
    obtain rfl := (hs v hv).eq_of_lookAtTrack hcall hfits.1
    exact fun _ => .inr ⟨nofun, .inr rfl⟩
  | goOn viewport hcall hdirty hstate htile =>
    rw [hcall] at hfits
    obtain rfl := (hs v hv).eq_of_lookAtTrack hcall hfits.1
    exact fun _ => .inr ⟨nofun, .inr htile⟩
  | notify isFrame hcall =>
    refine (hs v hv).transfer rfl (by simp [hcall]) (fun u => ?_) id rfl
    cases isFrame <;> simp
  | notifySpare hcall =>
    -- The geometry turns fresh, and there is a track.
    rw [hcall] at hfits
    exact (hs v hv).transfer rfl (by simp [hcall]) nofun (fun hnone => (hfits.2 hnone).elim) rfl
  | submit viewport isFrame hcall | pollNothing hcall | poll task hcall | recycle task hcall
  | cancel hcall => exact (hs v hv).transfer rfl (by simp [hcall]) nofun id rfl
  | update | mark | cancelStale | advance | wake | tick => exact hs v hv

theorem HasPast.minds (h : HasPast config past s) :
    ∀ v, lastFrame (past.map Prod.snd) = some v → Minds v s := by
  induction h with
  | start => exact nofun
  | next e h he ih => exact (move_of_step he).minds (HasPast.coherent h) ih

/-- After a frame, geometry that is called fresh was computed on the tile of the frame. -/
theorem HasPast.lastTile_eq (h : HasPast config past s)
    (hframe : lastFrame (past.map Prod.snd) = some v) (hcall : s.call = none)
    (hfresh : s.layer.state = .geometryFresh) : s.layer.lastTile = some v.tileIndex := by
  rcases h.minds v hframe (h.coherent.enabled hfresh) with hlook | ⟨-, hnone | htile⟩
  · rw [hcall] at hlook
    cases hlook
  · rw [hfresh] at hnone
    cases hnone
  · exact htile

/-! ## 3. Exact numbers -/

/-- Whatever the threads did and in whatever order, as long as frames are shown in the world: if a
frame is over and the geometry is called fresh, then it was computed for a position on the tile of
the frame, and is drawn unscaled and moved by no more than a tile. So what it was clipped to covers
the window up to a tile from its border. -/
theorem fresh_geometry_is_near {config : TrackConfig Rat} {past : Past Rat Rat}
    {s : LayerSystem Rat Rat} {memory : Nat → Array (GeoPoint Rat)} {v : MapPosition Rat}
    (h : HasPast config past s)
    (hstored : ∀ m track, (m, .update track) ∈ past → track.StoredIn memory)
    (hworld : ∀ m u, (m, .frame u) ∈ past → u.InWorld)
    (hframe : lastFrame (past.map Prod.snd) = some v) (hcall : s.call = none)
    (hfresh : s.layer.state = .geometryFresh) :
    s.layer.active.position.tileIndex = v.tileIndex ∧
      (s.renderTransform v).scale = 1 ∧
      |(s.renderTransform v).translate.x| ≤ 256 ∧ |(s.renderTransform v).translate.y| ≤ 256 ∧
      ∃ o track, Worker.latestOrder (workerPast past) = some o ∧
        s.layer.active.position = o.position ∧
        (Worker.tracks (workerPast past))[s.layer.active.revision]? = some track ∧
        s.layer.active.buckets =
          (Builder.geometry track o.position o.settings).setStyle s.layer.settings.style ∧
        (Region.centered (o.settings.clipExtent - 256)).points ⊆
          ((s.renderTransform v).apply (N := Rat)) ''
            (Region.centered o.settings.clipExtent).points := by
  obtain ⟨o, track, horder, hposition, hlast, htrack, hbuckets⟩ :=
    (h.shows hstored (.inl hfresh)).answer
  have hstems := h.stems hworld
  have hactive : s.layer.active.position.InWorld := by
    rw [hposition]
    exact hstems.order o horder
  -- The layer minds one tile only: that of its request, and that of the frame.
  have hminds : s.layer.lastTile = some v.tileIndex := h.lastTile_eq hframe hcall hfresh
  have htile : s.layer.active.position.tileIndex = v.tileIndex := by
    rw [hposition]
    exact Option.some.inj (hlast.symm.trans hminds)
  have hv : v.InWorld := by
    obtain ⟨m, hmem⟩ := mem_of_lastFrame hframe
    exact hworld m v hmem
  obtain ⟨hscale, hx, hy⟩ := RenderTransform.between_of_tileIndex_eq hactive hv htile
  exact ⟨htile, hscale, hx, hy, o, track, horder, hposition, htrack, hbuckets,
    RenderTransform.centered_subset hscale hx hy _⟩

/-- A tour from the middle of the world to a place in the North-East, and one in the South, in exact
numbers. -/
def exactTrack : TrackData Rat where
  source := ⟨1, #[⟨0, 0⟩, ⟨10, 20⟩, ⟨-10, 0⟩, ⟨-10, 20⟩]⟩
  colors := #[.rgb 255 0 0, .rgb 255 0 0, .rgb 0 0 255, .rgb 0 0 255]
  tourStarts := [0, 2]
  colors_size := rfl
  starts_lt := by decide
  starts_increasing := by decide

/-- A frame at one corner of the world, and the next one at the other, with the geometry there. -/
def cornerToCorner : List (Event Rat Rat) :=
  [.update exactTrack, .proceedUpdate 0, .proceedUpdate 0, .frame .corner,
    .proceed, .proceed, .proceed, .proceed,
    .advance, .advance, .advance, .advance, .advance,
    .frame ⟨1, 1, 0⟩, .proceed, .proceed, .proceed, .proceed]

theorem fresh_geometry_is_near_from_corner_to_corner :
    ∃ past s, HasPast .default past s ∧ past.map Prod.snd = cornerToCorner.reverse ∧
      s.layer.state = .geometryFresh ∧
      |(s.renderTransform ⟨1, 1, 0⟩).translate.y| ≤ 256 := by
  have hrun : (cornerToCorner.foldlM step (new .default)).any
      (fun s => s.call.isNone = true ∧ s.layer.state = .geometryFresh) = true := by
    decide +kernel
  obtain ⟨past, s, hpast, hevents, hcall, hfresh⟩ := exists_hasPast_of_run hrun
  have hstored (m : LayerSystem Rat Rat) (track : TrackData Rat)
      (hmem : (m, .update track) ∈ past) : track.StoredIn fun _ => exactTrack.points := by
    have hevent := History.mem_events hmem hevents
    simp only [cornerToCorner, List.mem_cons, List.not_mem_nil, Event.update.injEq, reduceCtorEq,
      or_false] at hevent
    exact .inr (by rw [hevent])
  have hworld (m : LayerSystem Rat Rat) (u : MapPosition Rat) (hmem : (m, .frame u) ∈ past) :
      u.InWorld := by
    have hevent := History.mem_events hmem hevents
    simp only [cornerToCorner, List.mem_cons, List.not_mem_nil, Event.frame.injEq, reduceCtorEq,
      or_false, false_or] at hevent
    rcases hevent with rfl | rfl
    · exact ⟨by decide, by decide⟩
    · exact ⟨by decide, by decide⟩
  have hframe : lastFrame (past.map Prod.snd) = some ⟨1, 1, 0⟩ := by
    rw [hevents]
    rfl
  exact ⟨past, s, hpast, hevents, hfresh,
    (fresh_geometry_is_near hpast hstored hworld hframe (Option.isNone_iff_eq_none.1 hcall)
      hfresh).2.2.2.1⟩

end LayerSystem

end TourMap
