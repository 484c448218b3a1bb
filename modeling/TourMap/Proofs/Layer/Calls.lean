import TourMap.Proofs.Layer.Moves

/-!
# Calls: what is known in the midst of a call

Where the render thread is in its call says a lot on the layer, whatever the other threads do.
-/

namespace TourMap

/-- What a layer is like at each point of a call. -/
def TourLayer.Fits {W N : Type} [Arithmetic W] (l : TourLayer W N) :
    Option (LayerCall W N) → Prop
  | none => True
  | some (.lookAtTrack viewport) => l.enabled = true ∧ l.viewport = some viewport
  | some (.submit viewport isFrame) =>
    (isFrame = true → l.enabled = true) ∧ l.lastTile = some viewport.tileIndex ∧
      l.state = .geometryStale
  | some (.notify isFrame) =>
    (isFrame = true → l.enabled = true) ∧ l.lastTile ≠ none ∧ l.state ≠ .noData
  | some .poll => l.enabled = true ∧ l.lastTile ≠ none ∧ l.state ≠ .noData
  | some (.recycle _) => l.enabled = true ∧ l.state ≠ .noData
  | some .notifySpare => l.enabled = true ∧ l.state ≠ .noData
  | some .cancel => l.lastTile = none ∧ l.state ≠ .geometryFresh

namespace LayerSystem

variable {W N : Type} [Mercator W] [Arithmetic N] [Resolution W N] {s t : LayerSystem W N}
  {e : Event W N}

omit [Mercator W] [Arithmetic N] [Resolution W N] in
/-- To enable or disable a layer makes its geometry stale, if there is any. -/
theorem toggledState_ne_fresh (state : LayerState) :
    (if state = .geometryFresh then .geometryStale else state) ≠ LayerState.geometryFresh := by
  split
  · exact nofun
  · assumption

/-- Whether the layer is where its call and its state say. -/
structure Coherent (s : LayerSystem W N) : Prop where
  call : s.layer.Fits s.call
  viewport : s.layer.state ≠ .noData → s.layer.viewport ≠ none
  enabled : s.layer.state = .geometryFresh → s.layer.enabled = true

theorem Move.coherent (h : Move s e t) (hs : s.Coherent) : t.Coherent := by
  have hfits := hs.call
  cases h with
  | ignoreFrame viewport hcall hdisabled => exact hs
  | beginFrame viewport hcall henabled =>
    exact ⟨⟨henabled, rfl⟩, fun _ => Option.some_ne_none _, hs.enabled⟩
  | configure config hcall hvoid => exact ⟨by rw [hcall]; trivial, hs.viewport, hs.enabled⟩
  -- Geometry is asked for only at the position of a viewport.
  | askAgain config viewport hcall hviewport hstate =>
    exact ⟨⟨nofun, rfl, rfl⟩, fun _ => hs.viewport hstate, nofun⟩
  | restyle config hcall => exact ⟨by rw [hcall]; trivial, hs.viewport, hs.enabled⟩
  | keepEnabled hcall => exact hs
  | toggle enabled hcall hne =>
    -- A layer without track stays without; any other one is not fresh from here on.
    have hstale := toggledState_ne_fresh s.layer.state
    refine ⟨?_, fun hdata => hs.viewport fun hnone => hdata ?_, fun h => (hstale h).elim⟩
    · cases enabled with
      | true => trivial
      | false => exact ⟨rfl, hstale⟩
    · simp only [hnone, reduceCtorEq, if_false]
  | endFrame viewport hcall hdirty hstate => exact ⟨trivial, hs.viewport, hs.enabled⟩
  | ask viewport hcall hcause =>
    rw [hcall] at hfits
    have hviewport : s.layer.viewport ≠ none := by
      rw [hfits.2]
      exact Option.some_ne_none _
    exact ⟨⟨fun _ => hfits.1, rfl, rfl⟩, fun _ => hviewport, nofun⟩
  | goOn viewport hcall hdirty hstate htile =>
    rw [hcall] at hfits
    have hlast : s.layer.lastTile ≠ none := by
      rw [htile]
      exact Option.some_ne_none _
    exact ⟨⟨hfits.1, hlast, hstate⟩, hs.viewport, hs.enabled⟩
  | submit viewport isFrame hcall =>
    rw [hcall] at hfits
    obtain ⟨hframe, htile, hstate⟩ := hfits
    have hlast : s.layer.lastTile ≠ none := by
      rw [htile]
      exact Option.some_ne_none _
    have hdata : s.layer.state ≠ .noData := by
      rw [hstate]
      exact nofun
    exact ⟨⟨hframe, hlast, hdata⟩, hs.viewport, hs.enabled⟩
  | notify isFrame hcall =>
    rw [hcall] at hfits
    obtain ⟨hframe, htile, hstate⟩ := hfits
    cases isFrame with
    | true => exact ⟨⟨hframe rfl, htile, hstate⟩, hs.viewport, hs.enabled⟩
    | false => exact ⟨trivial, hs.viewport, hs.enabled⟩
  | pollNothing hcall hdone => exact ⟨trivial, hs.viewport, hs.enabled⟩
  | poll task hcall hdone =>
    rw [hcall] at hfits
    exact ⟨⟨hfits.1, hfits.2.2⟩, hs.viewport, hs.enabled⟩
  | recycle task hcall =>
    rw [hcall] at hfits
    exact ⟨hfits, hs.viewport, hs.enabled⟩
  | notifySpare hcall =>
    rw [hcall] at hfits
    exact ⟨trivial, fun _ => hs.viewport hfits.2, fun _ => hfits.1⟩
  | cancel hcall => exact ⟨trivial, hs.viewport, hs.enabled⟩
  | update | mark | cancelStale | advance | wake | tick => exact ⟨hs.call, hs.viewport, hs.enabled⟩

theorem HasPast.coherent {config : TrackConfig N} {past : Past W N} (h : HasPast config past s) :
    s.Coherent := by
  refine h.invariant ?_ fun _ _ _ hs ht => (move_of_step ht).coherent hs
  exact ⟨trivial, fun hdata => (hdata rfl).elim, nofun⟩

end LayerSystem

end TourMap
