import TourMap.Layer.Worker

/-!
# TourLayer: the tours drawn on a map, frame by frame

The render thread owns a `TourLayer` and calls it once per frame; geometry is computed by the worker
and swapped in when it is ready. A call is a sequence of steps, each of which is a critical section,
an atomic operation on the flag of the track source, or a notification (`LayerCall`). Other threads
replace the track, in three steps (`TrackUpdate`). A `LayerSystem` is the layer with its worker and
everything that is in progress, and `LayerSystem.step` lets any of the threads go on.
-/

namespace TourMap

/-! ## 1. The layer -/

inductive LayerState where
  | noData
  | pointsSet
  /-- The drawn geometry is not that of the current track and tile. -/
  | geometryStale
  /-- The drawn geometry is that of the current track and tile. -/
  | geometryFresh
  deriving DecidableEq

/-- What the render thread owns. -/
structure TourLayer (W N : Type) where
  active : RenderTask W N
  config : TrackConfig N
  settings : BuildSettings N
  /-- How long a request waits, in milliseconds. -/
  delay : Nat
  viewport : Option (MapPosition W)
  /-- The tile of the last request. -/
  lastTile : Option TileIndex
  state : LayerState
  enabled : Bool

namespace TourLayer

variable {W N : Type} [Arithmetic W] [Arithmetic N]

/-- Takes over a configuration, its tuning values brought into range. -/
def setConfig (l : TourLayer W N) (config : TrackConfig N) : TourLayer W N :=
  { l with
    config := config.sanitized
    settings := .ofConfig config.sanitized
    delay := config.sanitized.coalescingDelay }

def new (config : TrackConfig N) : TourLayer W N where
  active := .blank
  config := config.sanitized
  settings := .ofConfig config.sanitized
  delay := config.sanitized.coalescingDelay
  viewport := none
  lastTile := none
  state := .noData
  enabled := true

omit [Arithmetic W] [Arithmetic N] in
/-- Gives the drawn geometry the style of the settings. -/
def restyle (l : TourLayer W N) : TourLayer W N :=
  { l with active := { l.active with buckets := l.active.buckets.setStyle l.settings.style } }

/-- Notes that geometry is asked for at a position. -/
def expect (l : TourLayer W N) (viewport : MapPosition W) : TourLayer W N :=
  { l with lastTile := some viewport.tileIndex, state := .geometryStale }

end TourLayer

/-! ## 2. Calls in progress -/

/-- What the render thread does next in the call that it is in. -/
inductive LayerCall (W N : Type) where
  | lookAtTrack (viewport : MapPosition W)
  /-- Ask for geometry, and poll if the call is a frame. -/
  | submit (viewport : MapPosition W) (isFrame : Bool)
  | notify (isFrame : Bool)
  | poll
  | recycle (task : RenderTask W N)
  | notifySpare
  | cancel

/-- What a thread that replaces the track does next; it got the given revision. -/
inductive TrackUpdate where
  | mark (revision : Nat)
  | cancelStale (revision : Nat)
  deriving DecidableEq

/-- A layer, its worker, and the calls that are in progress. -/
structure LayerSystem (W N : Type) where
  layer : TourLayer W N
  worker : Worker W N
  /-- The call that the render thread is in. -/
  call : Option (LayerCall W N)
  /-- The replacements of the track in progress. -/
  updates : List TrackUpdate

namespace LayerSystem

variable {W N : Type} [Mercator W] [Arithmetic N] [Resolution W N]

def new (config : TrackConfig N) : LayerSystem W N := ⟨.new config, .new, none, []⟩

/-! ## 3. Steps of the render thread -/

/-- Begins a frame. A disabled layer ignores it. -/
def beginFrame (s : LayerSystem W N) (viewport : MapPosition W) : LayerSystem W N :=
  if s.layer.enabled then
    { s with
      layer := { s.layer with viewport := some viewport }
      call := some (.lookAtTrack viewport) }
  else s

/-- Begins a change of the configuration. If it affects the vertices, the geometry is asked for
again; else the drawn geometry gets its new style. -/
def beginConfig (s : LayerSystem W N) (config : TrackConfig N) (verticesAffected : Bool) :
    LayerSystem W N :=
  let layer := s.layer.setConfig config
  if verticesAffected then
    match layer.viewport with
    | some viewport =>
      if layer.state = .noData then { s with layer }
      else { s with layer := layer.expect viewport, call := some (.submit viewport false) }
    | none => { s with layer }
  else
    { s with
      layer := layer.restyle
      worker := { s.worker with redraws := s.worker.redraws + 1 } }

/-- Begins to enable or disable the layer. The next frame asks for geometry again. -/
def beginEnable (s : LayerSystem W N) (enabled : Bool) : LayerSystem W N :=
  if s.layer.enabled = enabled then s
  else
    { s with
      layer := { s.layer with
        enabled
        lastTile := none
        state := if s.layer.state = .geometryFresh then .geometryStale else s.layer.state }
      call := if enabled then none else some .cancel }

/-- What a frame does once it has taken the flag: it asks for geometry if the track or the tile
changed, and polls. -/
def frameAfterFlag (s : LayerSystem W N) (viewport : MapPosition W) (dirty : Bool) :
    LayerSystem W N :=
  let state := if dirty ∧ s.layer.state = .noData then .pointsSet else s.layer.state
  let layer := { s.layer with state }
  if state = .noData then { s with layer, call := none }
  else if dirty ∨ layer.lastTile ≠ some viewport.tileIndex then
    { s with layer := layer.expect viewport, call := some (.submit viewport true) }
  else { s with layer, call := some .poll }

/-- The next step of the call that the render thread is in. -/
def proceed (s : LayerSystem W N) : LayerSystem W N :=
  match s.call with
  | none => s
  | some (.lookAtTrack viewport) =>
    let dirty := s.worker.source.dirty
    { s with worker := { s.worker with source := s.worker.source.clear } }.frameAfterFlag
      viewport dirty
  | some (.submit viewport isFrame) =>
    { s with
      worker := s.worker.submit viewport s.layer.settings s.layer.delay
      call := some (.notify isFrame) }
  | some (.notify isFrame) =>
    { s with worker := s.worker.wake, call := if isFrame then some .poll else none }
  | some .poll =>
    match s.worker.poll with
    | (none, worker) => { s with worker, call := none }
    | (some task, worker) =>
      { s with
        worker
        layer := { s.layer with active := task }.restyle
        call := some (.recycle s.layer.active) }
  | some (.recycle task) =>
    { s with worker := s.worker.modifyState (·.recycle task), call := some .notifySpare }
  | some .notifySpare =>
    { s with
      worker := s.worker.wake
      layer := { s.layer with state := .geometryFresh }
      call := none }
  | some .cancel => { s with worker := s.worker.modifyState (·.cancel), call := none }

/-! ## 4. Steps of other threads -/

/-- Begins to replace the track: the new one is in place, and nobody knows yet. -/
def beginUpdate (s : LayerSystem W N) (track : TrackData W) : LayerSystem W N :=
  let source := s.worker.source.swap track
  { s with worker := { s.worker with source }, updates := s.updates ++ [.mark source.revision] }

/-- The next step of the `i`-th replacement in progress. -/
def proceedUpdate (s : LayerSystem W N) (i : Nat) : LayerSystem W N :=
  match s.updates[i]? with
  | none => s
  | some (.mark revision) =>
    { s with
      worker := { s.worker with source := s.worker.source.mark }
      updates := s.updates.set i (.cancelStale revision) }
  | some (.cancelStale revision) =>
    { s with
      worker := s.worker.modifyState (·.cancelStale revision)
      updates := s.updates.eraseIdx i }

/-! ## 5. Interleaving -/

/-- Which thread goes on. -/
inductive Event (W N : Type) where
  | frame (viewport : MapPosition W)
  /-- The render thread begins a change of the configuration. -/
  | config (config : TrackConfig N) (verticesAffected : Bool)
  | enable (enabled : Bool)
  | proceed
  | update (track : TrackData W)
  | proceedUpdate (i : Nat)
  | advance
  | wake
  | tick

/-- One step of one thread. The render thread begins a call only when it is in none. -/
def step (s : LayerSystem W N) : Event W N → Option (LayerSystem W N)
  | .frame viewport => if s.call.isNone then some (s.beginFrame viewport) else none
  | .config config verticesAffected =>
    if s.call.isNone then some (s.beginConfig config verticesAffected) else none
  | .enable enabled => if s.call.isNone then some (s.beginEnable enabled) else none
  | .proceed => if s.call.isSome then some s.proceed else none
  | .update track => some (s.beginUpdate track)
  | .proceedUpdate i => if i < s.updates.length then some (s.proceedUpdate i) else none
  | .advance => some { s with worker := s.worker.advance }
  | .wake => some { s with worker := s.worker.wake }
  | .tick => some { s with worker := { s.worker with clock := s.worker.clock + 1 } }

/-- The systems that the steps of the threads lead to, in any order. -/
inductive Reachable (config : TrackConfig N) : LayerSystem W N → Prop where
  | new : Reachable config (new config)
  | step {s t : LayerSystem W N} (e : Event W N) :
    Reachable config s → s.step e = some t → Reachable config t

/-! ## 6. What a host sees -/

/-- How far the drawn geometry has come, a change of the track not yet looked at included. -/
def state (s : LayerSystem W N) : LayerState :=
  match s.layer.state, s.worker.source.dirty with
  | .noData, true => .pointsSet
  | .geometryFresh, true => .geometryStale
  | state, _ => state

def renderTransform (s : LayerSystem W N) (viewport : MapPosition W) : RenderTransform W :=
  .between s.layer.active.position viewport

end LayerSystem

end TourMap
