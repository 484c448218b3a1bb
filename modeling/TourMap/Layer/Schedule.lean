import TourMap.Layer.TourLayer

/-!
# Schedule: runs in which one thread goes on at a time

Of the many orders in which the threads of a layer can go on, these runs take the plainest one: a
call runs to its end, and then the worker thread runs until it waits. A worker can also be held
where its computation has come to a given point, so that calls act on a running computation. Every
run here is a sequence of steps of `Worker.step` or `LayerSystem.step`.
-/

namespace TourMap

/-! ## 1. The worker thread alone -/

inductive HoldPoint where
  /-- The track was projected for this computation. -/
  | projected
  /-- The geometry is complete. -/
  | built
  deriving DecidableEq

namespace Worker

variable {W N : Type} [Mercator W] [Arithmetic N] [Resolution W N]

omit [Mercator W] [Arithmetic N] [Resolution W N] in
/-- Whether the computation has come to the given point. A track without points comes to none. -/
def hasReached (w : Worker W N) : HoldPoint → Bool
  | .projected =>
    match w.phase with
    | .building c looks =>
      !c.track.isEmpty && !w.builder.hasProjection c.track &&
        looks == w.builder.projectionChecks c.track
    | _ => false
  | .built =>
    match w.phase with
    | .finishing c none => !c.track.isEmpty
    | _ => false

omit [Mercator W] [Arithmetic N] [Resolution W N] in
def isWaiting (w : Worker W N) : Bool :=
  match w.phase with
  | .waiting _ => true
  | _ => false

/-- At most so many steps of the thread, until it waits or comes to the given point; whether it
came to that point. -/
def run (hold : Option HoldPoint) : Nat → Worker W N → Worker W N × Bool
  | 0, w => (w, false)
  | n + 1, w =>
    if w.isWaiting then (w, false)
    else if hold.any w.hasReached then (w, true)
    else run hold n w.advance

omit [Mercator W] [Arithmetic N] [Resolution W N] in
/-- A number of steps in which the thread ends a computation in progress and another one after it:
each has at most one step for every point and a few more. -/
def stepBound (w : Worker W N) : Nat :=
  let inProgress := match w.phase with
    | .building c _ => c.track.size
    | .finishing c _ => c.track.size
    | _ => 0
  16 + 2 * (w.source.track.size + inProgress)

/-- Lets the thread go on until it waits or comes to the given point. -/
def settle (w : Worker W N) (hold : Option HoldPoint) : Worker W N × Bool := w.run hold w.stepBound

end Worker

/-! ## 2. Calls of a layer -/

namespace LayerSystem

variable {W N : Type} [Mercator W] [Arithmetic N] [Resolution W N]

/-- Lets the render thread end its call, which takes at most six steps. -/
def finishCall (s : LayerSystem W N) : LayerSystem W N := Nat.repeat proceed 6 s

def frame (s : LayerSystem W N) (viewport : MapPosition W) : LayerSystem W N :=
  (s.beginFrame viewport).finishCall

def configure (s : LayerSystem W N) (config : TrackConfig N) (verticesAffected : Bool) :
    LayerSystem W N :=
  (s.beginConfig config verticesAffected).finishCall

def enable (s : LayerSystem W N) (enabled : Bool) : LayerSystem W N :=
  (s.beginEnable enabled).finishCall

def setTrack (s : LayerSystem W N) (track : TrackData W) : LayerSystem W N :=
  let last := s.updates.length
  ((s.beginUpdate track).proceedUpdate last).proceedUpdate last

/-- Replaces the track by points, colors and tour starts. If they belong together they get the next
revision; if not, nothing changes and the error says why. -/
def setPoints (s : LayerSystem W N) (source : NamedPoints W) (colors : Array Color)
    (tourStarts : List Nat) : LayerSystem W N × Except TrackError Unit :=
  match TrackData.new source colors tourStarts with
  | .error error => (s, .error error)
  | .ok track => (s.setTrack track, .ok ())

/-- Lets the worker thread go on until it waits or comes to the given point. -/
def settle (s : LayerSystem W N) (hold : Option HoldPoint) : LayerSystem W N × Bool :=
  let (worker, held) := s.worker.settle hold
  ({ s with worker }, held)

end LayerSystem

end TourMap
