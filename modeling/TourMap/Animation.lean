import TourMap.Layer.Schedule

/-!
# Animation: a map that moves, and then stands still until it is drawn

The program sets a track, shows frames while the map moves, and goes on showing the last position
until the geometry for it is there. It shares the layer with the worker thread, so an `Animation`
goes on by steps of either of them, in any order (`Animation.step`). `Animation.run` takes the
plainest order: the worker thread runs only when the map stands still.
-/

namespace TourMap

/-- What the program is at. -/
inductive Stage (W : Type) where
  | opening (track : TrackData W)
  /-- So many frames are still to be shown before the map stands still. -/
  | panning (left : Nat)
  /-- The map stands still, and its geometry is not known to be there. -/
  | settling
  | ended

/-- A layer shown frame by frame. -/
structure Animation (W N : Type) where
  system : LayerSystem W N
  viewport : MapPosition W
  /-- How far the map moves after a frame, in pixels. -/
  pan : Point W
  stage : Stage W
  begun : Bool

namespace Animation

variable {W N : Type} [Mercator W] [Arithmetic N] [Resolution W N]

def new (config : TrackConfig N) (track : TrackData W) (viewport : MapPosition W)
    (pan : Point W) : Animation W N :=
  ⟨.new config, viewport, pan, .opening track, false⟩

/-! ## 1. Steps -/

omit [Resolution W N] in
def beginFrame (a : Animation W N) : Animation W N :=
  { a with system := a.system.beginFrame a.viewport, begun := true }

/-- The next step of the program, which shows so many frames: a call that it is in goes first. -/
def proceed (frames : Nat) (a : Animation W N) : Animation W N :=
  if a.system.call.isSome then { a with system := a.system.proceed }
  else if !a.system.updates.isEmpty then { a with system := a.system.proceedUpdate 0 }
  else match a.stage, a.begun with
    | .opening track, _ =>
      { a with system := a.system.beginUpdate track, stage := .panning frames }
    | .panning 0, _ => { a with stage := .settling }
    | .panning (_ + 1), false => a.beginFrame
    | .panning (left + 1), true =>
      { a with
        viewport := a.viewport.panPixels a.pan.x a.pan.y
        stage := .panning left
        begun := false }
    | .settling, false => a.beginFrame
    | .settling, true =>
      if a.system.state = .geometryFresh then { a with stage := .ended }
      else { a with begun := false }
    | .ended, _ => a

inductive Event where
  | proceed
  | advance
  | wake
  | sleep (milliseconds : Nat)
  deriving DecidableEq

/-- One step of one thread, in an animation of so many frames. -/
def step (frames : Nat) (a : Animation W N) : Event → Animation W N
  | .proceed => a.proceed frames
  | .advance => { a with system := { a.system with worker := a.system.worker.advance } }
  | .wake => { a with system := { a.system with worker := a.system.worker.wake } }
  | .sleep milliseconds =>
    let worker := a.system.worker
    { a with system := { a.system with
      worker := { worker with clock := worker.clock + milliseconds } } }

/-- The animations that the steps of both threads lead to, in any order. -/
inductive Reachable (frames : Nat) (start : Animation W N) : Animation W N → Prop where
  | start : Reachable frames start start
  | step {a : Animation W N} (e : Event) :
    Reachable frames start a → Reachable frames start (a.step frames e)

/-! ## 2. The plainest order -/

omit [Mercator W] [Arithmetic N] [Resolution W N] in
def isResting (a : Animation W N) : Bool :=
  match a.stage with
  | .settling => a.begun && a.system.call.isNone
  | _ => false

omit [Mercator W] [Arithmetic N] [Resolution W N] in
/-- The next step of the plainest order: as long as the program waits, the worker thread goes on,
and time passes when that one waits for it. -/
def next (a : Animation W N) : Event :=
  if a.isResting then
    match a.system.worker.phase with
    | .waiting false => .proceed
    | .waiting true =>
      match a.system.worker.state.request with
      | some r =>
        let clock := a.system.worker.clock
        if clock < r.notBefore then .sleep (r.notBefore - clock) else .wake
      | none => .wake
    | _ => .advance
  else .proceed

/-- At most so many steps of the plainest order, until the geometry can be drawn. -/
def runFor (frames : Nat) : (steps : Nat) → Animation W N → Animation W N
  | 0, a => a
  | n + 1, a =>
    match a.stage with
    | .ended => a
    | _ => runFor frames n (a.step frames a.next)

/-- A number of steps in which an animation ends: a frame has at most eight, and the computation has
at most one for every point and a few more. -/
def stepBound (frames points : Nat) : Nat := 128 + 8 * frames + 2 * points

end Animation

/-! ## 3. What is drawn -/

/-- The geometry that is drawn, and where it is placed. -/
structure Picture (W N : Type) where
  buckets : RenderBuckets N
  transform : RenderTransform W

namespace Animation

variable {W N : Type} [Mercator W] [Arithmetic N] [Resolution W N]

omit [Arithmetic N] in
def picture (a : Animation W N) : Picture W N :=
  ⟨a.system.layer.active.buckets, a.system.renderTransform a.viewport⟩

def run (config : TrackConfig N) (track : TrackData W) (viewport : MapPosition W) (pan : Point W)
    (frames : Nat) : Picture W N :=
  (runFor frames (stepBound frames track.size) (new config track viewport pan)).picture

end Animation

end TourMap
