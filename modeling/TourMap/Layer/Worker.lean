import TourMap.Layer.Source
import TourMap.Layer.WorkerState

/-!
# Worker: the thread that computes geometry

A `Worker` is the shared state together with the thread that serves it, its builder and the track
source that it reads. The thread is a machine that takes one critical section, or one look at the
token of its computation, per step (`Worker.advance`); between two of its steps anything may happen
to the shared state and to the source. The operations of clients are the steps `Worker.Event`.
-/

namespace TourMap

/-! ## 1. The thread -/

structure Computation (W N : Type) where
  job : Job W N
  track : TrackData W
  revision : Nat

/-- What the worker thread does next. -/
inductive Phase (W N : Type) where
  | looking
  /-- Nothing before a notification or, if `timed`, before the request may start. -/
  | waiting (timed : Bool)
  | starting (job : Job W N)
  /-- Look at the token, which it did so many times. -/
  | building (computation : Computation W N) (looks : Nat)
  /-- End the computation, complete or cancelled at the given look. -/
  | finishing (computation : Computation W N) (cancelledAt : Option Nat)
  | announcing

/-- A worker with its thread and the track that it reads. -/
structure Worker (W N : Type) where
  source : TrackSource W
  state : WorkerState W N
  phase : Phase W N
  builder : Builder W
  redraws : Nat
  /-- The time in milliseconds. -/
  clock : Nat

namespace Worker

variable {W N : Type}

def new [Arithmetic W] : Worker W N where
  source := .new
  state := .new
  phase := .looking
  builder := .new
  redraws := 0
  clock := 0

variable [Mercator W] [Arithmetic N] [Resolution W N]

/-- Ends a computation: the thread builds, and publishes the task or takes its buffer back. -/
def finish (w : Worker W N) (c : Computation W N) (cancelledAt : Option Nat) : Worker W N :=
  let (builder, buckets, result) :=
    w.builder.build c.track c.job.request.position c.job.request.settings c.job.task.buckets
      cancelledAt
  let (published, state) := w.state.finish c.job c.revision w.source.revision buckets result
  { w with builder, state, phase := if published then .announcing else .looking }

/-- One step of the thread. A waiting thread does nothing. -/
def advance (w : Worker W N) : Worker W N :=
  match w.phase with
  | .looking =>
    match w.state.findJob w.clock with
    | .nothing => { w with phase := .waiting false }
    | .notYet => { w with phase := .waiting true }
    | .job job state => { w with state, phase := .starting job }
  | .waiting _ => w
  | .starting job =>
    { w with phase := .building ⟨job, w.source.track, w.source.revision⟩ 0 }
  | .building c looks =>
    if looks < w.builder.checks c.track then
      if w.state.isCancelled c.job.generation then { w with phase := .finishing c (some looks) }
      else { w with phase := .building c (looks + 1) }
    else { w with phase := .finishing c none }
  | .finishing c cancelledAt => w.finish c cancelledAt
  | .announcing => { w with redraws := w.redraws + 1, phase := .looking }

def wake (w : Worker W N) : Worker W N :=
  match w.phase with
  | .waiting _ => { w with phase := .looking }
  | _ => w

/-! ## 2. Clients -/

/-- Applies a critical section of a client. -/
def modifyState (w : Worker W N) (f : WorkerState W N → WorkerState W N) : Worker W N :=
  { w with state := f w.state }

/-- Queues a request that may start after so many milliseconds. -/
def submit (w : Worker W N) (position : MapPosition W) (settings : BuildSettings N)
    (delay : Nat) : Worker W N :=
  w.modifyState (·.submit ⟨position, settings, w.clock + delay⟩)

def poll (w : Worker W N) : Option (RenderTask W N) × Worker W N :=
  let (task, state) := w.state.poll
  (task, { w with state })

inductive Event (W N : Type) where
  | advance
  /-- The thread is woken, by a notification or without a cause. -/
  | wake
  | tick
  | swap (track : TrackData W)
  | mark
  | submit (position : MapPosition W) (settings : BuildSettings N) (delay : Nat)
  | cancel
  /-- A client makes the work on tracks before a revision outdated. -/
  | cancelStale (revision : Nat)
  | poll
  | recycle (task : RenderTask W N)

def step (w : Worker W N) : Event W N → Worker W N
  | .advance => w.advance
  | .wake => w.wake
  | .tick => { w with clock := w.clock + 1 }
  | .swap track => { w with source := w.source.swap track }
  | .mark => { w with source := w.source.mark }
  | .submit position settings delay => w.submit position settings delay
  | .cancel => w.modifyState (·.cancel)
  | .cancelStale revision => w.modifyState (·.cancelStale revision)
  | .poll => w.poll.2
  | .recycle task => w.modifyState (·.recycle task)

end Worker

end TourMap
