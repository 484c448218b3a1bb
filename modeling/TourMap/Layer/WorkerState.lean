import TourMap.Builder

/-!
# WorkerState: what a worker and its clients share

A worker computes the geometry for one position at a time. This is the state that its lock guards:
at most one request, one finished task and one spare buffer, and the generation of the requests.
Each operation here is one critical section.

Work that became outdated is told apart by its generation. All work of a generation runs under one
token; a new generation cancels the token of the one before it, so the token of an earlier
generation is always cancelled and only that of the current one has a state (`cancelled`).
-/

namespace TourMap

/-- The geometry computed for a position. Two of them exist: one is drawn while the other one is
with the worker. -/
structure RenderTask (W N : Type) where
  buckets : RenderBuckets N
  position : MapPosition W
  revision : Nat

/-- The task that was never computed. -/
def RenderTask.blank {W N : Type} [Arithmetic W] : RenderTask W N := ⟨.empty, .corner, 0⟩

structure Request (W N : Type) where
  position : MapPosition W
  settings : BuildSettings N
  notBefore : Nat

/-- A request that was taken, with the buffer to fill. -/
structure Job (W N : Type) where
  request : Request W N
  task : RenderTask W N
  generation : Nat

structure WorkerStats where
  submitted : Nat
  completed : Nat
  cancelled : Nat
  discarded : Nat
  deriving DecidableEq

inductive WorkerStatus where
  | idle
  | queued
  | running
  | done
  deriving DecidableEq

/-- What the lock of a worker guards. -/
structure WorkerState (W N : Type) where
  request : Option (Request W N)
  running : Bool
  /-- Counts how often the work in progress became outdated. -/
  generation : Nat
  /-- Whether the token of the current generation is cancelled. -/
  cancelled : Bool
  spare : Option (RenderTask W N)
  /-- The published task that was not polled yet. -/
  done : Option (RenderTask W N)
  stats : WorkerStats

namespace WorkerState

variable {W N : Type}

/-- The state before any request. -/
def new [Arithmetic W] : WorkerState W N where
  request := none
  running := false
  generation := 0
  cancelled := false
  spare := some .blank
  done := none
  stats := ⟨0, 0, 0, 0⟩

def isCancelled (s : WorkerState W N) (generation : Nat) : Bool :=
  generation < s.generation || s.cancelled

/-- Throws the published task away; its buffer is the spare one again. -/
def discardDone (s : WorkerState W N) : WorkerState W N :=
  match s.done with
  | some task => { s with
      done := none
      spare := some task
      stats := { s.stats with discarded := s.stats.discarded + 1 } }
  | none => s

/-- Makes the work in progress outdated. -/
def invalidate (s : WorkerState W N) : WorkerState W N :=
  { s with generation := s.generation + 1, cancelled := false }.discardDone

/-- Makes all work outdated, queued, running or published. -/
def cancel (s : WorkerState W N) : WorkerState W N := { s with request := none }.invalidate

/-- Cancels the token while a computation runs, and throws a published task away if it was computed
from a track before the given revision. -/
def cancelStale (s : WorkerState W N) (revision : Nat) : WorkerState W N :=
  let s := if s.running then { s with cancelled := true } else s
  match s.done with
  | some task => if task.revision < revision then s.discardDone else s
  | none => s

/-- Queues a request in place of all work so far. -/
def submit (s : WorkerState W N) (request : Request W N) : WorkerState W N :=
  let s := s.invalidate
  { s with
    request := some request
    stats := { s.stats with submitted := s.stats.submitted + 1 } }

def poll (s : WorkerState W N) : Option (RenderTask W N) × WorkerState W N :=
  (s.done, { s with done := none })

/-- Hands a task back, as the buffer for the next computation. -/
def recycle (s : WorkerState W N) (task : RenderTask W N) : WorkerState W N :=
  { s with spare := some task }

/-- What looking for work leads to. -/
inductive Found (W N : Type) where
  /-- There is no request, or no buffer for it. -/
  | nothing
  | notYet
  | job (job : Job W N) (state : WorkerState W N)

/-- Looks for a request that may start at the given time. -/
def findJob (s : WorkerState W N) (now : Nat) : Found W N :=
  match s.request, s.spare with
  | some request, some task =>
    if now < request.notBefore then .notYet
    else
      .job ⟨request, task, s.generation⟩ { s with request := none, spare := none, running := true }
  | _, _ => .nothing

/-- Ends a computation of a job on a track of the given revision. The task is published if the
computation is complete and nothing made it outdated. -/
def finish (s : WorkerState W N) (job : Job W N) (revision currentRevision : Nat)
    (buckets : RenderBuckets N) (result : Except Cancelled BuildStats) :
    Bool × WorkerState W N :=
  let task : RenderTask W N := ⟨buckets, job.request.position, revision⟩
  let current := !s.isCancelled job.generation && s.generation == job.generation &&
    currentRevision == revision
  let s := { s with running := false }
  match result, current with
  | .ok _, true =>
    (true, { s with
      done := some task, stats := { s.stats with completed := s.stats.completed + 1 } })
  | .ok _, false =>
    (false, { s with
      spare := some task, stats := { s.stats with discarded := s.stats.discarded + 1 } })
  | .error _, _ =>
    (false, { s with
      spare := some task, stats := { s.stats with cancelled := s.stats.cancelled + 1 } })

def status (s : WorkerState W N) : WorkerStatus :=
  if s.running then .running
  else if s.done.isSome then .done
  else if s.request.isSome then .queued
  else .idle

end WorkerState

end TourMap
