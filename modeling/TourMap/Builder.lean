import TourMap.Trace
import TourMap.Track

/-!
# Builder: the geometry of a track for one position

`Builder.build` projects a track, unless it is the one projected last, and traces it as seen from a
position. It can be cancelled: it looks at its token before every block of 1024 points, first of
those it projects and then, the first block apart, of those it traces. `Builder.checks` counts
these looks, and a build is told at which of them the token is first found cancelled.
-/

namespace TourMap

/-- How many points are handled between two looks at the token. -/
def checkInterval : Nat := 1024

structure BuildStats where
  points : Nat
  vertices : Nat
  lines : Nat
  arrows : Nat
  deriving DecidableEq

structure Cancelled where
  deriving DecidableEq

def Cancelled.message : Cancelled → String := fun _ => "Geometry computation was cancelled"

/-- The projection of the track that was built last, kept for the next build. -/
structure Builder (W : Type) where
  /-- The name of the projected array of points, if there is a complete projection. -/
  projectedFrom : Option Nat
  projected : Array (Point W)
  reprojections : Nat
  deriving DecidableEq

namespace Builder

variable {W N : Type}

def new : Builder W := ⟨none, #[], 0⟩

def hasProjection (b : Builder W) (track : TrackData W) : Bool :=
  b.projectedFrom == some track.source.name && b.projected.size == track.size

/-- How often the token is looked at while a track is projected. -/
def projectionChecks (b : Builder W) (track : TrackData W) : Nat :=
  if b.hasProjection track then 0 else (track.size + (checkInterval - 1)) / checkInterval

/-- How often the token is looked at while a track is traced. -/
def traceChecks (track : TrackData W) : Nat := (track.size - 1) / checkInterval

/-- How often the token is looked at during a build. -/
def checks (b : Builder W) (track : TrackData W) : Nat :=
  b.projectionChecks track + traceChecks track

variable [Mercator W]

def project (b : Builder W) (track : TrackData W) : Builder W :=
  if b.hasProjection track then b
  else
    { projectedFrom := some track.source.name
      projected := track.points.map GeoPoint.project
      reprojections := b.reprojections + 1 }

/-- The builder after a projection was given up. -/
def forget (b : Builder W) : Builder W := { b with projectedFrom := none, projected := #[] }

variable [Arithmetic N] [Resolution W N]

/-- The line bucket of a trace: its last line is ended, and its arrows are added if wanted. -/
def finish (settings : BuildSettings N) (t : Trace W N) : LineBucket N :=
  let bucket := t.flush.bucket
  if settings.showArrows then bucket.setArrows t.arrows else bucket

def statsOf (track : TrackData W) (bucket : LineBucket N) : BuildStats where
  points := track.size
  vertices := bucket.vertexCount
  lines := bucket.lineCount
  arrows := bucket.arrows.size

/-- Traces a projected track, the points at hand in `projected`. If `stop` is given, the trace is
given up before the point of that index, and the lines ended until then are left behind. -/
def trace (track : TrackData W) (projected : Array (Point W)) (position : MapPosition W)
    (settings : BuildSettings N) (stop : Option Nat) : LineBucket N × Except Cancelled BuildStats :=
  let points := projected.toList.zip track.colors.toList
  let reached := match stop with
    | some i => points.take i
    | none => points
  match Trace.ofPoints settings position track.boundaries reached with
  | none => (.new settings.style, .ok ⟨0, 0, 0, 0⟩)
  | some t =>
    match stop with
    | some _ => (t.bucket, .error ⟨⟩)
    | none =>
      let bucket := finish settings t
      (bucket, .ok (statsOf track bucket))

/-- Builds the geometry of a track seen from a position. `cancelledAt` counts the looks at the
token before the first one that finds it cancelled, if there is one. A track without points leaves
the buckets empty, and the token is not looked at. -/
def build (b : Builder W) (track : TrackData W) (position : MapPosition W)
    (settings : BuildSettings N) (buckets : RenderBuckets N) (cancelledAt : Option Nat) :
    Builder W × RenderBuckets N × Except Cancelled BuildStats :=
  if track.isEmpty then (b, .empty, .ok ⟨0, 0, 0, 0⟩)
  else
    let before := b.projectionChecks track
    match cancelledAt with
    | some k =>
      if k < before then (b.forget, buckets, .error ⟨⟩)
      else
        let b := b.project track
        let look := k - before
        let stop := if look < traceChecks track then some ((look + 1) * checkInterval) else none
        let (bucket, result) := trace track b.projected position settings stop
        (b, ⟨some bucket⟩, result)
    | none =>
      let b := b.project track
      let (bucket, result) := trace track b.projected position settings none
      (b, ⟨some bucket⟩, result)

end Builder

end TourMap
