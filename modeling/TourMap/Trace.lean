import TourMap.Buckets
import TourMap.Geometry.Clipper
import TourMap.Position

/-!
# Trace: from projected points to clipped lines

A `Trace` follows the points of a track seen from one position and collects lines: it breaks a line
where a tour starts, where the track goes around the world and where it leaves the clip region,
and drops points that are near the vertex before them. The line being collected is a `Run`; the
last point that it dropped is its tail, which still ends the line if no vertex follows.
-/

namespace TourMap

open Arithmetic

/-! ## 1. Pixels -/

/-- A pixel relative to the center of the window, on the copy of the world nearest to it. -/
structure Pixel (N : Type) where
  point : Point N
  /-- How many worlds the point was moved to the East. -/
  flip : Int
  deriving DecidableEq

/-- The pixel of a point of the world, seen from a position. -/
def MapPosition.pixel {W N : Type} [Arithmetic W] [Resolution W N] (position : MapPosition W)
    (p : Point W) : Pixel N :=
  let world := position.worldPixels
  let x := trunc ((p.x - position.x) * world)
  let y := trunc ((p.y - position.y) * world)
  if world / ofInt 2 < x then ⟨⟨narrow (x - world), narrow y⟩, -1⟩
  else if x < -world / ofInt 2 then ⟨⟨narrow (x + world), narrow y⟩, 1⟩
  else ⟨⟨narrow x, narrow y⟩, 0⟩

/-! ## 2. Runs -/

/-- A line that is being collected. -/
structure Run (N : Type) where
  vertices : Array (Vertex N)
  /-- The last point dropped after the last vertex. -/
  tail : Option (Vertex N)
  deriving DecidableEq

namespace Run

variable {N : Type}

def empty : Run N := ⟨#[], none⟩

def isEmpty (r : Run N) : Bool := r.vertices.isEmpty

/-- Appends a vertex; what was dropped before it stays out. -/
def push (r : Run N) (v : Vertex N) : Run N := ⟨r.vertices.push v, none⟩

def start (v : Vertex N) : Run N := empty.push v

def drop (r : Run N) (v : Vertex N) : Run N := { r with tail := some v }

def commitTail (r : Run N) : Run N :=
  match r.tail with
  | some v => r.push v
  | none => r

/-- Whether a point is to become a vertex: it is the first one or far enough from the last. -/
def accepts [Arithmetic N] (r : Run N) (p : Point N) (distance : N) : Bool :=
  match r.vertices.back? with
  | some v => v.point.furtherThan p distance
  | none => true

end Run

/-! ## 3. Following a track -/

/-- What is kept while a track is followed. -/
structure Trace (W N : Type) where
  clipper : LineClipper N
  run : Run N
  bucket : LineBucket N
  arrows : Array (Point N)
  /-- The pixel of the last arrow, or of the first point. -/
  lastArrow : Point N
  /-- How the last point was moved. -/
  flip : Int
  /-- Where the last point lies in the world, from West to East. -/
  lastX : W
  /-- The indices of tours still to come. -/
  boundaries : List Nat
  deriving DecidableEq

namespace Trace

variable {W N : Type} [Arithmetic N]

omit [Arithmetic N] in
def flush (t : Trace W N) : Trace W N :=
  { t with run := .empty, bucket := t.bucket.addLine t.run.commitTail.vertices }

/-- Starts a new polyline at a point, after the line before it ended. -/
def restart (t : Trace W N) (v : Vertex N) : Trace W N :=
  let clipper := t.clipper.start v.point
  { t.flush with clipper, run := if clipper.isInside then .start v else .empty }

def advance (settings : BuildSettings N) (t : Trace W N) (v : Vertex N) : Trace W N :=
  let run :=
    if t.run.accepts v.point settings.minDistance then t.run.push v else t.run.drop v
  if t.lastArrow.furtherThan v.point settings.arrowDistance then
    { t with run, lastArrow := v.point, arrows := t.arrows.push v.point }
  else { t with run }

/-- Follows the track over the border of the clip region, along the given part inside. Where only
a corner is touched there is nothing to draw. -/
def cross (t : Trace W N) (wasInside : Bool) (line : Segment N) (color : Color) : Trace W N :=
  let leave (t : Trace W N) : Trace W N :=
    let t := { t with run := t.run.push ⟨line.second, color⟩ }
    if t.clipper.isInside then t else t.flush
  if wasInside && !t.run.isEmpty then
    leave { t with run := t.run.commitTail }
  else if line.first.coincides line.second && !t.clipper.isInside then t.flush
  else leave { t.flush with run := .start ⟨line.first, color⟩ }

def extend (settings : BuildSettings N) (t : Trace W N) (v : Vertex N) : Trace W N :=
  let wasInside := t.clipper.isInside
  let (result, clipper) := t.clipper.next v.point
  let t := { t with clipper }
  match result with
  | .outside => t.flush
  | .intersection => t.cross wasInside clipper.line v.color
  | .inside => t.advance settings v

variable [Arithmetic W]

/-- Whether the way from one point to the next goes around the world. -/
def wraps (fromX toX : W) : Bool := decide (half < abs (toX - fromX))

def step (settings : BuildSettings N) (t : Trace W N) (i : Nat) (p : Point W) (pixel : Pixel N)
    (color : Color) : Trace W N :=
  let newTour := t.boundaries.head? == some i
  let breaks := pixel.flip != t.flip || wraps t.lastX p.x || newTour
  let t := { t with
    boundaries := if newTour then t.boundaries.tail else t.boundaries
    lastX := p.x
    flip := if breaks then pixel.flip else t.flip }
  if breaks then t.restart ⟨pixel.point, color⟩ else t.extend settings ⟨pixel.point, color⟩

omit [Arithmetic W] in
def start (settings : BuildSettings N) (boundaries : List Nat) (p : Point W) (pixel : Pixel N)
    (color : Color) : Trace W N :=
  let clipper := (LineClipper.centered settings.clipExtent).start pixel.point
  { clipper
    run := if clipper.isInside then .start ⟨pixel.point, color⟩ else .empty
    bucket := .new settings.style
    arrows := if clipper.isInside then #[pixel.point] else #[]
    lastArrow := pixel.point
    flip := pixel.flip
    lastX := p.x
    boundaries }

variable [Resolution W N]

/-- Follows the track through more points, the first of which has the given index. -/
def follow (settings : BuildSettings N) (position : MapPosition W) :
    (index : Nat) → List (Point W × Color) → Trace W N → Trace W N
  | _, [], t => t
  | i, (p, color) :: rest, t =>
    follow settings position (i + 1) rest (t.step settings i p (position.pixel p) color)

/-- The trace of a whole track, its last line still open; none of a track without points. -/
def ofPoints (settings : BuildSettings N) (position : MapPosition W) (boundaries : List Nat) :
    List (Point W × Color) → Option (Trace W N)
  | [] => none
  | (p, color) :: rest =>
    some (follow settings position 1 rest
      (start settings boundaries p (position.pixel p) color))

end Trace

end TourMap
