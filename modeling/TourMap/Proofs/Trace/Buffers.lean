import TourMap.Proofs.Trace

/-!
# Buffers: a track followed with points and colors apart

A `Pass` follows a track as a `Trace` does, but holds the points of its line and their colors in two
buffers, and the tour to come next apart from the later ones. It gives up where the buffers of a
line differ in size (`RunBuffers.addTo?`). That never happens, for each operation of a pass does to
the buffers of a trace what the same operation of the trace does to them (`Pass.ofPoints_eq`).
-/

namespace TourMap

variable {W N : Type}

/-! ## 1. A line in two buffers -/

/-- A line that is being collected, its points and their colors. -/
structure RunBuffers (N : Type) where
  points : Array (Point N)
  colors : Array Color
  /-- The last point dropped after the last vertex. -/
  tail : Option (Vertex N)
  deriving DecidableEq

namespace RunBuffers

def empty : RunBuffers N := ⟨#[], #[], none⟩

def isEmpty (r : RunBuffers N) : Bool := r.points.isEmpty

def push (r : RunBuffers N) (v : Vertex N) : RunBuffers N :=
  ⟨r.points.push v.point, r.colors.push v.color, none⟩

def start (v : Vertex N) : RunBuffers N := empty.push v

def drop (r : RunBuffers N) (v : Vertex N) : RunBuffers N := { r with tail := some v }

def commitTail (r : RunBuffers N) : RunBuffers N :=
  match r.tail with
  | some v => r.push v
  | none => r

def accepts [Arithmetic N] (r : RunBuffers N) (p : Point N) (distance : N) : Bool :=
  match r.points.back? with
  | some last => last.furtherThan p distance
  | none => true

/-- Appends the line to a bucket, if its points are as many as its colors. -/
def addTo? (r : RunBuffers N) (b : LineBucket N) : Option (LineBucket N) :=
  if r.points.size ≠ r.colors.size then none
  else if r.points.size < 2 then some b
  else
    some { b with
      vertices := b.vertices ++ r.points
      colors := b.colors ++ r.colors
      lineEnds := b.lineEnds.push (b.vertices ++ r.points).size }

/-- The last vertex, if both buffers have a last entry. -/
def back? (r : RunBuffers N) : Option (Vertex N) := do
  return ⟨← r.points.back?, ← r.colors.back?⟩

/-- The last point of the line, whether it was dropped or not. -/
def last? (r : RunBuffers N) : Option (Vertex N) := r.tail.or r.back?

end RunBuffers

namespace Run

variable (r : Run N)

/-- The line with its points and colors apart. -/
def buffers : RunBuffers N := ⟨r.vertices.map (·.point), r.vertices.map (·.color), r.tail⟩

@[simp] theorem buffers_empty : (empty : Run N).buffers = .empty := by
  simp only [buffers, empty, RunBuffers.empty, List.map_toArray, List.map_nil]

@[simp] theorem buffers_push (v : Vertex N) : (r.push v).buffers = r.buffers.push v := by
  simp only [buffers, push, RunBuffers.push, Array.map_push]

@[simp] theorem buffers_start (v : Vertex N) : (start v).buffers = .start v := by
  rw [start, buffers_push, buffers_empty, RunBuffers.start]

@[simp] theorem buffers_drop (v : Vertex N) : (r.drop v).buffers = r.buffers.drop v := rfl

@[simp] theorem buffers_commitTail : r.commitTail.buffers = r.buffers.commitTail := by
  unfold commitTail RunBuffers.commitTail
  rw [show r.buffers.tail = r.tail from rfl]
  cases r.tail with
  | none => rfl
  | some v => exact r.buffers_push v

@[simp] theorem isEmpty_buffers : r.buffers.isEmpty = r.isEmpty := by
  simp only [RunBuffers.isEmpty, buffers, isEmpty, Array.isEmpty, Array.size_map]

@[simp] theorem accepts_buffers [Arithmetic N] (p : Point N) (distance : N) :
    r.buffers.accepts p distance = r.accepts p distance := by
  unfold RunBuffers.accepts accepts
  rw [buffers, Array.back?_map]
  cases r.vertices.back? <;> rfl

@[simp] theorem back?_buffers : r.buffers.back? = r.vertices.back? := by
  unfold RunBuffers.back?
  rw [buffers, Array.back?_map, Array.back?_map]
  cases r.vertices.back? <;> rfl

/-- The buffers are of one size, so the line can be appended. -/
@[simp] theorem addTo?_buffers (b : LineBucket N) :
    r.buffers.addTo? b = some (b.addLine r.vertices) := by
  unfold RunBuffers.addTo? LineBucket.addLine
  simp only [buffers, Array.size_map, Array.size_append, ne_eq, not_true_eq_false, ↓reduceIte]
  split <;> rfl

end Run

/-! ## 2. A pass -/

/-- What is kept while a track is followed with points and colors apart. -/
structure Pass (W N : Type) where
  clipper : LineClipper N
  run : RunBuffers N
  bucket : LineBucket N
  arrows : Array (Point N)
  lastArrow : Point N
  flip : Int
  lastX : W
  /-- The index of the first tour still to come. -/
  nextStart : Option Nat
  laterStarts : List Nat
  deriving DecidableEq

namespace Pass

/-- Ends the line at hand. -/
def flush (s : Pass W N) : Option (Pass W N) := do
  let bucket ← s.run.commitTail.addTo? s.bucket
  return { s with run := .empty, bucket }

/-- Draws a line on to a vertex, where it ends unless the track is inside from there on. -/
def drawTo (s : Pass W N) (v : Vertex N) : Option (Pass W N) :=
  let s := { s with run := s.run.push v }
  if s.clipper.isInside then some s else s.flush

variable [Arithmetic N]

/-- Starts a new polyline at a point, after the line before it ended. -/
def restart (s : Pass W N) (v : Vertex N) : Option (Pass W N) := do
  let s ← s.flush
  let clipper := s.clipper.start v.point
  return { s with clipper, run := if clipper.isInside then .start v else .empty }

def advance (settings : BuildSettings N) (s : Pass W N) (v : Vertex N) : Pass W N :=
  let run :=
    if s.run.accepts v.point settings.minDistance then s.run.push v else s.run.drop v
  if s.lastArrow.furtherThan v.point settings.arrowDistance then
    { s with run, lastArrow := v.point, arrows := s.arrows.push v.point }
  else { s with run }

/-- Follows the track over the border of the clip region. -/
def cross (s : Pass W N) (wasInside : Bool) (line : Segment N) (color : Color) :
    Option (Pass W N) :=
  if wasInside && !s.run.isEmpty then
    { s with run := s.run.commitTail }.drawTo ⟨line.second, color⟩
  else do
    let s ← s.flush
    -- Only a corner is touched.
    if line.first.coincides line.second && !s.clipper.isInside then return s
    else drawTo { s with run := .start ⟨line.first, color⟩ } ⟨line.second, color⟩

def extend (settings : BuildSettings N) (s : Pass W N) (v : Vertex N) : Option (Pass W N) :=
  let wasInside := s.clipper.isInside
  let (result, clipper) := s.clipper.next v.point
  let s := { s with clipper }
  match result with
  | .outside => s.flush
  | .intersection => s.cross wasInside clipper.line v.color
  | .inside => some (s.advance settings v)

/-- Takes the first tour to come. -/
def takeStart (s : Pass W N) : Pass W N :=
  { s with nextStart := s.laterStarts.head?, laterStarts := s.laterStarts.tail }

variable [Arithmetic W]

def step (settings : BuildSettings N) (s : Pass W N) (i : Nat) (p : Point W) (pixel : Pixel N)
    (color : Color) : Option (Pass W N) :=
  let newTour := s.nextStart == some i
  let s := if newTour then s.takeStart else s
  let wraps := Trace.wraps s.lastX p.x
  let s := { s with lastX := p.x }
  if pixel.flip != s.flip || wraps || newTour then
    Pass.restart { s with flip := pixel.flip } ⟨pixel.point, color⟩
  else s.extend settings ⟨pixel.point, color⟩

omit [Arithmetic W] in
/-- A pass at the first point of a track. A tour that starts there does not come up again. -/
def start (settings : BuildSettings N) (starts : List Nat) (p : Point W) (pixel : Pixel N)
    (color : Color) : Pass W N :=
  let clipper := (LineClipper.centered settings.clipExtent).start pixel.point
  let starts := starts.dropWhile (· == 0)
  { clipper
    run := if clipper.isInside then .start ⟨pixel.point, color⟩ else .empty
    bucket := .new settings.style
    arrows := if clipper.isInside then #[pixel.point] else #[]
    lastArrow := pixel.point
    flip := pixel.flip
    lastX := p.x
    nextStart := starts.head?
    laterStarts := starts.tail }

variable [Resolution W N]

/-- Follows the track through more points, the first of which has the given index. -/
def follow (settings : BuildSettings N) (position : MapPosition W) :
    (index : Nat) → List (Point W × Color) → Pass W N → Option (Pass W N)
  | _, [], s => some s
  | i, (p, color) :: rest, s => do
    follow settings position (i + 1) rest (← s.step settings i p (position.pixel p) color)

/-- The pass through all points of a track, its last line still open; none of a track without
points, or if the pass gives up. -/
def ofPoints (settings : BuildSettings N) (position : MapPosition W) (starts : List Nat) :
    List (Point W × Color) → Option (Pass W N)
  | [] => none
  | (p, color) :: rest =>
    follow settings position 1 rest (start settings starts p (position.pixel p) color)

end Pass

/-! ## 3. Traces and their buffers -/

namespace Trace

variable (t : Trace W N)

/-- What a pass holds where a trace holds `t`. -/
def buffers : Pass W N where
  clipper := t.clipper
  run := t.run.buffers
  bucket := t.bucket
  arrows := t.arrows
  lastArrow := t.lastArrow
  flip := t.flip
  lastX := t.lastX
  nextStart := t.boundaries.head?
  laterStarts := t.boundaries.tail

@[simp] theorem buffers_clipper : t.buffers.clipper = t.clipper := rfl

@[simp] theorem buffers_run : t.buffers.run = t.run.buffers := rfl

@[simp] theorem buffers_bucket : t.buffers.bucket = t.bucket := rfl

@[simp] theorem buffers_nextStart : t.buffers.nextStart = t.boundaries.head? := rfl

theorem flush_buffers : t.buffers.flush = some t.flush.buffers := by
  -- With its tail committed the line still has as many colors as points.
  have hadd := t.run.commitTail.addTo?_buffers t.bucket
  rw [Run.buffers_commitTail] at hadd
  unfold Pass.flush
  rw [buffers_run, buffers_bucket, hadd, ← Run.buffers_empty]
  rfl

theorem drawTo_buffers (v : Vertex N) : t.buffers.drawTo v = some (t.drawTo v).buffers := by
  unfold Pass.drawTo drawTo
  rw [buffers_run, ← Run.buffers_push]
  change (if t.clipper.isInside = true then some (Trace.buffers { t with run := t.run.push v })
    else (Trace.buffers { t with run := t.run.push v }).flush) = _
  rw [flush_buffers]
  split <;> rfl

variable [Arithmetic N] (settings : BuildSettings N)

theorem restart_buffers (v : Vertex N) : t.buffers.restart v = some (t.restart v).buffers := by
  unfold Pass.restart restart
  rw [flush_buffers, ← Run.buffers_start, ← Run.buffers_empty]
  refine congrArg some ?_
  dsimp only
  rw [← apply_ite Run.buffers]
  rfl

theorem advance_buffers (v : Vertex N) :
    t.buffers.advance settings v = (t.advance settings v).buffers := by
  unfold Pass.advance advance
  rw [buffers_run, Run.accepts_buffers, ← Run.buffers_push, ← Run.buffers_drop,
    ← apply_ite Run.buffers]
  dsimp only
  change (if t.lastArrow.furtherThan v.point settings.arrowDistance = true then _ else _) = _
  split <;> rfl

theorem cross_buffers (wasInside : Bool) (line : Segment N) (color : Color) :
    t.buffers.cross wasInside line color = some (t.cross wasInside line color).buffers := by
  have hline := drawTo_buffers { t with run := t.run.commitTail } ⟨line.second, color⟩
  have hstart := drawTo_buffers { t.flush with run := .start ⟨line.first, color⟩ }
    ⟨line.second, color⟩
  unfold Pass.cross
  rw [cross_eq, flush_buffers, buffers_run, Run.isEmpty_buffers, ← Run.buffers_commitTail]
  rw [Option.bind_eq_bind, Option.bind_some, ← Run.buffers_start]
  split
  · exact hline
  · change (if (line.first.coincides line.second && !t.clipper.isInside) = true then _ else _) = _
    split
    · rfl
    · exact hstart

theorem extend_buffers (v : Vertex N) :
    t.buffers.extend settings v = some (t.extend settings v).buffers := by
  have hflush := flush_buffers { t with clipper := (t.clipper.next v.point).2 }
  have hcross := cross_buffers { t with clipper := (t.clipper.next v.point).2 }
    t.clipper.isInside (t.clipper.next v.point).2.line v.color
  have hadvance := advance_buffers { t with clipper := (t.clipper.next v.point).2 } settings v
  unfold Pass.extend extend
  rw [buffers_clipper]
  dsimp only
  cases (t.clipper.next v.point).1 with
  | outside => exact hflush
  | intersection => exact hcross
  | inside => exact congrArg some hadvance

variable [Arithmetic W]

theorem step_buffers (i : Nat) (p : Point W) (pixel : Pixel N) (color : Color) :
    t.buffers.step settings i p pixel color =
      some (t.step settings i p pixel color).buffers := by
  let boundaries := if t.boundaries.head? == some i then t.boundaries.tail else t.boundaries
  have htake : (if t.boundaries.head? == some i then t.buffers.takeStart else t.buffers) =
      Trace.buffers { t with boundaries } := by
    dsimp only [boundaries]
    split <;> rfl
  unfold Pass.step step
  rw [buffers_nextStart]
  dsimp only
  rw [htake]
  -- Whether the track breaks is asked of the point before, which both hold alike.
  change (if (pixel.flip != t.flip || wraps t.lastX p.x || t.boundaries.head? == some i) = true
    then _ else _) = _
  cases pixel.flip != t.flip || wraps t.lastX p.x || t.boundaries.head? == some i with
  | true => exact restart_buffers { t with boundaries, lastX := p.x, flip := pixel.flip } _
  | false => exact extend_buffers { t with boundaries, lastX := p.x } settings _

variable [Resolution W N] (position : MapPosition W)

theorem follow_buffers (i : Nat) (points : List (Point W × Color)) :
    Pass.follow settings position i points t.buffers =
      some (follow settings position i points t).buffers := by
  induction points generalizing i t with
  | nil => rfl
  | cons point rest ih =>
    rw [Pass.follow, step_buffers, follow]
    exact ih _ (i + 1)

end Trace

variable [Arithmetic W] [Arithmetic N] [Resolution W N]

/-- A pass never gives up, and holds at the end what a trace holds. -/
theorem Pass.ofPoints_eq (settings : BuildSettings N) (position : MapPosition W) (starts : List Nat)
    (points : List (Point W × Color)) :
    ofPoints settings position starts points =
      (Trace.ofPoints settings position (starts.dropWhile (· == 0)) points).map Trace.buffers := by
  cases points with
  | nil => rfl
  | cons point rest =>
    obtain ⟨p, color⟩ := point
    have hstart : start settings starts p (position.pixel p) color =
        (Trace.start settings (starts.dropWhile (· == 0)) p (position.pixel p) color).buffers := by
      unfold start Trace.start
      rw [← Run.buffers_start, ← Run.buffers_empty]
      dsimp only
      rw [← apply_ite Run.buffers]
      rfl
    rw [ofPoints, hstart, Trace.follow_buffers]
    rfl

end TourMap
