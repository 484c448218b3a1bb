import TourMap.Proofs.Buckets
import TourMap.Proofs.Geometry.Clipper
import TourMap.Trace

/-!
# Trace: what stays the same, and the lines that are drawn

A trace collects lines in the style of its settings, clips them against one region, and only ever
appends lines to its bucket (`Trace.linesOf`).
-/

namespace TourMap

variable {W N : Type}

@[simp] theorem LineBucket.addLine_style (b : LineBucket N) (line : Array (Vertex N)) :
    (b.addLine line).style = b.style := by
  unfold addLine
  split <;> rfl

namespace Trace

variable (t : Trace W N)

/-! ## 1. Style, region and course -/

/-- What is kept of the way so far to tell where it breaks: how the last point was moved, where it
lies, and the tours still to come. -/
def course : Int × W × List Nat := (t.flip, t.lastX, t.boundaries)

@[simp] theorem flush_course : t.flush.course = t.course := rfl

@[simp] theorem flush_style : t.flush.bucket.style = t.bucket.style := by
  simp [flush]

@[simp] theorem flush_clipper : t.flush.clipper = t.clipper := rfl

/-- Draws a line on to a vertex, where it ends unless the track is inside from there on. -/
def drawTo (v : Vertex N) : Trace W N :=
  if t.clipper.isInside then { t with run := t.run.push v }
  else { t with run := t.run.push v }.flush

@[simp] theorem drawTo_style (v : Vertex N) : (t.drawTo v).bucket.style = t.bucket.style := by
  unfold drawTo
  split
  · rfl
  · rw [flush_style]

@[simp] theorem drawTo_clipper (v : Vertex N) : (t.drawTo v).clipper = t.clipper := by
  unfold drawTo
  split <;> rfl

@[simp] theorem drawTo_course (v : Vertex N) : (t.drawTo v).course = t.course := by
  unfold drawTo
  split <;> rfl

variable [Arithmetic N] (settings : BuildSettings N)

@[simp] theorem restart_course (v : Vertex N) : (t.restart v).course = t.course := rfl

@[simp] theorem restart_style (v : Vertex N) : (t.restart v).bucket.style = t.bucket.style := by
  simp [restart]

@[simp] theorem restart_clipper (v : Vertex N) :
    (t.restart v).clipper = t.clipper.start v.point := rfl

/-- Inside the region only the run and the arrows change. -/
theorem advance_eq (v : Vertex N) :
    ∃ arrows lastArrow, t.advance settings v = { t with
      run := if t.run.accepts v.point settings.minDistance then t.run.push v else t.run.drop v
      arrows
      lastArrow } := by
  unfold advance
  dsimp only
  split <;> exact ⟨_, _, rfl⟩

@[simp] theorem advance_style (v : Vertex N) :
    (t.advance settings v).bucket.style = t.bucket.style := by
  obtain ⟨arrows, lastArrow, h⟩ := t.advance_eq settings v
  rw [h]

@[simp] theorem advance_clipper (v : Vertex N) :
    (t.advance settings v).clipper = t.clipper := by
  obtain ⟨arrows, lastArrow, h⟩ := t.advance_eq settings v
  rw [h]

@[simp] theorem advance_course (v : Vertex N) :
    (t.advance settings v).course = t.course := by
  obtain ⟨arrows, lastArrow, h⟩ := t.advance_eq settings v
  rw [h]
  rfl

theorem cross_eq (wasInside : Bool) (line : Segment N) (color : Color) :
    t.cross wasInside line color =
      if wasInside && !t.run.isEmpty then
        { t with run := t.run.commitTail }.drawTo ⟨line.second, color⟩
      else if line.first.coincides line.second && !t.clipper.isInside then t.flush
      else { t.flush with run := .start ⟨line.first, color⟩ }.drawTo ⟨line.second, color⟩ := rfl

@[simp] theorem cross_style (wasInside : Bool) (line : Segment N) (color : Color) :
    (t.cross wasInside line color).bucket.style = t.bucket.style := by
  rw [cross_eq]
  split
  · rw [drawTo_style]
  · split
    · rw [flush_style]
    · rw [drawTo_style, flush_style]

@[simp] theorem cross_clipper (wasInside : Bool) (line : Segment N) (color : Color) :
    (t.cross wasInside line color).clipper = t.clipper := by
  rw [cross_eq]
  split
  · rw [drawTo_clipper]
  · split
    · rfl
    · rw [drawTo_clipper, flush_clipper]

@[simp] theorem cross_course (wasInside : Bool) (line : Segment N) (color : Color) :
    (t.cross wasInside line color).course = t.course := by
  rw [cross_eq]
  split
  · rw [drawTo_course]
    rfl
  · split
    · rfl
    · rw [drawTo_course]
      rfl

@[simp] theorem extend_style (v : Vertex N) :
    (t.extend settings v).bucket.style = t.bucket.style := by
  unfold extend
  dsimp only
  split <;> simp

@[simp] theorem extend_clipper (v : Vertex N) :
    (t.extend settings v).clipper = (t.clipper.next v.point).2 := by
  unfold extend
  dsimp only
  split <;> simp

@[simp] theorem extend_course (v : Vertex N) : (t.extend settings v).course = t.course := by
  unfold extend
  dsimp only
  split
  · rfl
  · exact cross_course _ _ _ _
  · exact advance_course _ _ _

variable [Arithmetic W]

@[simp] theorem step_style (i : Nat) (p : Point W) (pixel : Pixel N) (color : Color) :
    (t.step settings i p pixel color).bucket.style = t.bucket.style := by
  unfold step
  dsimp only
  split <;> simp

@[simp] theorem step_region (i : Nat) (p : Point W) (pixel : Pixel N) (color : Color) :
    (t.step settings i p pixel color).clipper.region = t.clipper.region := by
  unfold step
  dsimp only
  split <;> simp

/-- A step takes the way to its point, past the start of a tour if there is one. -/
theorem step_course (i : Nat) (p : Point W) (pixel : Pixel N) (color : Color) :
    (t.step settings i p pixel color).course =
      (pixel.flip, p.x,
        if t.boundaries.head? == some i then t.boundaries.tail else t.boundaries) := by
  unfold step
  dsimp only
  split
  · rw [restart_course]
    rfl
  · -- Where the way does not break, the point is moved as the one before.
    rename_i hbreaks
    have hflip : t.flip = pixel.flip := by
      simp only [Bool.or_eq_true, not_or] at hbreaks
      exact (by simpa using hbreaks.1.1 : pixel.flip = t.flip).symm
    rw [extend_course, course, hflip]

variable [Resolution W N]

@[simp] theorem follow_style (position : MapPosition W) (i : Nat) (points : List (Point W × Color)) :
    (follow settings position i points t).bucket.style = t.bucket.style := by
  induction points generalizing i t with
  | nil => rfl
  | cons p rest ih => rw [follow, ih, step_style]

@[simp] theorem follow_region (position : MapPosition W) (i : Nat)
    (points : List (Point W × Color)) :
    (follow settings position i points t).clipper.region = t.clipper.region := by
  induction points generalizing i t with
  | nil => rfl
  | cons p rest ih => rw [follow, ih, step_region]

/-- The lines of a track are in the style of the settings. -/
theorem ofPoints_style {position : MapPosition W} {boundaries : List Nat}
    {points : List (Point W × Color)} {t : Trace W N}
    (h : ofPoints settings position boundaries points = some t) :
    t.bucket.style = settings.style := by
  cases points with
  | nil => cases h
  | cons p rest =>
    obtain rfl := Option.some.inj h
    rw [follow_style]
    rfl

theorem ofPoints_eq_none {position : MapPosition W} {boundaries : List Nat}
    {points : List (Point W × Color)}
    (h : ofPoints settings position boundaries points = none) : points = [] := by
  cases points with
  | nil => rfl
  | cons p rest => cases h

/-! ## 2. Lines -/

theorem follow_append (position : MapPosition W) (i : Nat) (first second : List (Point W × Color)) :
    follow settings position i (first ++ second) t =
      follow settings position (i + first.length) second
        (follow settings position i first t) := by
  induction first generalizing i t with
  | nil => rfl
  | cons p rest ih =>
    rw [List.cons_append, follow, ih, follow, List.length_cons, Nat.add_assoc, Nat.add_comm 1]

/-- The lines of a track, none without points. -/
def linesOf (position : MapPosition W) (boundaries : List Nat) (points : List (Point W × Color)) :
    List (Array (Vertex N)) :=
  match ofPoints settings position boundaries points with
  | none => []
  | some t => t.flush.bucket.lines

end Trace

end TourMap
