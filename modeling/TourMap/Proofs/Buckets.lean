import TourMap.Buckets

/-!
# Buckets: the lines that a bucket holds

A bucket holds lines if its buffers are those of the lines one after the other, and the end of each
line is noted (`LineBucket.Holds`). Such a bucket gives the lines back, and one more line can be
appended to it.
-/

namespace TourMap

variable {N : Type}

/-! ## 1. Lines in buffers -/

namespace LineBucket

/-- Where lines end that are laid one after the other from an index on. -/
def endsFrom : (start : Nat) → List (Array (Vertex N)) → List Nat
  | _, [] => []
  | start, line :: rest => (start + line.size) :: endsFrom (start + line.size) rest

structure Holds (b : LineBucket N) (lines : List (Array (Vertex N))) : Prop where
  vertices : b.vertices.toList = lines.flatMap fun line => line.toList.map (·.point)
  colors : b.colors.toList = lines.flatMap fun line => line.toList.map (·.color)
  lineEnds : b.lineEnds.toList = endsFrom 0 lines

variable {b : LineBucket N} {lines : List (Array (Vertex N))}

theorem endsFrom_append (start : Nat) (first second : List (Array (Vertex N))) :
    endsFrom start (first ++ second) = endsFrom start first ++
      endsFrom (start + (first.flatMap fun line => line.toList.map (·.point)).length) second := by
  induction first generalizing start with
  | nil => simp [endsFrom]
  | cons line rest ih => simp [endsFrom, ih, Nat.add_assoc]

theorem holds_new (style : LineStyle N) : (new style).Holds [] := ⟨rfl, rfl, rfl⟩

/-- A single vertex makes no line. -/
theorem Holds.addLine (h : b.Holds lines) (line : Array (Vertex N)) :
    (b.addLine line).Holds (lines ++ if line.size < 2 then [] else [line]) := by
  unfold LineBucket.addLine
  split
  · rwa [List.append_nil]
  · have hsize : b.vertices.size =
        (lines.flatMap fun line => line.toList.map (·.point)).length := by
      rw [← h.vertices, Array.length_toList]
    refine ⟨?_, ?_, ?_⟩
    · simp [h.vertices]
    · simp [h.colors]
    · simp [h.lineEnds, endsFrom_append, endsFrom, hsize]

theorem Holds.setArrows (h : b.Holds lines) (arrows : Array (Point N)) :
    (b.setArrows arrows).Holds lines := ⟨h.vertices, h.colors, h.lineEnds⟩

/-! ## 2. Cutting the buffers apart -/

/-- A line that stands in the buffers at an index is cut out there. -/
theorem slice_eq {start : Nat} {line : Array (Vertex N)} {points : List (Point N)}
    {colors : List Color}
    (hvertices : b.vertices.toList.drop start = line.toList.map (·.point) ++ points)
    (hcolors : b.colors.toList.drop start = line.toList.map (·.color) ++ colors) :
    b.slice start (start + line.size) = line := by
  apply Array.toList_inj.1
  rw [slice, Array.toList_map, Array.toList_zip, Array.toList_extract, Array.toList_extract,
    List.extract_eq_take_drop, List.extract_eq_take_drop, hvertices, hcolors, Nat.add_sub_cancel_left,
    List.take_left' (by simp), List.take_left' (by simp), List.zip_map', List.map_map]
  exact List.map_id _

theorem linesFrom_eq {start : Nat} {lines : List (Array (Vertex N))}
    (hvertices : b.vertices.toList.drop start =
      lines.flatMap fun line => line.toList.map (·.point))
    (hcolors : b.colors.toList.drop start = lines.flatMap fun line => line.toList.map (·.color)) :
    b.linesFrom start (endsFrom start lines) = lines := by
  induction lines generalizing start with
  | nil => rfl
  | cons line rest ih =>
    rw [List.flatMap_cons] at hvertices hcolors
    rw [endsFrom, linesFrom, slice_eq hvertices hcolors, ih]
    · rw [← List.drop_drop, hvertices, List.drop_left' (by simp)]
    · rw [← List.drop_drop, hcolors, List.drop_left' (by simp)]

/-- What a bucket holds is what it gives back. -/
theorem Holds.lines_eq (h : b.Holds lines) : b.lines = lines := by
  rw [LineBucket.lines, h.lineEnds]
  exact linesFrom_eq h.vertices h.colors

end LineBucket

namespace RenderBuckets

/-- The lines of all the buckets. -/
def lines (b : RenderBuckets N) : List (Array (Vertex N)) := b.toList.flatMap LineBucket.lines

/-- Whether the buckets hold these lines and nothing else; without a bucket there are none. -/
def Holds (b : RenderBuckets N) (lines : List (Array (Vertex N))) : Prop :=
  match b.lineBucket with
  | some bucket => bucket.Holds lines
  | none => lines = []

theorem Holds.lines_eq {b : RenderBuckets N} {lines : List (Array (Vertex N))}
    (h : b.Holds lines) : b.lines = lines := by
  obtain ⟨_ | bucket⟩ := b
  · exact h.symm
  · rw [RenderBuckets.lines, toList, Option.toList_some, List.flatMap_singleton]
    exact LineBucket.Holds.lines_eq h

end RenderBuckets

end TourMap
