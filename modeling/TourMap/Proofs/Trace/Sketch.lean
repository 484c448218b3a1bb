import TourMap.Proofs.Builder
import TourMap.Proofs.Track

/-!
# Sketch: lines as the strokes of a pen

What a trace does to its lines on the way to a point is one of four strokes (`Stroke`), and which one
it is depends on the two points and on whether the track breaks between them. A `Sketch` is what
strokes draw; its vertices may be marked with anything. A trace draws the strokes of its track
(`Trace.Sketches`), so what holds of sketches holds of the lines of a geometry.
-/

namespace TourMap

/-! ## 1. Strokes -/

/-- What is drawn on the way to a point. -/
inductive Stroke (V : Type) where
  /-- The line at hand is ended, and another one started at the vertex, if there is one. -/
  | lift (v : Option V)
  /-- From a vertex inside the clip region to another one inside. -/
  | goOn (v : V)
  /-- Into the clip region, from `a` on its border to `b`. -/
  | enter (a b : V)
  /-- Out of the clip region, from `a` to `b` on its border; if there is no line at hand, and the
  part between the two is a single point, nothing is drawn. -/
  | leave (a b : V) (touches : Bool)

/-- The vertices that a stroke may draw. -/
def Stroke.vertices {V : Type} : Stroke V → List V
  | .lift v => v.toList
  | .goOn v => [v]
  | .enter a b | .leave a b _ => [a, b]

/-- Lines without their clip region: those ended, and the one at hand with what was dropped last. -/
structure Sketch (V : Type) where
  lines : List (List V)
  run : List V
  tail : Option V

namespace Sketch

variable {V : Type}

def empty : Sketch V := ⟨[], [], none⟩

/-- The line at hand as it would end now. -/
def pending (s : Sketch V) : List V := s.run ++ s.tail.toList

/-- Ends the line at hand. A single vertex makes no line. -/
def flush (s : Sketch V) : Sketch V :=
  ⟨s.lines ++ if s.pending.length < 2 then [] else [s.pending], [], none⟩

/-- Draws a stroke, where `far` says whether a vertex is far enough from the last one. -/
def draw (far : V → V → Bool) (s : Sketch V) : Stroke V → Sketch V
  | .lift v => { s.flush with run := v.toList }
  | .goOn v =>
    if s.run.getLast?.all (far · v) then { s with run := s.run ++ [v], tail := none }
    else { s with tail := some v }
  | .enter a b => { s.flush with run := [a, b] }
  | .leave a b touches =>
    if s.run.isEmpty then
      if touches then s.flush else { s.flush with run := [a, b] }.flush
    else { s with run := s.pending ++ [b], tail := none }.flush

def drawAll (far : V → V → Bool) (s : Sketch V) (strokes : List (Stroke V)) : Sketch V :=
  strokes.foldl (draw far) s

/-- What strokes draw, the last line ended. -/
def linesOf (far : V → V → Bool) (strokes : List (Stroke V)) : List (List V) :=
  (empty.drawAll far strokes).flush.lines

/-- Whether all vertices have a property. -/
structure All (Q : V → Prop) (s : Sketch V) : Prop where
  lines : ∀ line ∈ s.lines, ∀ v ∈ line, Q v
  pending : ∀ v ∈ s.pending, Q v

namespace All

variable {Q : V → Prop} {s : Sketch V}

theorem flush (h : s.All Q) : s.flush.All Q := by
  refine ⟨fun line hline => ?_, nofun⟩
  rcases List.mem_append.1 hline with hline | hline
  · exact h.lines line hline
  · split at hline
    · cases hline
    · rw [List.mem_singleton.1 hline]
      exact h.pending

theorem withRun (h : s.All Q) {run : List V} (hrun : ∀ v ∈ run, Q v) (tail : Option V)
    (htail : ∀ v ∈ tail, Q v) : All Q { s with run, tail } := by
  refine ⟨h.lines, fun v hv => ?_⟩
  rcases List.mem_append.1 hv with hv | hv
  · exact hrun v hv
  · exact htail v (Option.mem_toList.1 hv)

theorem draw (h : s.All Q) (far : V → V → Bool) {stroke : Stroke V}
    (hstroke : ∀ v ∈ stroke.vertices, Q v) : (s.draw far stroke).All Q := by
  have hrun : ∀ v ∈ s.run, Q v := fun v hv => h.pending v (List.mem_append_left _ hv)
  have happend {line : List V} (hline : ∀ v ∈ line, Q v) {last : V} (hlast : Q last) :
      ∀ v ∈ line ++ [last], Q v := by
    intro v hv
    rcases List.mem_append.1 hv with hv | hv
    · exact hline v hv
    · rwa [List.mem_singleton.1 hv]
  cases stroke with
  | lift v => exact h.flush.withRun hstroke none nofun
  | goOn v =>
    have hv : Q v := hstroke v List.mem_cons_self
    rw [Sketch.draw]
    split
    · exact h.withRun (happend hrun hv) none nofun
    · exact h.withRun hrun (some v) fun w hw => Option.mem_some.1 hw ▸ hv
  | enter a b => exact h.flush.withRun hstroke none nofun
  | leave a b touches =>
    have hb : Q b := hstroke b (List.mem_cons_of_mem a List.mem_cons_self)
    rw [Sketch.draw]
    split
    · split
      · exact h.flush
      · exact (h.flush.withRun hstroke none nofun).flush
    · exact (h.withRun (happend h.pending hb) none nofun).flush

theorem drawAll (h : s.All Q) (far : V → V → Bool) {strokes : List (Stroke V)}
    (hstrokes : ∀ stroke ∈ strokes, ∀ v ∈ stroke.vertices, Q v) : (s.drawAll far strokes).All Q :=
  List.foldlRecOn strokes (Sketch.draw far) h fun _ hs stroke hmem =>
    hs.draw far (hstrokes stroke hmem)

end All

/-- What holds of all vertices of strokes holds of all that they draw. -/
theorem all_linesOf {Q : V → Prop} (far : V → V → Bool) {strokes : List (Stroke V)}
    (hstrokes : ∀ stroke ∈ strokes, ∀ v ∈ stroke.vertices, Q v) :
    ∀ line ∈ linesOf far strokes, ∀ v ∈ line, Q v :=
  (All.drawAll (s := empty) ⟨nofun, nofun⟩ far hstrokes).flush.lines

end Sketch

/-! ## 2. The strokes of a track -/

section

variable {W N V : Type} [Arithmetic W] [Arithmetic N] [Resolution W N]

/-- The stroke from `p` to `q`, the vertices on the way marked with `mark`. -/
def Region.strokeTo (r : Region N) (mark : Point N → V) (breaks : Bool) (p q : Point N) : Stroke V :=
  if breaks then .lift (if r.contains q then some (mark q) else none)
  else if r.contains p && r.contains q then .goOn (mark q)
  else match r.clip 4 ⟨p, q⟩ (r.outcode p) (r.outcode q) with
    | none => .lift none
    | some part =>
      if r.contains q then .enter (mark part.first) (mark part.second)
      else .leave (mark part.first) (mark part.second) (part.first.coincides part.second)

variable (N) in
/-- Whether a track breaks between two points, the second of which has the index `i`: where a tour
starts, where the pixels change to another copy of the world, and where the way goes around it. -/
def MapPosition.breaks (position : MapPosition W) (starts : List Nat) (i : Nat) (p q : Point W) :
    Bool :=
  (position.pixel q : Pixel N).flip != (position.pixel p : Pixel N).flip ||
    Trace.wraps p.x q.x || decide (i ∈ starts)

variable (r : Region N) (mark : Nat → Vertex N → V) (position : MapPosition W) (starts : List Nat)

/-- The strokes from `last` on to the points after it, the first of which has the index `i`. -/
def Region.strokesFrom : (i : Nat) → (last : Point W) → List (Point W × Color) → List (Stroke V)
  | _, _, [] => []
  | i, last, (p, color) :: rest =>
    r.strokeTo (fun q => mark i ⟨q, color⟩) (position.breaks N starts i last p)
        (position.pixel last).point (position.pixel p).point ::
      strokesFrom (i + 1) p rest

/-- The strokes of a whole track. -/
def Region.strokes : List (Point W × Color) → List (Stroke V)
  | [] => []
  | (p, color) :: rest =>
    let q : Point N := (position.pixel p).point
    .lift (if r.contains q then some (mark 0 ⟨q, color⟩) else none) ::
      r.strokesFrom mark position starts 1 p rest

theorem Region.length_strokesFrom (i : Nat) (last : Point W) (points : List (Point W × Color)) :
    (r.strokesFrom mark position starts i last points).length = points.length := by
  induction points generalizing i last with
  | nil => rfl
  | cons point rest ih => exact congrArg (· + 1) (ih (i + 1) point.1)

theorem Region.length_strokes (points : List (Point W × Color)) :
    (r.strokes mark position starts points).length = points.length := by
  cases points with
  | nil => rfl
  | cons point rest =>
    exact congrArg (· + 1) (r.length_strokesFrom mark position starts 1 point.1 rest)

theorem Region.getElem?_strokesFrom {i j : Nat} {last : Point W} (c : Color)
    {points : List (Point W × Color)} {stroke : Stroke V}
    (h : (r.strokesFrom mark position starts i last points)[j]? = some stroke) :
    ∃ p c' q color, ((last, c) :: points)[j]? = some (p, c') ∧ points[j]? = some (q, color) ∧
      stroke = r.strokeTo (fun x => mark (i + j) ⟨x, color⟩) (position.breaks N starts (i + j) p q)
        (position.pixel p).point (position.pixel q).point := by
  induction points generalizing i j last c with
  | nil => cases h
  | cons point rest ih =>
    obtain ⟨q, color⟩ := point
    cases j with
    | zero =>
      obtain rfl := Option.some.inj h
      exact ⟨last, c, q, color, rfl, rfl, rfl⟩
    | succ j =>
      obtain ⟨p, c', q', color', hp, hq, hstroke⟩ := ih color h
      rw [Nat.add_assoc, Nat.add_comm 1] at hstroke
      exact ⟨p, c', q', color', hp, hq, hstroke⟩

/-- The first stroke starts at the first point, and each other one leads from a point to the next. -/
theorem Region.getElem?_strokes {points : List (Point W × Color)} {i : Nat} {stroke : Stroke V}
    (h : (r.strokes mark position starts points)[i]? = some stroke) :
    ∃ q color, points[i]? = some (q, color) ∧
      ((i = 0 ∧ stroke = .lift (if r.contains (position.pixel q).point then
          some (mark 0 ⟨(position.pixel q).point, color⟩) else none)) ∨
        ∃ j p c, i = j + 1 ∧ points[j]? = some (p, c) ∧
          stroke = r.strokeTo (fun x => mark i ⟨x, color⟩) (position.breaks N starts i p q)
            (position.pixel p).point (position.pixel q).point) := by
  cases points with
  | nil => cases h
  | cons point rest =>
    obtain ⟨q, color⟩ := point
    cases i with
    | zero =>
      obtain rfl := Option.some.inj h
      exact ⟨q, color, rfl, Or.inl ⟨rfl, rfl⟩⟩
    | succ i =>
      obtain ⟨p, c, q', color', hp, hq, hstroke⟩ :=
        Region.getElem?_strokesFrom r mark position starts color h
      rw [Nat.add_comm 1] at hstroke
      exact ⟨q', color', hq, Or.inr ⟨i, p, c, rfl, hp, hstroke⟩⟩

end

/-! ## 3. Traces -/

namespace Trace

variable {W N V : Type} {erase : V → Vertex N}

/-- The lines that the marked ones stand for. -/
def erased (erase : V → Vertex N) (lines : List (List V)) : List (Array (Vertex N)) :=
  lines.map fun line => (line.map erase).toArray

/-- Whether the lines of a trace are those of a sketch. -/
structure Shows (erase : V → Vertex N) (t : Trace W N) (s : Sketch V) : Prop where
  lines : t.bucket.Holds (erased erase s.lines)
  run : t.run.vertices.toList = s.run.map erase
  tail : t.run.tail = s.tail.map erase

theorem toList_commitTail (r : Run N) :
    r.commitTail.vertices.toList = r.vertices.toList ++ r.tail.toList := by
  unfold Run.commitTail
  split
  · rename_i v htail
    rw [htail, Run.push, Array.toList_push, Option.toList_some]
  · rename_i htail
    rw [htail, Option.toList_none, List.append_nil]

namespace Shows

variable {t : Trace W N} {s : Sketch V}

theorem pending (h : Shows erase t s) :
    t.run.commitTail.vertices.toList = s.pending.map erase := by
  rw [toList_commitTail, h.run, h.tail, Sketch.pending, List.map_append]
  cases s.tail <;> rfl

theorem isEmpty (h : Shows erase t s) : t.run.isEmpty = s.run.isEmpty := by
  rw [Run.isEmpty, ← Array.isEmpty_toList, h.run, List.isEmpty_map]

theorem flush (h : Shows erase t s) : Shows erase t.flush s.flush := by
  have hsize : t.run.commitTail.vertices.size = s.pending.length := by
    rw [← Array.length_toList, h.pending, List.length_map]
  have hline : t.run.commitTail.vertices = (s.pending.map erase).toArray := by
    rw [← h.pending]
  have hadd := h.lines.addLine t.run.commitTail.vertices
  rw [hsize, hline] at hadd
  have hmap : erased erase s.flush.lines = erased erase s.lines ++
      if s.pending.length < 2 then [] else [(s.pending.map erase).toArray] := by
    unfold Sketch.flush erased
    rw [List.map_append]
    split <;> rfl
  refine ⟨?_, rfl, rfl⟩
  rw [hmap, Trace.flush, hline]
  exact hadd

theorem withCourse (h : Shows erase t s) (flip : Int) (lastX : W) (boundaries : List Nat) :
    Shows erase { t with flip, lastX, boundaries } s := ⟨h.lines, h.run, h.tail⟩

theorem start (h : Shows erase t s) (u : V) :
    Shows erase { t with run := .start (erase u) } { s with run := [u], tail := none } :=
  ⟨h.lines, rfl, rfl⟩

theorem commitTail (h : Shows erase t s) :
    Shows erase { t with run := t.run.commitTail } { s with run := s.pending, tail := none } := by
  refine ⟨h.lines, h.pending, ?_⟩
  unfold Run.commitTail
  dsimp only
  split
  · rfl
  · assumption

end Shows

section

variable [Arithmetic N] [Arithmetic W] [Resolution W N] {t : Trace W N} {position : MapPosition W}
  {starts : List Nat} {i : Nat} {last : Point W} (settings : BuildSettings N)
  (hstarts : starts.Pairwise (· < ·))
  (hcourse : t.course = ((position.pixel last : Pixel N).flip, last.x, nextStarts starts i))
  (p : Point W) (color : Color)

include hstarts hcourse

/-- A step starts a new polyline where the track breaks, and else goes on with the one at hand. -/
theorem step_eq :
    ∃ flip lastX boundaries, t.step settings i p (position.pixel p) color =
      if position.breaks N starts i last p then
        Trace.restart { t with flip, lastX, boundaries } ⟨(position.pixel p).point, color⟩
      else
        Trace.extend settings { t with flip, lastX, boundaries }
          ⟨(position.pixel p).point, color⟩ := by
  obtain ⟨hflip, hlast, hboundaries⟩ :
      t.flip = (position.pixel last : Pixel N).flip ∧ t.lastX = last.x ∧
        t.boundaries = nextStarts starts i := by
    simpa [course] using hcourse
  have hnew : (t.boundaries.head? == some i) = decide (i ∈ starts) := by
    rw [Bool.eq_iff_iff, beq_iff_eq, decide_eq_true_iff, hboundaries]
    exact (nextStarts_succ hstarts i).1
  unfold Trace.step
  dsimp only
  rw [hnew, hflip, hlast, ← MapPosition.breaks]
  exact ⟨_, _, _, rfl⟩

/-- A step leaves the tours behind that start no later than its point. -/
theorem step_course_next :
    (t.step settings i p (position.pixel p) color).course =
      ((position.pixel p : Pixel N).flip, p.x, nextStarts starts (i + 1)) := by
  have hboundaries : t.boundaries = nextStarts starts i := congrArg (·.2.2) hcourse
  rw [step_course, hboundaries, ← (nextStarts_succ hstarts i).2]

end

/-- Whether a vertex is further away than a distance from the last one. -/
def farBy [Arithmetic N] (erase : V → Vertex N) (distance : N) (k v : V) : Bool :=
  (erase k).point.furtherThan (erase v).point distance

/-- Whether a trace has come to the point `p` with the lines of a sketch. There is a line at hand only
inside the clip region. -/
structure Sketches (erase : V → Vertex N) [Arithmetic N] (r : Region N) (t : Trace W N) (p : Point N)
    (s : Sketch V) : Prop where
  shows : Shows erase t s
  clipper : t.clipper.StandsAt r p
  outside : r.contains p = false → s.run = []

namespace Sketches

variable [Arithmetic N] {t : Trace W N} {s : Sketch V} {r : Region N} {p : Point N}
  {settings : BuildSettings N}

theorem inside {q : Point N} (hq : r.contains q = true) (hclipper : t.clipper.StandsAt r q)
    (h : Shows erase t s) : Sketches erase r t q s :=
  ⟨h, hclipper, fun hout => by rw [hq] at hout; cases hout⟩

theorem restart (h : Sketches erase r t p s) (far : V → V → Bool) {u : V} {v : Vertex N}
    (hu : erase u = v) :
    Sketches erase r (t.restart v) v.point
      (s.draw far (.lift (if r.contains v.point then some u else none))) := by
  have hclipper := h.clipper.start v.point
  have hflush := h.shows.flush
  unfold Trace.restart
  dsimp only
  rw [hclipper.isInside_eq]
  cases hin : r.contains v.point with
  | true =>
    rw [← hu] at hin hclipper ⊢
    exact inside hin hclipper ⟨hflush.lines, rfl, rfl⟩
  | false => exact ⟨⟨hflush.lines, rfl, rfl⟩, hclipper, fun _ => rfl⟩

/-- Inside, a vertex far enough from the last one goes on with the line at hand. -/
theorem advance (h : Shows erase t s) {u : V} {v : Vertex N} (hu : erase u = v)
    (hclipper : t.clipper.StandsAt r v.point) (hin : r.contains v.point = true) :
    Sketches erase r (t.advance settings v) v.point
      (s.draw (farBy erase settings.minDistance) (.goOn u)) := by
  obtain ⟨arrows, lastArrow, heq⟩ := t.advance_eq settings v
  have hlast : t.run.vertices.back? = s.run.getLast?.map erase := by
    rw [← Array.getLast?_toList, h.run, List.getLast?_map]
  have haccepts : t.run.accepts v.point settings.minDistance =
      s.run.getLast?.all fun k => farBy erase settings.minDistance k u := by
    rw [Run.accepts, hlast, ← hu]
    cases s.run.getLast? <;> rfl
  rw [heq, haccepts, Sketch.draw]
  split
  · refine inside hin hclipper ⟨h.lines, ?_, rfl⟩
    rw [Run.push, Array.toList_push, h.run, List.map_append, List.map_singleton, hu]
  · exact inside hin hclipper ⟨h.lines, h.run, congrArg some hu.symm⟩

/-- A line that is drawn on to a vertex is ended there, unless the trace is inside. -/
theorem drawTo (h : Shows erase t s) (hclipper : t.clipper.StandsAt r p) (u : V) :
    Sketches erase r (t.drawTo (erase u)) p
      (if r.contains p then { s with run := s.run ++ [u], tail := none }
      else { s with run := s.run ++ [u], tail := none }.flush) := by
  have hpush : Shows erase { t with run := t.run.push (erase u) }
      { s with run := s.run ++ [u], tail := none } := by
    refine ⟨h.lines, ?_, rfl⟩
    rw [Run.push, Array.toList_push, h.run, List.map_append, List.map_singleton]
  unfold Trace.drawTo
  rw [hclipper.isInside_eq]
  cases hin : r.contains p with
  | true => exact inside hin hclipper hpush
  | false => exact ⟨hpush.flush, hclipper, fun _ => rfl⟩

/-- Over the border of the region, a way leads from the line at hand or from where it enters. -/
theorem cross (h : Sketches erase r t p s) (far : V → V → Bool) {c : LineClipper N} {q : Point N}
    (hclipper : c.StandsAt r q) (hboth : (r.contains p && r.contains q) = false) {a b : V}
    {color : Color} {line : Segment N} (ha : erase a = ⟨line.first, color⟩)
    (hb : erase b = ⟨line.second, color⟩) :
    Sketches erase r (Trace.cross { t with clipper := c } t.clipper.isInside line color) q
      (s.draw far (if r.contains q then .enter a b
        else .leave a b (line.first.coincides line.second))) := by
  have hshows : Shows erase { t with clipper := c } s := ⟨h.shows.lines, h.shows.run, h.shows.tail⟩
  have hstart := drawTo (hshows.flush.start a) hclipper b
  have hline := drawTo hshows.commitTail hclipper b
  rw [cross_eq, ← ha, ← hb, h.clipper.isInside_eq, hclipper.isInside_eq]
  cases hq : r.contains q with
  | true =>
    -- The last point is outside, so no line is at hand.
    rw [hq, Bool.and_true] at hboth
    rw [hq, if_pos rfl] at hstart
    rw [hboth, Bool.false_and, Bool.not_true, Bool.and_false, if_neg Bool.false_ne_true,
      if_neg Bool.false_ne_true, if_pos rfl]
    exact hstart
  | false =>
    rw [hq, if_neg Bool.false_ne_true] at hstart hline
    rw [show Run.isEmpty _ = _ from hshows.isEmpty, Bool.not_false, Bool.and_true,
      if_neg Bool.false_ne_true, Sketch.draw]
    cases hempty : s.run.isEmpty with
    | true =>
      rw [Bool.not_true, Bool.and_false, if_neg Bool.false_ne_true, if_pos rfl]
      split
      · exact ⟨hshows.flush, hclipper, fun _ => rfl⟩
      · exact hstart
    | false =>
      have hp : r.contains p = true := by
        cases hout : r.contains p with
        | true => rfl
        | false =>
          rw [h.outside hout] at hempty
          cases hempty
      rw [hp, Bool.not_false, Bool.and_self, if_pos rfl, if_neg Bool.false_ne_true]
      exact hline

/-- A trace is led to one point more by the stroke to it. -/
theorem extend (h : Sketches erase r t p s) {mark : Point N → V} {color : Color}
    (hmark : ∀ q, erase (mark q) = ⟨q, color⟩) (q : Point N) :
    Sketches erase r (t.extend settings ⟨q, color⟩) q
      (s.draw (farBy erase settings.minDistance) (r.strokeTo mark false p q)) := by
  have hclipper := h.clipper.next q
  have hshows (c : LineClipper N) : Shows erase { t with clipper := c } s :=
    ⟨h.shows.lines, h.shows.run, h.shows.tail⟩
  unfold Trace.extend Region.strokeTo
  dsimp only
  rw [if_neg Bool.false_ne_true]
  rcases h.clipper.next_cases q with ⟨hresult, hboth⟩ | ⟨hresult, hboth, hclip⟩ |
    ⟨hresult, hboth, hclip⟩
  · rw [hresult, if_pos hboth]
    exact advance (hshows _) (hmark q) hclipper (Bool.and_eq_true_iff.1 hboth).2
  · rw [hresult, hboth, if_neg Bool.false_ne_true, hclip]
    exact ⟨(hshows _).flush, hclipper, fun _ => rfl⟩
  · rw [hresult, hboth, if_neg Bool.false_ne_true, hclip]
    exact h.cross _ hclipper hboth (hmark _) (hmark _)

theorem withCourse (h : Sketches erase r t p s) (flip : Int) (lastX : W) (boundaries : List Nat) :
    Sketches erase r { t with flip, lastX, boundaries } p s :=
  ⟨h.shows.withCourse flip lastX boundaries, h.clipper, h.outside⟩

variable {mark : Nat → Vertex N → V}

theorem start (settings : BuildSettings N) (hmark : ∀ i v, erase (mark i v) = v)
    (boundaries : List Nat) (p : Point W) (pixel : Pixel N) (color : Color) (far : V → V → Bool) :
    Sketches erase (.centered settings.clipExtent) (Trace.start settings boundaries p pixel color)
      pixel.point
      (Sketch.empty.draw far (.lift
        (if (Region.centered settings.clipExtent).contains pixel.point then
          some (mark 0 ⟨pixel.point, color⟩) else none))) := by
  have hclipper : ((LineClipper.centered settings.clipExtent).start pixel.point).StandsAt
      (.centered settings.clipExtent) pixel.point := ⟨rfl, rfl, rfl⟩
  unfold Trace.start
  dsimp only
  rw [hclipper.isInside_eq]
  cases hin : (Region.centered settings.clipExtent).contains pixel.point with
  | true =>
    refine inside hin hclipper ⟨LineBucket.holds_new _, ?_, rfl⟩
    exact congrArg (fun v => [v]) (hmark 0 _).symm
  | false => exact ⟨⟨LineBucket.holds_new _, rfl, rfl⟩, hclipper, fun _ => rfl⟩

variable [Arithmetic W] [Resolution W N] {position : MapPosition W} {starts : List Nat} {i : Nat}
  {last : Point W}

theorem step (h : Sketches erase r t (position.pixel last).point s)
    (hmark : ∀ i v, erase (mark i v) = v) (hstarts : starts.Pairwise (· < ·))
    (hcourse : t.course = ((position.pixel last : Pixel N).flip, last.x, nextStarts starts i))
    (p : Point W) (color : Color) :
    Sketches erase r (t.step settings i p (position.pixel p) color) (position.pixel p).point
      (s.draw (farBy erase settings.minDistance)
        (r.strokeTo (fun q => mark i ⟨q, color⟩) (position.breaks N starts i last p)
          (position.pixel last).point (position.pixel p).point)) := by
  obtain ⟨flip, lastX, boundaries, hstep⟩ := step_eq settings hstarts hcourse p color
  rw [hstep]
  cases hbreaks : position.breaks N starts i last p with
  | true => exact (h.withCourse _ _ _).restart _ (hmark i ⟨(position.pixel p).point, color⟩)
  | false =>
    exact (h.withCourse _ _ _).extend (fun q => hmark i ⟨q, color⟩) (position.pixel p).point

/-- A trace that follows a track draws the strokes of the track. -/
theorem follow (h : Sketches erase r t (position.pixel last).point s)
    (hmark : ∀ i v, erase (mark i v) = v) (hstarts : starts.Pairwise (· < ·))
    (hcourse : t.course = ((position.pixel last : Pixel N).flip, last.x, nextStarts starts i))
    (points : List (Point W × Color)) :
    ∃ q, Sketches erase r (Trace.follow settings position i points t) q
      (s.drawAll (farBy erase settings.minDistance)
        (r.strokesFrom mark position starts i last points)) := by
  induction points generalizing t i last s with
  | nil => exact ⟨_, h⟩
  | cons point rest ih =>
    obtain ⟨p, color⟩ := point
    have hcourse' := step_course_next settings hstarts hcourse p color
    exact ih (h.step hmark hstarts hcourse p color) hcourse'

end Sketches

end Trace

/-! ## 4. Geometries -/

variable {W N V : Type} [Mercator W] [Arithmetic N] [Resolution W N]

/-- The strokes of a track seen from a position. -/
def TrackData.strokes (track : TrackData W) (position : MapPosition W) (extent : N)
    (mark : Nat → Vertex N → V) : List (Stroke V) :=
  (Region.centered extent).strokes mark position track.tourStarts track.path

namespace Builder

/-- The lines of a geometry are those that the strokes of its track draw. -/
theorem geometry_sketch (track : TrackData W) (position : MapPosition W)
    (settings : BuildSettings N) (erase : V → Vertex N) (mark : Nat → Vertex N → V)
    (hmark : ∀ i v, erase (mark i v) = v) :
    (geometry track position settings).Holds (Trace.erased erase
      (Sketch.linesOf (Trace.farBy erase settings.minDistance)
        (track.strokes position settings.clipExtent mark))) := by
  unfold TrackData.strokes Sketch.linesOf
  rw [geometry_eq, TrackData.boundaries, dropWhile_eq_nextStarts]
  cases track.path with
  | nil => rfl
  | cons point rest =>
    obtain ⟨p, color⟩ := point
    have hstart := Trace.Sketches.start settings hmark (nextStarts track.tourStarts 1) p
      (position.pixel p) color (Trace.farBy erase settings.minDistance)
    obtain ⟨q, hfollow⟩ := hstart.follow hmark track.starts_increasing rfl rest
    exact holds_finish hfollow.shows.flush.lines

end Builder

end TourMap
