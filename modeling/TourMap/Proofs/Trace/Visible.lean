import Mathlib.Data.List.Forall2
import Mathlib.Data.List.ReduceOption
import TourMap.Proofs.Geometry.Clipping
import TourMap.Proofs.Number.Rational
import TourMap.Proofs.Trace
import TourMap.Proofs.Track

/-!
# Visible: a trace draws what is seen of its track

In exact numbers a trace that drops no point but those on the vertex before them draws, of each way
from a point to the next one, what the clip region holds of it. The line at hand ends at the last
point whenever that one is inside, and there is none whenever it is outside (`Trace.Follows`); so a
way inside goes on with the line at hand, and one that comes from outside starts a new line.
-/

namespace TourMap

/-! ## 1. Segments of lines -/

/-- The points of a line, one after the other. -/
def pointsOf {N : Type} (line : Array (Vertex N)) : List (Point N) := line.toList.map (·.point)

/-- The segments between consecutive points, without those that are a single point. -/
def segmentsBetween : List (Point Rat) → List (Segment Rat)
  | p :: q :: rest => (Segment.mk p q).unlessPoint.toList ++ segmentsBetween (q :: rest)
  | _ => []

def segmentsOf (lines : List (Array (Vertex Rat))) : List (Segment Rat) :=
  lines.flatMap fun line => segmentsBetween (pointsOf line)

theorem Segment.unlessPoint_self (p : Point Rat) : (Segment.mk p p).unlessPoint = none := if_pos rfl

theorem segmentsBetween_append (before : List (Point Rat)) (p q : Point Rat) :
    segmentsBetween (before ++ [p, q]) =
      segmentsBetween (before ++ [p]) ++ (Segment.mk p q).unlessPoint.toList := by
  induction before with
  | nil => simp [segmentsBetween]
  | cons a before ih =>
    cases before with
    | nil => simp [segmentsBetween]
    | cons b before =>
      simp only [List.cons_append, segmentsBetween] at ih ⊢
      rw [ih, List.append_assoc]

theorem segmentsBetween_of_size_lt {line : Array (Vertex Rat)} (h : line.size < 2) :
    segmentsBetween (pointsOf line) = [] := by
  obtain ⟨vertices⟩ := line
  match vertices with
  | [] => rfl
  | [v] => rfl
  | v :: w :: rest =>
    simp only [List.size_toArray, List.length_cons] at h
    omega

theorem pointsOf_push {N : Type} (line : Array (Vertex N)) (v : Vertex N) :
    pointsOf (line.push v) = pointsOf line ++ [v.point] := by
  simp [pointsOf]

/-! ## 2. The line at hand -/

/-- Whether the last vertex lies at `p`. -/
def Run.EndsAt {N : Type} (run : Run N) (p : Point N) : Prop :=
  ∃ before, pointsOf run.vertices = before ++ [p]

theorem Run.endsAt_push {N : Type} (run : Run N) (v : Vertex N) : (run.push v).EndsAt v.point :=
  ⟨_, pointsOf_push _ _⟩

theorem Run.EndsAt.isEmpty_eq_false {N : Type} {run : Run N} {p : Point N} (h : run.EndsAt p) :
    run.isEmpty = false := by
  obtain ⟨before, hbefore⟩ := h
  rw [Run.isEmpty, Array.isEmpty_eq_false_iff]
  intro hempty
  rw [hempty] at hbefore
  simp [pointsOf] at hbefore

theorem Run.EndsAt.accepts_eq {run : Run Rat} {p : Point Rat} (h : run.EndsAt p) (q : Point Rat)
    (distance : Rat) : run.accepts q distance = p.furtherThan q distance := by
  obtain ⟨before, hbefore⟩ := h
  have hlast : run.vertices.back?.map (·.point) = some p := by
    rw [← Array.getLast?_toList, ← List.getLast?_map, ← pointsOf, hbefore, List.getLast?_concat]
  obtain ⟨v, hv, rfl⟩ := Option.map_eq_some_iff.1 hlast
  rw [Run.accepts, hv]

/-- Whether the lines in a bucket and the line at hand, the tail of which lies at `p`, are made of the
given segments. -/
structure Draws (bucket : LineBucket Rat) (run : Run Rat) (p : Point Rat)
    (drawn : List (Segment Rat)) : Prop where
  tail : ∀ v, run.tail = some v → v.point = p
  lines : ∃ lines, bucket.Holds lines ∧
    segmentsOf lines ++ segmentsBetween (pointsOf run.vertices) = drawn

namespace Draws

variable {bucket : LineBucket Rat} {run : Run Rat} {p : Point Rat} {drawn : List (Segment Rat)}

theorem push (h : Draws bucket run p drawn) (hend : run.EndsAt p) (v : Vertex Rat) :
    Draws bucket (run.push v) v.point
      (drawn ++ (Segment.mk p v.point).unlessPoint.toList) := by
  obtain ⟨before, hbefore⟩ := hend
  obtain ⟨lines, hlines, rfl⟩ := h.lines
  refine ⟨nofun, lines, hlines, ?_⟩
  rw [Run.push, pointsOf_push, hbefore, List.append_assoc, List.singleton_append,
    segmentsBetween_append, List.append_assoc]

/-- The tail lies on the last vertex. -/
theorem commitTail (h : Draws bucket run p drawn) (hend : run.EndsAt p) :
    Draws bucket run.commitTail p drawn ∧ run.commitTail.EndsAt p := by
  unfold Run.commitTail
  split
  · rename_i v htail
    obtain rfl := h.tail v htail
    have hpush := h.push hend v
    rw [Segment.unlessPoint_self, Option.toList_none, List.append_nil] at hpush
    exact ⟨hpush, run.endsAt_push v⟩
  · exact ⟨h, hend⟩

theorem drop (h : Draws bucket run p drawn) {v : Vertex Rat} (hv : v.point = p) :
    Draws bucket (run.drop v) p drawn := by
  refine ⟨?_, h.lines⟩
  rintro w ⟨⟩
  exact hv

theorem start {q : Point Rat} (h : Draws bucket .empty q drawn) (v : Vertex Rat) :
    Draws bucket (.start v) v.point drawn := by
  obtain ⟨lines, hlines, rfl⟩ := h.lines
  exact ⟨nofun, lines, hlines, rfl⟩

theorem addLine (h : Draws bucket run p drawn) (q : Point Rat) :
    Draws (bucket.addLine run.vertices) .empty q drawn := by
  obtain ⟨lines, hlines, rfl⟩ := h.lines
  refine ⟨nofun, _, hlines.addLine run.vertices, ?_⟩
  rw [segmentsOf, List.flatMap_append, ← segmentsOf]
  split
  · rename_i hsize
    rw [segmentsBetween_of_size_lt hsize]
    simp [Run.empty, pointsOf, segmentsBetween]
  · simp [Run.empty, pointsOf, segmentsBetween]

/-- Ending the line at hand draws nothing new. -/
theorem flush (h : Draws bucket run p drawn) (hend : run = .empty ∨ run.EndsAt p)
    (q : Point Rat) : Draws (bucket.addLine run.commitTail.vertices) .empty q drawn := by
  rcases hend with rfl | hend
  · exact h.addLine q
  · exact (h.commitTail hend).1.addLine q

end Draws

/-! ## 3. One point more -/

namespace Trace

variable {W : Type} {square : Region Rat} {t : Trace W Rat} {p : Point Rat}
  {drawn : List (Segment Rat)} {settings : BuildSettings Rat}

/-- Whether a trace has come to the point `p`, with the given segments drawn. There is a line at hand
exactly if that point is inside, and then it ends there. -/
structure Follows (square : Region Rat) (t : Trace W Rat) (p : Point Rat)
    (drawn : List (Segment Rat)) : Prop where
  clipper : t.clipper.StandsAt square p
  inside : p ∈ square.points → t.run.EndsAt p
  outside : p ∉ square.points → t.run = .empty
  draws : Draws t.bucket t.run p drawn

theorem follows_inside (hclipper : t.clipper.StandsAt square p) (hp : p ∈ square.points)
    (hend : t.run.EndsAt p) (hdraws : Draws t.bucket t.run p drawn) : Follows square t p drawn :=
  ⟨hclipper, fun _ => hend, fun hout => (hout hp).elim, hdraws⟩

theorem follows_outside (hclipper : t.clipper.StandsAt square p) (hp : p ∉ square.points)
    (hrun : t.run = .empty) (hdraws : Draws t.bucket t.run p drawn) : Follows square t p drawn :=
  ⟨hclipper, fun hin => (hp hin).elim, fun _ => hrun, hdraws⟩

theorem Follows.flush_draws (h : Follows square t p drawn) (q : Point Rat) :
    Draws t.flush.bucket .empty q drawn := by
  by_cases hp : p ∈ square.points
  · exact h.draws.flush (Or.inr (h.inside hp)) q
  · exact h.draws.flush (Or.inl (h.outside hp)) q

theorem Follows.withCourse (h : Follows square t p drawn) (flip : Int) (lastX : W)
    (boundaries : List Nat) : Follows square { t with flip, lastX, boundaries } p drawn :=
  ⟨h.clipper, h.inside, h.outside, h.draws⟩

theorem Follows.restart (hsquare : square.Proper) (h : Follows square t p drawn)
    (v : Vertex Rat) : Follows square (t.restart v) v.point drawn := by
  have hclipper := h.clipper.start v.point
  have hinside := hclipper.isInside_iff hsquare
  have hdraws := h.flush_draws v.point
  unfold Trace.restart
  dsimp only
  by_cases hv : v.point ∈ square.points
  · rw [if_pos (hinside.2 hv)]
    exact follows_inside hclipper hv ⟨[], rfl⟩ (hdraws.start v)
  · rw [if_neg (mt hinside.1 hv)]
    exact follows_outside hclipper hv rfl hdraws

/-- A line that is drawn on to a vertex ends there, and is ended if the trace leaves the region. -/
theorem follows_drawTo (hsquare : square.Proper) (hclipper : t.clipper.StandsAt square p)
    {q : Point Rat} (hdraws : Draws t.bucket t.run q drawn) (hend : t.run.EndsAt q) {v : Vertex Rat}
    (hv : p ∈ square.points → v.point = p) :
    Follows square (t.drawTo v) p (drawn ++ (Segment.mk q v.point).unlessPoint.toList) := by
  have hinside := hclipper.isInside_iff hsquare
  have hpush := hdraws.push hend v
  have hpushEnd := t.run.endsAt_push v
  unfold Trace.drawTo
  by_cases hp : p ∈ square.points
  · rw [if_pos (hinside.2 hp)]
    rw [hv hp] at hpush hpushEnd ⊢
    exact follows_inside hclipper hp hpushEnd hpush
  · rw [if_neg (mt hinside.1 hp)]
    exact follows_outside hclipper hp rfl (hpush.flush (Or.inr hpushEnd) p)

theorem eq_of_furtherThan_eq_false {p q : Point Rat} {distance : Rat} (hdistance : distance ≤ 0)
    (h : p.furtherThan q distance = false) : p = q := by
  have eq_of_abs {x y : Rat} (hle : ¬ distance < Arithmetic.abs (x - y)) : x = y := by
    rw [Arithmetic.abs_rat] at hle
    exact sub_eq_zero.1 (abs_nonpos_iff.1 ((not_lt.1 hle).trans hdistance))
  obtain ⟨hx, hy⟩ := Bool.or_eq_false_iff.1 h
  obtain ⟨px, py⟩ := p
  obtain ⟨qx, qy⟩ := q
  rw [Point.mk.injEq]
  exact ⟨eq_of_abs (of_decide_eq_false hx), eq_of_abs (of_decide_eq_false hy)⟩

theorem eq_of_coincides {p q : Point Rat} (h : p.coincides q = true) : p = q := by
  obtain ⟨hx, hy⟩ := Bool.and_eq_true_iff.1 h
  obtain ⟨px, py⟩ := p
  obtain ⟨qx, qy⟩ := q
  rw [Point.mk.injEq]
  exact ⟨of_decide_eq_true hx, of_decide_eq_true hy⟩

/-- Inside, a point is left out only if it lies on the last vertex. -/
theorem Follows.advance (hdistance : settings.minDistance ≤ 0) (h : Follows square t p drawn)
    (hp : p ∈ square.points) {c : LineClipper Rat} {v : Vertex Rat}
    (hclipper : c.StandsAt square v.point) (hv : v.point ∈ square.points) :
    Follows square (Trace.advance settings { t with clipper := c } v) v.point
      (drawn ++ (Segment.mk p v.point).unlessPoint.toList) := by
  have hend := h.inside hp
  obtain ⟨arrows, lastArrow, heq⟩ := Trace.advance_eq { t with clipper := c } settings v
  rw [heq]
  dsimp only
  rw [hend.accepts_eq]
  cases hfar : p.furtherThan v.point settings.minDistance with
  | true => exact follows_inside hclipper hv (t.run.endsAt_push v) (h.draws.push hend v)
  | false =>
    obtain rfl := eq_of_furtherThan_eq_false hdistance hfar
    rw [Segment.unlessPoint_self, Option.toList_none, List.append_nil]
    exact follows_inside hclipper hv hend (h.draws.drop rfl)

/-- A way that leaves the region goes on with the line at hand, and one that comes from outside starts
a new line where it enters. -/
theorem Follows.cross (hsquare : square.Proper) (h : Follows square t p drawn)
    {c : LineClipper Rat} {q : Point Rat} (hclipper : c.StandsAt square q) {line : Segment Rat}
    (color : Color) (hnotBoth : ¬ (p ∈ square.points ∧ q ∈ square.points))
    (hclips : square.Clips ⟨p, q⟩ (some line)) :
    Follows square (Trace.cross { t with clipper := c } t.clipper.isInside line color) q
      (drawn ++ line.unlessPoint.toList) := by
  have hwas := h.clipper.isInside_iff hsquare
  have hinside := hclipper.isInside_iff hsquare
  rw [cross_eq]
  by_cases hp : p ∈ square.points
  · have hend := h.inside hp
    obtain ⟨hdraws, hend'⟩ := h.draws.commitTail hend
    have hline : line = ⟨p, line.second⟩ :=
      congrArg (Segment.mk · line.second) (hclips.first_eq hp)
    rw [hwas.2 hp, if_pos (by rw [Run.EndsAt.isEmpty_eq_false hend]; rfl), hline]
    exact follows_drawTo hsquare hclipper hdraws hend' fun hq => (hnotBoth ⟨hp, hq⟩).elim
  · have hout : t.clipper.isInside = false := Bool.eq_false_iff.2 (mt hwas.1 hp)
    have hflush := h.flush_draws line.first
    rw [hout, Bool.false_and, if_neg Bool.false_ne_true]
    by_cases htouches : (line.first.coincides line.second && !c.isInside) = true
    · -- Only a corner is touched, so nothing is seen.
      obtain ⟨hsame, hq⟩ := Bool.and_eq_true_iff.1 htouches
      have hnone : line.unlessPoint = none := if_pos (eq_of_coincides hsame)
      have hq : q ∉ square.points := fun hin => by
        rw [hinside.2 hin] at hq
        exact Bool.false_ne_true hq
      rw [if_pos htouches, hnone, Option.toList_none, List.append_nil]
      exact follows_outside hclipper hq rfl (h.flush_draws q)
    · rw [if_neg htouches]
      exact follows_drawTo hsquare hclipper (hflush.start ⟨line.first, color⟩) ⟨[], rfl⟩
        hclips.second_eq

/-- The way to one point more is drawn as far as it is seen. -/
theorem Follows.extend (hdistance : settings.minDistance ≤ 0) (hsquare : square.Proper)
    (h : Follows square t p drawn) (v : Vertex Rat) :
    ∃ part, square.Shows ⟨p, v.point⟩ part ∧
      Follows square (t.extend settings v) v.point (drawn ++ part.toList) := by
  have hclipper := h.clipper.next v.point
  have hstep := h.clipper.next_spec hsquare v.point
  unfold Trace.extend
  dsimp only
  cases hresult : (t.clipper.next v.point).1 with
  | inside =>
    rw [hresult] at hstep
    obtain ⟨hp, hv⟩ := hstep
    exact ⟨_, (Region.clips_self hp hv).shows, h.advance hdistance hp hclipper hv⟩
  | outside =>
    rw [hresult] at hstep
    -- The point itself is none of the region's, being an end of the way.
    have hv : v.point ∉ square.points := by
      have hend := hstep 1 zero_le_one (le_refl 1)
      rwa [Segment.point_one] at hend
    refine ⟨none, hstep.shows, ?_⟩
    rw [Option.toList_none, List.append_nil]
    exact follows_outside hclipper hv rfl (h.flush_draws _)
  | intersection =>
    rw [hresult] at hstep
    obtain ⟨hnotBoth, hclips⟩ := hstep
    exact ⟨_, hclips.shows, h.cross hsquare hclipper v.color hnotBoth hclips⟩

/-! ## 4. All points -/

theorem follows_start (hsquare : Region.Proper (.centered settings.clipExtent))
    (boundaries : List Nat) (p : Point W) (pixel : Pixel Rat) (color : Color) :
    Follows (.centered settings.clipExtent) (start settings boundaries p pixel color) pixel.point
      [] := by
  have hclipper : ((LineClipper.centered settings.clipExtent).start pixel.point).StandsAt
      (.centered settings.clipExtent) pixel.point := ⟨rfl, rfl, rfl⟩
  have hinside := hclipper.isInside_iff hsquare
  have hnew : Draws (.new settings.style) .empty pixel.point [] :=
    ⟨nofun, [], LineBucket.holds_new _, rfl⟩
  unfold Trace.start
  dsimp only
  by_cases hp : pixel.point ∈ (Region.centered settings.clipExtent).points
  · rw [if_pos (hinside.2 hp), if_pos (hinside.2 hp)]
    exact follows_inside hclipper hp ⟨[], rfl⟩ (hnew.start _)
  · rw [if_neg (mt hinside.1 hp), if_neg (mt hinside.1 hp)]
    exact follows_outside hclipper hp rfl hnew

variable [Arithmetic W] [Resolution W Rat] (position : MapPosition W)

/-- The way from a point to the next one, which has the index `i`, if the track does not break there: at
the start of a tour, at the change to another copy of the world or on the way around the world. -/
def wayTo (starts : List Nat) (i : Nat) (last p : Point W) : Option (Segment Rat) :=
  let start : Pixel Rat := position.pixel last
  let stop : Pixel Rat := position.pixel p
  if i ∈ starts ∨ stop.flip ≠ start.flip ∨ Arithmetic.half < Arithmetic.abs (p.x - last.x) then none
  else some ⟨start.point, stop.point⟩

/-- The ways from `last` on to the points after it, the first of which has the index `i`. -/
def waysFrom (starts : List Nat) : (i : Nat) → (last : Point W) → List (Point W) →
    List (Segment Rat)
  | _, _, [] => []
  | i, last, p :: rest =>
    (wayTo position starts i last p).toList ++ waysFrom starts (i + 1) p rest

/-- A way is drawn as far as it is seen, unless the track breaks there. -/
theorem Follows.step (hdistance : settings.minDistance ≤ 0) (hsquare : square.Proper)
    {starts : List Nat} (hstarts : starts.Pairwise (· < ·)) {i : Nat} {last : Point W}
    (h : Follows square t (position.pixel last).point drawn)
    (hcourse : t.course = ((position.pixel last : Pixel Rat).flip, last.x, nextStarts starts i))
    (p : Point W) (color : Color) :
    ∃ parts, List.Forall₂ square.Shows (wayTo position starts i last p).toList parts ∧
      Follows square (t.step settings i p (position.pixel p) color) (position.pixel p).point
        (drawn ++ parts.reduceOption) := by
  obtain ⟨hflip, hlast, hboundaries⟩ :
      t.flip = (position.pixel last : Pixel Rat).flip ∧ t.lastX = last.x ∧
        t.boundaries = nextStarts starts i := by
    simpa [course] using hcourse
  have hnew : (t.boundaries.head? == some i) = true ↔ i ∈ starts := by
    rw [beq_iff_eq, hboundaries]
    exact (nextStarts_succ hstarts i).1
  have hbreaks : (((position.pixel p : Pixel Rat).flip != t.flip || wraps t.lastX p.x) ||
      t.boundaries.head? == some i) = true ↔
        (i ∈ starts ∨ (position.pixel p : Pixel Rat).flip ≠ (position.pixel last : Pixel Rat).flip ∨
          Arithmetic.half < Arithmetic.abs (p.x - last.x)) := by
    rw [Bool.or_eq_true, Bool.or_eq_true, hnew, bne_iff_ne, wraps, decide_eq_true_iff, hflip, hlast,
      or_comm]
  unfold Trace.step wayTo
  dsimp only
  by_cases hbreak : i ∈ starts ∨
      (position.pixel p : Pixel Rat).flip ≠ (position.pixel last : Pixel Rat).flip ∨
        Arithmetic.half < Arithmetic.abs (p.x - last.x)
  · rw [if_pos hbreak, if_pos (hbreaks.2 hbreak)]
    refine ⟨[], .nil, ?_⟩
    rw [List.reduceOption_nil, List.append_nil]
    exact (h.withCourse _ _ _).restart hsquare ⟨(position.pixel p).point, color⟩
  · rw [if_neg hbreak, if_neg (mt hbreaks.1 hbreak)]
    obtain ⟨part, hshows, hfollows⟩ := (h.withCourse _ _ _).extend hdistance hsquare
      ⟨(position.pixel p).point, color⟩
    have hpart : [part].reduceOption = part.toList := by
      cases part <;> rfl
    refine ⟨[part], .cons hshows .nil, ?_⟩
    rw [hpart]
    exact hfollows

/-- All ways of a track are drawn as far as they are seen. -/
theorem Follows.follow (hdistance : settings.minDistance ≤ 0) (hsquare : square.Proper)
    {starts : List Nat} (hstarts : starts.Pairwise (· < ·)) {i : Nat} {last : Point W}
    (h : Follows square t (position.pixel last).point drawn)
    (hcourse : t.course = ((position.pixel last : Pixel Rat).flip, last.x, nextStarts starts i))
    (points : List (Point W × Color)) :
    ∃ parts q, List.Forall₂ square.Shows
        (waysFrom position starts i last (points.map Prod.fst)) parts ∧
      Follows square (Trace.follow settings position i points t) q
        (drawn ++ parts.reduceOption) := by
  induction points generalizing t i last drawn with
  | nil =>
    refine ⟨[], (position.pixel last).point, .nil, ?_⟩
    rwa [List.reduceOption_nil, List.append_nil]
  | cons point rest ih =>
    obtain ⟨p, color⟩ := point
    obtain ⟨parts, hparts, hstep⟩ := h.step position hdistance hsquare hstarts hcourse p color
    have hcourse' := t.step_course settings i p (position.pixel p) color
    have hboundaries : t.boundaries = nextStarts starts i := congrArg (·.2.2) hcourse
    rw [hboundaries, ← (nextStarts_succ hstarts i).2] at hcourse'
    obtain ⟨parts', q, hparts', hfollow⟩ := ih hstep hcourse'
    refine ⟨parts ++ parts', q, List.rel_append hparts hparts', ?_⟩
    rw [List.reduceOption_append, ← List.append_assoc]
    exact hfollow

end Trace

end TourMap
