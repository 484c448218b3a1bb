import TourMap.Proofs.Builder

/-!
# Style: a build and its style can be told apart

A trace looks at its bucket only to add lines to it, and at its settings only for their distances and
their extent. So two traces in different styles go side by side, every step of one being that of the
other, and a build in one style gives what a build in another style gives once it is restyled.
-/

namespace TourMap

variable {W N : Type}

def LineBucket.withStyle (b : LineBucket N) (style : LineStyle N) : LineBucket N := { b with style }

def BuildSettings.withStyle (settings : BuildSettings N) (style : LineStyle N) : BuildSettings N :=
  { settings with style }

theorem LineBucket.addLine_withStyle (b : LineBucket N) (style : LineStyle N)
    (line : Array (Vertex N)) :
    (b.withStyle style).addLine line = (b.addLine line).withStyle style := by
  unfold addLine
  split <;> rfl

/-! ## 1. Traces side by side -/

namespace Trace

variable (t : Trace W N) (settings : BuildSettings N) (style other : LineStyle N)

def withStyle : Trace W N := { t with bucket := t.bucket.withStyle style }

theorem flush_withStyle : (t.withStyle style).flush = t.flush.withStyle style := by
  simp only [flush, withStyle, LineBucket.addLine_withStyle]

theorem drawTo_withStyle (v : Vertex N) :
    (t.withStyle style).drawTo v = (t.drawTo v).withStyle style := by
  unfold drawTo
  rw [apply_ite (withStyle · style)]
  exact ite_congr rfl (fun _ => rfl) fun _ => flush_withStyle { t with run := t.run.push v } style

variable [Arithmetic N]

theorem restart_withStyle (v : Vertex N) :
    (t.withStyle style).restart v = (t.restart v).withStyle style := by
  simp only [restart, flush_withStyle]
  rfl

theorem advance_withStyle (v : Vertex N) :
    (t.withStyle style).advance (settings.withStyle other) v =
      (t.advance settings v).withStyle style := by
  unfold advance
  rw [apply_ite (withStyle · style)]
  rfl

theorem cross_withStyle (wasInside : Bool) (line : Segment N) (color : Color) :
    (t.withStyle style).cross wasInside line color =
      (t.cross wasInside line color).withStyle style := by
  rw [cross_eq, cross_eq, apply_ite (withStyle · style), apply_ite (withStyle · style),
    flush_withStyle]
  refine ite_congr rfl (fun _ => ?_) fun _ => ite_congr rfl (fun _ => rfl) fun _ => ?_
  · exact drawTo_withStyle { t with run := t.run.commitTail } style _
  · exact drawTo_withStyle { t.flush with run := .start ⟨line.first, color⟩ } style _

theorem extend_withStyle (v : Vertex N) :
    (t.withStyle style).extend (settings.withStyle other) v =
      (t.extend settings v).withStyle style := by
  -- Both traces are clipped in the same way.
  have hnext : (t.withStyle style).clipper.next v.point = t.clipper.next v.point := rfl
  unfold extend
  dsimp only
  rw [hnext]
  cases (t.clipper.next v.point).1 with
  | outside => exact flush_withStyle { t with clipper := (t.clipper.next v.point).2 } style
  | intersection =>
    exact cross_withStyle { t with clipper := (t.clipper.next v.point).2 } style _ _ _
  | inside =>
    exact advance_withStyle { t with clipper := (t.clipper.next v.point).2 } settings style other v

variable [Arithmetic W]

theorem step_withStyle (i : Nat) (p : Point W) (pixel : Pixel N) (color : Color) :
    (t.withStyle style).step (settings.withStyle other) i p pixel color =
      (t.step settings i p pixel color).withStyle style := by
  let newTour := t.boundaries.head? == some i
  let breaks := pixel.flip != t.flip || wraps t.lastX p.x || newTour
  let here : Trace W N := { t with
    boundaries := if newTour then t.boundaries.tail else t.boundaries
    lastX := p.x
    flip := if breaks then pixel.flip else t.flip }
  change (if breaks then (here.withStyle style).restart ⟨pixel.point, color⟩
      else (here.withStyle style).extend (settings.withStyle other) ⟨pixel.point, color⟩) =
    (if breaks then here.restart ⟨pixel.point, color⟩
      else here.extend settings ⟨pixel.point, color⟩).withStyle style
  rw [apply_ite (withStyle · style)]
  exact ite_congr rfl (fun _ => here.restart_withStyle style _)
    fun _ => here.extend_withStyle settings style other _

variable [Resolution W N]

theorem follow_withStyle (position : MapPosition W) (i : Nat) (points : List (Point W × Color)) :
    follow (settings.withStyle other) position i points (t.withStyle style) =
      (follow settings position i points t).withStyle style := by
  induction points generalizing i t with
  | nil => rfl
  | cons p rest ih => rw [follow, step_withStyle, ih, follow]

/-- Another style is there from the start and makes no difference afterwards. -/
theorem ofPoints_withStyle (position : MapPosition W) (boundaries : List Nat)
    (points : List (Point W × Color)) :
    ofPoints (settings.withStyle style) position boundaries points =
      (ofPoints settings position boundaries points).map (·.withStyle style) := by
  cases points with
  | nil => rfl
  | cons p rest =>
    exact congrArg some (follow_withStyle (start settings boundaries p.1 _ p.2) settings style style
      position 1 rest)

end Trace

/-! ## 2. Builds -/

namespace Builder

variable [Mercator W] [Arithmetic N] [Resolution W N]

omit [Mercator W] [Arithmetic N] [Resolution W N] in
theorem finish_withStyle (settings : BuildSettings N) (style : LineStyle N) (t : Trace W N) :
    finish (settings.withStyle style) (t.withStyle style) =
      (finish settings t).withStyle style := by
  unfold finish
  rw [Trace.flush_withStyle, apply_ite (LineBucket.withStyle · style)]
  rfl

theorem trace_withStyle (track : TrackData W) (projected : Array (Point W))
    (position : MapPosition W) (settings : BuildSettings N) (style : LineStyle N)
    (stop : Option Nat) :
    trace track projected position (settings.withStyle style) stop =
      ((trace track projected position settings stop).1.withStyle style,
        (trace track projected position settings stop).2) := by
  unfold trace
  dsimp only
  rw [Trace.ofPoints_withStyle]
  generalize Trace.ofPoints settings position track.boundaries _ = traced
  cases traced with
  | none => rfl
  | some t =>
    cases stop with
    | some i => rfl
    | none =>
      simp only [Option.map_some, finish_withStyle]
      rfl

/-- Builds in two styles leave the same builder and end in the same way. Their buckets differ in the
style alone, unless the projection was given up and neither build touched them. -/
theorem build_withStyle (b : Builder W) (track : TrackData W) (position : MapPosition W)
    (settings : BuildSettings N) (style : LineStyle N) (buckets : RenderBuckets N)
    (cancelledAt : Option Nat) :
    let first := b.build track position settings buckets cancelledAt
    let second := b.build track position (settings.withStyle style) buckets cancelledAt
    second.1 = first.1 ∧ second.2.2 = first.2.2 ∧
      (second.2.1 = first.2.1.setStyle style ∨
        first.2 = (buckets, .error ⟨⟩) ∧ second.2 = (buckets, .error ⟨⟩)) := by
  dsimp only
  unfold build
  split
  · exact ⟨rfl, rfl, .inl rfl⟩
  · cases cancelledAt with
    | none =>
      simp only [trace_withStyle, true_and]
      exact .inl rfl
    | some k =>
      by_cases hk : k < b.projectionChecks track
      · simp only [if_pos hk, and_self, or_true]
      · simp only [if_neg hk, trace_withStyle, true_and]
        exact .inl rfl

/-- The geometry in another style is the same geometry, restyled. -/
theorem geometry_withStyle (track : TrackData W) (position : MapPosition W)
    (settings : BuildSettings N) (style : LineStyle N) :
    geometry track position (settings.withStyle style) =
      (geometry track position settings).setStyle style := by
  obtain ⟨-, -, hstyled | ⟨hfirst, -⟩⟩ :=
    (new : Builder W).build_withStyle track position settings style .empty none
  · exact hstyled
  · -- A build that nobody cancels is complete.
    obtain ⟨stats, hstats⟩ := (new : Builder W).build_complete track position settings .empty
    rw [hfirst] at hstats
    cases hstats

end Builder

end TourMap
