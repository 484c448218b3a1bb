import TourMap.Proofs.Builder

/-!
# Arrows: the arrows of a track do not depend on its lines

Where a point gets an arrow depends on the clip region and on the last arrow. So two traces of one
track have the same arrows, however many vertices each of them drops.
-/

namespace TourMap

@[simp] theorem LineBucket.addLine_arrows {N : Type} (b : LineBucket N) (line : Array (Vertex N)) :
    (b.addLine line).arrows = b.arrows := by
  unfold addLine
  split <;> rfl

namespace Trace

variable {W N : Type}

/-- Whether two traces have come the same way with the same arrows, whatever their lines are. -/
structure SameArrows (t u : Trace W N) : Prop where
  clipper : t.clipper = u.clipper
  course : t.course = u.course
  arrows : t.arrows = u.arrows
  lastArrow : t.lastArrow = u.lastArrow
  bucket : t.bucket.arrows = u.bucket.arrows

namespace SameArrows

variable {t u t' : Trace W N}

theorem symm (h : SameArrows t u) : SameArrows u t :=
  ⟨h.clipper.symm, h.course.symm, h.arrows.symm, h.lastArrow.symm, h.bucket.symm⟩

theorem trans (h : SameArrows t u) (h' : SameArrows u t') : SameArrows t t' :=
  ⟨h.clipper.trans h'.clipper, h.course.trans h'.course, h.arrows.trans h'.arrows,
    h.lastArrow.trans h'.lastArrow, h.bucket.trans h'.bucket⟩

theorem run (t : Trace W N) (run : Run N) : SameArrows { t with run } t :=
  ⟨rfl, rfl, rfl, rfl, rfl⟩

theorem flush (t : Trace W N) : SameArrows t.flush t :=
  ⟨rfl, rfl, rfl, rfl, t.bucket.addLine_arrows _⟩

theorem drawTo (t : Trace W N) (v : Vertex N) : SameArrows (t.drawTo v) t := by
  unfold Trace.drawTo
  split
  · exact run t _
  · exact (flush _).trans (run t _)

theorem withClipper (h : SameArrows t u) (clipper : LineClipper N) :
    SameArrows { t with clipper } { u with clipper } :=
  ⟨rfl, h.course, h.arrows, h.lastArrow, h.bucket⟩

variable [Arithmetic N]

/-- At the border of the region there are no arrows. -/
theorem cross (t : Trace W N) (wasInside : Bool) (line : Segment N) (color : Color) :
    SameArrows (t.cross wasInside line color) t := by
  rw [cross_eq]
  split
  · exact (drawTo _ _).trans (run t _)
  · split
    · exact flush t
    · exact (drawTo _ _).trans ((run _ _).trans (flush t))

theorem restart (h : SameArrows t u) (v : Vertex N) : SameArrows (t.restart v) (u.restart v) := by
  have hflush := (flush t).trans (h.trans (flush u).symm)
  unfold Trace.restart
  dsimp only
  rw [h.clipper]
  exact ⟨rfl, hflush.course, hflush.arrows, hflush.lastArrow, hflush.bucket⟩

variable {settings settings' : BuildSettings N}

/-- Whether a vertex gets an arrow does not depend on whether it is drawn. -/
theorem advance (h : SameArrows t u) (harrow : settings.arrowDistance = settings'.arrowDistance)
    (v : Vertex N) : SameArrows (t.advance settings v) (u.advance settings' v) := by
  unfold Trace.advance
  dsimp only
  rw [h.lastArrow, harrow]
  split
  · exact ⟨h.clipper, h.course, congrArg (·.push v.point) h.arrows, rfl, h.bucket⟩
  · exact ⟨h.clipper, h.course, h.arrows, rfl, h.bucket⟩

theorem extend (h : SameArrows t u) (harrow : settings.arrowDistance = settings'.arrowDistance)
    (v : Vertex N) : SameArrows (t.extend settings v) (u.extend settings' v) := by
  unfold Trace.extend
  dsimp only
  rw [h.clipper]
  have hmoved := h.withClipper (u.clipper.next v.point).2
  split
  · exact (flush _).trans (hmoved.trans (flush _).symm)
  · exact (cross _ _ _ _).trans (hmoved.trans (cross _ _ _ _).symm)
  · exact hmoved.advance harrow v

variable [Arithmetic W]

theorem step (h : SameArrows t u) (harrow : settings.arrowDistance = settings'.arrowDistance)
    (i : Nat) (p : Point W) (pixel : Pixel N) (color : Color) :
    SameArrows (t.step settings i p pixel color) (u.step settings' i p pixel color) := by
  obtain ⟨hflip, hlast, hboundaries⟩ :
      t.flip = u.flip ∧ t.lastX = u.lastX ∧ t.boundaries = u.boundaries := by
    simpa [Trace.course] using h.course
  unfold Trace.step
  dsimp only
  rw [hflip, hlast, hboundaries]
  have hmoved (flip : Int) (lastX : W) (boundaries : List Nat) :
      SameArrows { t with flip, lastX, boundaries } { u with flip, lastX, boundaries } :=
    ⟨h.clipper, rfl, h.arrows, h.lastArrow, h.bucket⟩
  split
  · exact (hmoved _ _ _).restart _
  · exact (hmoved _ _ _).extend harrow _

variable [Resolution W N]

theorem follow (h : SameArrows t u) (harrow : settings.arrowDistance = settings'.arrowDistance)
    (position : MapPosition W) (i : Nat) (points : List (Point W × Color)) :
    SameArrows (Trace.follow settings position i points t)
      (Trace.follow settings' position i points u) := by
  induction points generalizing i t u with
  | nil => exact h
  | cons point rest ih => exact ih (h.step harrow i _ _ _) (i + 1)

omit [Arithmetic N] [Arithmetic W] [Resolution W N] in
theorem finish (h : SameArrows t u) (hshow : settings.showArrows = settings'.showArrows) :
    (Builder.finish settings t).arrows = (Builder.finish settings' u).arrows := by
  have hflush := (flush t).trans (h.trans (flush u).symm)
  unfold Builder.finish
  dsimp only
  rw [hshow]
  split
  · exact h.arrows
  · exact hflush.bucket

end SameArrows

end Trace

end TourMap
