import TourMap.Proofs.Builder

/-!
# Points: what holds of all points of a geometry

A trace puts out a pixel only where the clip region holds it, and else the ends of a clipped segment.
So what the region grants for both (`Region.Grants`) holds of all vertices and arrows of a geometry,
whatever happens to the lines.
-/

namespace TourMap

variable {W N : Type} {P Q : Point N → Prop}

/-! ## 1. Collections of points -/

/-- Whether all vertices and arrows of a bucket have a property. -/
structure LineBucket.All (Q : Point N → Prop) (b : LineBucket N) : Prop where
  vertices : ∀ p ∈ b.vertices, Q p
  arrows : ∀ p ∈ b.arrows, Q p

/-- Whether all points of a line have a property, the dropped one that may still end it included. -/
structure Run.All (Q : Point N → Prop) (r : Run N) : Prop where
  vertices : ∀ v ∈ r.vertices, Q v.point
  tail : ∀ v, r.tail = some v → Q v.point

namespace LineBucket.All

variable {b : LineBucket N}

theorem new (style : LineStyle N) : (LineBucket.new style).All Q := ⟨nofun, nofun⟩

theorem addLine (h : b.All Q) {line : Array (Vertex N)} (hline : ∀ v ∈ line, Q v.point) :
    (b.addLine line).All Q := by
  unfold LineBucket.addLine
  split
  · exact h
  · refine ⟨fun p hp => ?_, h.arrows⟩
    rcases Array.mem_append.1 hp with hold | hnew
    · exact h.vertices p hold
    · obtain ⟨v, hv, rfl⟩ := Array.mem_map.1 hnew
      exact hline v hv

theorem setArrows (h : b.All Q) {arrows : Array (Point N)} (harrows : ∀ p ∈ arrows, Q p) :
    (b.setArrows arrows).All Q := ⟨h.vertices, harrows⟩

theorem withStyle (h : b.All Q) (style : LineStyle N) : LineBucket.All Q { b with style } :=
  ⟨h.vertices, h.arrows⟩

end LineBucket.All

namespace Run.All

variable {r : Run N} {v : Vertex N}

theorem empty : (Run.empty : Run N).All Q := ⟨nofun, nofun⟩

theorem push (h : r.All Q) (hv : Q v.point) : (r.push v).All Q := by
  refine ⟨fun u hu => ?_, nofun⟩
  rcases Array.mem_push.1 hu with hold | rfl
  · exact h.vertices u hold
  · exact hv

theorem start (hv : Q v.point) : (Run.start v).All Q := empty.push hv

theorem drop (h : r.All Q) (hv : Q v.point) : (r.drop v).All Q := by
  refine ⟨h.vertices, fun u hu => ?_⟩
  obtain rfl := Option.some.inj hu
  exact hv

theorem commitTail (h : r.All Q) : r.commitTail.All Q := by
  unfold Run.commitTail
  split
  · rename_i v htail
    exact h.push (h.tail v htail)
  · exact h

end Run.All

/-! ## 2. Traces -/

/-- Whether a rectangle grants a property: of the points with another one, it has those that it holds
and the ends of what it holds of a segment. -/
structure Region.Grants [Arithmetic N] (r : Region N) (P Q : Point N → Prop) : Prop where
  inside : ∀ p, P p → r.outcode p = .inside → Q p
  clipped : ∀ p q line, P p → P q →
    r.clip 4 ⟨p, q⟩ (r.outcode p) (r.outcode q) = some line → Q line.first ∧ Q line.second

namespace Trace

/-- Whether all points that a trace puts out have a property, and those to come will. -/
structure All (Q : Point N → Prop) (t : Trace W N) : Prop where
  run : t.run.All Q
  bucket : t.bucket.All Q
  arrows : ∀ p ∈ t.arrows, Q p

namespace All

variable {t : Trace W N} {v : Vertex N}

theorem withRun (h : t.All Q) {run : Run N} (hrun : run.All Q) : All Q { t with run } :=
  ⟨hrun, h.bucket, h.arrows⟩

theorem flush (h : t.All Q) : t.flush.All Q :=
  ⟨.empty, h.bucket.addLine h.run.commitTail.vertices, h.arrows⟩

theorem drawTo (h : t.All Q) (hv : Q v.point) : (t.drawTo v).All Q := by
  unfold Trace.drawTo
  split
  · exact h.withRun (h.run.push hv)
  · exact (h.withRun (h.run.push hv)).flush

variable [Arithmetic N] {settings : BuildSettings N} {r : Region N} {p : Point N}

theorem cross (h : t.All Q) {line : Segment N} (hfirst : Q line.first) (hsecond : Q line.second)
    (wasInside : Bool) (color : Color) : (t.cross wasInside line color).All Q := by
  rw [cross_eq]
  split
  · exact (h.withRun h.run.commitTail).drawTo hsecond
  · split
    · exact h.flush
    · exact (h.flush.withRun (.start hfirst)).drawTo hsecond

theorem advance (h : t.All Q) (hv : Q v.point) : (t.advance settings v).All Q := by
  -- A vertex too near to the last one is dropped for now, but may still end the line.
  have hrun : Run.All Q (if t.run.accepts v.point settings.minDistance then t.run.push v
      else t.run.drop v) := by
    split
    · exact h.run.push hv
    · exact h.run.drop hv
  unfold Trace.advance
  dsimp only
  split
  · refine ⟨hrun, h.bucket, fun p hp => ?_⟩
    rcases Array.mem_push.1 hp with hold | rfl
    · exact h.arrows p hold
    · exact hv
  · exact ⟨hrun, h.bucket, h.arrows⟩

theorem restart (h : t.All Q) (hr : r.Grants P Q) (hc : t.clipper.region = r) (hv : P v.point) :
    (t.restart v).All Q := by
  refine ⟨?_, h.flush.bucket, h.arrows⟩
  unfold Trace.restart
  dsimp only
  split
  · rename_i hin
    have hcode : r.outcode v.point = .inside := by
      rw [LineClipper.isInside, LineClipper.start_code, hc, beq_iff_eq] at hin
      exact hin
    exact .start (hr.inside _ hv hcode)
  · exact .empty

theorem extend (h : t.All Q) (hr : r.Grants P Q) (hc : t.clipper.StandsAt r p) (hp : P p)
    (hv : P v.point) : (t.extend settings v).All Q := by
  have hmoved (clipper : LineClipper N) : Trace.All Q { t with clipper } :=
    ⟨h.run, h.bucket, h.arrows⟩
  unfold Trace.extend
  dsimp only
  rcases hc.next_cases v.point with ⟨hresult, hboth⟩ | ⟨hresult, -⟩ | ⟨hresult, -, hclip⟩
  · rw [hresult]
    have hin : r.outcode v.point = .inside := beq_iff_eq.1 (Bool.and_eq_true_iff.1 hboth).2
    exact (hmoved _).advance (hr.inside _ hv hin)
  · rw [hresult]
    exact (hmoved _).flush
  · obtain ⟨hfirst, hsecond⟩ := hr.clipped p v.point _ hp hv hclip
    rw [hresult]
    exact (hmoved _).cross hfirst hsecond _ _

variable [Arithmetic W]

theorem step (h : t.All Q) (hr : r.Grants P Q) (hc : t.clipper.StandsAt r p) (hp : P p) (i : Nat)
    (q : Point W) {pixel : Pixel N} (hpixel : P pixel.point) (color : Color) :
    (t.step settings i q pixel color).All Q ∧
      (t.step settings i q pixel color).clipper.StandsAt r pixel.point := by
  unfold Trace.step
  dsimp only
  split
  · refine ⟨All.restart ⟨h.run, h.bucket, h.arrows⟩ hr hc.region hpixel, ?_⟩
    rw [restart_clipper]
    exact hc.start pixel.point
  · refine ⟨All.extend ⟨h.run, h.bucket, h.arrows⟩ hr hc hp hpixel, ?_⟩
    rw [extend_clipper]
    exact hc.next pixel.point

omit [Arithmetic W] in
theorem start (hr : (Region.centered settings.clipExtent).Grants P Q) (boundaries : List Nat)
    (q : Point W) {pixel : Pixel N} (hpixel : P pixel.point) (color : Color) :
    (start settings boundaries q pixel color).All Q ∧
      (start settings boundaries q pixel color).clipper.StandsAt
        (Region.centered settings.clipExtent) pixel.point := by
  have hin : ((LineClipper.centered settings.clipExtent).start pixel.point).isInside = true →
      Q pixel.point := by
    intro hin
    rw [LineClipper.isInside, LineClipper.start_code, beq_iff_eq] at hin
    exact hr.inside _ hpixel hin
  refine ⟨⟨?_, .new _, ?_⟩, ⟨rfl, rfl, rfl⟩⟩
  · unfold Trace.start
    dsimp only
    split
    · rename_i h
      exact .start (hin h)
    · exact .empty
  · unfold Trace.start
    dsimp only
    split
    · rename_i h
      intro p hp
      obtain rfl : p = pixel.point := by simpa using hp
      exact hin h
    · simp

variable [Resolution W N]

theorem follow (h : t.All Q) (hr : r.Grants P Q) (hc : t.clipper.StandsAt r p) (hp : P p)
    (settings : BuildSettings N) (position : MapPosition W) (i : Nat)
    {points : List (Point W × Color)}
    (hpoints : ∀ q ∈ points, P (position.pixel q.1 : Pixel N).point) :
    (follow settings position i points t).All Q := by
  -- Induction on the points to come; the clipper stands at the last one.
  induction points generalizing i t p with
  | nil => exact h
  | cons q rest ih =>
    have hq := hpoints q List.mem_cons_self
    obtain ⟨hstep, hstands⟩ := h.step hr hc hp i q.1 hq q.2
    exact ih hstep hstands hq (i + 1) fun q' hq' => hpoints q' (List.mem_cons_of_mem _ hq')

end All

end Trace

/-! ## 3. Geometries -/

namespace RenderBuckets

/-- Whether all vertices and arrows that are drawn have a property. -/
def All (Q : Point N → Prop) (b : RenderBuckets N) : Prop := ∀ l ∈ b.lineBucket, l.All Q

theorem All.empty : (RenderBuckets.empty : RenderBuckets N).All Q := fun _ h => by cases h

theorem All.mono {b : RenderBuckets N} (h : b.All P) (hQ : ∀ p, P p → Q p) : b.All Q :=
  fun l hl => ⟨fun p hp => hQ p ((h l hl).vertices p hp), fun p hp => hQ p ((h l hl).arrows p hp)⟩

theorem All.setStyle {b : RenderBuckets N} (h : b.All Q) (style : LineStyle N) :
    (b.setStyle style).All Q := by
  intro l hl
  obtain ⟨l', hl', rfl⟩ := Option.map_eq_some_iff.1 hl
  exact (h l' hl').withStyle style

end RenderBuckets

variable [Mercator W] [Arithmetic N] [Resolution W N]

/-- What the clip region grants of the pixels of a track holds of all points of its geometry. -/
theorem Builder.geometry_all (track : TrackData W) (position : MapPosition W)
    {settings : BuildSettings N} (hr : (Region.centered settings.clipExtent).Grants P Q)
    (hpixels : ∀ p : GeoPoint W, P (position.pixel p.project : Pixel N).point) :
    (Builder.geometry track position settings).All Q := by
  have hpath (q : Point W × Color) (hq : q ∈ track.path) :
      P (position.pixel q.1 : Pixel N).point := by
    obtain ⟨p, -, hp⟩ := List.mem_map.1 (List.of_mem_zip hq).1
    rw [← hp]
    exact hpixels p
  rw [geometry_eq]
  cases hpoints : track.path with
  | nil => exact nofun
  | cons q rest =>
    rw [hpoints] at hpath
    have hq := hpath q List.mem_cons_self
    obtain ⟨hstart, hstands⟩ := Trace.All.start hr track.boundaries q.1 hq q.2
    have hrest (q' : Point W × Color) (hq' : q' ∈ rest) :
        P (position.pixel q'.1 : Pixel N).point := hpath q' (List.mem_cons_of_mem _ hq')
    have hfollow := hstart.follow hr hstands hq settings position 1 hrest
    intro l hl
    obtain rfl := Option.some.inj hl
    unfold finish
    dsimp only
    split
    · exact hfollow.flush.bucket.setArrows hfollow.arrows
    · exact hfollow.flush.bucket

theorem Region.grants_contains {N : Type} [Arithmetic N] (r : Region N) :
    r.Grants (fun _ => True) fun p => r.contains p = true where
  inside _ _ hp := beq_iff_eq.2 hp
  clipped _ _ _ _ _ hclip := contains_of_clip (n := 4) hclip

/-- All points of a geometry are in its clip region, whatever the numbers are. -/
theorem Builder.geometry_contains (track : TrackData W) (position : MapPosition W)
    (settings : BuildSettings N) :
    (Builder.geometry track position settings).All fun p =>
      (Region.centered settings.clipExtent).contains p = true :=
  geometry_all track position (Region.grants_contains _) fun _ => trivial

end TourMap
