import TourMap.Proofs.Trace
import TourMap.Proofs.Track

/-!
# Tours: a trace that forgets the tours before

Where a tour starts, a trace goes on as one that starts there: it has drawn other lines and set other
arrows, but no line to come depends on them (`Trace.Resumes`). So the lines of several tours are
those of each tour, one after the other.
-/

namespace TourMap.Trace

variable {W N : Type} {before : List (Array (Vertex N))} {t u : Trace W N}

/-! ## 1. Traces that go on alike -/

/-- Whether `t`, which had drawn the lines `before`, goes on as `u` does. -/
structure Resumes (before : List (Array (Vertex N))) (t u : Trace W N) : Prop where
  region : t.clipper.region = u.clipper.region
  last : t.clipper.last = u.clipper.last
  code : t.clipper.code = u.clipper.code
  run : t.run = u.run
  flip : t.flip = u.flip
  lastX : t.lastX = u.lastX
  lines : ∃ lines, t.bucket.Holds (before ++ lines) ∧ u.bucket.Holds lines

namespace Resumes

theorem flush (h : Resumes before t u) : Resumes before t.flush u.flush := by
  obtain ⟨lines, ht, hu⟩ := h.lines
  have hlines := ht.addLine t.run.commitTail.vertices
  rw [List.append_assoc, h.run] at hlines
  exact ⟨h.region, h.last, h.code, rfl, h.flip, h.lastX, _, h.run ▸ hlines, hu.addLine _⟩

theorem withRun (h : Resumes before t u) (run : Run N) :
    Resumes before { t with run } { u with run } :=
  ⟨h.region, h.last, h.code, rfl, h.flip, h.lastX, h.lines⟩

theorem withCourse (h : Resumes before t u) (flip : Int) (lastX : W)
    (boundaries boundaries' : List Nat) :
    Resumes before { t with flip, lastX, boundaries }
      { u with flip, lastX, boundaries := boundaries' } :=
  ⟨h.region, h.last, h.code, h.run, rfl, rfl, h.lines⟩

theorem isInside (h : Resumes before t u) : t.clipper.isInside = u.clipper.isInside :=
  LineClipper.isInside_congr h.code

theorem drawTo (h : Resumes before t u) (v : Vertex N) :
    Resumes before (t.drawTo v) (u.drawTo v) := by
  unfold Trace.drawTo
  rw [h.isInside, h.run]
  split
  · exact h.withRun _
  · exact (h.withRun _).flush

variable [Arithmetic N] {settings : BuildSettings N}

theorem restart (h : Resumes before t u) (v : Vertex N) :
    Resumes before (t.restart v) (u.restart v) := by
  have hcode : t.clipper.region.outcode v.point = u.clipper.region.outcode v.point := by
    rw [h.region]
  have hinside : (t.clipper.start v.point).isInside = (u.clipper.start v.point).isInside :=
    LineClipper.isInside_congr hcode
  exact { h.flush with
    last := rfl
    code := hcode
    run := by simp only [Trace.restart, hinside] }

/-- The arrows may be other ones. -/
theorem advance (h : Resumes before t u) (v : Vertex N) :
    Resumes before (t.advance settings v) (u.advance settings v) := by
  obtain ⟨arrows, lastArrow, ht⟩ := t.advance_eq settings v
  obtain ⟨arrows', lastArrow', hu⟩ := u.advance_eq settings v
  rw [ht, hu]
  exact { h with run := by simp only [h.run] }

theorem cross (h : Resumes before t u) (wasInside : Bool) (line : Segment N) (color : Color) :
    Resumes before (t.cross wasInside line color) (u.cross wasInside line color) := by
  rw [cross_eq, cross_eq, h.run, h.isInside]
  split
  · exact (h.withRun _).drawTo _
  · split
    · exact h.flush
    · exact (h.flush.withRun _).drawTo _

/-- The line of the clipper is looked at only where the clipper just set it. -/
theorem extend (h : Resumes before t u) (v : Vertex N) :
    Resumes before (t.extend settings v) (u.extend settings v) := by
  obtain ⟨hresult, hline⟩ := LineClipper.next_congr h.region h.last h.code v.point
  have hnext : Resumes before { t with clipper := (t.clipper.next v.point).2 }
      { u with clipper := (u.clipper.next v.point).2 } :=
    { h with
      region := by simp only [LineClipper.next_region, h.region]
      last := by simp only [LineClipper.next_last]
      code := by simp only [LineClipper.next_code, h.region] }
  unfold Trace.extend
  dsimp only
  rw [hresult] at hline ⊢
  rw [h.isInside]
  cases hclip : (u.clipper.next v.point).1 with
  | outside => exact hnext.flush
  | intersection =>
    rw [hline hclip]
    exact hnext.cross _ _ _
  | inside => exact hnext.advance v

variable [Arithmetic W]

/-- Where no tour starts, only the way from the last point counts, not how many points there were. -/
theorem step (h : Resumes before t u) (hu : u.boundaries = []) {i : Nat}
    (ht : t.boundaries.head? ≠ some i) (j : Nat) (p : Point W) (pixel : Pixel N) (color : Color) :
    Resumes before (t.step settings i p pixel color) (u.step settings j p pixel color) := by
  have hi : (t.boundaries.head? == some i) = false := beq_eq_false_iff_ne.2 ht
  unfold Trace.step
  rw [hi, hu, h.flip, h.lastX]
  simp only [List.head?_nil, Option.none_beq_some, Bool.or_false]
  split
  · exact (h.withCourse _ _ _ _).restart _
  · exact (h.withCourse _ _ _ _).extend _

end Resumes

variable [Arithmetic N] [Arithmetic W] {settings : BuildSettings N}

/-- Where a tour starts, the lines before are ended, and the trace goes on as one that starts. -/
theorem resumes_start {i : Nat} (p : Point W) (pixel : Pixel N) (color : Color)
    (hregion : t.clipper.region = .centered settings.clipExtent)
    (hi : t.boundaries.head? = some i) (hlines : t.flush.bucket.Holds before) :
    Resumes before (t.step settings i p pixel color) (start settings [] p pixel color) := by
  have hcode : t.clipper.region.outcode pixel.point =
      (Region.centered settings.clipExtent).outcode pixel.point := by
    rw [hregion]
  have hinside : (t.clipper.start pixel.point).isInside =
      ((LineClipper.centered settings.clipExtent).start pixel.point).isInside :=
    LineClipper.isInside_congr hcode
  unfold Trace.step
  rw [hi]
  simp only [BEq.rfl, Bool.or_true, ↓reduceIte]
  refine ⟨hregion, rfl, hcode, ?_, rfl, rfl, [], ?_, LineBucket.holds_new _⟩
  · simp only [Trace.restart, Trace.start, hinside]
  · rw [List.append_nil]
    exact hlines

theorem step_boundaries {i : Nat} {p : Point W} {pixel : Pixel N} {color : Color} :
    (t.step settings i p pixel color).boundaries =
      if t.boundaries.head? == some i then t.boundaries.tail else t.boundaries :=
  congrArg (·.2.2) (t.step_course settings i p pixel color)

/-! ## 2. Tours one after the other -/

variable [Resolution W N] (settings) (position : MapPosition W)

/-- Up to the next tour the traces go on alike. -/
theorem Resumes.follow (h : Resumes before t u) (hu : u.boundaries = []) (i j : Nat)
    (points : List (Point W × Color)) (ht : ∀ b ∈ t.boundaries, i + points.length ≤ b) :
    Resumes before (follow settings position i points t) (follow settings position j points u) ∧
      (Trace.follow settings position i points t).boundaries = t.boundaries := by
  induction points generalizing i j t u with
  | nil => exact ⟨h, rfl⟩
  | cons point rest ih =>
    have hi : t.boundaries.head? ≠ some i := by
      intro hhead
      have := ht i (List.mem_of_head? hhead)
      rw [List.length_cons] at this
      omega
    have hboundaries : (t.step settings i point.1 (position.pixel point.1) point.2).boundaries =
        t.boundaries := by
      rw [step_boundaries, beq_eq_false_iff_ne.2 hi]
      rfl
    have hrest (b : Nat)
        (hb : b ∈ (t.step settings i point.1 (position.pixel point.1) point.2).boundaries) :
        i + 1 + rest.length ≤ b := by
      have := ht b (hboundaries ▸ hb)
      rw [List.length_cons] at this
      omega
    obtain ⟨hfollow, hkept⟩ := ih (h.step hu hi j point.1 (position.pixel point.1) point.2)
      (by rw [step_boundaries, hu]; rfl) (i + 1) (j + 1) hrest
    exact ⟨hfollow, hkept.trans hboundaries⟩

/-- A trace in the midst of a tour, with `rest` of it to come and then other tours, draws the lines
of what is left of the tour and then those of the others. -/
theorem Resumes.follow_tours (h : Resumes before t u) (hu : u.boundaries = []) (i j : Nat)
    (rest : List (Point W × Color)) {tours : List (List (Point W × Color))}
    (hregion : t.clipper.region = .centered settings.clipExtent)
    (ht : t.boundaries = startsFrom (i + rest.length) (tours.map List.length)) :
    ∃ lines, (Trace.follow settings position j rest u).flush.bucket.Holds lines ∧
      (Trace.follow settings position i (rest ++ tours.flatten) t).flush.bucket.Holds
        (before ++ lines ++ tours.flatMap (linesOf settings position [])) := by
  -- Induction on the tours to come: where the next one starts, the trace is a new `t`, and one that
  -- starts there the new `u`.
  induction tours generalizing before t u i j rest with
  | nil =>
    obtain ⟨hfollow, -⟩ := h.follow settings position hu i j rest (by simp [ht, startsFrom])
    obtain ⟨lines, htl, hul⟩ := hfollow.flush.lines
    exact ⟨lines, hul, by simpa using htl⟩
  | cons tour tours ih =>
    cases tour with
    | nil =>
      -- A tour without points has no start and no lines.
      rw [List.map_cons, List.length_nil, startsFrom] at ht
      exact ih h hu i j rest hregion ht
    | cons point points =>
      rw [List.map_cons, List.length_cons, startsFrom] at ht
      have hlater (b : Nat) (hb : b ∈ t.boundaries) : i + rest.length ≤ b := by
        rw [ht] at hb
        rcases List.mem_cons.1 hb with rfl | hb
        · exact Nat.le_refl _
        · have := le_of_mem_startsFrom hb
          omega
      obtain ⟨hfollow, hkept⟩ := h.follow settings position hu i j rest hlater
      obtain ⟨lines, htl, hul⟩ := hfollow.flush.lines
      have hregion' : (Trace.follow settings position i rest t).clipper.region =
          .centered settings.clipExtent := by
        rw [follow_region, hregion]
      have hhead : (Trace.follow settings position i rest t).boundaries.head? =
          some (i + rest.length) := by
        rw [hkept, ht]
        rfl
      have hstart := resumes_start point.1 (position.pixel point.1) point.2 hregion' hhead htl
      have hstartBoundaries :
          (Trace.step settings (Trace.follow settings position i rest t) (i + rest.length) point.1
            (position.pixel point.1) point.2).boundaries =
          startsFrom (i + rest.length + 1 + points.length) (tours.map List.length) := by
        rw [step_boundaries, hhead, BEq.rfl, if_pos rfl, hkept, ht]
        simp only [List.tail_cons, Nat.add_assoc, Nat.add_comm 1]
      obtain ⟨tourLines, hul', htl'⟩ := ih hstart rfl (i + rest.length + 1) 1 points
        (by rw [step_region, hregion']) hstartBoundaries
      refine ⟨lines, hul, ?_⟩
      have htour : linesOf settings position [] (point :: points) = tourLines := hul'.lines_eq
      rw [follow_append, List.flatten_cons, List.cons_append, Trace.follow, List.flatMap_cons, htour,
        ← List.append_assoc]
      exact htl'

/-- The lines of tours laid one after the other are those of each tour. -/
theorem ofPoints_tours {tours : List (List (Point W × Color))}
    (h : ofPoints settings position ((startsFrom 0 (tours.map List.length)).dropWhile (· == 0))
      tours.flatten = some t) :
    t.flush.bucket.Holds (tours.flatMap (linesOf settings position [])) := by
  induction tours with
  | nil => cases h
  | cons tour tours ih =>
    cases tour with
    | nil => exact ih h
    | cons point points =>
      rw [List.map_cons, List.length_cons, startsFrom, List.dropWhile_cons_of_pos (by rfl),
        dropWhile_startsFrom (by omega)] at h
      obtain rfl := Option.some.inj h
      let u : Trace W N := start settings [] point.1 (position.pixel point.1) point.2
      have hstart : Resumes [] (start settings (startsFrom (0 + (points.length + 1))
          (tours.map List.length)) point.1 (position.pixel point.1) point.2) u :=
        ⟨rfl, rfl, rfl, rfl, rfl, rfl, [], LineBucket.holds_new _, LineBucket.holds_new _⟩
      obtain ⟨lines, hul, htl⟩ := hstart.follow_tours settings position rfl 1 1 points rfl
        (by rw [Nat.zero_add, Nat.add_comm]; rfl)
      have htour : linesOf settings position [] (point :: points) = lines := hul.lines_eq
      rw [List.flatMap_cons, htour]
      exact htl

end TourMap.Trace
