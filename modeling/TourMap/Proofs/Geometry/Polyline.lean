import TourMap.Proofs.Geometry.Clipper

/-!
# Polyline: what a clipper tells, whatever the arithmetic

A clipper is started at a point and then follows a polyline, or is started anew, any number of times
(`LineClipper.walk`). What it tells after that rests on comparisons alone. So it holds of rounded
numbers, and of infinities and of what is not a number too, for the points and for the borders.
-/

namespace TourMap.LineClipper

variable {α : Type} [Arithmetic α]

/-! ## 1. Walks -/

inductive Step (α : Type) where
  | start (p : Point α)
  | next (p : Point α)

def Step.point : Step α → Point α
  | .start p => p
  | .next p => p

def take (c : LineClipper α) : Step α → LineClipper α
  | .start p => c.start p
  | .next p => (c.next p).2

/-- The clipper of a rectangle that was started at `p` and has taken some steps since. -/
def walk (r : Region α) (p : Point α) (steps : List (Step α)) : LineClipper α :=
  steps.foldl take ((new r).start p)

/-- The point to which a walk from `p` has come. -/
def lastPoint (p : Point α) (steps : List (Step α)) : Point α :=
  (steps.getLast?.map Step.point).getD p

/-- What is told of the way to a point: where it lies, and its part inside if it crosses the
border. -/
def tell (c : LineClipper α) (q : Point α) : Clipped × Option (Segment α) :=
  ((c.next q).1, if (c.next q).1 = .intersection then some (c.next q).2.line else none)

variable {c : LineClipper α} {r : Region α} {p : Point α}

theorem StandsAt.take (h : c.StandsAt r p) (step : Step α) :
    (c.take step).StandsAt r step.point := by
  cases step with
  | start q => exact h.start q
  | next q => exact h.next q

theorem StandsAt.foldl_take (h : c.StandsAt r p) (steps : List (Step α)) :
    (steps.foldl LineClipper.take c).StandsAt r (lastPoint p steps) := by
  induction steps generalizing c p with
  | nil => exact h
  | cons step rest ih =>
    -- The rest of the walk begins where the first step ends.
    have hlast : lastPoint p (step :: rest) = lastPoint step.point rest := by
      rw [lastPoint, List.getLast?_cons, Option.map_some, Option.getD_some, lastPoint,
        Option.getD_map]
    rw [List.foldl_cons, hlast]
    exact ih (h.take step)

theorem standsAt_start (r : Region α) (p : Point α) : ((new r).start p).StandsAt r p :=
  ⟨rfl, rfl, rfl⟩

/-! ## 2. The way to a point -/

/-- What can be relied on when a clipper of the rectangle `r` goes from the point `p` to `q`. -/
structure Truthful (c : LineClipper α) (r : Region α) (p q : Point α) : Prop where
  isInside_eq : c.isInside = r.contains p
  inside_iff : (c.next q).1 = .inside ↔ r.contains p = true ∧ r.contains q = true
  not_both : (c.next q).1 = .intersection → ¬ (r.contains p = true ∧ r.contains q = true)
  ends_inside : (c.next q).1 = .intersection →
    r.contains (c.next q).2.line.first = true ∧ r.contains (c.next q).2.line.second = true
  first_kept : (c.next q).1 = .intersection → r.contains p = true → (c.next q).2.line.first = p
  second_kept : (c.next q).1 = .intersection → r.contains q = true → (c.next q).2.line.second = q
  line_kept : (c.next q).1 ≠ .intersection → (c.next q).2.line = c.line
  start_line : (c.start q).line = c.line
  /-- The way is judged by the rectangle and by its own ends. -/
  forgetful : c.tell q = ((new r).start p).tell q

theorem StandsAt.next_eq_inside_iff (h : c.StandsAt r p) (q : Point α) :
    (c.next q).1 = .inside ↔ r.contains p = true ∧ r.contains q = true := by
  rw [← Bool.and_eq_true]
  rcases h.next_cases q with ⟨hresult, hboth⟩ | ⟨hresult, hnot, -⟩ | ⟨hresult, hnot, -⟩
  · exact iff_of_true hresult hboth
  · rw [hresult, hnot]
    decide
  · rw [hresult, hnot]
    decide

/-- A part of the way is told only where the clipping of the whole way gives it. -/
theorem StandsAt.of_intersection (h : c.StandsAt r p) {q : Point α}
    (hresult : (c.next q).1 = .intersection) :
    ¬ (r.contains p = true ∧ r.contains q = true) ∧
      r.clip 4 ⟨p, q⟩ (r.outcode p) (r.outcode q) = some (c.next q).2.line := by
  rcases h.next_cases q with ⟨hin, -⟩ | ⟨hout, -⟩ | ⟨-, hnot, hclip⟩
  · rw [hin] at hresult
    cases hresult
  · rw [hout] at hresult
    cases hresult
  · refine ⟨?_, hclip⟩
    rw [← Bool.and_eq_true, hnot]
    exact Bool.false_ne_true

/-- Two clippers of one rectangle that have come to one point tell the same. -/
theorem StandsAt.tell_eq {d : LineClipper α} (hc : c.StandsAt r p) (hd : d.StandsAt r p)
    (q : Point α) : c.tell q = d.tell q := by
  obtain ⟨hresult, hline⟩ := next_congr (hc.region.trans hd.region.symm)
    (hc.last.trans hd.last.symm) (hc.code.trans hd.code.symm) q
  unfold tell
  rw [← hresult]
  by_cases h : (c.next q).1 = .intersection
  · rw [if_pos h, if_pos h, hline h]
  · rw [if_neg h, if_neg h]

theorem StandsAt.truthful (h : c.StandsAt r p) (q : Point α) : c.Truthful r p q where
  isInside_eq := h.isInside_eq
  inside_iff := h.next_eq_inside_iff q
  not_both hresult := (h.of_intersection hresult).1
  ends_inside hresult := Region.contains_of_clip (s := ⟨p, q⟩) (h.of_intersection hresult).2
  first_kept hresult hp := by
    have hclip := (h.of_intersection hresult).2
    rw [show r.outcode p = .inside from beq_iff_eq.1 hp] at hclip
    exact Region.clip_first_eq hclip
  second_kept hresult hq := by
    have hclip := (h.of_intersection hresult).2
    rw [show r.outcode q = .inside from beq_iff_eq.1 hq] at hclip
    exact Region.clip_second_eq hclip
  line_kept := next_line c q
  start_line := rfl
  forgetful := h.tell_eq (standsAt_start r p) q

/-- However a clipper was started and led on before, it can be relied on. -/
theorem walk_is_truthful (r : Region α) (p : Point α) (steps : List (Step α)) (q : Point α) :
    (walk r p steps).Truthful r (lastPoint p steps) q := by
  have hstands : (walk r p steps).StandsAt r (lastPoint p steps) :=
    (standsAt_start r p).foldl_take steps
  exact hstands.truthful q

/-- A strip without end to the left and to the right. -/
def strip : Region Single := ⟨⟨.infinity true, .ofInt (-100)⟩, ⟨.infinity false, .ofInt 100⟩⟩

/-- What is not a number lies beyond no border, so of a way from there only the height is cut off. -/
example : (walk strip .origin [.next ⟨.ofInt 300, .ofInt 300⟩, .start ⟨.nan, .ofInt 0⟩]).tell
    ⟨.ofInt 0, .ofInt 200⟩ =
      (.intersection, some ⟨⟨.nan, .ofInt 0⟩, ⟨.nan, .ofInt 100⟩⟩) := by
  decide +kernel

end TourMap.LineClipper
