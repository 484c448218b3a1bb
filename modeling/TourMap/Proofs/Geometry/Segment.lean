import Mathlib.Algebra.Order.Field.Basic
import Mathlib.Data.Set.Basic
import Mathlib.Tactic.Linarith
import Mathlib.Tactic.Ring
import TourMap.Geometry.Clipper

/-!
# Segment: points of a segment and borders of a rectangle

Over the rationals every operation is exact. A segment is then the image of the interval from zero to
one (`Segment.point`), a rectangle lies on one side of each of its four borders (`Region.excess`), and
the point where a segment meets a border divides it in the ratio of the excesses of its ends.
-/

namespace TourMap

/-! ## 1. Points -/

/-- The point that divides a segment: zero gives its first end, one the second. -/
def Segment.point (s : Segment Rat) (t : Rat) : Point Rat :=
  ⟨s.first.x + t * (s.second.x - s.first.x), s.first.y + t * (s.second.y - s.first.y)⟩

/-- A segment with its ends, as a set of points. -/
def Segment.points (s : Segment Rat) : Set (Point Rat) :=
  {p | ∃ t, 0 ≤ t ∧ t ≤ 1 ∧ s.point t = p}

/-- A rectangle with its border, as a set of points. -/
def Region.points (r : Region Rat) : Set (Point Rat) :=
  {p | r.min.x ≤ p.x ∧ p.x ≤ r.max.x ∧ r.min.y ≤ p.y ∧ p.y ≤ r.max.y}

/-- Whether a rectangle has points at all. -/
structure Region.Proper (r : Region Rat) : Prop where
  x : r.min.x ≤ r.max.x
  y : r.min.y ≤ r.max.y

namespace Segment

variable (s : Segment Rat)

@[simp] theorem point_zero : s.point 0 = s.first := by
  simp [point]

@[simp] theorem point_one : s.point 1 = s.second := by
  simp [point]

/-- A point of a part of a segment is a point of the segment. -/
theorem point_point (a b t : Rat) :
    Segment.point ⟨s.point a, s.point b⟩ t = s.point (a + t * (b - a)) := by
  simp only [point, Point.mk.injEq]
  constructor <;> ring

theorem first_mem_points : s.first ∈ s.points := ⟨0, le_refl 0, zero_le_one, s.point_zero⟩

theorem second_mem_points : s.second ∈ s.points := ⟨1, zero_le_one, le_refl 1, s.point_one⟩

theorem point_injective {s : Segment Rat} (h : s.first ≠ s.second) {t u : Rat}
    (htu : s.point t = s.point u) : t = u := by
  obtain ⟨hx, hy⟩ := Point.mk.inj htu
  by_contra hne
  have hsub : t - u ≠ 0 := sub_ne_zero.2 hne
  have hdx : (t - u) * (s.second.x - s.first.x) = 0 := by linarith
  have hdy : (t - u) * (s.second.y - s.first.y) = 0 := by linarith
  have hx := (mul_eq_zero.1 hdx).resolve_left hsub
  have hy := (mul_eq_zero.1 hdy).resolve_left hsub
  apply h
  rw [← s.point_one, point, hx, hy]
  simp

end Segment

/-! ## 2. Borders -/

inductive Border where
  | minX
  | maxX
  | minY
  | maxY

/-- How far a point lies beyond a border. -/
def Region.excess (r : Region Rat) : Border → Point Rat → Rat
  | .minX, p => r.min.x - p.x
  | .maxX, p => p.x - r.max.x
  | .minY, p => r.min.y - p.y
  | .maxY, p => p.y - r.max.y

namespace Outcode

/-- Whether points with this outcode lie beyond a border. -/
def Beyond (c : Outcode) : Border → Prop
  | .minX => c.x = .below
  | .maxX => c.x = .above
  | .minY => c.y = .below
  | .maxY => c.y = .above

/-- The border that an end with this outcode is taken to. -/
def border (c : Outcode) : Border :=
  match c.y, c.x with
  | .above, _ => .maxY
  | .below, _ => .minY
  | .within, .above => .maxX
  | .within, _ => .minX

/-- Beyond how many borders points with this outcode lie. -/
def outs (c : Outcode) : Nat :=
  (if c.x = .within then 0 else 1) + if c.y = .within then 0 else 1

theorem beyond_border {c : Outcode} (h : c ≠ .inside) : c.Beyond c.border := by
  obtain ⟨x, y⟩ := c
  cases x <;> cases y <;> simp_all [Beyond, border, inside]

theorem eq_inside_iff {c : Outcode} : c = .inside ↔ ∀ b, ¬ c.Beyond b := by
  constructor
  · rintro rfl b
    cases b <;> simp [Beyond, inside]
  · intro h
    by_contra hne
    exact h c.border (beyond_border hne)

theorem sharesSide_iff {a b : Outcode} :
    a.sharesSide b = true ↔ ∃ border, a.Beyond border ∧ b.Beyond border := by
  constructor
  · intro h
    obtain ⟨ax, ay⟩ := a
    obtain ⟨bx, byy⟩ := b
    simp only [sharesSide, Bool.or_eq_true, Bool.and_eq_true, bne_iff_ne, beq_iff_eq] at h
    rcases h with ⟨hne, rfl⟩ | ⟨hne, rfl⟩
    · cases ax with
      | below => exact ⟨.minX, rfl, rfl⟩
      | within => exact (hne rfl).elim
      | above => exact ⟨.maxX, rfl, rfl⟩
    · cases ay with
      | below => exact ⟨.minY, rfl, rfl⟩
      | within => exact (hne rfl).elim
      | above => exact ⟨.maxY, rfl, rfl⟩
  · rintro ⟨border, ha, hb⟩
    cases border <;> simp only [Beyond] at ha hb <;> simp [sharesSide, ha, hb]

theorem sharesSide_comm (a b : Outcode) : a.sharesSide b = b.sharesSide a := by
  rw [Bool.eq_iff_iff, sharesSide_iff, sharesSide_iff]
  exact exists_congr fun _ => and_comm

theorem outs_le_two (c : Outcode) : c.outs ≤ 2 := by
  unfold outs
  split <;> split <;> omega

theorem outs_add_outs_le_four (a b : Outcode) : a.outs + b.outs ≤ 4 :=
  Nat.add_le_add a.outs_le_two b.outs_le_two

theorem outs_eq_zero_iff {c : Outcode} : c.outs = 0 ↔ c = .inside := by
  obtain ⟨x, y⟩ := c
  cases x <;> cases y <;> simp [outs, inside]

/-- An end that is taken to its border, and beyond no other border than before, is beyond fewer. -/
theorem outs_lt {a c : Outcode} (h : ∀ b, c.Beyond b → a.Beyond b) (ha : a ≠ .inside)
    (hc : ¬ c.Beyond a.border) : c.outs < a.outs := by
  obtain ⟨ax, ay⟩ := a
  obtain ⟨cx, cy⟩ := c
  have h1 := h .minX
  have h2 := h .maxX
  have h3 := h .minY
  have h4 := h .maxY
  cases ax <;> cases ay <;> cases cx <;> cases cy <;>
    simp_all [Beyond, border, outs, inside]

end Outcode

namespace Region

variable {r : Region Rat}

theorem mem_points_iff {p : Point Rat} : p ∈ r.points ↔ ∀ b, r.excess b p ≤ 0 := by
  constructor
  · rintro ⟨h1, h2, h3, h4⟩ b
    cases b <;> simp only [excess] <;> linarith
  · intro h
    have h1 := h .minX
    have h2 := h .maxX
    have h3 := h .minY
    have h4 := h .maxY
    simp only [excess] at h1 h2 h3 h4
    refine ⟨?_, ?_, ?_, ?_⟩ <;> linarith

theorem beyond_outcode_iff (hr : r.Proper) {p : Point Rat} {b : Border} :
    (r.outcode p).Beyond b ↔ 0 < r.excess b p := by
  have hx := hr.x
  have hy := hr.y
  cases b <;> simp only [Outcode.Beyond, outcode, Side.of, excess]
  all_goals
    split
    · simp; linarith
    · split <;> simp <;> linarith

theorem outcode_eq_inside_iff (hr : r.Proper) {p : Point Rat} :
    r.outcode p = .inside ↔ p ∈ r.points := by
  rw [Outcode.eq_inside_iff, mem_points_iff]
  refine forall_congr' fun b => ?_
  rw [beyond_outcode_iff hr, not_lt]

/-- The excess changes evenly along a segment. -/
theorem excess_point (b : Border) (s : Segment Rat) (t : Rat) :
    r.excess b (s.point t) = (1 - t) * r.excess b s.first + t * r.excess b s.second := by
  cases b <;> simp only [excess, Segment.point] <;> ring

/-- Where a coordinate that runs from `a` to `b` takes the value `m`. -/
theorem ratio_eq {a b m : Rat} (h : b - a ≠ 0) :
    (a - m) / (a - m - (b - m)) = (m - a) / (b - a) ∧
      (m - a) / (m - a - (m - b)) = (m - a) / (b - a) ∧ a + (m - a) / (b - a) * (b - a) = m := by
  have h' : a - b ≠ 0 := fun heq => h (by linarith)
  refine ⟨?_, ?_, ?_⟩
  · rw [show a - m - (b - m) = -(b - a) by ring, div_neg, ← neg_div]
    ring
  · rw [show m - a - (m - b) = b - a by ring]
  · rw [div_mul_cancel₀ _ h]
    ring

/-- A segment that crosses a border does so where it divides in the ratio of the excesses. -/
theorem crossing_eq {s : Segment Rat} {out : Outcode}
    (h : r.excess out.border s.first ≠ r.excess out.border s.second) :
    r.crossing s out = s.point (r.excess out.border s.first /
      (r.excess out.border s.first - r.excess out.border s.second)) := by
  have horizontal {y : Rat} (hne : s.second.y - s.first.y ≠ 0) :
      atHeight s y = s.point ((y - s.first.y) / (s.second.y - s.first.y)) := by
    rw [atHeight, Segment.point, (ratio_eq hne).2.2]
    exact congrArg (Point.mk · y) (by ring)
  have vertical {x : Rat} (hne : s.second.x - s.first.x ≠ 0) :
      atAbscissa s x = s.point ((x - s.first.x) / (s.second.x - s.first.x)) := by
    rw [atAbscissa, Segment.point, (ratio_eq hne).2.2]
    exact congrArg (Point.mk x) (by ring)
  obtain ⟨x, y⟩ := out
  cases y with
  | below =>
    have hne : s.second.y - s.first.y ≠ 0 := fun heq => h (congrArg (r.min.y - ·) (by linarith))
    exact (horizontal hne).trans (congrArg s.point (ratio_eq hne).2.1.symm)
  | above =>
    have hne : s.second.y - s.first.y ≠ 0 := fun heq => h (congrArg (· - r.max.y) (by linarith))
    exact (horizontal hne).trans (congrArg s.point (ratio_eq hne).1.symm)
  | within =>
    cases x with
    | below | within =>
      have hne : s.second.x - s.first.x ≠ 0 := fun heq => h (congrArg (r.min.x - ·) (by linarith))
      exact (vertical hne).trans (congrArg s.point (ratio_eq hne).2.1.symm)
    | above =>
      have hne : s.second.x - s.first.x ≠ 0 := fun heq => h (congrArg (· - r.max.x) (by linarith))
      exact (vertical hne).trans (congrArg s.point (ratio_eq hne).1.symm)

end Region

end TourMap
