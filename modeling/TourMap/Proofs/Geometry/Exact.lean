import TourMap.Proofs.Geometry.Crossing
import TourMap.Proofs.Geometry.Intersection
import TourMap.Proofs.Number.Exact

/-!
# Exact: the clipper in exact numbers

Between points with rational coordinates the clipper computes in exact numbers what it computes over
the rationals (`Region.clip_toExact`). A coordinate that is not a number lies beyond no border, and is
left alone by the clipper. So the clipper sees each way into a square around the origin, if the ends
of the way are alike along each axis (`Region.exists_clip_of_contains`).
-/

namespace TourMap

open Exact

/-! ## 1. Rational coordinates -/

def Point.toExact (p : Point Rat) : Point Exact := ⟨finite p.x, finite p.y⟩

def Segment.toExact (s : Segment Rat) : Segment Exact := ⟨s.first.toExact, s.second.toExact⟩

def Region.toExact (r : Region Rat) : Region Exact := ⟨r.min.toExact, r.max.toExact⟩

theorem Side.of_finite (v lo hi : Rat) :
    Side.of (finite v) (finite lo) (finite hi) = Side.of v lo hi := by
  unfold Side.of
  simp only [finite_lt_finite]

namespace Region

variable {r : Region Rat} {s : Segment Rat}

@[simp] theorem outcode_toExact (p : Point Rat) : r.toExact.outcode p.toExact = r.outcode p :=
  congrArg₂ Outcode.mk (Side.of_finite p.x r.min.x r.max.x) (Side.of_finite p.y r.min.y r.max.y)

theorem crossing_toExact {out : Outcode} (h : s.divisor out ≠ 0) :
    r.toExact.crossing s.toExact out = (r.crossing s out).toExact := by
  have hvalue {u v w a b : Rat} (hne : b - a ≠ 0) :
      finite u + (finite v - finite u) * (finite w - finite a) / (finite b - finite a) =
        finite (u + (v - u) * (w - a) / (b - a)) := by
    simp only [finite_sub_finite, finite_mul_finite, finite_div_finite hne, finite_add_finite]
  obtain ⟨x, y⟩ := out
  cases y with
  | below => exact congrArg (Point.mk · (finite r.min.y)) (hvalue h)
  | above => exact congrArg (Point.mk · (finite r.max.y)) (hvalue h)
  | within =>
    cases x with
    | below | within => exact congrArg (Point.mk (finite r.min.x)) (hvalue h)
    | above => exact congrArg (Point.mk (finite r.max.x)) (hvalue h)

theorem crossing_toExact_of_guarded {out : Outcode} {p : Point Rat}
    (h : r.guardedCrossing s out = .ok p) : r.toExact.crossing s.toExact out = p.toExact := by
  unfold guardedCrossing at h
  split at h
  · cases h
  · rename_i hne
    obtain rfl := Except.ok.inj h
    exact crossing_toExact hne

/-- Nothing is divided by zero, so the rounds are the same in exact numbers. -/
theorem clip_toExact (hr : r.Proper) (n : Nat) (s : Segment Rat)
    (h : (r.outcode s.first).outs + (r.outcode s.second).outs ≤ n ∨
      (r.outcode s.first).sharesSide (r.outcode s.second) = true) :
    r.toExact.clip n s.toExact (r.outcode s.first) (r.outcode s.second) =
      (r.clip n s (r.outcode s.first) (r.outcode s.second)).map Segment.toExact := by
  refine rounds_induction hr
    (P := fun n s => r.toExact.clip n s.toExact (r.outcode s.first) (r.outcode s.second) =
      (r.clip n s (r.outcode s.first) (r.outcode s.second)).map Segment.toExact)
    ?apart ?inside ?first ?second n s h
  case apart =>
    intro n s hshares
    rw [clip_sharesSide _ n _ hshares, clip_sharesSide r n s hshares, Option.map_none]
  case inside =>
    intro n s hfirst hsecond
    rw [hfirst, hsecond, clip_inside, clip_inside, Option.map_some]
  case first =>
    intro n s m hfirst hshares _ _ hcrossing _ hrest
    have hexact := crossing_toExact_of_guarded
      (guardedCrossing_eq hr (Or.inl ⟨rfl, rfl⟩) hfirst hshares)
    rw [clip_first _ n _ hfirst hshares, clip_first r n s hfirst hshares, hexact, hcrossing,
      outcode_toExact]
    exact hrest
  case second =>
    intro n s m hfirst hsecond _ _ hcrossing _ hrest
    have hshares : ¬ (r.outcode s.second).sharesSide (r.outcode s.first) = true := by
      rw [hfirst, Outcode.sharesSide_comm]
      exact Bool.false_ne_true
    have hexact := crossing_toExact_of_guarded
      (guardedCrossing_eq hr (Or.inr ⟨rfl, rfl⟩) hsecond hshares)
    rw [hfirst] at hrest ⊢
    rw [clip_second _ n _ hsecond, clip_second r n s hsecond, hexact, hcrossing, outcode_toExact]
    exact hrest

/-- A way between rational points into a proper rectangle is seen. -/
theorem exists_clip_toExact (hr : r.Proper) {p q : Point Rat}
    (hq : r.toExact.contains q.toExact = true) :
    ∃ part, r.toExact.clip 4 ⟨p.toExact, q.toExact⟩ (r.toExact.outcode p.toExact)
      (r.toExact.outcode q.toExact) = some part := by
  rw [contains, beq_iff_eq, outcode_toExact, outcode_eq_inside_iff hr] at hq
  have hrounds := Outcode.outs_add_outs_le_four (r.outcode p) (r.outcode q)
  have hclips := clips_clip hr 4 ⟨p, q⟩ (Or.inl hrounds)
  have hexact := clip_toExact hr 4 ⟨p, q⟩ (Or.inl hrounds)
  rw [outcode_toExact, outcode_toExact]
  change ∃ part, r.toExact.clip 4 (Segment.mk p q).toExact _ _ = some part
  rw [hexact]
  cases hclip : r.clip 4 ⟨p, q⟩ (r.outcode p) (r.outcode q) with
  | none =>
    rw [hclip] at hclips
    -- The end of the segment is one of its points.
    have hmissed := hclips 1 zero_le_one (le_refl 1)
    rw [Segment.point_one] at hmissed
    exact (hmissed hq).elim
  | some part => exact ⟨part.toExact, rfl⟩

end Region

/-! ## 2. Other coordinates -/

/-- Whether two numbers are the same or both finite. -/
def Exact.Alike (x y : Exact) : Prop := x = y ∨ ∃ a b, x = finite a ∧ y = finite b

namespace Exact.Alike

variable {x : Exact} {b : Rat}

theorem refl (x : Exact) : Alike x x := Or.inl rfl

theorem eq_nan (h : Alike x nan) : x = nan := by
  obtain rfl | ⟨_, _, -, hb⟩ := h
  · rfl
  · cases hb

theorem exists_finite (h : Alike x (finite b)) : ∃ a, x = finite a := by
  obtain rfl | ⟨a, -, ha, -⟩ := h
  · exact ⟨b, rfl⟩
  · exact ⟨a, ha⟩

end Exact.Alike

/-- What is beyond no end of a finite interval is in it, or not a number. -/
theorem Side.of_eq_within {lo hi : Rat} {v : Exact}
    (h : Side.of v (finite lo) (finite hi) = .within) :
    v = nan ∨ ∃ a, v = finite a ∧ lo ≤ a ∧ a ≤ hi := by
  cases v with
  | nan => exact Or.inl rfl
  | infinity negative => cases negative <;> cases h
  | finite a =>
    rw [Side.of_finite, Side.of_eq_within_iff] at h
    exact Or.inr ⟨a, rfl, not_lt.1 h.1, not_lt.1 h.2⟩

namespace Region

section

variable {α : Type} [Arithmetic α] {r : Region α} {p q : Point α}

theorem exists_clip_of_inside (hp : r.outcode p = .inside) (hq : r.contains q = true) :
    ∃ part, r.clip 4 ⟨p, q⟩ (r.outcode p) (r.outcode q) = some part := by
  rw [contains, beq_iff_eq] at hq
  exact ⟨_, by rw [hp, hq, clip_inside]⟩

/-- A way to a point inside is seen if its other end is taken inside by the first round. -/
theorem exists_clip_of_crossing (hq : r.contains q = true) (hp : r.outcode p ≠ .inside)
    (h : r.contains (r.crossing ⟨p, q⟩ (r.outcode p)) = true) :
    ∃ part, r.clip 4 ⟨p, q⟩ (r.outcode p) (r.outcode q) = some part := by
  have hshares : ¬ (r.outcode p).sharesSide .inside = true := by
    rw [Outcode.sharesSide_comm]
    exact Bool.false_ne_true
  rw [contains, beq_iff_eq] at hq h
  exact ⟨_, by rw [hq, r.clip_first 3 _ hp hshares, h, clip_inside]⟩

end

variable {p q : Point Exact}

/-- If the extent is infinite or not a number, everything is inside. -/
theorem outcode_of_unbounded {extent : Exact} (h : extent = nan ∨ extent = infinity false)
    (p : Point Exact) : (centered extent).outcode p = .inside := by
  have hside (v : Exact) : Side.of v (-extent) extent = .within := by
    obtain rfl | rfl := h
    · cases v <;> rfl
    · cases v with
      | infinity negative => cases negative <;> rfl
      | _ => rfl
  exact congrArg₂ Outcode.mk (hside p.x) (hside p.y)

/-- In a square that is turned inside out there is only what is not a number. -/
theorem eq_nan_of_contains (hq : (centered (infinity true)).contains q = true) :
    q = ⟨nan, nan⟩ := by
  -- The lower border is above all numbers, and the upper one below.
  have hside (v : Exact) (h : Side.of v (infinity false) (infinity true) = .within) : v = nan := by
    cases v with
    | nan => rfl
    | infinity negative => cases negative <;> cases h
    | finite => cases h
  obtain ⟨hx, hy⟩ := Outcode.mk.inj (beq_iff_eq.1 hq)
  obtain ⟨x, y⟩ := q
  rw [hside x hx, hside y hy]

theorem contains_of_borders {e : Rat} {p : Point Exact} (he : -e ≤ e)
    (hx : p.x = nan ∨ p.x = finite (-e) ∨ p.x = finite e)
    (hy : p.y = nan ∨ p.y = finite (-e) ∨ p.y = finite e) :
    (centered (finite e)).contains p = true := by
  have hside {v : Exact} (h : v = nan ∨ v = finite (-e) ∨ v = finite e) :
      Side.of v (finite (-e)) (finite e) = .within := by
    obtain rfl | rfl | rfl := h
    · rfl
    · exact (Side.of_finite _ _ _).trans (Side.of_eq_within_iff.2 ⟨lt_irrefl _, not_lt.2 he⟩)
    · exact (Side.of_finite _ _ _).trans (Side.of_eq_within_iff.2 ⟨not_lt.2 he, lt_irrefl _⟩)
  exact beq_iff_eq.2 (congrArg₂ Outcode.mk (hside hx) (hside hy))

/-- An end with a coordinate that is not a number is taken inside by the first round, for it is beyond
a border along the other axis only. -/
theorem exists_clip_of_nan {e : Rat} (he : -e ≤ e) (h : p.x = nan ∨ p.y = nan)
    (hq : (centered (finite e)).contains q = true) :
    ∃ part, (centered (finite e)).clip 4 ⟨p, q⟩ ((centered (finite e)).outcode p)
      ((centered (finite e)).outcode q) = some part := by
  by_cases hout : (centered (finite e)).outcode p = .inside
  · exact exists_clip_of_inside hout hq
  · refine exists_clip_of_crossing hq hout ?_
    obtain ⟨x, y⟩ := p
    -- A crossing computed from what is not a number is not a number either, hence within.
    obtain rfl | rfl : x = nan ∨ y = nan := h
    · have hcode : (centered (finite e)).outcode ⟨nan, y⟩ =
          ⟨.within, Side.of y (finite (-e)) (finite e)⟩ := rfl
      rw [hcode] at hout ⊢
      cases hside : Side.of y (finite (-e)) (finite e) with
      | below => exact contains_of_borders he (Or.inl (nan_add _)) (Or.inr (Or.inl rfl))
      | within => exact (hout (congrArg (Outcode.mk .within) hside)).elim
      | above => exact contains_of_borders he (Or.inl (nan_add _)) (Or.inr (Or.inr rfl))
    · have hcode : (centered (finite e)).outcode ⟨x, nan⟩ =
          ⟨Side.of x (finite (-e)) (finite e), .within⟩ := rfl
      rw [hcode] at hout ⊢
      cases hside : Side.of x (finite (-e)) (finite e) with
      | below => exact contains_of_borders he (Or.inr (Or.inl rfl)) (Or.inl (nan_add _))
      | within => exact (hout (congrArg (Outcode.mk · .within) hside)).elim
      | above => exact contains_of_borders he (Or.inr (Or.inr rfl)) (Or.inl (nan_add _))

theorem exists_clip_of_finite (e : Rat) (hx : Alike p.x q.x) (hy : Alike p.y q.y)
    (hq : (centered (finite e)).contains q = true) :
    ∃ part, (centered (finite e)).clip 4 ⟨p, q⟩ ((centered (finite e)).outcode p)
      ((centered (finite e)).outcode q) = some part := by
  obtain ⟨hqx, hqy⟩ := Outcode.mk.inj (beq_iff_eq.1 hq)
  obtain ⟨px, py⟩ := p
  obtain ⟨qx, qy⟩ := q
  -- Each coordinate of an end inside is in the interval or not a number, and so is the other end's.
  obtain rfl | ⟨a, rfl, ha⟩ := Side.of_eq_within hqx
  · obtain rfl := hx.eq_nan
    obtain rfl | ⟨b, rfl, hb⟩ := Side.of_eq_within hqy
    · obtain rfl := hy.eq_nan
      exact exists_clip_of_inside rfl hq
    · exact exists_clip_of_nan (hb.1.trans hb.2) (Or.inl rfl) hq
  · have hle : -e ≤ e := ha.1.trans ha.2
    obtain rfl | ⟨b, rfl, -⟩ := Side.of_eq_within hqy
    · obtain rfl := hy.eq_nan
      exact exists_clip_of_nan hle (Or.inr rfl) hq
    · obtain ⟨u, rfl⟩ := hx.exists_finite
      obtain ⟨v, rfl⟩ := hy.exists_finite
      exact exists_clip_toExact (r := centered e) (p := ⟨u, v⟩) (q := ⟨a, b⟩) ⟨hle, hle⟩ hq

/-- The clipper sees each way into a square, if the ends of the way are alike along each axis. -/
theorem exists_clip_of_contains (extent : Exact) (hx : Alike p.x q.x) (hy : Alike p.y q.y)
    (hq : (centered extent).contains q = true) :
    ∃ part, (centered extent).clip 4 ⟨p, q⟩ ((centered extent).outcode p)
      ((centered extent).outcode q) = some part := by
  cases extent with
  | nan => exact exists_clip_of_inside (outcode_of_unbounded (Or.inl rfl) p) hq
  | infinity negative =>
    cases negative with
    | false => exact exists_clip_of_inside (outcode_of_unbounded (Or.inr rfl) p) hq
    | true =>
      obtain ⟨px, py⟩ := p
      obtain rfl := eq_nan_of_contains hq
      obtain rfl := hx.eq_nan
      obtain rfl := hy.eq_nan
      exact exists_clip_of_inside rfl hq
  | finite e => exact exists_clip_of_finite e hx hy hq

end Region

end TourMap
