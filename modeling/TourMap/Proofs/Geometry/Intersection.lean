import TourMap.Proofs.Geometry.Clipping

/-!
# Intersection: a step of the clipper and the sets of points

What a step says of a segment, and what it keeps of it, is told by the common points of the segment
and the rectangle (`LineClipper.StandsAt.next_gives_intersection`). A clipping divides at most four
times, never by zero, and after these rounds nothing is left open (`Region.guardedClip_eq`).
-/

namespace TourMap

/-! ## 1. What a clipping could fail at -/

inductive Mishap where
  | divisionByZero
  /-- An end is still outside after the last round, and both ends share no side. -/
  | roundsRunOut

/-- What is divided by where an end with the given outcode is taken to a border. -/
def Segment.divisor (s : Segment Rat) (out : Outcode) : Rat :=
  match out.y with
  | .within => s.second.x - s.first.x
  | _ => s.second.y - s.first.y

namespace Region

variable {r : Region Rat} {s : Segment Rat} {out : Outcode}

def guardedCrossing (r : Region Rat) (s : Segment Rat) (out : Outcode) :
    Except Mishap (Point Rat) :=
  if s.divisor out = 0 then .error .divisionByZero else .ok (r.crossing s out)

/-- Clipping that fails instead of dividing by zero or of giving up after the last round. -/
def guardedClip (r : Region Rat) : (rounds : Nat) → Segment Rat → (a b : Outcode) →
    Except Mishap (Option (Segment Rat))
  | rounds, s, a, b =>
    if a = .inside ∧ b = .inside then .ok (some s)
    else if a.sharesSide b then .ok none
    else match rounds with
      | 0 => .error .roundsRunOut
      | n + 1 =>
        if a ≠ .inside then do
          let p ← r.guardedCrossing s a
          r.guardedClip n ⟨p, s.second⟩ (r.outcode p) b
        else do
          let p ← r.guardedCrossing s b
          r.guardedClip n ⟨s.first, p⟩ a (r.outcode p)

theorem divisor_ne_zero (h : r.excess out.border s.first ≠ r.excess out.border s.second) :
    s.divisor out ≠ 0 := by
  obtain ⟨x, y⟩ := out
  intro hzero
  -- Along the border the excess does not change, so both ends would be on one side of it.
  apply h
  cases y with
  | within =>
    have hx : s.second.x = s.first.x := sub_eq_zero.1 hzero
    cases x <;> simp only [Outcode.border, excess, hx]
  | below | above =>
    have hy : s.second.y = s.first.y := sub_eq_zero.1 hzero
    simp only [Outcode.border, excess, hy]

theorem guardedClip_inside (n : Nat) : r.guardedClip n s .inside .inside = .ok (some s) := by
  unfold guardedClip
  rw [if_pos ⟨rfl, rfl⟩]

theorem guardedClip_sharesSide {n : Nat} {a b : Outcode} (h : a.sharesSide b = true) :
    r.guardedClip n s a b = .ok none := by
  have hout : ¬ (a = .inside ∧ b = .inside) := by
    rintro ⟨rfl, rfl⟩
    cases h
  unfold guardedClip
  rw [if_neg hout, if_pos h]

theorem guardedClip_first {n : Nat} {a b : Outcode} {p : Point Rat} (ha : a ≠ .inside)
    (h : ¬ a.sharesSide b = true) (hp : r.guardedCrossing s a = .ok p) :
    r.guardedClip (n + 1) s a b = r.guardedClip n ⟨p, s.second⟩ (r.outcode p) b := by
  rw [guardedClip, if_neg fun hboth => ha hboth.1, if_neg h, if_pos ha, hp]
  rfl

theorem guardedClip_second {n : Nat} {b : Outcode} {p : Point Rat} (hb : b ≠ .inside)
    (hp : r.guardedCrossing s b = .ok p) :
    r.guardedClip (n + 1) s .inside b = r.guardedClip n ⟨s.first, p⟩ .inside (r.outcode p) := by
  have h : ¬ Outcode.inside.sharesSide b = true := Bool.false_ne_true
  rw [guardedClip, if_neg fun hboth => hb hboth.2, if_neg h, if_neg (not_not_intro rfl), hp]
  rfl

theorem guardedCrossing_eq (hr : r.Proper) {a b : Point Rat}
    (hends : s.first = a ∧ s.second = b ∨ s.first = b ∧ s.second = a)
    (ha : r.outcode a ≠ .inside) (hshares : ¬ (r.outcode a).sharesSide (r.outcode b) = true) :
    r.guardedCrossing s (r.outcode a) = .ok (r.crossing s (r.outcode a)) := by
  have hbeyond := Outcode.beyond_border ha
  -- The border that the end is taken to has the other end on its other side.
  have hother : ¬ (r.outcode b).Beyond (r.outcode a).border := fun h =>
    hshares (Outcode.sharesSide_iff.2 ⟨_, hbeyond, h⟩)
  rw [beyond_outcode_iff hr] at hbeyond hother
  refine if_neg (divisor_ne_zero (r := r) fun heq => hother ?_)
  rcases hends with ⟨rfl, rfl⟩ | ⟨rfl, rfl⟩
  · rwa [← heq]
  · rwa [heq]

/-- No end is taken to a border by a division by zero, and with as many rounds as there are borders
to be taken to it is known what is left. -/
theorem guardedClip_eq (hr : r.Proper) (n : Nat) (s : Segment Rat)
    (h : (r.outcode s.first).outs + (r.outcode s.second).outs ≤ n ∨
      (r.outcode s.first).sharesSide (r.outcode s.second) = true) :
    r.guardedClip n s (r.outcode s.first) (r.outcode s.second) =
      .ok (r.clip n s (r.outcode s.first) (r.outcode s.second)) := by
  refine rounds_induction hr
    (P := fun n s => r.guardedClip n s (r.outcode s.first) (r.outcode s.second) =
      .ok (r.clip n s (r.outcode s.first) (r.outcode s.second)))
    ?apart ?inside ?first ?second n s h
  case apart =>
    intro n s hshares
    rw [clip_sharesSide r n s hshares, guardedClip_sharesSide hshares]
  case inside =>
    intro n s hfirst hsecond
    rw [hfirst, hsecond, clip_inside, guardedClip_inside]
  case first =>
    intro n s m hfirst hshares _ _ hcrossing _ hrest
    have hguarded := guardedCrossing_eq hr (Or.inl ⟨rfl, rfl⟩) hfirst hshares
    rw [clip_first r n s hfirst hshares, guardedClip_first hfirst hshares hguarded, hcrossing]
    exact hrest
  case second =>
    intro n s m hfirst hsecond _ _ hcrossing _ hrest
    have hshares : ¬ (r.outcode s.second).sharesSide (r.outcode s.first) = true := by
      rw [hfirst, Outcode.sharesSide_comm]
      exact Bool.false_ne_true
    have hguarded := guardedCrossing_eq hr (Or.inr ⟨rfl, rfl⟩) hsecond hshares
    rw [hfirst, clip_second r n s hsecond, guardedClip_second hsecond hguarded, hcrossing, ← hfirst]
    exact hrest

end Region

/-! ## 2. The nearest point -/

def Point.squaredDistance (p q : Point Rat) : Rat := (q.x - p.x) ^ 2 + (q.y - p.y) ^ 2

theorem Segment.squaredDistance_point (s : Segment Rat) (t : Rat) :
    s.first.squaredDistance (s.point t) = t ^ 2 * s.first.squaredDistance s.second := by
  simp only [Point.squaredDistance, Segment.point]
  ring

theorem Segment.point_eq_first {s : Segment Rat} (h : s.first.squaredDistance s.second ≤ 0)
    (t : Rat) : s.point t = s.first := by
  have hx : s.second.x - s.first.x = 0 := by
    unfold Point.squaredDistance at h
    nlinarith [sq_nonneg (s.second.x - s.first.x), sq_nonneg (s.second.y - s.first.y)]
  have hy : s.second.y - s.first.y = 0 := by
    unfold Point.squaredDistance at h
    nlinarith [sq_nonneg (s.second.x - s.first.x), sq_nonneg (s.second.y - s.first.y)]
  simp only [Segment.point, hx, hy, mul_zero, add_zero]

theorem Region.Clips.points_eq {r : Region Rat} {s part : Segment Rat}
    (h : r.Clips s (some part)) : part.points = s.points ∩ r.points := by
  obtain ⟨a, b, rfl, h⟩ := h
  exact h.points_eq

/-- What is kept of a segment begins at the common point nearest to the first end. -/
theorem Region.Clips.nearest {r : Region Rat} {s part : Segment Rat} (h : r.Clips s (some part))
    {p : Point Rat} (hp : p ∈ s.points ∩ r.points) (hne : p ≠ part.first) :
    s.first.squaredDistance part.first < s.first.squaredDistance p := by
  obtain ⟨a, b, rfl, h⟩ := h
  obtain ⟨⟨t, h0, h1, rfl⟩, hmem⟩ := hp
  have hlt : a < t := by
    refine lt_of_le_of_ne (h.only t h0 h1 hmem).1 ?_
    rintro rfl
    exact hne rfl
  have hpos : 0 < s.first.squaredDistance s.second := by
    -- A segment of no length has no other point than the one kept.
    by_contra hzero
    have hsame := Segment.point_eq_first (not_lt.1 hzero)
    exact hne ((hsame t).trans (hsame a).symm)
  rw [s.squaredDistance_point, s.squaredDistance_point]
  exact mul_lt_mul_of_pos_right (pow_lt_pow_left₀ hlt h.zero_le two_ne_zero) hpos

/-! ## 3. A step of a polyline -/

namespace LineClipper

variable {c : LineClipper Rat} {r : Region Rat} {p : Point Rat}

/-- A step from `p` to `q` says whether both lie in the rectangle, else whether the segment between
them has any point in common with it; then it keeps all common points, as the segment that begins at
the one nearest to `p`. Nothing is divided by zero on the way, and four rounds are enough. -/
theorem StandsAt.next_gives_intersection (hr : r.Proper) (h : c.StandsAt r p) (q : Point Rat) :
    ((c.next q).1 = .inside ↔ p ∈ r.points ∧ q ∈ r.points) ∧
      ((c.next q).1 = .intersection ↔ ¬ (p ∈ r.points ∧ q ∈ r.points) ∧
        ((Segment.mk p q).points ∩ r.points).Nonempty) ∧
      ((c.next q).1 = .outside ↔ (Segment.mk p q).points ∩ r.points = ∅) ∧
      ((c.next q).1 = .intersection →
        (c.next q).2.line.points = (Segment.mk p q).points ∩ r.points ∧
          ∀ z ∈ (Segment.mk p q).points ∩ r.points, z ≠ (c.next q).2.line.first →
            p.squaredDistance (c.next q).2.line.first < p.squaredDistance z) ∧
      r.guardedClip 4 ⟨p, q⟩ (r.outcode p) (r.outcode q) =
        .ok (r.clip 4 ⟨p, q⟩ (r.outcode p) (r.outcode q)) ∧
      (c.next q).2.StandsAt r q := by
  have hstep := h.next_spec hr q
  have hguarded := Region.guardedClip_eq hr 4 ⟨p, q⟩
    (Or.inl (Outcode.outs_add_outs_le_four (r.outcode p) (r.outcode q)))
  have hfirst : p ∈ (Segment.mk p q).points := Segment.first_mem_points _
  cases hresult : (c.next q).1 with
  | inside =>
    rw [hresult] at hstep
    -- Inside is told apart from outside by a common point, the end that the step starts from.
    have hcommon : p ∈ (Segment.mk p q).points ∩ r.points := ⟨hfirst, hstep.1⟩
    refine ⟨iff_of_true rfl hstep, iff_of_false nofun fun h => h.1 hstep,
      iff_of_false nofun fun hempty => ?_, nofun, hguarded, h.next q⟩
    rw [hempty] at hcommon
    exact hcommon
  | outside =>
    rw [hresult] at hstep
    have hempty := hstep.inter_eq_empty
    refine ⟨iff_of_false nofun fun hboth => ?_, iff_of_false nofun fun h => ?_,
      iff_of_true rfl hempty, nofun, hguarded, h.next q⟩
    · exact Set.notMem_empty p (hempty ▸ ⟨hfirst, hboth.1⟩)
    · exact Set.not_nonempty_empty (hempty ▸ h.2)
  | intersection =>
    rw [hresult] at hstep
    obtain ⟨hnotBoth, hclips⟩ := hstep
    have hpoints := hclips.points_eq
    have hcommon : ((Segment.mk p q).points ∩ r.points).Nonempty :=
      hpoints ▸ ⟨_, Segment.first_mem_points _⟩
    exact ⟨iff_of_false nofun hnotBoth, iff_of_true rfl ⟨hnotBoth, hcommon⟩,
      iff_of_false nofun hcommon.ne_empty, fun _ => ⟨hpoints, fun z hz => hclips.nearest hz⟩,
      hguarded, h.next q⟩

/-- A square of two hundred pixels. -/
def square : Region Rat := .centered 100

/-- A clipper of the square that has come to a point above it. -/
def fromAbove : LineClipper Rat := (LineClipper.new square).start ⟨0, 200⟩

/-- Of a segment that touches a corner of the square, the corner is kept. -/
theorem next_gives_intersection_at_corner :
    square.Proper ∧ fromAbove.StandsAt square ⟨0, 200⟩ ∧
      (fromAbove.next ⟨200, 0⟩).1 = .intersection ∧
      (fromAbove.next ⟨200, 0⟩).2.line = ⟨⟨100, 100⟩, ⟨100, 100⟩⟩ ∧
      (fromAbove.next ⟨200, 0⟩).2.line.points =
        (Segment.mk ⟨0, 200⟩ ⟨200, 0⟩).points ∩ square.points := by
  have hsquare : square.Proper := ⟨by decide, by decide⟩
  have hstands : fromAbove.StandsAt square ⟨0, 200⟩ := ⟨rfl, rfl, rfl⟩
  have hresult : (fromAbove.next ⟨200, 0⟩).1 = .intersection := by decide +kernel
  obtain ⟨-, -, -, hline, -, -⟩ := StandsAt.next_gives_intersection hsquare hstands ⟨200, 0⟩
  exact ⟨hsquare, hstands, hresult, by decide +kernel, (hline hresult).1⟩

end LineClipper

end TourMap
