import TourMap.Proofs.Geometry.Clipper
import TourMap.Proofs.Geometry.Segment

/-!
# Clipping: the clipper keeps what is inside

Each round of the clipper takes an end that lies beyond a border to that border, and loses no point
of the rectangle (`Region.Clips.of_part`). Both ends together lie beyond four borders at most, so
four rounds are enough, unless the ends come to lie beyond one and the same border, and nothing is
left. What the clipper keeps of a segment is therefore all of it inside the rectangle.
-/

namespace TourMap

/-! ## 1. Parts of a segment -/

theorem ratio_mono {a b u v : Rat} (hab : a ≤ b) (huv : u ≤ v) :
    a + u * (b - a) ≤ a + v * (b - a) := by
  have := mul_le_mul_of_nonneg_right huv (sub_nonneg.2 hab)
  linarith

theorem ratio_mem {a b u : Rat} (hab : a ≤ b) (h0 : 0 ≤ u) (h1 : u ≤ 1) :
    a ≤ a + u * (b - a) ∧ a + u * (b - a) ≤ b := by
  have hlow := ratio_mono hab h0
  have hhigh := ratio_mono hab h1
  constructor <;> linarith

theorem exists_ratio {a b t : Rat} (ha : a ≤ t) (hb : t ≤ b) :
    ∃ u, 0 ≤ u ∧ u ≤ 1 ∧ a + u * (b - a) = t := by
  by_cases hab : a = b
  · exact ⟨0, le_refl 0, zero_le_one, by rw [hab] at ha ⊢; linarith⟩
  · have hpos : 0 < b - a := by
      have := lt_of_le_of_ne (ha.trans hb) hab
      linarith
    refine ⟨(t - a) / (b - a), div_nonneg (by linarith) hpos.le, ?_, ?_⟩
    · rw [div_le_one hpos]
      linarith
    · rw [div_mul_cancel₀ _ hpos.ne']
      ring

namespace Region

variable {r : Region Rat} {s : Segment Rat}

/-- Whether no point of a segment lies in a rectangle. -/
def Misses (r : Region Rat) (s : Segment Rat) : Prop :=
  ∀ t, 0 ≤ t → t ≤ 1 → s.point t ∉ r.points

/-- Whether the points of a segment in a rectangle all lie from `a` to `b`. -/
def OnlyWithin (r : Region Rat) (s : Segment Rat) (a b : Rat) : Prop :=
  ∀ t, 0 ≤ t → t ≤ 1 → s.point t ∈ r.points → a ≤ t ∧ t ≤ b

/-- Whether the points of a segment in a rectangle are those from `a` to `b`. -/
structure ClipsTo (r : Region Rat) (s : Segment Rat) (a b : Rat) : Prop where
  zero_le : 0 ≤ a
  le : a ≤ b
  le_one : b ≤ 1
  first_mem : s.point a ∈ r.points
  second_mem : s.point b ∈ r.points
  only : r.OnlyWithin s a b

/-- Whether `part` is what a rectangle holds of a segment, if it holds anything. -/
def Clips (r : Region Rat) (s : Segment Rat) : (part : Option (Segment Rat)) → Prop
  | none => r.Misses s
  | some part => ∃ a b, part = ⟨s.point a, s.point b⟩ ∧ r.ClipsTo s a b

/-- Between two points of a rectangle there are only points of it. -/
theorem point_mem {a b t : Rat} (ha : s.point a ∈ r.points) (hb : s.point b ∈ r.points)
    (hat : a ≤ t) (htb : t ≤ b) : s.point t ∈ r.points := by
  rw [mem_points_iff] at *
  intro border
  have hea := ha border
  have heb := hb border
  rw [excess_point] at hea heb ⊢
  -- The excess is greatest at one of the two points.
  rcases le_total (r.excess border s.first) (r.excess border s.second) with h | h
  · have := mul_le_mul_of_nonneg_right htb (sub_nonneg.2 h)
    linarith
  · have := mul_le_mul_of_nonneg_right hat (sub_nonneg.2 h)
    linarith

/-- An end inside is an end of what is kept. -/
theorem Clips.first_eq {part : Segment Rat} (h : r.Clips s (some part))
    (hfirst : s.first ∈ r.points) : part.first = s.first := by
  obtain ⟨a, b, rfl, h⟩ := h
  rw [← s.point_zero] at hfirst ⊢
  exact congrArg s.point (le_antisymm (h.only 0 (le_refl 0) zero_le_one hfirst).1 h.zero_le)

theorem Clips.second_eq {part : Segment Rat} (h : r.Clips s (some part))
    (hsecond : s.second ∈ r.points) : part.second = s.second := by
  obtain ⟨a, b, rfl, h⟩ := h
  rw [← s.point_one] at hsecond ⊢
  exact congrArg s.point (le_antisymm h.le_one (h.only 1 zero_le_one (le_refl 1) hsecond).2)

/-- If all points of a segment in a rectangle lie on one part of it, clipping the part is enough. -/
theorem Clips.of_part {a b : Rat} {part : Option (Segment Rat)} (ha : 0 ≤ a) (hab : a ≤ b)
    (hb : b ≤ 1) (hall : r.OnlyWithin s a b) (h : r.Clips ⟨s.point a, s.point b⟩ part) :
    r.Clips s part := by
  cases part with
  | none =>
    intro t h0 h1 hmem
    obtain ⟨hat, htb⟩ := hall t h0 h1 hmem
    obtain ⟨w, hw0, hw1, rfl⟩ := exists_ratio hat htb
    rw [← s.point_point] at hmem
    exact h w hw0 hw1 hmem
  | some part =>
    obtain ⟨u, v, rfl, h⟩ := h
    have hu := ratio_mem hab h.zero_le (h.le.trans h.le_one)
    have hv := ratio_mem hab (h.zero_le.trans h.le) h.le_one
    refine ⟨a + u * (b - a), a + v * (b - a), by rw [s.point_point, s.point_point],
      ha.trans hu.1, ratio_mono hab h.le, hv.2.trans hb, ?_, ?_, ?_⟩
    · rw [← s.point_point]
      exact h.first_mem
    · rw [← s.point_point]
      exact h.second_mem
    · intro t h0 h1 hmem
      obtain ⟨hat, htb⟩ := hall t h0 h1 hmem
      obtain ⟨w, hw0, hw1, rfl⟩ := exists_ratio hat htb
      rw [← s.point_point] at hmem
      obtain ⟨huw, hwv⟩ := h.only w hw0 hw1 hmem
      exact ⟨ratio_mono hab huw, ratio_mono hab hwv⟩

/-! ## 2. One round -/

theorem misses_of_sharesSide (hr : r.Proper)
    (h : (r.outcode s.first).sharesSide (r.outcode s.second) = true) : r.Misses s := by
  obtain ⟨border, hfirst, hsecond⟩ := Outcode.sharesSide_iff.1 h
  rw [beyond_outcode_iff hr] at hfirst hsecond
  intro t h0 h1 hmem
  have hle := mem_points_iff.1 hmem border
  rw [excess_point] at hle
  have hleft := mul_nonneg (sub_nonneg.2 h1) hfirst.le
  have hright := mul_nonneg h0 hsecond.le
  rcases h0.eq_or_lt with rfl | hpos
  · linarith
  · have := mul_pos hpos hsecond
    linarith

/-- A segment whose ends lie on different sides of a border crosses it once. -/
theorem crossing_spec {out : Outcode}
    (h : (0 < r.excess out.border s.first ∧ r.excess out.border s.second ≤ 0) ∨
      (r.excess out.border s.first ≤ 0 ∧ 0 < r.excess out.border s.second)) :
    ∃ m, 0 ≤ m ∧ m ≤ 1 ∧ r.crossing s out = s.point m ∧
      ∀ t, r.excess out.border (s.point t) =
        (t - m) * (r.excess out.border s.second - r.excess out.border s.first) := by
  generalize hx : r.excess out.border s.first = x at h
  generalize hy : r.excess out.border s.second = y at h
  have hne : x - y ≠ 0 := by
    rcases h with ⟨h1, h2⟩ | ⟨h1, h2⟩ <;> intro heq <;> linarith
  refine ⟨x / (x - y), ?_, ?_, ?_, ?_⟩
  · rcases h with ⟨h1, h2⟩ | ⟨h1, h2⟩
    · exact div_nonneg h1.le (by linarith)
    · exact div_nonneg_of_nonpos h1 (by linarith)
  · rcases h with ⟨h1, h2⟩ | ⟨h1, h2⟩
    · rw [div_le_one (by linarith)]
      linarith
    · rw [div_le_one_of_neg (by linarith)]
      linarith
  · rw [crossing_eq (by rw [hx, hy]; exact sub_ne_zero.1 hne), hx, hy]
  · intro t
    rw [excess_point, hx, hy]
    have hm : x / (x - y) * (x - y) = x := div_mul_cancel₀ _ hne
    linarith

/-- A point of a segment beyond a border has an end of the segment beyond it. -/
theorem beyond_of_point (hr : r.Proper) {m : Rat} (h0 : 0 ≤ m) (h1 : m ≤ 1) {b : Border}
    (h : (r.outcode (s.point m)).Beyond b) :
    (r.outcode s.first).Beyond b ∨ (r.outcode s.second).Beyond b := by
  rw [beyond_outcode_iff hr] at h
  rw [beyond_outcode_iff hr, beyond_outcode_iff hr]
  rw [excess_point] at h
  by_contra hneither
  rw [not_or, not_lt, not_lt] at hneither
  have := mul_nonpos_of_nonneg_of_nonpos (sub_nonneg.2 h1) hneither.1
  have := mul_nonpos_of_nonneg_of_nonpos h0 hneither.2
  linarith

/-- The first end is taken to a border that the second one does not lie beyond. -/
theorem crossing_first (hr : r.Proper) (hout : r.outcode s.first ≠ .inside)
    (hshares : ¬ (r.outcode s.first).sharesSide (r.outcode s.second) = true) :
    ∃ m, 0 ≤ m ∧ m ≤ 1 ∧ r.crossing s (r.outcode s.first) = s.point m ∧
      r.excess (r.outcode s.first).border (s.point m) = 0 ∧
      r.OnlyWithin s m 1 := by
  have hbeyond := Outcode.beyond_border hout
  have hother : ¬ (r.outcode s.second).Beyond (r.outcode s.first).border := fun h =>
    hshares (Outcode.sharesSide_iff.2 ⟨_, hbeyond, h⟩)
  rw [beyond_outcode_iff hr] at hbeyond hother
  rw [not_lt] at hother
  obtain ⟨m, h0, h1, hcrossing, hexcess⟩ := crossing_spec (s := s) (Or.inl ⟨hbeyond, hother⟩)
  refine ⟨m, h0, h1, hcrossing, by rw [hexcess, sub_self, zero_mul], fun t _ ht hmem => ⟨?_, ht⟩⟩
  have hle := mem_points_iff.1 hmem (r.outcode s.first).border
  rw [hexcess] at hle
  have hneg : r.excess (r.outcode s.first).border s.second -
      r.excess (r.outcode s.first).border s.first < 0 := by
    linarith
  exact sub_nonneg.1 (nonneg_of_mul_nonpos_left hle hneg)

/-- The second end is taken to a border if the first one is inside. -/
theorem crossing_second (hr : r.Proper) (hfirst : r.outcode s.first = .inside)
    (hout : r.outcode s.second ≠ .inside) :
    ∃ m, 0 ≤ m ∧ m ≤ 1 ∧ r.crossing s (r.outcode s.second) = s.point m ∧
      r.excess (r.outcode s.second).border (s.point m) = 0 ∧
      r.OnlyWithin s 0 m := by
  have hbeyond := Outcode.beyond_border hout
  have hother := Outcode.eq_inside_iff.1 hfirst (r.outcode s.second).border
  rw [beyond_outcode_iff hr] at hbeyond hother
  rw [not_lt] at hother
  obtain ⟨m, h0, h1, hcrossing, hexcess⟩ := crossing_spec (s := s) (Or.inr ⟨hother, hbeyond⟩)
  refine ⟨m, h0, h1, hcrossing, by rw [hexcess, sub_self, zero_mul], fun t ht _ hmem => ⟨ht, ?_⟩⟩
  have hle := mem_points_iff.1 hmem (r.outcode s.second).border
  rw [hexcess] at hle
  have hpos : 0 < r.excess (r.outcode s.second).border s.second -
      r.excess (r.outcode s.second).border s.first := by
    linarith
  exact sub_nonpos.1 (nonpos_of_mul_nonpos_left hle hpos)

/-! ## 3. All rounds -/

/-- An end that was taken to its border at the point `m` lies beyond fewer borders than before, or
beyond one together with the other end. -/
theorem outs_lt_or_sharesSide (hr : r.Proper) {a c : Point Rat} {s : Segment Rat} {m : Rat}
    (hs : (s.first = a ∧ s.second = c) ∨ (s.first = c ∧ s.second = a)) (h0 : 0 ≤ m) (h1 : m ≤ 1)
    (ha : r.outcode a ≠ .inside) (hm : r.excess (r.outcode a).border (s.point m) = 0) :
    (r.outcode (s.point m)).outs < (r.outcode a).outs ∨
      (r.outcode (s.point m)).sharesSide (r.outcode c) = true := by
  by_cases hshares : (r.outcode (s.point m)).sharesSide (r.outcode c) = true
  · exact Or.inr hshares
  · refine Or.inl (Outcode.outs_lt (fun b hb => ?_) ha ?_)
    · have hother : ¬ (r.outcode c).Beyond b := fun hc =>
        hshares (Outcode.sharesSide_iff.2 ⟨b, hb, hc⟩)
      rcases hs with ⟨rfl, rfl⟩ | ⟨rfl, rfl⟩
      · exact (beyond_of_point hr h0 h1 hb).resolve_right hother
      · exact (beyond_of_point hr h0 h1 hb).resolve_left hother
    · rw [beyond_outcode_iff hr, hm]
      exact lt_irrefl 0

theorem clips_self (hfirst : s.first ∈ r.points) (hsecond : s.second ∈ r.points) :
    r.Clips s (some s) := by
  refine ⟨0, 1, by rw [s.point_zero, s.point_one], le_refl 0, zero_le_one, le_refl 1, ?_, ?_,
    fun t h0 h1 _ => ⟨h0, h1⟩⟩
  · rwa [s.point_zero]
  · rwa [s.point_one]

/-- What holds where it is known what is left of a segment, and before a round if it holds after it,
holds as long as there are as many rounds as borders to be taken to. -/
theorem rounds_induction (hr : r.Proper) {P : Nat → Segment Rat → Prop}
    (apart : ∀ n s, (r.outcode s.first).sharesSide (r.outcode s.second) = true → P n s)
    (inside : ∀ n s, r.outcode s.first = .inside → r.outcode s.second = .inside → P n s)
    (first : ∀ n s m, r.outcode s.first ≠ .inside →
      ¬ (r.outcode s.first).sharesSide (r.outcode s.second) = true → 0 ≤ m → m ≤ 1 →
      r.crossing s (r.outcode s.first) = s.point m → r.OnlyWithin s m 1 →
      P n ⟨s.point m, s.second⟩ → P (n + 1) s)
    (second : ∀ n s m, r.outcode s.first = .inside → r.outcode s.second ≠ .inside → 0 ≤ m → m ≤ 1 →
      r.crossing s (r.outcode s.second) = s.point m → r.OnlyWithin s 0 m →
      P n ⟨s.first, s.point m⟩ → P (n + 1) s)
    (n : Nat) (s : Segment Rat)
    (h : (r.outcode s.first).outs + (r.outcode s.second).outs ≤ n ∨
      (r.outcode s.first).sharesSide (r.outcode s.second) = true) : P n s := by
  -- Induction on the rounds. Each leaves a part of the segment that holds all its points inside, with
  -- ends that lie beyond fewer borders or share a side.
  induction n generalizing s with
  | zero =>
    by_cases hshares : (r.outcode s.first).sharesSide (r.outcode s.second) = true
    · exact apart 0 s hshares
    · have hle := h.resolve_right hshares
      exact inside 0 s (Outcode.outs_eq_zero_iff.1 (by omega)) (Outcode.outs_eq_zero_iff.1 (by omega))
  | succ n ih =>
    by_cases hshares : (r.outcode s.first).sharesSide (r.outcode s.second) = true
    · exact apart (n + 1) s hshares
    · have hle := h.resolve_right hshares
      by_cases hfirst : r.outcode s.first = .inside
      · by_cases hsecond : r.outcode s.second = .inside
        · exact inside (n + 1) s hfirst hsecond
        · obtain ⟨m, h0, h1, hcrossing, hzero, hall⟩ := crossing_second hr hfirst hsecond
          have hfewer := outs_lt_or_sharesSide hr (Or.inr ⟨rfl, rfl⟩) h0 h1 hsecond hzero
          refine second n s m hfirst hsecond h0 h1 hcrossing hall (ih _ ?_)
          rw [Outcode.sharesSide_comm]
          exact hfewer.imp_left fun hlt => by dsimp only; omega
      · obtain ⟨m, h0, h1, hcrossing, hzero, hall⟩ := crossing_first hr hfirst hshares
        have hfewer := outs_lt_or_sharesSide hr (Or.inl ⟨rfl, rfl⟩) h0 h1 hfirst hzero
        refine first n s m hfirst hshares h0 h1 hcrossing hall (ih _ ?_)
        exact hfewer.imp_left fun hlt => by dsimp only; omega

/-- With as many rounds as there are borders to be taken to, the clipper keeps what is inside. -/
theorem clips_clip (hr : r.Proper) (n : Nat) (s : Segment Rat)
    (h : (r.outcode s.first).outs + (r.outcode s.second).outs ≤ n ∨
      (r.outcode s.first).sharesSide (r.outcode s.second) = true) :
    r.Clips s (r.clip n s (r.outcode s.first) (r.outcode s.second)) := by
  refine rounds_induction hr
    (P := fun n s => r.Clips s (r.clip n s (r.outcode s.first) (r.outcode s.second)))
    ?apart ?inside ?first ?second n s h
  case apart =>
    intro n s hshares
    rw [clip_sharesSide r n s hshares]
    exact misses_of_sharesSide hr hshares
  case inside =>
    intro n s hfirst hsecond
    rw [hfirst, hsecond, clip_inside]
    rw [outcode_eq_inside_iff hr] at hfirst hsecond
    exact clips_self hfirst hsecond
  case first =>
    intro n s m hfirst hshares h0 h1 hcrossing hall hrest
    refine Clips.of_part h0 h1 (le_refl 1) hall ?_
    rw [s.point_one, clip_first r n s hfirst hshares, hcrossing]
    exact hrest
  case second =>
    intro n s m hfirst hsecond h0 h1 hcrossing hall hrest
    refine Clips.of_part (le_refl 0) h0 h1 hall ?_
    rw [s.point_zero, hfirst, clip_second r n s hsecond, hcrossing, ← hfirst]
    exact hrest

end Region

/-! ## 4. A step of a polyline -/

namespace LineClipper

variable {c : LineClipper Rat} {r : Region Rat} {p : Point Rat}

theorem StandsAt.isInside_iff (hr : r.Proper) (h : c.StandsAt r p) :
    c.isInside = true ↔ p ∈ r.points := by
  rw [isInside, h.code, beq_iff_eq, Region.outcode_eq_inside_iff hr]

/-- A step says where the segment lies, and keeps what the rectangle holds of it. -/
theorem StandsAt.next_spec (hr : r.Proper) (h : c.StandsAt r p) (q : Point Rat) :
    match (c.next q).1 with
    | .inside => p ∈ r.points ∧ q ∈ r.points
    | .outside => r.Misses ⟨p, q⟩
    | .intersection => ¬ (p ∈ r.points ∧ q ∈ r.points) ∧
        r.Clips ⟨p, q⟩ (some (c.next q).2.line) := by
  have hclips := Region.clips_clip hr 4 ⟨p, q⟩
    (Or.inl (Outcode.outs_add_outs_le_four (r.outcode p) (r.outcode q)))
  have hinside : r.outcode p = .inside ∧ r.outcode q = .inside ↔ p ∈ r.points ∧ q ∈ r.points := by
    rw [Region.outcode_eq_inside_iff hr, Region.outcode_eq_inside_iff hr]
  unfold LineClipper.next clipTo
  dsimp only at hclips ⊢
  rw [h.region, h.last, h.code]
  by_cases hboth : r.outcode p = .inside ∧ r.outcode q = .inside
  · rw [if_pos hboth]
    exact hinside.1 hboth
  · rw [if_neg hboth]
    by_cases hshares : (r.outcode p).sharesSide (r.outcode q) = true
    · rw [if_pos hshares]
      exact Region.misses_of_sharesSide hr hshares
    · rw [if_neg hshares]
      cases hclip : r.clip 4 ⟨p, q⟩ (r.outcode p) (r.outcode q) with
      | none =>
        rw [hclip] at hclips
        exact hclips
      | some line =>
        rw [hclip] at hclips
        exact ⟨fun h => hboth (hinside.2 h), hclips⟩

end LineClipper

/-! ## 5. What is seen -/

/-- A segment, unless it is a single point. -/
def Segment.unlessPoint (s : Segment Rat) : Option (Segment Rat) :=
  if s.first = s.second then none else some s

namespace Region

variable {r : Region Rat} {s : Segment Rat}

/-- Whether `part` is what is seen of a segment in a rectangle: the segment of all common points, in
the same direction. A single common point is not seen. -/
def Shows (r : Region Rat) (s : Segment Rat) : (part : Option (Segment Rat)) → Prop
  | none => (s.points ∩ r.points).Subsingleton
  | some part => part.first ≠ part.second ∧ part.points = s.points ∩ r.points ∧
      ∃ a b, a < b ∧ part = ⟨s.point a, s.point b⟩

theorem ClipsTo.points_eq {a b : Rat} (h : r.ClipsTo s a b) :
    Segment.points ⟨s.point a, s.point b⟩ = s.points ∩ r.points := by
  ext p
  constructor
  · rintro ⟨t, h0, h1, rfl⟩
    obtain ⟨hlow, hhigh⟩ := ratio_mem h.le h0 h1
    rw [s.point_point]
    refine ⟨⟨a + t * (b - a), h.zero_le.trans hlow, hhigh.trans h.le_one, rfl⟩, ?_⟩
    exact point_mem h.first_mem h.second_mem hlow hhigh
  · rintro ⟨⟨t, h0, h1, rfl⟩, hmem⟩
    obtain ⟨hat, htb⟩ := h.only t h0 h1 hmem
    obtain ⟨u, hu0, hu1, rfl⟩ := exists_ratio hat htb
    exact ⟨u, hu0, hu1, s.point_point a b u⟩

theorem Misses.inter_eq_empty (h : r.Misses s) : s.points ∩ r.points = ∅ := by
  rw [Set.eq_empty_iff_forall_notMem]
  rintro p ⟨⟨t, h0, h1, rfl⟩, hmem⟩
  exact h t h0 h1 hmem

theorem Misses.shows (h : r.Misses s) : r.Shows s none := by
  change (s.points ∩ r.points).Subsingleton
  rw [h.inter_eq_empty]
  exact Set.subsingleton_empty

theorem Clips.shows {part : Segment Rat} (h : r.Clips s (some part)) :
    r.Shows s part.unlessPoint := by
  obtain ⟨a, b, rfl, h⟩ := h
  have hpoints := h.points_eq
  unfold Segment.unlessPoint
  split
  · rename_i heq
    dsimp only at heq
    show (s.points ∩ r.points).Subsingleton
    rw [← hpoints, heq]
    rintro p ⟨t, -, -, rfl⟩ q ⟨u, -, -, rfl⟩
    simp [Segment.point]
  · rename_i hne
    refine ⟨hne, hpoints, a, b, lt_of_le_of_ne h.le fun hab => hne ?_, rfl⟩
    rw [hab]

theorem bounds_of_points_subset (hs : s.first ≠ s.second) {a b u v : Rat} (huv : u ≤ v)
    (h : Segment.points ⟨s.point a, s.point b⟩ ⊆ Segment.points ⟨s.point u, s.point v⟩) :
    u ≤ a ∧ b ≤ v := by
  have hbounds {t : Rat} (ht : s.point t ∈ Segment.points ⟨s.point a, s.point b⟩) :
      u ≤ t ∧ t ≤ v := by
    obtain ⟨w, h0, h1, hw⟩ := h ht
    rw [s.point_point] at hw
    obtain rfl := Segment.point_injective hs hw
    exact ratio_mem huv h0 h1
  exact ⟨(hbounds (Segment.first_mem_points _)).1, (hbounds (Segment.second_mem_points _)).2⟩

/-- What is seen of a segment is one thing only. -/
theorem Shows.unique {part other : Option (Segment Rat)} (h : r.Shows s part)
    (hother : r.Shows s other) : part = other := by
  have not_subsingleton {q : Segment Rat} (hq : r.Shows s (some q)) :
      ¬ (s.points ∩ r.points).Subsingleton := by
    intro hsub
    rw [← hq.2.1] at hsub
    exact hq.1 (hsub q.first_mem_points q.second_mem_points)
  cases part with
  | none =>
    cases other with
    | none => rfl
    | some q => exact (not_subsingleton hother h).elim
  | some q =>
    cases other with
    | none => exact (not_subsingleton h hother).elim
    | some q' =>
      obtain ⟨hne, hpoints, a, b, hab, rfl⟩ := h
      obtain ⟨-, hpoints', u, v, huv, rfl⟩ := hother
      have hs : s.first ≠ s.second := by
        intro heq
        exact hne (by simp [Segment.point, heq])
      have hsame := hpoints.trans hpoints'.symm
      obtain ⟨hua, hbv⟩ := bounds_of_points_subset hs huv.le hsame.le
      obtain ⟨hau, hvb⟩ := bounds_of_points_subset hs hab.le hsame.ge
      rw [le_antisymm hau hua, le_antisymm hbv hvb]

end Region

end TourMap
