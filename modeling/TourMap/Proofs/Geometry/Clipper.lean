import TourMap.Geometry.Clipper

/-!
# Clipper: the rounds of a clipping, and what a step of a polyline leaves behind

A clipping ends where both ends are inside or share a side; else a round takes one end to a border.
After each step of a polyline the clipper stands at the new point with its outcode, and what the step
gives depends on the region and the two points only.
-/

namespace TourMap

variable {α : Type} [Arithmetic α]

/-! ## 1. Rounds -/

namespace Region

variable (r : Region α) (n : Nat) (s : Segment α) {a b : Outcode}

theorem clip_inside : r.clip n s .inside .inside = some s := by
  unfold clip
  rw [if_pos ⟨rfl, rfl⟩]

theorem clip_sharesSide (h : a.sharesSide b = true) : r.clip n s a b = none := by
  have hout : ¬ (a = .inside ∧ b = .inside) := by
    rintro ⟨rfl, rfl⟩
    cases h
  unfold clip
  rw [if_neg hout]
  cases n with
  | zero => rfl
  | succ n => exact if_pos h

theorem clip_first (ha : a ≠ .inside) (h : ¬ a.sharesSide b = true) :
    r.clip (n + 1) s a b =
      r.clip n ⟨r.crossing s a, s.second⟩ (r.outcode (r.crossing s a)) b := by
  rw [clip, if_neg fun hboth => ha hboth.1]
  dsimp only
  rw [if_neg h, if_pos ha]

theorem clip_second (hb : b ≠ .inside) :
    r.clip (n + 1) s .inside b =
      r.clip n ⟨s.first, r.crossing s b⟩ .inside (r.outcode (r.crossing s b)) := by
  have h : ¬ Outcode.inside.sharesSide b = true := Bool.false_ne_true
  rw [clip, if_neg fun hboth => hb hboth.2]
  dsimp only
  rw [if_neg h, if_neg (not_not_intro rfl)]

variable {r n s}

/-- An end that is inside is kept. -/
theorem clip_first_eq {part : Segment α} (h : r.clip n s .inside b = some part) :
    part.first = s.first := by
  induction n generalizing s b with
  | zero =>
    unfold clip at h
    split at h
    · obtain rfl := Option.some.inj h
      rfl
    · cases h
  | succ n ih =>
    by_cases hb : b = .inside
    · rw [hb, clip_inside] at h
      obtain rfl := Option.some.inj h
      rfl
    · rw [clip_second r n s hb] at h
      have hrest := ih h
      exact hrest

theorem clip_second_eq {part : Segment α} (h : r.clip n s a .inside = some part) :
    part.second = s.second := by
  have hshares (a : Outcode) : ¬ a.sharesSide .inside = true := by
    obtain ⟨x, y⟩ := a
    cases x <;> cases y <;> decide
  induction n generalizing s a with
  | zero =>
    unfold clip at h
    split at h
    · obtain rfl := Option.some.inj h
      rfl
    · cases h
  | succ n ih =>
    by_cases ha : a = .inside
    · rw [ha, clip_inside] at h
      obtain rfl := Option.some.inj h
      rfl
    · rw [clip_first r n s ha (hshares a)] at h
      have hrest := ih h
      exact hrest

/-- A clipping leaves no end outside. -/
theorem contains_of_clip {part : Segment α}
    (h : r.clip n s (r.outcode s.first) (r.outcode s.second) = some part) :
    r.contains part.first = true ∧ r.contains part.second = true := by
  induction n generalizing s with
  | zero =>
    unfold clip at h
    split at h
    · rename_i hin
      obtain rfl := Option.some.inj h
      exact ⟨beq_iff_eq.2 hin.1, beq_iff_eq.2 hin.2⟩
    · cases h
  | succ n ih =>
    by_cases hshares : (r.outcode s.first).sharesSide (r.outcode s.second) = true
    · rw [r.clip_sharesSide _ s hshares] at h
      cases h
    · by_cases hfirst : r.outcode s.first = .inside
      · by_cases hsecond : r.outcode s.second = .inside
        · rw [hfirst, hsecond, clip_inside] at h
          obtain rfl := Option.some.inj h
          exact ⟨beq_iff_eq.2 hfirst, beq_iff_eq.2 hsecond⟩
        · rw [hfirst, r.clip_second n s hsecond, ← hfirst] at h
          exact ih (s := ⟨s.first, r.crossing s (r.outcode s.second)⟩) h
      · rw [r.clip_first n s hfirst hshares] at h
        exact ih (s := ⟨r.crossing s (r.outcode s.first), s.second⟩) h

end Region

/-! ## 2. Steps -/

namespace LineClipper

variable (c : LineClipper α) (p : Point α)

@[simp] theorem start_region : (c.start p).region = c.region := rfl

@[simp] theorem start_last : (c.start p).last = p := rfl

@[simp] theorem start_code : (c.start p).code = c.region.outcode p := rfl

omit [Arithmetic α] in
theorem isInside_congr {c d : LineClipper α} (h : c.code = d.code) : c.isInside = d.isInside := by
  rw [isInside, isInside, h]

/-- At most the line is another one than after a start at the point. -/
theorem next_clipper :
    ∃ line, (c.next p).2 = { c with last := p, code := c.region.outcode p, line } := by
  unfold next
  dsimp only
  split
  · exact ⟨c.line, rfl⟩
  · split
    · exact ⟨c.line, rfl⟩
    · split
      · exact ⟨_, rfl⟩
      · exact ⟨c.line, rfl⟩

/-- The line is kept until the border is crossed again. -/
theorem next_line (h : (c.next p).1 ≠ .intersection) : (c.next p).2.line = c.line := by
  unfold next at h ⊢
  dsimp only at h ⊢
  split
  · rfl
  · split
    · rfl
    · split
      · rename_i hin hshares _ line hclip
        rw [if_neg hin, if_neg hshares, hclip] at h
        exact (h rfl).elim
      · rfl

@[simp] theorem next_region : (c.next p).2.region = c.region := by
  obtain ⟨line, h⟩ := c.next_clipper p
  rw [h]

@[simp] theorem next_last : (c.next p).2.last = p := by
  obtain ⟨line, h⟩ := c.next_clipper p
  rw [h]

@[simp] theorem next_code : (c.next p).2.code = c.region.outcode p := by
  obtain ⟨line, h⟩ := c.next_clipper p
  rw [h]

/-- Whether a clipper of the rectangle `r` has come to the point `p`. -/
structure StandsAt (c : LineClipper α) (r : Region α) (p : Point α) : Prop where
  region : c.region = r
  last : c.last = p
  code : c.code = r.outcode p

variable {c} {r : Region α}

theorem StandsAt.start {p : Point α} (h : c.StandsAt r p) (q : Point α) : (c.start q).StandsAt r q :=
  ⟨h.region, rfl, by rw [start_code, h.region]⟩

theorem StandsAt.next {p : Point α} (h : c.StandsAt r p) (q : Point α) : (c.next q).2.StandsAt r q :=
  ⟨by rw [next_region, h.region], c.next_last q, by rw [next_code, h.region]⟩

theorem StandsAt.isInside_eq {p : Point α} (h : c.StandsAt r p) : c.isInside = r.contains p := by
  rw [isInside, h.code, Region.contains]

/-- What a step gives is what the rectangle holds of the way to the new point. -/
theorem StandsAt.next_cases {p : Point α} (h : c.StandsAt r p) (q : Point α) :
    ((c.next q).1 = .inside ∧ (r.contains p && r.contains q) = true) ∨
      ((c.next q).1 = .outside ∧ (r.contains p && r.contains q) = false ∧
        r.clip 4 ⟨p, q⟩ (r.outcode p) (r.outcode q) = none) ∨
      ((c.next q).1 = .intersection ∧ (r.contains p && r.contains q) = false ∧
        r.clip 4 ⟨p, q⟩ (r.outcode p) (r.outcode q) = some (c.next q).2.line) := by
  have hboth : (r.contains p && r.contains q) = true ↔
      r.outcode p = .inside ∧ r.outcode q = .inside := by
    rw [Bool.and_eq_true, Region.contains, Region.contains, beq_iff_eq, beq_iff_eq]
  unfold LineClipper.next clipTo
  dsimp only
  rw [h.region, h.last, h.code]
  split
  · rename_i hin
    exact Or.inl ⟨rfl, hboth.2 hin⟩
  · rename_i hin
    have hnot := Bool.eq_false_iff.2 (mt hboth.1 hin)
    split
    · rename_i hshares
      exact Or.inr (Or.inl ⟨rfl, hnot, r.clip_sharesSide 4 _ hshares⟩)
    · split
      · rename_i line hclip
        exact Or.inr (Or.inr ⟨rfl, hnot, hclip⟩)
      · rename_i hclip
        exact Or.inr (Or.inl ⟨rfl, hnot, hclip⟩)

/-- The polyline before the last point leaves no trace. -/
theorem next_congr {c d : LineClipper α} (hregion : c.region = d.region) (hlast : c.last = d.last)
    (hcode : c.code = d.code) (p : Point α) :
    (c.next p).1 = (d.next p).1 ∧
      ((c.next p).1 = .intersection → (c.next p).2.line = (d.next p).2.line) := by
  unfold next clipTo
  dsimp only
  rw [hregion, hlast, hcode]
  split
  · exact ⟨rfl, nofun⟩
  · split
    · exact ⟨rfl, nofun⟩
    · split
      · exact ⟨rfl, fun _ => rfl⟩
      · exact ⟨rfl, nofun⟩

end LineClipper

end TourMap
