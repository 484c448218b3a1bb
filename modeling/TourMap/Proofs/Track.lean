import TourMap.Track

/-!
# Track: tours that make a track

Tours with as many colors as points always make a track when they are laid one after the other. Its
points and colors are those of the tours, and a tour starts where the ones before it end.
-/

namespace TourMap

variable {W : Type}

/-- Starts in range and in order pass the check. -/
theorem checkStarts_eq_ok {points : Nat} {previous : Option Nat} {starts : List Nat}
    (hlt : ∀ s ∈ starts, s < points) (hprevious : ∀ p ∈ previous, ∀ s ∈ starts, p < s)
    (hincreasing : starts.Pairwise (· < ·)) : checkStarts points previous starts = .ok () := by
  induction starts generalizing previous with
  | nil => rfl
  | cons start rest ih =>
    obtain ⟨hfirst, hrest⟩ := List.pairwise_cons.1 hincreasing
    have hstart : ¬ points ≤ start := Nat.not_le.2 (hlt start List.mem_cons_self)
    have hafter : checkStarts points (some start) rest = .ok () := by
      refine ih (fun s hs => hlt s (List.mem_cons_of_mem _ hs)) ?_ hrest
      intro p hp
      cases hp
      exact hfirst
    unfold checkStarts
    rw [if_neg hstart]
    cases previous with
    | none => exact hafter
    | some p =>
      have hp : ¬ start ≤ p := Nat.not_le.2 (hprevious p rfl start List.mem_cons_self)
      simpa only [if_neg hp] using hafter

/-- Where tours of the given sizes start that are laid one after the other from an index on. -/
def startsFrom : (start : Nat) → (sizes : List Nat) → List Nat
  | _, [] => []
  | start, 0 :: rest => startsFrom start rest
  | start, (size + 1) :: rest => start :: startsFrom (start + (size + 1)) rest

theorem le_of_mem_startsFrom {start : Nat} {sizes : List Nat} {s : Nat}
    (h : s ∈ startsFrom start sizes) : start ≤ s := by
  fun_induction startsFrom start sizes with
  | case1 => cases h
  | case2 start rest ih => exact ih h
  | case3 start size rest ih =>
    rcases List.mem_cons.1 h with rfl | h
    · omega
    · have := ih h
      omega

theorem dropWhile_startsFrom {start : Nat} {sizes : List Nat} (h : 0 < start) :
    (startsFrom start sizes).dropWhile (· == 0) = startsFrom start sizes := by
  cases hstarts : startsFrom start sizes with
  | nil => rfl
  | cons s rest =>
    have hs : s ∈ startsFrom start sizes := hstarts ▸ List.mem_cons_self
    have := le_of_mem_startsFrom hs
    exact List.dropWhile_cons_of_neg (by rw [beq_iff_eq]; omega)

/-- The tour starts from an index on. -/
def nextStarts (starts : List Nat) (i : Nat) : List Nat := starts.dropWhile (· < i)

theorem dropWhile_eq_nextStarts (starts : List Nat) :
    starts.dropWhile (· == 0) = nextStarts starts 1 := by
  refine congrArg (starts.dropWhile ·) (funext fun s => ?_)
  rw [Bool.eq_iff_iff, beq_iff_eq, decide_eq_true_iff, Nat.lt_one_iff]

theorem nextStarts_of_lt {starts : List Nat} {i : Nat} (h : ∀ s ∈ starts, i ≤ s) :
    nextStarts starts i = starts := by
  cases starts with
  | nil => rfl
  | cons s rest =>
    exact List.dropWhile_cons_of_neg (by simpa using h s List.mem_cons_self)

/-- Starts in order come up one by one. -/
theorem nextStarts_succ {starts : List Nat} (h : starts.Pairwise (· < ·)) (i : Nat) :
    ((nextStarts starts i).head? = some i ↔ i ∈ starts) ∧
      nextStarts starts (i + 1) =
        if (nextStarts starts i).head? == some i then (nextStarts starts i).tail
        else nextStarts starts i := by
  induction starts with
  | nil => exact ⟨by simp [nextStarts], rfl⟩
  | cons s rest ih =>
    obtain ⟨hfirst, hrest⟩ := List.pairwise_cons.1 h
    by_cases hs : s < i
    · have hskip (j : Nat) (hj : s < j) : nextStarts (s :: rest) j = nextStarts rest j :=
        List.dropWhile_cons_of_pos (decide_eq_true hj)
      rw [hskip i hs, hskip (i + 1) (by omega), List.mem_cons, or_iff_right (by omega)]
      exact ih hrest
    · have hall : nextStarts (s :: rest) i = s :: rest := nextStarts_of_lt fun b hb => by
        rcases List.mem_cons.1 hb with rfl | hb
        · omega
        · have := hfirst b hb
          omega
      rw [hall, List.head?_cons, List.mem_cons, Option.some.injEq]
      have hnotMem (heq : i ∈ rest) : s < i := hfirst i heq
      refine ⟨⟨fun heq => Or.inl heq.symm, fun hor => ?_⟩, ?_⟩
      · rcases hor with rfl | hmem
        · rfl
        · exact (hs (hnotMem hmem)).elim
      · by_cases heq : s = i
        · subst heq
          rw [BEq.rfl, if_pos rfl, List.tail_cons, nextStarts,
            List.dropWhile_cons_of_pos (by simp)]
          exact nextStarts_of_lt hfirst
        · rw [if_neg (by simpa using heq)]
          refine nextStarts_of_lt fun b hb => ?_
          rcases List.mem_cons.1 hb with rfl | hb
          · omega
          · have := hfirst b hb
            omega

namespace Concatenation

/-- Whether the tours laid so far make a track. -/
structure WellFormed (c : Concatenation W) : Prop where
  colors : c.colors.size = c.points.size
  starts_lt : ∀ s ∈ c.starts, s < c.points.size
  starts_decreasing : c.starts.Pairwise (· > ·)

theorem wellFormed_empty : (empty : Concatenation W).WellFormed :=
  ⟨rfl, fun _ h => (List.not_mem_nil h).elim, .nil⟩

/-- A tour with as many colors as points can always be appended. -/
theorem WellFormed.append {c : Concatenation W} (h : c.WellFormed) {tour : Tour W}
    (htour : tour.points.size = tour.colors.size) :
    ∃ d, c.append tour = .ok d ∧ d.WellFormed := by
  unfold Concatenation.append
  rw [if_neg fun hne => hne htour]
  split
  · exact ⟨c, rfl, h⟩
  · rename_i hempty
    have hpos : 0 < tour.points.size := by
      rw [Array.isEmpty_iff_size_eq_zero] at hempty
      omega
    refine ⟨_, rfl, ⟨?_, ?_, List.pairwise_cons.2 ⟨h.starts_lt, h.starts_decreasing⟩⟩⟩
    · simp only [Array.size_append, h.colors, htour]
    · intro s hs
      rw [Array.size_append]
      rcases List.mem_cons.1 hs with rfl | hs
      · omega
      · have := h.starts_lt s hs
        omega

theorem WellFormed.foldlM {tours : List (Tour W)}
    (htours : ∀ tour ∈ tours, tour.points.size = tour.colors.size) {c : Concatenation W}
    (h : c.WellFormed) : ∃ d, tours.foldlM Concatenation.append c = .ok d ∧ d.WellFormed := by
  induction tours generalizing c with
  | nil => exact ⟨c, rfl, h⟩
  | cons tour rest ih =>
    obtain ⟨d, hd, hwell⟩ := h.append (htours tour List.mem_cons_self)
    obtain ⟨d', hrest, hwell'⟩ := ih (fun t ht => htours t (List.mem_cons_of_mem _ ht)) hwell
    refine ⟨d', ?_, hwell'⟩
    rw [List.foldlM_cons, hd]
    exact hrest

/-- What is laid down when tours are laid after those at hand. -/
theorem eq_of_foldlM {tours : List (Tour W)} {c d : Concatenation W}
    (h : tours.foldlM Concatenation.append c = .ok d) :
    d.points.toList = c.points.toList ++ tours.flatMap (·.points.toList) ∧
      d.colors.toList = c.colors.toList ++ tours.flatMap (·.colors.toList) ∧
      d.starts.reverse =
        c.starts.reverse ++ startsFrom c.points.size (tours.map (·.points.size)) := by
  induction tours generalizing c with
  | nil =>
    cases h
    simp [startsFrom]
  | cons tour rest ih =>
    rw [List.foldlM_cons] at h
    unfold Concatenation.append at h
    split at h
    · cases h
    · rename_i hsize
      have hsize : tour.points.size = tour.colors.size := Decidable.not_not.1 hsize
      split at h
      · -- A tour without points has no colors either.
        rename_i hempty
        have hpoints : tour.points = #[] := Array.isEmpty_iff.1 hempty
        have hcolors : tour.colors = #[] := by
          rw [← Array.size_eq_zero_iff, ← hsize, hpoints, Array.size_empty]
        obtain ⟨hp, hc, hs⟩ := ih h
        simp [hp, hc, hs, hpoints, hcolors, startsFrom]
      · rename_i hempty
        obtain ⟨n, hn⟩ : ∃ n, tour.points.size = n + 1 := by
          refine Nat.exists_eq_succ_of_ne_zero fun h0 => hempty ?_
          rw [Array.isEmpty_iff_size_eq_zero, h0]
        obtain ⟨hp, hc, hs⟩ := ih h
        simp [hp, hc, hs, hn, startsFrom]

end Concatenation

namespace TrackData

/-- The first point of a track that has points, and its color. -/
theorem exists_first {track : TrackData W} (h : track.isEmpty = false) :
    ∃ p points color colors, track.points.toList = p :: points ∧
      track.colors.toList = color :: colors ∧ track.size = points.length + 1 ∧
      track.colors.size = points.length + 1 := by
  have hcolors : track.colors.size = track.points.size := track.colors_size
  have hpos : 0 < track.points.size := Nat.pos_of_ne_zero (beq_eq_false_iff_ne.1 h)
  obtain ⟨p, points, hp⟩ := List.exists_cons_of_length_pos
    (l := track.points.toList) (by rwa [Array.length_toList])
  obtain ⟨color, colors, hc⟩ := List.exists_cons_of_length_pos
    (l := track.colors.toList) (by rwa [Array.length_toList, hcolors])
  have hsize : track.points.size = points.length + 1 := by
    rw [← Array.length_toList, hp, List.length_cons]
  exact ⟨p, points, color, colors, hp, hc, hsize, hcolors.trans hsize⟩

/-- Points with as many colors, and starts in range and in order, make a track. -/
theorem new_eq_ok {source : NamedPoints W} {colors : Array Color} {starts : List Nat}
    (hcolors : colors.size = source.points.size) (hlt : ∀ s ∈ starts, s < source.points.size)
    (hincreasing : starts.Pairwise (· < ·)) :
    ∃ track, new source colors starts = .ok track ∧ track.source = source ∧
      track.colors = colors ∧ track.tourStarts = starts := by
  have hcheck : checkStarts source.points.size none starts = .ok () :=
    checkStarts_eq_ok hlt nofun hincreasing
  unfold new
  rw [dif_pos hcolors]
  split
  · exact ⟨_, rfl, rfl, rfl, rfl⟩
  · rename_i error herror
    rw [hcheck] at herror
    cases herror

/-- Nothing but the track of these points, colors and starts is made of them. -/
theorem new_eq_ok_iff {source : NamedPoints W} {colors : Array Color} {starts : List Nat}
    {track : TrackData W} :
    new source colors starts = .ok track ↔
      track.source = source ∧ track.colors = colors ∧ track.tourStarts = starts := by
  constructor
  · intro h
    unfold new at h
    split at h
    · split at h
      · cases h
        exact ⟨rfl, rfl, rfl⟩
      · cases h
    · cases h
  · rintro ⟨rfl, rfl, rfl⟩
    obtain ⟨made, hmade, hsource, hcolors, hstarts⟩ :=
      new_eq_ok track.colors_size track.starts_lt track.starts_increasing
    rw [hmade]
    cases made
    cases track
    cases hsource
    cases hcolors
    cases hstarts
    rfl

/-- Tours with as many colors as points make a track, in the order given. -/
theorem ofTours_eq_ok (name : Nat) {tours : List (Tour W)}
    (htours : ∀ tour ∈ tours, tour.points.size = tour.colors.size) :
    ∃ track, ofTours name tours = .ok track ∧ track.source.name = name ∧
      track.points.toList = tours.flatMap (·.points.toList) ∧
      track.colors.toList = tours.flatMap (·.colors.toList) ∧
      track.tourStarts = startsFrom 0 (tours.map (·.points.size)) := by
  obtain ⟨all, hall, hwell⟩ := Concatenation.wellFormed_empty.foldlM htours
  let source : NamedPoints W := ⟨name, all.points⟩
  have hcolors : all.colors.size = source.points.size := hwell.colors
  have hlt (s : Nat) (hs : s ∈ all.starts.reverse) : s < source.points.size :=
    hwell.starts_lt s (List.mem_reverse.1 hs)
  obtain ⟨track, htrack, hsource, htrackColors, htrackStarts⟩ :=
    new_eq_ok hcolors hlt (List.pairwise_reverse.2 hwell.starts_decreasing)
  obtain ⟨hp, hc, hs⟩ := Concatenation.eq_of_foldlM hall
  refine ⟨track, ?_, by rw [hsource], ?_, ?_, ?_⟩
  · rw [ofTours, hall]
    exact htrack
  · rw [TrackData.points, hsource]
    exact hp
  · rw [htrackColors]
    exact hc
  · rw [htrackStarts]
    exact hs

end TrackData

end TourMap
