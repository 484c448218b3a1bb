import TourMap.Proofs.Track

/-!
# Pieces: a track comes apart into its tours

Cutting at indices loses nothing, and cuts off no empty piece as long as the indices lie in the list
and increase. So a track has as many pieces as tours, and tours that were laid one after the other
are got back, but for those without points. Only the first tour with a color too few or too many
keeps tours from being laid.
-/

namespace TourMap

variable {W : Type}

namespace TrackData

/-! ## 1. Cutting lists -/

section

variable {α : Type}

theorem length_cutAt (first : Nat) (indices : List Nat) (xs : List α) :
    (cutAt first indices xs).length = indices.length + 1 := by
  induction indices generalizing first xs with
  | nil => rfl
  | cons i rest ih => rw [cutAt, List.length_cons, ih, List.length_cons]

/-- Nothing is lost. -/
theorem flatten_cutAt (first : Nat) (indices : List Nat) (xs : List α) :
    (cutAt first indices xs).flatten = xs := by
  induction indices generalizing first xs with
  | nil => simp [cutAt]
  | cons i rest ih => rw [cutAt, List.flatten_cons, ih, List.take_append_drop]

theorem ne_nil_of_mem_cutAt {first : Nat} {indices : List Nat} {xs piece : List α}
    (hincreasing : (first :: indices).Pairwise (· < ·))
    (hin : ∀ i ∈ first :: indices, i < first + xs.length) (hpiece : piece ∈ cutAt first indices xs) :
    piece ≠ [] := by
  induction indices generalizing first xs with
  | nil =>
    have hfirst := hin first List.mem_cons_self
    obtain rfl : piece = xs := List.mem_singleton.1 hpiece
    rw [← List.length_pos_iff]
    omega
  | cons i rest ih =>
    have hfirst : first < i := List.rel_of_pairwise_cons hincreasing List.mem_cons_self
    have hi : i < first + xs.length := hin i (List.mem_cons_of_mem _ List.mem_cons_self)
    rcases List.mem_cons.1 hpiece with rfl | hpiece
    · rw [← List.length_pos_iff, List.length_take]
      omega
    · refine ih (List.pairwise_cons.1 hincreasing).2 (fun j hj => ?_) hpiece
      have := hin j (List.mem_cons_of_mem _ hj)
      rw [List.length_drop]
      omega

/-- Lists that were joined are got back, but for the empty ones after the first. -/
theorem cutAt_startsFrom (first : Nat) (xs : List α) (blocks : List (List α)) :
    cutAt first (startsFrom (first + xs.length) (blocks.map List.length)) (xs ++ blocks.flatten) =
      xs :: blocks.filter (!·.isEmpty) := by
  induction blocks generalizing first xs with
  | nil => simp [startsFrom, cutAt]
  | cons block rest ih =>
    cases block with
    | nil => exact ih first xs
    | cons x block =>
      have htail := ih (first + xs.length) (x :: block)
      rw [List.length_cons] at htail
      rw [List.map_cons, List.length_cons, startsFrom, cutAt, Nat.add_sub_cancel_left,
        List.take_left, List.drop_left, List.flatten_cons, htail, List.filter_cons_of_pos (by rfl)]

/-- The pieces of a list between the given starts. A start at its head cuts nothing off, and of an
empty list there are no pieces. -/
def piecesAt (starts : List Nat) (xs : List α) : List (List α) :=
  if xs.isEmpty then [] else cutAt 0 (starts.filter (0 < ·)) xs

theorem flatten_piecesAt (starts : List Nat) (xs : List α) : (piecesAt starts xs).flatten = xs := by
  unfold piecesAt
  split
  · rename_i hempty
    rw [List.isEmpty_iff.1 hempty, List.flatten_nil]
  · exact flatten_cutAt 0 _ xs

theorem filter_startsFrom {start : Nat} {sizes : List Nat} (h : 0 < start) :
    (startsFrom start sizes).filter (0 < ·) = startsFrom start sizes := by
  rw [List.filter_eq_self]
  intro s hs
  have := le_of_mem_startsFrom hs
  exact decide_eq_true (by omega)

theorem piecesAt_startsFrom (blocks : List (List α)) :
    piecesAt (startsFrom 0 (blocks.map List.length)) blocks.flatten =
      blocks.filter (!·.isEmpty) := by
  induction blocks with
  | nil => rfl
  | cons block rest ih =>
    cases block with
    | nil => exact ih
    | cons x block =>
      have hcut := cutAt_startsFrom 0 (x :: block) rest
      rw [Nat.zero_add, List.length_cons] at hcut
      unfold piecesAt
      rw [List.map_cons, List.length_cons, startsFrom, List.filter_cons_of_neg (by simp),
        Nat.zero_add, filter_startsFrom (by omega), List.flatten_cons, hcut,
        List.filter_cons_of_pos (by rfl)]
      rfl

end

/-! ## 2. Tracks -/

/-- Of increasing starts only the first one can be zero. -/
theorem filter_eq_of_increasing {starts : List Nat} (h : starts.Pairwise (· < ·)) :
    starts.filter (0 < ·) = if starts.head? = some 0 then starts.tail else starts := by
  cases starts with
  | nil => rfl
  | cons s rest =>
    have hrest : rest.filter (0 < ·) = rest := by
      rw [List.filter_eq_self]
      intro r hr
      have hlt : s < r := List.rel_of_pairwise_cons h hr
      exact decide_eq_true (Nat.zero_lt_of_lt hlt)
    by_cases hs : s = 0
    · subst hs
      rw [List.filter_cons_of_neg (by simp), hrest]
      rfl
    · rw [List.filter_cons_of_pos (by simpa using Nat.pos_of_ne_zero hs), hrest,
        if_neg (by simpa using hs)]

theorem dropWhile_eq_filter {starts : List Nat} (h : starts.Pairwise (· < ·)) :
    starts.dropWhile (· == 0) = starts.filter (0 < ·) := by
  induction starts with
  | nil => rfl
  | cons s rest ih =>
    have hrest := ih (List.pairwise_cons.1 h).2
    by_cases hs : s = 0
    · subst hs
      rwa [List.dropWhile_cons_of_pos (by rfl), List.filter_cons_of_neg (by simp)]
    · rw [List.dropWhile_cons_of_neg (by simpa using hs), filter_eq_of_increasing h,
        if_neg (by simpa using hs)]

section

variable (track : TrackData W)

theorem isEmpty_points : track.points.toList.isEmpty = track.isEmpty := by
  rw [Bool.eq_iff_iff, List.isEmpty_iff_length_eq_zero, Array.length_toList, isEmpty, beq_iff_eq,
    size]

theorem isEmpty_colors : track.colors.toList.isEmpty = track.isEmpty := by
  have hcolors : track.colors.size = track.points.size := track.colors_size
  rw [← isEmpty_points, Bool.eq_iff_iff, List.isEmpty_iff_length_eq_zero,
    List.isEmpty_iff_length_eq_zero, Array.length_toList, Array.length_toList, hcolors]

/-- The tours of a track are the pieces of its points with those of its colors. -/
theorem tours_eq : track.tours =
    ((piecesAt track.tourStarts track.points.toList).zip
      (piecesAt track.tourStarts track.colors.toList)).map fun (ps, cs) =>
        ⟨ps.toArray, cs.toArray⟩ := by
  unfold tours piecesAt boundaries
  rw [isEmpty_points, isEmpty_colors, dropWhile_eq_filter track.starts_increasing]
  split <;> rfl

/-- A track has a piece for each of its tours. -/
theorem length_piecesAt :
    (piecesAt track.tourStarts track.points.toList).length = track.tourCount := by
  unfold piecesAt tourCount
  rw [isEmpty_points, filter_eq_of_increasing track.starts_increasing]
  split
  · rfl
  · rw [length_cutAt]
    split
    · -- The first start is zero, and counts for the first piece.
      rename_i hhead
      obtain ⟨rest, hstarts⟩ := List.head?_eq_some_iff.1 hhead
      rw [hstarts, List.tail_cons, List.length_cons]
    · rfl

theorem ne_nil_of_mem_piecesAt {piece : List (GeoPoint W)}
    (h : piece ∈ piecesAt track.tourStarts track.points.toList) : piece ≠ [] := by
  unfold piecesAt at h
  split at h
  · cases h
  · rename_i hempty
    have hpos : 0 < track.points.toList.length := by
      rw [List.length_pos_iff]
      exact fun hnil => hempty (List.isEmpty_iff.2 hnil)
    refine ne_nil_of_mem_cutAt (List.pairwise_cons.2 ⟨fun i hi => ?_, ?_⟩) (fun i hi => ?_) h
    · exact of_decide_eq_true (List.mem_filter.1 hi).2
    · exact track.starts_increasing.filter _
    · rw [Nat.zero_add]
      rcases List.mem_cons.1 hi with rfl | hi
      · exact hpos
      · rw [Array.length_toList]
        exact track.starts_lt i (List.mem_filter.1 hi).1

end

/-! ## 3. Tours laid one after the other -/

/-- Tours are laid one after the other up to the first one with a color too few or too many. -/
theorem ofTours_eq_error (name : Nat) {before after : List (Tour W)} {tour : Tour W}
    (hbefore : ∀ t ∈ before, t.points.size = t.colors.size)
    (htour : tour.points.size ≠ tour.colors.size) :
    ofTours name (before ++ tour :: after) =
      .error (.colorCountMismatch tour.points.size tour.colors.size) := by
  obtain ⟨laid, hlaid, -⟩ := Concatenation.wellFormed_empty.foldlM hbefore
  have happend : laid.append tour =
      .error (.colorCountMismatch tour.points.size tour.colors.size) := if_pos htour
  have hfold : (before ++ tour :: after).foldlM Concatenation.append Concatenation.empty =
      .error (.colorCountMismatch tour.points.size tour.colors.size) := by
    rw [List.foldlM_append, hlaid]
    change (laid.append tour >>= _) = _
    rw [happend]
    rfl
  rw [ofTours, hfold]
  rfl

/-- Where not all tours have a color for each point, there is a first one that has not. -/
theorem match_or_exists_first (tours : List (Tour W)) :
    (∀ tour ∈ tours, tour.points.size = tour.colors.size) ∨
      ∃ before tour after, tours = before ++ tour :: after ∧
        (∀ t ∈ before, t.points.size = t.colors.size) ∧
        tour.points.size ≠ tour.colors.size := by
  cases hfind : tours.find? fun t => t.points.size != t.colors.size with
  | none =>
    left
    intro t ht
    simpa using List.find?_eq_none.1 hfind t ht
  | some tour =>
    right
    obtain ⟨htour, before, after, rfl, hbefore⟩ := List.find?_eq_some_iff_append.1 hfind
    refine ⟨before, tour, after, rfl, fun t ht => ?_, by simpa using htour⟩
    simpa using hbefore t ht

/-- Tours make no track exactly if some tour has a color too few or too many. -/
theorem exists_error_iff (name : Nat) (tours : List (Tour W)) :
    (∃ e, ofTours name tours = .error e) ↔
      ∃ tour ∈ tours, tour.points.size ≠ tour.colors.size := by
  rcases match_or_exists_first tours with hall | ⟨before, tour, after, rfl, hbefore, htour⟩
  · obtain ⟨track, htrack, -⟩ := ofTours_eq_ok name hall
    rw [htrack]
    exact ⟨nofun, fun ⟨tour, hmem, hne⟩ => (hne (hall tour hmem)).elim⟩
  · exact ⟨fun _ => ⟨tour, by simp, htour⟩, fun _ => ⟨_, ofTours_eq_error name hbefore htour⟩⟩

/-- The tours with points, in the order given. -/
def nonEmpty (tours : List (Tour W)) : List (Tour W) := tours.filter (!·.points.isEmpty)

/-- A track of tours comes apart into the tours with points. -/
theorem piecesAt_ofTours {name : Nat} {tours : List (Tour W)} {track : TrackData W}
    (h : ofTours name tours = .ok track) :
    piecesAt track.tourStarts track.points.toList = (nonEmpty tours).map (·.points.toList) ∧
      piecesAt track.tourStarts track.colors.toList = (nonEmpty tours).map (·.colors.toList) := by
  have htours : ∀ tour ∈ tours, tour.points.size = tour.colors.size := by
    rcases match_or_exists_first tours with hall | ⟨before, tour, after, rfl, hbefore, htour⟩
    · exact hall
    · rw [ofTours_eq_error name hbefore htour] at h
      cases h
  obtain ⟨track', htrack', -, hpoints, hcolors, hstarts⟩ := ofTours_eq_ok name htours
  rw [h] at htrack'
  obtain rfl := Except.ok.inj htrack'
  have hsizes : tours.map (·.points.size) =
      (tours.map (·.points.toList)).map List.length := by
    rw [List.map_map]
    exact List.map_congr_left fun tour _ => Array.length_toList.symm
  -- A tour has as many colors as points, so the colors are cut at the same indices.
  have hsizes' : tours.map (·.points.size) =
      (tours.map (·.colors.toList)).map List.length := by
    rw [List.map_map]
    exact List.map_congr_left fun tour ht => (htours tour ht).trans Array.length_toList.symm
  have hempty (tour : Tour W) (ht : tour ∈ tours) :
      (!tour.colors.toList.isEmpty) = !tour.points.isEmpty := by
    congr 1
    rw [Bool.eq_iff_iff, List.isEmpty_iff_length_eq_zero, Array.length_toList,
      Array.isEmpty_iff_size_eq_zero, htours tour ht]
  constructor
  · rw [hstarts, hsizes, hpoints, List.flatMap_def, piecesAt_startsFrom, List.filter_map, nonEmpty]
    exact congrArg _ (List.filter_congr fun tour _ => by
      rw [Function.comp, Array.isEmpty_toList])
  · rw [hstarts, hsizes', hcolors, List.flatMap_def, piecesAt_startsFrom, List.filter_map, nonEmpty]
    exact congrArg _ (List.filter_congr hempty)

/-- What is checked is taken over as it is. -/
theorem eq_of_new {source : NamedPoints W} {colors : Array Color} {starts : List Nat}
    {track : TrackData W} (h : new source colors starts = .ok track) :
    track.points = source.points ∧ track.colors = colors ∧ track.tourStarts = starts := by
  obtain ⟨hsource, hcolors, hstarts⟩ := new_eq_ok_iff.1 h
  exact ⟨congrArg NamedPoints.points hsource, hcolors, hstarts⟩

/-- Tours that make a track are got back from it, those without points apart; they make none exactly
if one of them has a color too few or too many, and the first such tour is the one that is named. And
any track that passes the check has as many pieces as tours, none of them empty and nothing lost. -/
theorem tours_come_apart (name : Nat) (tours : List (Tour W)) :
    ((∃ e, ofTours name tours = .error e) ↔
        ∃ tour ∈ tours, tour.points.size ≠ tour.colors.size) ∧
      (∀ before tour after, tours = before ++ tour :: after →
        (∀ t ∈ before, t.points.size = t.colors.size) →
        tour.points.size ≠ tour.colors.size →
          ofTours name tours =
            .error (.colorCountMismatch tour.points.size tour.colors.size)) ∧
      (∀ track, ofTours name tours = .ok track →
        piecesAt track.tourStarts track.points.toList =
            (nonEmpty tours).map (·.points.toList) ∧
          piecesAt track.tourStarts track.colors.toList =
            (nonEmpty tours).map (·.colors.toList) ∧
          track.tours = nonEmpty tours ∧ track.tourCount = (nonEmpty tours).length) ∧
      ∀ (source : NamedPoints W) colors starts track, new source colors starts = .ok track →
        (piecesAt starts source.points.toList).length = track.tourCount ∧
          (∀ piece ∈ piecesAt starts source.points.toList, piece ≠ []) ∧
          (piecesAt starts source.points.toList).flatten = source.points.toList := by
  refine ⟨exists_error_iff name tours, ?_, fun track htrack => ?_, ?_⟩
  · rintro before tour after rfl hbefore htour
    exact ofTours_eq_error name hbefore htour
  · obtain ⟨hpoints, hcolors⟩ := piecesAt_ofTours htrack
    refine ⟨hpoints, hcolors, ?_, ?_⟩
    · rw [tours_eq, hpoints, hcolors, List.zip_map', List.map_map]
      exact List.map_id _
    · rw [← length_piecesAt, hpoints, List.length_map]
  · rintro source colors starts track htrack
    obtain ⟨hpoints, -, hstarts⟩ := eq_of_new htrack
    rw [← hpoints, ← hstarts]
    exact ⟨track.length_piecesAt, fun piece => track.ne_nil_of_mem_piecesAt, flatten_piecesAt _ _⟩

def twoPlaces : Array (GeoPoint Double) :=
  #[⟨.zero false, .zero false⟩, ⟨.ofInt 10, .ofInt 20⟩]

/-- A tour of two points and one of a single point, with one between them that has none. -/
def threeTours : List (Tour Double) :=
  [.withColor twoPlaces (.rgb 255 0 0), .withColor #[] (.rgb 0 0 255),
    .withColor #[⟨.ofInt 10, .ofInt 20⟩] (.rgb 0 255 0)]

/-- A tour without points that has a color. -/
def unevenTour : Tour Double := ⟨#[], #[.rgb 0 0 0]⟩

/-- Tours that make a track, tours that make none, and a track whose first start is not zero. -/
theorem tours_come_apart_of_threeTours :
    (∃ track, ofTours 1 threeTours = .ok track ∧ track.tours = nonEmpty threeTours ∧
        track.tourCount = 2) ∧
      ofTours 1 (threeTours ++ [unevenTour]) = .error (.colorCountMismatch 0 1) ∧
      ∃ track, new ⟨1, twoPlaces⟩ #[.rgb 0 0 0, .rgb 255 0 0] [1] = .ok track ∧
        (piecesAt [1] twoPlaces.toList).length = track.tourCount := by
  have htours : ∀ tour ∈ threeTours, tour.points.size = tour.colors.size := by decide
  obtain ⟨track, htrack, -⟩ := ofTours_eq_ok 1 htours
  obtain ⟨-, -, hback, hcount⟩ := (tours_come_apart 1 threeTours).2.2.1 track htrack
  have huneven := (tours_come_apart 1 (threeTours ++ [unevenTour])).2.1 threeTours unevenTour []
    rfl htours (by decide)
  obtain ⟨cut, hcut, -⟩ : ∃ cut, new ⟨1, twoPlaces⟩ #[.rgb 0 0 0, .rgb 255 0 0] [1] = .ok cut ∧
      cut.source = ⟨1, twoPlaces⟩ ∧ _ ∧ _ := new_eq_ok rfl (by decide) (by simp)
  exact ⟨⟨track, htrack, hback, hcount⟩, huneven, cut, hcut,
    ((tours_come_apart 1 threeTours).2.2.2 _ _ _ cut hcut).1⟩

end TrackData

end TourMap
