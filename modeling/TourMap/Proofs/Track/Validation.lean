import TourMap.Proofs.Track

/-!
# Validation: what is refused, and for which reason

A tour start can be at fault in two ways (`StartFault`), and one that is out of range is at fault for
that reason only. The check goes through the starts from the first to the last and keeps one
invariant: the starts behind it are not at fault. So it fails exactly if there is a fault, and names
the first one.
-/

namespace TourMap

variable {W : Type} {points k : Nat} {starts done rest : List Nat} {error other : TrackError}

/-! ## 1. Faults -/

/-- What is wrong with the tour start at an index. -/
inductive StartFault (points : Nat) (starts : List Nat) : Nat → TrackError → Prop where
  | outOfRange {k start : Nat} (hstart : starts[k]? = some start) (hout : points ≤ start) :
    StartFault points starts k (.tourStartOutOfRange start points)
  | notIncreasing {k previous start : Nat} (hprevious : starts[k]? = some previous)
    (hstart : starts[k + 1]? = some start) (hin : start < points) (hle : start ≤ previous) :
    StartFault points starts (k + 1) (.tourStartsNotIncreasing previous start)

/-- Whether none of the starts before an index is at fault. -/
def InOrderUpTo (points : Nat) (starts : List Nat) (k : Nat) : Prop :=
  ∀ j < k, ∀ error, ¬ StartFault points starts j error

theorem InOrderUpTo.succ (h : InOrderUpTo points starts k)
    (hnext : ∀ error, ¬ StartFault points starts k error) : InOrderUpTo points starts (k + 1) := by
  intro j hj
  obtain hlt | rfl := Nat.lt_or_eq_of_le (Nat.lt_succ_iff.1 hj)
  · exact h j hlt
  · exact hnext

/-- Whether an error is about the first tour start that is at fault. -/
def FirstStartFault (points : Nat) (starts : List Nat) (error : TrackError) : Prop :=
  ∃ k, StartFault points starts k error ∧ InOrderUpTo points starts k

theorem StartFault.lt_length (h : StartFault points starts k error) : k < starts.length := by
  cases h with
  | outOfRange hstart => exact (List.getElem?_eq_some_iff.1 hstart).1
  | notIncreasing _ hstart => exact (List.getElem?_eq_some_iff.1 hstart).1

theorem StartFault.unique (h : StartFault points starts k error)
    (h' : StartFault points starts k other) : error = other := by
  cases h with
  | outOfRange hstart hout =>
    cases h' with
    | outOfRange hstart' => rw [Option.some.inj (hstart.symm.trans hstart')]
    | notIncreasing _ hstart' hin =>
      obtain rfl := Option.some.inj (hstart.symm.trans hstart')
      omega
  | notIncreasing hprevious hstart hin =>
    cases h' with
    | outOfRange hstart' hout =>
      obtain rfl := Option.some.inj (hstart.symm.trans hstart')
      omega
    | notIncreasing hprevious' hstart' =>
      rw [Option.some.inj (hprevious.symm.trans hprevious'),
        Option.some.inj (hstart.symm.trans hstart')]

theorem FirstStartFault.eq_iff (h : FirstStartFault points starts error) :
    error = other ↔ FirstStartFault points starts other := by
  constructor
  · rintro rfl
    exact h
  · intro h'
    obtain ⟨k, hk, hbefore⟩ := h
    obtain ⟨k', hk', hbefore'⟩ := h'
    -- Neither of the two comes before the other.
    obtain hlt | rfl | hgt := Nat.lt_trichotomy k k'
    · exact (hbefore' k hlt error hk).elim
    · exact hk.unique hk'
    · exact (hbefore k' hgt other hk').elim

/-- Faults of the start that comes after those that were seen. -/
theorem startFault_length_iff {start : Nat} :
    StartFault points (done ++ start :: rest) done.length error ↔
      (points ≤ start ∧ error = .tourStartOutOfRange start points) ∨
        ∃ previous, done.getLast? = some previous ∧ start < points ∧ start ≤ previous ∧
          error = .tourStartsNotIncreasing previous start := by
  have hhere : (done ++ start :: rest)[done.length]? = some start := by simp
  constructor
  · intro h
    generalize hk : done.length = k at h
    cases h with
    | outOfRange hstart hout =>
      rw [← hk, hhere] at hstart
      obtain rfl := Option.some.inj hstart
      exact .inl ⟨hout, rfl⟩
    | @notIncreasing k previous _ hprevious hstart hin hle =>
      rw [← hk, hhere] at hstart
      obtain rfl := Option.some.inj hstart
      refine .inr ⟨previous, ?_, hin, hle, rfl⟩
      rwa [List.getElem?_append_left (by omega), ← Nat.add_sub_cancel (n := k) (m := 1), ← hk,
        ← List.getLast?_eq_getElem?] at hprevious
  · rintro (⟨hout, rfl⟩ | ⟨previous, hlast, hin, hle, rfl⟩)
    · exact .outOfRange hhere hout
    · -- What is seen ends in the start before this one.
      obtain ⟨seen, rfl⟩ := List.getLast?_eq_some_iff.1 hlast
      have hlength : (seen ++ [previous]).length = seen.length + 1 := by simp
      rw [hlength] at hhere ⊢
      exact .notIncreasing (by simp) hhere hin hle

/-! ## 2. The check -/

/-- The check fails with the first fault, if those starts that were seen are in order. -/
theorem checkStarts_eq_error_iff_append (hseen : InOrderUpTo points (done ++ starts) done.length) :
    checkStarts points done.getLast? starts = .error error ↔
      FirstStartFault points (done ++ starts) error := by
  induction starts generalizing done with
  | nil =>
    refine ⟨nofun, ?_⟩
    rintro ⟨k, hk, -⟩
    have hlt : k < done.length := List.append_nil done ▸ hk.lt_length
    exact (hseen k hlt _ hk).elim
  | cons start rest ih =>
    -- A start without fault belongs to those that were seen from here on.
    have hpasses (hnext : ∀ e, ¬ StartFault points (done ++ start :: rest) done.length e) :
        checkStarts points (some start) rest = .error error ↔
          FirstStartFault points (done ++ start :: rest) error := by
      have hlength : (done ++ [start]).length = done.length + 1 := List.length_append
      have hseen' := hseen.succ hnext
      rw [List.append_cons, ← hlength] at hseen'
      have hrest := ih hseen'
      rwa [List.getLast?_concat, ← List.append_cons] at hrest
    -- A fault of this start is the first one.
    have hfails {e : TrackError} (he : StartFault points (done ++ start :: rest) done.length e) :
        e = error ↔ FirstStartFault points (done ++ start :: rest) error :=
      FirstStartFault.eq_iff ⟨done.length, he, hseen⟩
    unfold checkStarts
    by_cases hout : points ≤ start
    · rw [if_pos hout, Except.error.injEq]
      exact hfails (startFault_length_iff.2 (.inl ⟨hout, rfl⟩))
    · rw [if_neg hout]
      cases hlast : done.getLast? with
      | none =>
        refine hpasses fun e he => ?_
        obtain ⟨hout', -⟩ | ⟨previous, hlast', -⟩ := startFault_length_iff.1 he
        · exact hout hout'
        · rw [hlast] at hlast'
          cases hlast'
      | some p =>
        show (if start ≤ p then _ else checkStarts points (some start) rest) = _ ↔ _
        by_cases hle : start ≤ p
        · rw [if_pos hle, Except.error.injEq]
          exact hfails (startFault_length_iff.2 (.inr ⟨p, hlast, by omega, hle, rfl⟩))
        · rw [if_neg hle]
          refine hpasses fun e he => ?_
          obtain ⟨hout', -⟩ | ⟨previous, hlast', -, hle', -⟩ := startFault_length_iff.1 he
          · exact hout hout'
          · obtain rfl := Option.some.inj (hlast.symm.trans hlast')
            exact hle hle'

theorem checkStarts_eq_error_iff :
    checkStarts points none starts = .error error ↔ FirstStartFault points starts error := by
  -- Nothing was seen yet.
  have hseen : InOrderUpTo points ([] ++ starts) ([] : List Nat).length := nofun
  exact checkStarts_eq_error_iff_append hseen

/-! ## 3. Tracks -/

namespace TrackData

variable {source : NamedPoints W} {colors : Array Color} {tourStarts : List Nat}

/-- Colors are counted before the tour starts are looked at. -/
theorem new_eq_error_iff :
    new source colors tourStarts = .error error ↔
      (colors.size ≠ source.points.size ∧
        error = .colorCountMismatch source.points.size colors.size) ∨
      (colors.size = source.points.size ∧
        FirstStartFault source.points.size tourStarts error) := by
  rw [← checkStarts_eq_error_iff]
  unfold new
  split
  · rename_i hcolors
    simp only [hcolors, ne_eq, not_true_eq_false, false_and, false_or, true_and]
    split
    · rename_i hok
      simp [hok]
    · rename_i e herror
      simp [herror]
  · rename_i hcolors
    simp [hcolors, eq_comm]

theorem exists_new_eq_ok_iff :
    (∃ track, new source colors tourStarts = .ok track) ↔
      colors.size = source.points.size ∧ (∀ s ∈ tourStarts, s < source.points.size) ∧
        tourStarts.Pairwise (· < ·) := by
  constructor
  · rintro ⟨track, htrack⟩
    obtain ⟨rfl, rfl, rfl⟩ := new_eq_ok_iff.1 htrack
    exact ⟨track.colors_size, track.starts_lt, track.starts_increasing⟩
  · rintro ⟨hcolors, hlt, hincreasing⟩
    obtain ⟨track, htrack, -⟩ := new_eq_ok hcolors hlt hincreasing
    exact ⟨track, htrack⟩

end TrackData

end TourMap
