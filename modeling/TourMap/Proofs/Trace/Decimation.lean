import Mathlib.Data.List.Chain
import Mathlib.Data.List.Forall2
import TourMap.Proofs.Trace.Sketch

/-!
# Decimation: what is left out of a sketch

Two pens draw the same strokes, and the vertices that are far enough for the one are so for the other.
The lines of the first are then those of the second, with some vertices left out that are near the
last one kept before them (`Thinned`); the ends of the lines are kept. What is left is spaced as the
first pen demands, but for the ends that lie on the border and a dropped vertex that ends its line
(`Spaced`).
-/

namespace TourMap

variable {V : Type} {far : V → V → Bool}

/-! ## 1. Thinned lines -/

/-- Whether vertices are kept of a list such that all others are not far from the last one kept before
them. -/
inductive Thins (far : V → V → Bool) : (kept full : List V) → Prop where
  | nil : Thins far [] []
  | keep {kept full : List V} (v : V) (h : Thins far kept full) :
    Thins far (kept ++ [v]) (full ++ [v])
  | leaveOut {kept full : List V} {k v : V} (h : Thins far kept full)
    (hlast : kept.getLast? = some k) (hnear : far k v = false) : Thins far kept (full ++ [v])

/-- Whether vertices are kept of a line as `Thins` says, the last one among them. -/
inductive Thinned (far : V → V → Bool) : (line full : List V) → Prop where
  | nil : Thinned far [] []
  | concat {kept full : List V} (v : V) (h : Thins far kept full) :
    Thinned far (kept ++ [v]) (full ++ [v])

namespace Thins

variable {kept full : List V}

theorem singleton (v : V) : Thins far [v] [v] := Thins.nil.keep v

theorem sublist (h : Thins far kept full) : kept.Sublist full := by
  induction h with
  | nil => exact .slnil
  | keep v h ih => exact ih.append (List.Sublist.refl [v])
  | leaveOut h hlast hnear ih => exact ih.trans (List.sublist_append_left _ _)

/-- The first vertex is kept. -/
theorem head?_eq (h : Thins far kept full) : kept.head? = full.head? := by
  induction h with
  | nil => rfl
  | keep v h ih => rw [List.head?_append, List.head?_append, ih]
  | leaveOut h hlast hnear ih =>
    rw [List.head?_append, ← ih]
    rename_i kept full k v
    cases kept with
    | nil => cases hlast
    | cons a kept => rfl

theorem eq_nil_iff (h : Thins far kept full) : kept = [] ↔ full = [] := by
  rw [← List.head?_eq_none_iff, h.head?_eq, List.head?_eq_none_iff]

end Thins

namespace Thinned

variable {line full : List V}

theorem thins (h : Thinned far line full) : Thins far line full := by
  cases h with
  | nil => exact .nil
  | concat v h => exact h.keep v

/-- Both ends of a line are kept. -/
theorem ends_eq (h : Thinned far line full) :
    line.head? = full.head? ∧ line.getLast? = full.getLast? := by
  refine ⟨h.thins.head?_eq, ?_⟩
  cases h with
  | nil => rfl
  | concat v h => rw [List.getLast?_concat, List.getLast?_concat]

/-- Two vertices are never left of one alone. -/
theorem length_lt_two_iff (h : Thinned far line full) : line.length < 2 ↔ full.length < 2 := by
  cases h with
  | nil => exact Iff.rfl
  | concat v h =>
    have hnil := h.eq_nil_iff
    rw [← List.length_eq_zero_iff, ← List.length_eq_zero_iff] at hnil
    rw [List.length_append, List.length_append, List.length_singleton]
    omega

end Thinned

/-! ## 2. Two pens -/

/-- Whether a line may go on at the vertices of a stroke, and enters and leaves the clip region where
it should. -/
def Stroke.Fits (Stop Entry Exit : V → Prop) : Stroke V → Prop
  | .lift v => ∀ u ∈ v, Stop u
  | .goOn v => Stop v
  | .enter a b => Entry a ∧ Stop b
  | .leave _ b _ => Exit b

namespace Sketch

variable {all : V → V → Bool} {Stop Entry Exit : V → Prop} {s u : Sketch V} {stroke : Stroke V}

/-- Whether the line at hand ends where it may go on. -/
def Stops (Stop : V → Prop) (s : Sketch V) : Prop := ∀ k ∈ s.run.getLast?, Stop k

theorem Stops.of_run_eq_nil (h : s.run = []) : s.Stops Stop := by
  intro k hk
  rw [h, List.getLast?_nil] at hk
  cases hk

theorem Stops.draw (h : s.Stops Stop) (hstroke : stroke.Fits Stop Entry Exit) :
    (s.draw far stroke).Stops Stop := by
  have hconcat (run : List V) {lines : List (List V)} {tail : Option V} {v : V} (hv : Stop v) :
      Stops Stop ⟨lines, run ++ [v], tail⟩ := by
    intro k hk
    rw [List.getLast?_concat] at hk
    exact Option.mem_some.1 hk ▸ hv
  cases stroke with
  | lift v =>
    cases v with
    | none => exact .of_run_eq_nil rfl
    | some v => exact hconcat [] (hstroke v rfl)
  | goOn v =>
    rw [Sketch.draw]
    split
    · exact hconcat s.run hstroke
    · exact h
  | enter a b => exact hconcat [a] hstroke.2
  | leave a b touches =>
    rw [Sketch.draw]
    split
    · split <;> exact .of_run_eq_nil rfl
    · exact .of_run_eq_nil rfl

/-- Whether the lines of one sketch are those of another one, thinned. -/
structure Decimates (far : V → V → Bool) (s u : Sketch V) : Prop where
  lines : List.Forall₂ (Thinned far) s.lines u.lines
  run : Thins far s.run u.run
  pending : Thinned far s.pending u.pending

namespace Decimates

theorem empty : Decimates far (.empty : Sketch V) .empty := ⟨.nil, .nil, .nil⟩

theorem flush (h : Decimates far s u) : Decimates far s.flush u.flush := by
  refine ⟨List.rel_append h.lines ?_, .nil, .nil⟩
  by_cases hshort : s.pending.length < 2
  · rw [if_pos hshort, if_pos (h.pending.length_lt_two_iff.1 hshort)]
    exact .nil
  · rw [if_neg hshort, if_neg (mt h.pending.length_lt_two_iff.2 hshort)]
    exact .cons h.pending .nil

/-- Both go on from a vertex, which the lines at hand then end with. -/
theorem concat {kept full : List V} (hlines : List.Forall₂ (Thinned far) s.lines u.lines)
    (h : Thins far kept full) (v : V) :
    Decimates far ⟨s.lines, kept ++ [v], none⟩ ⟨u.lines, full ++ [v], none⟩ := by
  refine ⟨hlines, h.keep v, ?_⟩
  rw [Sketch.pending, Sketch.pending, Option.toList_none, List.append_nil, List.append_nil]
  exact .concat v h

theorem draw (h : Decimates far s u)
    (hfar : ∀ v, stroke = .goOn v → ∀ k ∈ s.run.getLast?, ∀ k' ∈ u.run.getLast?,
      far k v = true → all k' v = true) :
    Decimates far (s.draw far stroke) (u.draw all stroke) := by
  have hempty : s.run.isEmpty = u.run.isEmpty := by
    rw [Bool.eq_iff_iff, List.isEmpty_iff, List.isEmpty_iff]
    exact h.run.eq_nil_iff
  cases stroke with
  | lift v =>
    cases v with
    | none => exact h.flush
    | some v => exact concat h.flush.lines Thins.nil v
  | goOn v =>
    cases hlast : s.run.getLast? with
    | none =>
      -- Both pens draw the first vertex of a line.
      have hs := List.getLast?_eq_none_iff.1 hlast
      rw [Sketch.draw, Sketch.draw, hs, h.run.eq_nil_iff.1 hs]
      exact concat h.lines Thins.nil v
    | some k =>
      have hpending : Thinned far (s.run ++ [v]) (u.run ++ [v]) := .concat v h.run
      rw [Sketch.draw, Sketch.draw, hlast, Option.all_some]
      cases hnear : far k v with
      | true =>
        have hall : u.run.getLast?.all (all · v) = true :=
          (Option.all_eq_true _ _).2 fun k' hk' => hfar v rfl k hlast k' hk' hnear
        rw [if_pos rfl, if_pos hall]
        exact concat h.lines h.run v
      | false =>
        rw [if_neg Bool.false_ne_true]
        split
        · refine ⟨h.lines, h.run.leaveOut hlast hnear, ?_⟩
          rwa [Sketch.pending, Sketch.pending, Option.toList_none, List.append_nil]
        · exact ⟨h.lines, h.run, hpending⟩
  | enter a b => exact concat h.flush.lines (Thins.singleton a) b
  | leave a b touches =>
    rw [Sketch.draw, Sketch.draw, hempty]
    split
    · split
      · exact h.flush
      · exact (concat h.flush.lines (Thins.singleton a) b).flush
    · exact (concat h.lines h.pending.thins b).flush

theorem drawAll {strokes : List (Stroke V)} (h : Decimates far s u) (hs : s.Stops Stop)
    (hu : u.Stops Stop) (hstrokes : ∀ stroke ∈ strokes, stroke.Fits Stop Entry Exit)
    (hfar : ∀ k k' v, Stop k → Stop k' → Stop v → far k v = true → all k' v = true) :
    Decimates far (s.drawAll far strokes) (u.drawAll all strokes) := by
  induction strokes generalizing s u with
  | nil => exact h
  | cons stroke rest ih =>
    have hstroke := hstrokes stroke List.mem_cons_self
    refine ih (h.draw fun v hv k hk k' hk' => ?_) (hs.draw hstroke) (hu.draw hstroke)
      fun other hother => hstrokes other (List.mem_cons_of_mem stroke hother)
    subst hv
    exact hfar k k' v (hs k hk) (hu k' hk') hstroke

end Decimates

/-- The lines that a pen draws are thinned out of those of a pen that leaves out less. -/
theorem thinned_linesOf {strokes : List (Stroke V)}
    (hstrokes : ∀ stroke ∈ strokes, stroke.Fits Stop Entry Exit)
    (hfar : ∀ k k' v, Stop k → Stop k' → Stop v → far k v = true → all k' v = true) :
    List.Forall₂ (Thinned far) (linesOf far strokes) (linesOf all strokes) :=
  (Decimates.empty.drawAll (.of_run_eq_nil rfl) (.of_run_eq_nil rfl) hstrokes hfar).flush.lines

end Sketch

/-! ## 3. Spaced lines -/

/-- Whether all vertices of a list are far from the ones before them, the first two excepted if the list
starts at an entry. -/
def Opens (far : V → V → Bool) (Entry : V → Prop) (run : List V) : Prop :=
  ∃ (entry : Option V) (body : List V), run = entry.toList ++ body ∧ (∀ a ∈ entry, Entry a) ∧
    body ≠ [] ∧ body.IsChain (far · ·)

/-- Whether all vertices of a line are far from the ones before them, except for the first two of a line
that starts at an entry, and at its end for a vertex that was dropped and for an exit. -/
def Spaced (far : V → V → Bool) (Entry Exit : V → Prop) (line : List V) : Prop :=
  ∃ (run : List V) (tail exit : Option V), line = run ++ tail.toList ++ exit.toList ∧
    Opens far Entry run ∧ (∀ k ∈ run.getLast?, ∀ v ∈ tail, far k v = false) ∧ ∀ b ∈ exit, Exit b

namespace Opens

variable {Entry : V → Prop} {run : List V}

theorem singleton (v : V) : Opens far Entry [v] :=
  ⟨none, [v], rfl, by simp, List.cons_ne_nil v [], List.isChain_singleton v⟩

theorem pair {a : V} (ha : Entry a) (b : V) : Opens far Entry [a, b] :=
  ⟨some a, [b], rfl, fun _ hc => Option.mem_some.1 hc ▸ ha, List.cons_ne_nil b [],
    List.isChain_singleton b⟩

theorem concat (h : Opens far Entry run) {v : V} (hv : ∀ k ∈ run.getLast?, far k v = true) :
    Opens far Entry (run ++ [v]) := by
  obtain ⟨entry, body, rfl, hentry, hbody, hchain⟩ := h
  refine ⟨entry, body ++ [v], List.append_assoc .., hentry, by simp, ?_⟩
  refine hchain.append (List.isChain_singleton v) fun k hk w hw => ?_
  rw [List.head?_singleton, Option.mem_some] at hw
  rw [← hw]
  exact hv k (by rwa [List.getLast?_append_of_ne_nil _ hbody])

end Opens

namespace Sketch

variable {Stop Entry Exit : V → Prop} {s : Sketch V} {stroke : Stroke V}

/-- Whether all lines are spaced, and the line at hand so far. -/
structure IsSpaced (far : V → V → Bool) (Entry Exit : V → Prop) (s : Sketch V) : Prop where
  lines : ∀ line ∈ s.lines, Spaced far Entry Exit line
  run : s.run = [] ∧ s.tail = none ∨ Opens far Entry s.run
  tail : ∀ k ∈ s.run.getLast?, ∀ v ∈ s.tail, far k v = false

namespace IsSpaced

variable {lines : List (List V)} (hlines : ∀ line ∈ lines, Spaced far Entry Exit line)

include hlines

theorem of_lines : IsSpaced far Entry Exit ⟨lines, [], none⟩ :=
  ⟨hlines, Or.inl ⟨rfl, rfl⟩, by simp⟩

theorem of_run {run : List V} (hrun : Opens far Entry run) :
    IsSpaced far Entry Exit ⟨lines, run, none⟩ := ⟨hlines, Or.inr hrun, by simp⟩

omit hlines

theorem append_line (h : s.IsSpaced far Entry Exit) (more : List V)
    (hmore : 2 ≤ more.length → Spaced far Entry Exit more) :
    ∀ line ∈ s.lines ++ if more.length < 2 then [] else [more], Spaced far Entry Exit line := by
  intro line hline
  rcases List.mem_append.1 hline with hline | hline
  · exact h.lines line hline
  · split at hline
    · cases hline
    · rename_i hlong
      rw [List.mem_singleton.1 hline]
      exact hmore (Nat.le_of_not_lt hlong)

theorem flush (h : s.IsSpaced far Entry Exit) : s.flush.IsSpaced far Entry Exit := by
  refine of_lines (h.append_line s.pending fun hlong => ?_)
  rcases h.run with ⟨hrun, htail⟩ | hrun
  · have hnil : s.pending = [] := by
      rw [Sketch.pending, hrun, htail]
      rfl
    rw [hnil] at hlong
    cases hlong
  · exact ⟨s.run, s.tail, none, by rw [Option.toList_none, List.append_nil, Sketch.pending], hrun,
      h.tail, by simp⟩

theorem draw (h : s.IsSpaced far Entry Exit) (hstroke : stroke.Fits Stop Entry Exit) :
    (s.draw far stroke).IsSpaced far Entry Exit := by
  cases stroke with
  | lift v =>
    cases v with
    | none => exact h.flush
    | some v => exact of_run h.flush.lines (.singleton v)
  | goOn v =>
    rw [Sketch.draw]
    split
    · rename_i hfar
      rw [Option.all_eq_true] at hfar
      refine of_run h.lines ?_
      rcases h.run with ⟨hrun, -⟩ | hrun
      · rw [hrun]
        exact .singleton v
      · exact hrun.concat hfar
    · -- A vertex is dropped only behind another one.
      rename_i hnear
      cases hlast : s.run.getLast? with
      | none =>
        rw [hlast, Option.all_none] at hnear
        exact (hnear rfl).elim
      | some k =>
        rw [hlast, Option.all_some, Bool.not_eq_true] at hnear
        refine ⟨h.lines, h.run.imp_left fun hrun => ?_, fun k' hk' w hw => ?_⟩
        · rw [hrun.1] at hlast
          cases hlast
        · obtain rfl := Option.some.inj (hlast.symm.trans hk')
          obtain rfl := Option.some.inj hw
          exact hnear
  | enter a b => exact of_run h.flush.lines (.pair hstroke.1 b)
  | leave a b touches =>
    have hexit : ∀ c ∈ some b, Exit c := fun _ hc => Option.mem_some.1 hc ▸ hstroke
    rw [Sketch.draw]
    split
    · split
      · exact h.flush
      · refine of_lines (h.flush.append_line [a, b] fun _ => ?_)
        exact ⟨[a], none, some b, rfl, .singleton a, by simp, hexit⟩
    · rename_i hrun
      have hopens := h.run.resolve_left fun hnil => hrun (List.isEmpty_iff.2 hnil.1)
      refine of_lines (h.append_line _ fun _ => ⟨s.run, s.tail, some b, ?_, hopens, h.tail, hexit⟩)
      exact List.append_nil _

theorem drawAll {strokes : List (Stroke V)} (h : s.IsSpaced far Entry Exit)
    (hstrokes : ∀ stroke ∈ strokes, stroke.Fits Stop Entry Exit) :
    (s.drawAll far strokes).IsSpaced far Entry Exit :=
  List.foldlRecOn strokes (Sketch.draw far) h fun _ hs stroke hmem =>
    hs.draw (hstrokes stroke hmem)

end IsSpaced

theorem spaced_linesOf {strokes : List (Stroke V)}
    (hstrokes : ∀ stroke ∈ strokes, stroke.Fits Stop Entry Exit) :
    ∀ line ∈ linesOf far strokes, Spaced far Entry Exit line :=
  (IsSpaced.drawAll (.of_lines (by simp)) hstrokes).flush.lines

end Sketch

end TourMap
