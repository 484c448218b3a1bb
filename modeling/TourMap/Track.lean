import TourMap.Geometry.Mercator
import TourMap.Style

/-!
# Track: the tours of a layer, in one array of points

A `TrackData` holds the points of all tours one after the other, a color for each of them and the
index of each tour's first point; a leading zero may be left out. Its proof fields say that these
belong together, so every function on tracks may rely on it. `TrackData.new` checks them and
names the first thing that is wrong; `TrackData.ofTours` lays tours one after the other, and
`TrackData.tours` cuts them apart again.
-/

namespace TourMap

/-! ## 1. Errors -/

/-- Why points, colors and tour starts make no track. -/
inductive TrackError where
  | colorCountMismatch (points colors : Nat)
  /-- A tour starts past the last point. -/
  | tourStartOutOfRange (start points : Nat)
  /-- A tour starts no later than the one before it. -/
  | tourStartsNotIncreasing (previous start : Nat)
  deriving DecidableEq

def TrackError.message : TrackError → String
  | colorCountMismatch points colors =>
    "Got " ++ toString colors ++ " colors for " ++ toString points ++ " points"
  | tourStartOutOfRange start points =>
    "Tour start " ++ toString start ++ " is out of range for " ++ toString points ++ " points"
  | tourStartsNotIncreasing previous start =>
    "Tour start " ++ toString start ++ " follows tour start " ++ toString previous

/-! ## 2. Tour starts -/

/-- Goes through the tour starts: each is below `points` and above the one before it. -/
def checkStarts (points : Nat) : (previous : Option Nat) → List Nat → Except TrackError Unit
  | _, [] => .ok ()
  | previous, start :: rest =>
    if points ≤ start then .error (.tourStartOutOfRange start points)
    else match previous with
      | none => checkStarts points (some start) rest
      | some p =>
        if start ≤ p then .error (.tourStartsNotIncreasing p start)
        else checkStarts points (some start) rest

theorem checkStarts_ok {points : Nat} {previous : Option Nat} {starts : List Nat}
    (h : checkStarts points previous starts = .ok ()) :
    (∀ s ∈ starts, s < points) ∧ (∀ p ∈ previous, ∀ s ∈ starts, p < s) ∧
      starts.Pairwise (· < ·) := by
  induction starts generalizing previous with
  | nil => simp
  | cons start rest ih =>
    unfold checkStarts at h
    split at h
    · cases h
    · rename_i hlt
      have after (hrest : checkStarts points (some start) rest = .ok ()) :
          (∀ s ∈ start :: rest, s < points) ∧ (∀ s ∈ rest, start < s) ∧
            (start :: rest).Pairwise (· < ·) := by
        obtain ⟨hin, hgt, hpair⟩ := ih hrest
        have hgt' : ∀ s ∈ rest, start < s := hgt start rfl
        refine ⟨?_, hgt', List.pairwise_cons.2 ⟨hgt', hpair⟩⟩
        intro s hs
        rcases List.mem_cons.1 hs with rfl | hs
        · omega
        · exact hin s hs
      cases previous with
      | none =>
        obtain ⟨hin, _, hpair⟩ := after h
        exact ⟨hin, by simp, hpair⟩
      | some p =>
        simp only at h
        split at h
        · cases h
        · rename_i hp
          obtain ⟨hin, hgt, hpair⟩ := after h
          refine ⟨hin, ?_, hpair⟩
          intro q hq s hs
          cases hq
          rcases List.mem_cons.1 hs with rfl | hs
          · omega
          · have := hgt s hs
            omega

/-! ## 3. Tracks -/

/-- An array of points with a name. Two arrays of the same name hold the same points. -/
structure NamedPoints (W : Type) where
  name : Nat
  points : Array (GeoPoint W)

/-- The points, colors and tour starts of all the tours of a layer. -/
structure TrackData (W : Type) where
  source : NamedPoints W
  colors : Array Color
  tourStarts : List Nat
  colors_size : colors.size = source.points.size
  starts_lt : ∀ s ∈ tourStarts, s < source.points.size
  starts_increasing : tourStarts.Pairwise (· < ·)

namespace TrackData

variable {W : Type}

def points (t : TrackData W) : Array (GeoPoint W) := t.source.points

def empty : TrackData W where
  source := ⟨0, #[]⟩
  colors := #[]
  tourStarts := []
  colors_size := rfl
  starts_lt := by simp
  starts_increasing := .nil

/-- The track with the given points, colors and tour starts, if they belong together. -/
def new (source : NamedPoints W) (colors : Array Color) (tourStarts : List Nat) :
    Except TrackError (TrackData W) :=
  if hc : colors.size = source.points.size then
    match hs : checkStarts source.points.size none tourStarts with
    | .ok () => .ok {
        source, colors, tourStarts
        colors_size := hc
        starts_lt := (checkStarts_ok hs).1
        starts_increasing := (checkStarts_ok hs).2.2 }
    | .error e => .error e
  else
    .error (.colorCountMismatch source.points.size colors.size)

def size (t : TrackData W) : Nat := t.points.size

def isEmpty (t : TrackData W) : Bool := t.size == 0

/-- The indices at which a tour follows another one. -/
def boundaries (t : TrackData W) : List Nat := t.tourStarts.dropWhile (· == 0)

def tourCount (t : TrackData W) : Nat :=
  if t.isEmpty then 0
  else if t.tourStarts.head? = some 0 then t.tourStarts.length
  else t.tourStarts.length + 1

end TrackData

/-! ## 4. Tours -/

/-- One tour: points in the order of recording, with a color for each of them. -/
structure Tour (W : Type) where
  points : Array (GeoPoint W)
  colors : Array Color
  deriving DecidableEq

namespace Tour

variable {W : Type}

def withColor (points : Array (GeoPoint W)) (color : Color) : Tour W :=
  ⟨points, Array.replicate points.size color⟩

end Tour

structure Concatenation (W : Type) where
  points : Array (GeoPoint W)
  colors : Array Color
  /-- The index of the first point of each tour, from the last tour to the first. -/
  starts : List Nat

namespace Concatenation

variable {W : Type}

def empty : Concatenation W := ⟨#[], #[], []⟩

/-- Appends a tour. One without points leaves no trace; one with a color too few or too many is
refused. -/
def append (c : Concatenation W) (tour : Tour W) : Except TrackError (Concatenation W) :=
  if tour.points.size ≠ tour.colors.size then
    .error (.colorCountMismatch tour.points.size tour.colors.size)
  else if tour.points.isEmpty then .ok c
  else .ok ⟨c.points ++ tour.points, c.colors ++ tour.colors, c.points.size :: c.starts⟩

end Concatenation

namespace TrackData

variable {W : Type}

/-- The track of the given tours, its array of points under the given name. -/
def ofTours (name : Nat) (tours : List (Tour W)) : Except TrackError (TrackData W) := do
  let all ← tours.foldlM Concatenation.append Concatenation.empty
  new ⟨name, all.points⟩ all.colors all.starts.reverse

/-- The pieces of a list between the given indices, which count from `first` at its head. -/
def cutAt {α : Type} : (first : Nat) → (indices : List Nat) → List α → List (List α)
  | _, [], xs => [xs]
  | first, i :: rest, xs => xs.take (i - first) :: cutAt i rest (xs.drop (i - first))

def tours (t : TrackData W) : List (Tour W) :=
  if t.isEmpty then []
  else
    let points := cutAt 0 t.boundaries t.points.toList
    let colors := cutAt 0 t.boundaries t.colors.toList
    (points.zip colors).map fun (ps, cs) => ⟨ps.toArray, cs.toArray⟩

variable [Mercator W]

/-- The corners of the smallest upright rectangle of the map around all the points. -/
def boundingBox (t : TrackData W) : Option (Point W × Point W) :=
  t.points.foldl (fun box p =>
    let q := p.project
    match box with
    | none => some (q, q)
    | some (lo, hi) =>
      some (⟨Arithmetic.min lo.x q.x, Arithmetic.min lo.y q.y⟩,
        ⟨Arithmetic.max hi.x q.x, Arithmetic.max hi.y q.y⟩)) none

def center (t : TrackData W) : Option (GeoPoint W) :=
  t.boundingBox.map fun (lo, hi) =>
    .unproject ⟨(lo.x + hi.x) / Arithmetic.ofInt 2, (lo.y + hi.y) / Arithmetic.ofInt 2⟩

end TrackData

end TourMap
