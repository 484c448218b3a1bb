import TourMap.Geometry.Mercator
import TourMap.Number.Decimal
import TourMap.Xml.Reader

/-!
# Gpx: tours in GPX documents

The root element holds tracks, a track holds segments, a segment holds points, and each segment is a
tour. Whatever else a document holds is skipped, but the tracks of a document must follow each other
directly, and so must the segments of a track and the points of a segment. A document is read from
its front, and the first defect decides (`Gpx.ofReading`).
-/

namespace TourMap

inductive GpxError where
  | missing
  | malformed
  | notANumber
  | lacks (name : String)
  /-- Something stands between two elements of this name. -/
  | apart (name : String)
  deriving DecidableEq

namespace GpxError

def message : GpxError → String
  | missing => "Failed to open GPX file"
  | _ => "Failed to parse GPX file"

/-- What a user is told about the content of a document. -/
def detail? : GpxError → Option String
  | lacks name => some ("missing field `@" ++ name ++ "`")
  | apart name => some ("duplicate field `" ++ name ++ "`")
  | _ => none

end GpxError

namespace Gpx

open Xml (Event Name Attribute Reading)

/-! ## 1. Elements that have a meaning -/

/-- An element that has a meaning, with the coordinates of a point as far as they are given. -/
inductive Element where
  | document
  | track
  | segment
  | point (latitude longitude : Option Double)
  deriving DecidableEq

/-- The name of the elements that have a meaning inside of an element. -/
def Element.childName? : Element → Option String
  | .document => some "trk"
  | .track => some "trkseg"
  | .segment => some "trkpt"
  | .point _ _ => none

def coordinate? (name : String) (attributes : List Attribute) :
    Except GpxError (Option Double) :=
  match attributes.find? fun a => a.name == Name.plain name with
  | none => .ok none
  | some a =>
    match Binary.ofText? double a.value with
    | some x => .ok (some x)
    | none => .error .notANumber

/-- The element of the expected name inside of an element. -/
def Element.child (parent : Element) (attributes : List Attribute) : Except GpxError Element :=
  match parent with
  | .document => .ok .track
  | .track => .ok .segment
  | _ => do return .point (← coordinate? "lat" attributes) (← coordinate? "lon" attributes)

/-! ## 2. Reading events -/

/-- Which elements of the expected name an open element has had. -/
inductive Children where
  /-- None so far. -/
  | absent
  /-- Some, and nothing after the last of them. -/
  | adjacent
  /-- Some, and something after them. -/
  | past
  deriving DecidableEq

def Children.interrupt : Children → Children
  | .absent => .absent
  | _ => .past

/-- An element that is open. -/
structure OpenElement where
  element : Element
  children : Children
  deriving DecidableEq

structure Progress where
  /-- The tours, the last one first. -/
  tours : List (List (GeoPoint Double))
  /-- The points of the segment that is open, the last one first. -/
  points : List (GeoPoint Double)
  /-- The elements with a meaning that are open, the innermost one first. -/
  opened : List OpenElement
  /-- How many elements without a meaning are open inside of them. -/
  unknown : Nat

def Progress.empty : Progress := ⟨[], [], [], 0⟩

def Progress.start (p : Progress) (outer : OpenElement) (others : List OpenElement) (name : Name)
    (attributes : List Attribute) : Except GpxError Progress :=
  match outer.element.childName? with
  | some expected =>
    if name = .plain expected then
      if outer.children = .past then .error (.apart expected)
      else do
        let child ← outer.element.child attributes
        return { p with opened := ⟨child, .absent⟩ :: { outer with children := .adjacent } :: others }
    else
      .ok { p with
        opened := { outer with children := outer.children.interrupt } :: others, unknown := 1 }
  | none => .ok { p with unknown := 1 }

def Progress.finish (p : Progress) (ended : Element) (others : List OpenElement) :
    Except GpxError Progress :=
  match ended with
  | .point (some latitude) (some longitude) =>
    .ok { p with points := ⟨latitude, longitude⟩ :: p.points, opened := others }
  | .point none _ => .error (.lacks "lat")
  | .point _ none => .error (.lacks "lon")
  | .segment =>
    .ok { p with tours := p.points.reverse :: p.tours, points := [], opened := others }
  | _ => .ok { p with opened := others }

def Progress.step (p : Progress) (event : Event) : Except GpxError Progress :=
  match p.unknown, p.opened, event with
  | n + 1, _, .start _ _ => .ok { p with unknown := n + 2 }
  | n + 1, _, .finish => .ok { p with unknown := n }
  | _ + 1, _, .text _ => .ok p
  | 0, [], .start _ _ => .ok { p with opened := [⟨.document, .absent⟩] }
  | 0, [], _ => .ok p
  | 0, outer :: others, .start name attributes => p.start outer others name attributes
  | 0, outer :: others, .finish => p.finish outer.element others
  | 0, outer :: others, .text _ =>
    .ok { p with opened := { outer with children := outer.children.interrupt } :: others }

def Progress.run (p : Progress) (events : List Event) : Except GpxError Progress :=
  events.foldlM Progress.step p

/-! ## 3. Documents -/

/-- The tours of a document, in its order. If it is malformed somewhere, a defect before that place
still goes first. -/
def ofReading (reading : Reading) : Except GpxError (List (List (GeoPoint Double))) :=
  match Progress.empty.run reading.events with
  | .error e => .error e
  | .ok p => if reading.complete then .ok p.tours.reverse else .error .malformed

def ofFile (content : Option (List UInt8)) : Except GpxError (List (List (GeoPoint Double))) :=
  match content with
  | none => .error .missing
  | some octets => ofReading (.ofOctets octets)

end Gpx

end TourMap
