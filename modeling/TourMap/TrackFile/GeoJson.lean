import TourMap.Geometry.Mercator
import TourMap.Json.Value

/-!
# GeoJson: tours in GeoJSON documents

A document is a geometry, a feature or a collection of features. Everything that the format gives a
meaning to is checked, in a fixed order, and the first defect is reported; each line string, also
inside of collections, is a tour (`GeoJson.tours`).
-/

namespace TourMap

/-! ## 1. Documents -/

/-- A position: at least two numbers, the longitude first. -/
structure GeoPosition where
  longitude : Double
  latitude : Double
  more : List Double
  deriving DecidableEq

/-- A shape. -/
inductive Geometry where
  | point (position : GeoPosition)
  | multiPoint (positions : List GeoPosition)
  | lineString (positions : List GeoPosition)
  | multiLineString (lines : List (List GeoPosition))
  | polygon (rings : List (List GeoPosition))
  | multiPolygon (polygons : List (List (List GeoPosition)))
  | collection (geometries : List Geometry)

/-- A thing with a shape, if it has any. -/
structure Feature where
  geometry : Option Geometry

inductive GeoJson where
  | geometry (g : Geometry)
  | feature (f : Feature)
  | featureCollection (features : List Feature)

/-- Why a JSON object is no GeoJSON document. -/
inductive GeoJsonError where
  | bboxExpectedArray
  | bboxExpectedNumericValues
  | emptyType
  | expectedArrayValue
  | expectedF64Value
  | expectedObjectValue
  | expectedProperty
  | expectedStringValue
  | featureInvalidGeometryValue
  | featureInvalidIdentifierType
  | geometryUnknownType
  | notAFeature
  | positionTooShort
  | propertiesExpectedObjectOrNull
  deriving DecidableEq

/-! ## 2. Reading a document -/

namespace GeoJson

open Json

abbrev Result := Except GeoJsonError

def required (name : String) (members : Members) : Result Value :=
  match members.get? name with
  | some value => .ok value
  | none => .error .expectedProperty

def elements : Value → Result (List Value)
  | .array values => .ok values
  | _ => .error .expectedArrayValue

/-- The number that a value must be. -/
def coordinate : Value → Result Double
  | .number n => .ok (n.toBinary double)
  | _ => .error .expectedF64Value

/-- The position that a value must be. -/
def position (value : Value) : Result GeoPosition := do
  match ← elements value with
  | first :: second :: more =>
    return ⟨← coordinate first, ← coordinate second, ← more.mapM coordinate⟩
  | _ => throw .positionTooShort

def positions (value : Value) : Result (List GeoPosition) := do
  (← elements value).mapM position

def lines (value : Value) : Result (List (List GeoPosition)) := do
  (← elements value).mapM positions

/-- The type of an object inside of a document. -/
def typeOf (members : Members) : Result String := do
  match ← required "type" members with
  | .string s => return s
  | _ => throw .expectedStringValue

def checkBox (members : Members) : Result Unit :=
  match members.get? "bbox" with
  | none => .ok ()
  | some .null => .ok ()
  | some (.array values) =>
    if values.all fun v => match v with | .number _ => true | _ => false then .ok ()
    else .error .bboxExpectedNumericValues
  | some _ => .error .bboxExpectedArray

def checkProperties (members : Members) : Result Unit :=
  match members.get? "properties" with
  | none => .ok ()
  | some .null => .ok ()
  | some (.object _) => .ok ()
  | some _ => .error .propertiesExpectedObjectOrNull

def checkId (members : Members) : Result Unit :=
  match members.get? "id" with
  | none => .ok ()
  | some (.number _) => .ok ()
  | some (.string _) => .ok ()
  | some _ => .error .featureInvalidIdentifierType

/-- The shape that a value describes, which must be an object: its bounding box is checked first,
then its type, then what belongs to that type. -/
def geometryOf (value : Value) : Result Geometry :=
  match value with
  | .object members => do
    checkBox members
    match ← typeOf members with
    | "Point" => return .point (← position (← required "coordinates" members))
    | "MultiPoint" => return .multiPoint (← positions (← required "coordinates" members))
    | "LineString" => return .lineString (← positions (← required "coordinates" members))
    | "MultiLineString" => return .multiLineString (← lines (← required "coordinates" members))
    | "Polygon" => return .polygon (← lines (← required "coordinates" members))
    | "MultiPolygon" =>
      return .multiPolygon (← (← elements (← required "coordinates" members)).mapM lines)
    | "GeometryCollection" =>
      match _h : Members.get? "geometries" members with
      | none => throw .expectedProperty
      | some (.array values) =>
        return .collection (← values.attach.mapM fun (v : { v // v ∈ values }) => geometryOf v.1)
      | some _ => throw .expectedArrayValue
    | _ => throw .geometryUnknownType
  | _ => .error .expectedObjectValue
termination_by sizeOf value
decreasing_by
  have hv := List.sizeOf_lt_of_mem v.2
  have hm := Members.sizeOf_get? _h
  simp only [Value.array.sizeOf_spec] at hm
  simp only [Value.object.sizeOf_spec]
  omega

/-- The feature that an object describes: its shape is read first, then its other members are
checked. -/
def featureOfMembers (members : Members) : Result Feature := do
  if (← typeOf members) = "Feature" then
    let shape ← match ← required "geometry" members with
      | .null => pure none
      | .object m => some <$> geometryOf (.object m)
      | _ => throw .featureInvalidGeometryValue
    checkProperties members
    checkId members
    checkBox members
    return ⟨shape⟩
  else throw .notAFeature

def featureOf : Value → Result Feature
  | .object members => featureOfMembers members
  | _ => .error .expectedObjectValue

def geometryTypes : List String :=
  ["Point", "MultiPoint", "LineString", "MultiLineString", "Polygon", "MultiPolygon",
    "GeometryCollection"]

def ofMembers (members : Members) : Result GeoJson :=
  match members.get? "type" with
  | some (.string type) => do
    if type = "Feature" then return .feature (← featureOfMembers members)
    else if type = "FeatureCollection" then
      checkBox members
      let values ← elements (← required "features" members)
      return .featureCollection (← values.mapM featureOf)
    else if type ∈ geometryTypes then return .geometry (← geometryOf (.object members))
    else throw .emptyType
  | _ => .error .geometryUnknownType

/-! ## 3. Tours -/

def place (p : GeoPosition) : GeoPoint Double := ⟨p.latitude, p.longitude⟩

mutual

/-- The lines of a shape. -/
def linesOf : Geometry → List (List GeoPosition)
  | .lineString line => [line]
  | .multiLineString lines => lines
  | .collection geometries => linesOfAll geometries
  | .point _ => []
  | .multiPoint _ => []
  | .polygon _ => []
  | .multiPolygon _ => []

def linesOfAll : List Geometry → List (List GeoPosition)
  | [] => []
  | g :: rest => linesOf g ++ linesOfAll rest

end

def linesOfFeature (f : Feature) : List (List GeoPosition) :=
  match f.geometry with
  | some g => linesOf g
  | none => []

def allLines : GeoJson → List (List GeoPosition)
  | .geometry g => linesOf g
  | .feature f => linesOfFeature f
  | .featureCollection features => features.flatMap linesOfFeature

def tours (document : GeoJson) : List (List (GeoPoint Double)) :=
  document.allLines.map fun line => line.map place

/-! ## 4. Files -/

inductive FileError where
  | missing
  | unreadable (fault : Fault)
  | invalid (error : GeoJsonError)
  deriving DecidableEq

def FileError.message : FileError → String
  | missing => "Failed to open GeoJSON file"
  | unreadable _ => "Failed to parse GeoJSON file"
  | invalid _ => "Failed to parse GeoJSON file"

/-- The tours in a text. What follows the object is looked at last. -/
def ofOctets (octets : List UInt8) : Except FileError (List (List (GeoPoint Double))) :=
  match takeObject (Json.ofOctets octets) with
  | .error fault => .error (.unreadable fault)
  | .ok (members, rest) =>
    match ofMembers members with
    | .error e => .error (.invalid e)
    | .ok document =>
      match endText rest with
      | .error fault => .error (.unreadable fault)
      | .ok _ => .ok document.tours

def ofFile (content : Option (List UInt8)) : Except FileError (List (List (GeoPoint Double))) :=
  match content with
  | none => .error .missing
  | some octets => ofOctets octets

end GeoJson

end TourMap
