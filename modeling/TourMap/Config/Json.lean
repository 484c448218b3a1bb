import TourMap.Config
import TourMap.Json.Scan

/-!
# Config.Json: configurations as JSON text

A configuration is an object whose members set fields, or an array of the first fields in the order
of `fields`. A field that is not set keeps its default; a member that sets no field is skipped. The
text is read from its front, and the first fault found decides.
-/

namespace TourMap.TrackConfig

open Json

/-! ## 1. Values of fields -/

def takeAnyNumber : Reader Number := do
  let c ← peekValue
  if c = '-' then
    discard take
    takeNumber true
  else if c.isDigit then takeNumber false
  else Json.mistyped

def takePixels : Reader Single := do return (← takeAnyNumber).toBinary single

def takeNatural (limit : Nat) : Reader Nat := do
  match ← takeAnyNumber with
  | .natural n => if n ≤ limit then return n else throw .mistyped
  | _ => throw .mistyped

def takeByte : Reader UInt8 := do return UInt8.ofNat (← takeNatural 255)

def takeBool : Reader Bool := do
  match ← peekValue with
  | 't' => discard take; takeWord "rue".toList; return true
  | 'f' => discard take; takeWord "alse".toList; return false
  | _ => Json.mistyped

def takePixels? : Reader (Option Single) := do
  match ← peekToken with
  | some 'n' => discard take; takeWord "ull".toList; return none
  | _ => return some (← takePixels)

def takeChannel (first : Bool) : Reader UInt8 := do
  if ← hasElement first then takeByte else throw .mistyped

def takeRgb : Reader Rgb := do
  if (← peekValue) = '[' then
    discard take
    let color : Rgb := ⟨← takeChannel true, ← takeChannel false, ← takeChannel false⟩
    endArray
    return color
  else Json.mistyped

/-- Takes a string that is one of the given names. -/
def takeName {α : Type} (names : List (String × α)) : Reader α := do
  if (← peekValue) = '"' then
    discard take
    match names.lookup (← takeString) with
    | some a => return a
    | none => throw .mistyped
  else Json.mistyped

/-- Takes one of the given names, as a string or as the only key of an object whose value is
`null`. -/
def takeVariant {α : Type} (names : List (String × α)) : Reader α := do
  match ← peekValue with
  | '"' => takeName names
  | '{' =>
    discard take
    if (← peekValue) ≠ '"' then throw .malformed
    let a ← takeName names
    takeColon
    if (← peekValue) = 'n' then
      discard take
      takeWord "ull".toList
    else Json.mistyped
    endObject
    return a
  | _ => throw .malformed

/-! ## 2. Fields -/

/-- Takes the value of a field; how it sets the field. -/
abbrev FieldReader := Reader (TrackConfig Single → TrackConfig Single)

/-- The fields with their names, in their order in an array. -/
def fields : List (String × FieldReader) := [
  ("line_color", do let x ← takeRgb; return fun c => { c with lineColor := x }),
  ("line_opacity", do let x ← takeByte; return fun c => { c with lineOpacity := x }),
  ("line_width", do let x ← takePixels; return fun c => { c with lineWidth := x }),
  ("line_color_mode", do
    let x ← takeVariant [("solid", ColorMode.solid), ("gradient", .gradient)]
    return fun c => { c with lineColorMode := x }),
  ("line_cap", do
    let x ← takeVariant [("butt", Cap.butt), ("round", .round), ("square", .square)]
    return fun c => { c with lineCap := x }),
  ("track_vertical_offset", do
    let x ← takePixels?; return fun c => { c with verticalOffset := x }),
  ("show_direction_arrows", do let x ← takeBool; return fun c => { c with showArrows := x }),
  ("arrow_min_distance", do let x ← takePixels; return fun c => { c with arrowDistance := x }),
  ("min_distance", do let x ← takePixels; return fun c => { c with minDistance := x }),
  ("clip_extent", do let x ← takePixels; return fun c => { c with clipExtent := x }),
  ("coalescing_delay_ms", do
    let x ← takeNatural maxNatural; return fun c => { c with coalescingDelay := x })]

/-- Takes the elements of an array as the given fields, until it ends. -/
def takeElements : (first : Bool) → List (String × FieldReader) → TrackConfig Single →
    Reader (TrackConfig Single)
  | _, [], c => return c
  | first, (_, field) :: rest, c => do
    if ← hasElement first then
      let set ← field
      takeElements false rest (set c)
    else return c

/-- Takes the members of an object until it ends; each takes a round. `seen` holds the fields that
were set, none of which may be set again. -/
def takeMembers : (rounds : Nat) → (first : Bool) → (seen : List String) → TrackConfig Single →
    Reader (TrackConfig Single)
  | 0, _, _, _ => throw .malformed
  | n + 1, first, seen, c => do
    if ← hasMember first then
      discard take
      let key ← takeString
      match fields.lookup key with
      | none =>
        takeColon
        skipValue
        takeMembers n false seen c
      | some field =>
        if seen.contains key then throw .mistyped
        takeColon
        let set ← field
        takeMembers n false (key :: seen) (set c)
    else return c

def takeConfig : Reader (TrackConfig Single) := do
  match ← peekValue with
  | '[' =>
    discard take
    let c ← takeElements true fields .default
    endArray
    return c
  | '{' =>
    discard take
    let c ← takeMembers ((← get).length + 1) true [] .default
    endObject
    return c
  | _ => Json.mistyped

/-- The configuration that a text describes, its tuning values as they are. -/
def ofJson (octets : List UInt8) : Except Fault (TrackConfig Single) := do
  let (config, _) ← (do let c ← takeConfig; endText; return c : Reader _) (Json.ofOctets octets)
  return config

/-! ## 3. Files -/

inductive FileError where
  | missing
  | unreadable (fault : Fault)
  deriving DecidableEq

def FileError.message : FileError → String
  | missing => "Failed to read track configuration from"
  | unreadable _ => "Failed to parse track configuration from"

def ofFile (content : Option (List UInt8)) : Except FileError (TrackConfig Single) :=
  match content with
  | none => .error .missing
  | some octets =>
    match ofJson octets with
    | .ok c => .ok c.sanitized
    | .error fault => .error (.unreadable fault)

end TourMap.TrackConfig
