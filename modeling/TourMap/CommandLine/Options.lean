import TourMap.CommandLine.Argument
import TourMap.Config.Json
import TourMap.TrackFile.Load

/-!
# Options: the command line of the program

The options come first, then a command that names the format of the track files, then the files.
`parse` needs to look into the configuration file, if there is one.
-/

namespace TourMap.CommandLine

/-! ## 1. Options -/

structure Options where
  config : Option (TrackConfig Single)
  zoom : Nat
  frames : Nat
  /-- How far the map moves between two frames, in pixels. -/
  panX : Double
  panY : Double
  /-- How long a frame is shown, in milliseconds. -/
  frameMillis : Nat
  width : Nat
  height : Nat
  output : String
  parallelRequests : Nat

def Options.default : Options where
  config := none
  zoom := 12
  frames := 60
  panX := .zero false
  panY := .zero false
  frameMillis := 16
  width := 1024
  height := 768
  output := "tours.png"
  parallelRequests := 10

structure Invocation where
  format : TrackFormat
  files : List String
  options : Options

/-- What a path leads to, if there is a file. -/
abbrev FileSystem := String → Option (List UInt8)

/-! ## 2. Values -/

/-- The integer between two limits that a text writes. -/
def between (low high : Nat) (text : String) : Except Refusal Nat :=
  match DecimalText.integer? text.toList with
  | some n => if low ≤ n ∧ n ≤ high then .ok n.toNat else .error .valueRefused
  | none => .error .valueRefused

/-- The integer of 64 bits that a text without a minus sign writes. -/
def natural (text : String) : Except Refusal Nat :=
  if text.toList.head? = some '-' then .error .valueRefused
  else between 0 18446744073709551615 text

def number (text : String) : Except Refusal Double :=
  match Binary.ofText? double text.toList with
  | some x => .ok x
  | none => .error .valueRefused

/-! ## 3. Levels -/

def helpFlag : Flag := ⟨"help", 'h', .help⟩

def formats : List (String × TrackFormat) := [("gpx", .gpx), ("geojson", .geoJson)]

def optionLevel (files : FileSystem) : Level Options where
  options := [
    ⟨"track-config", none, false, false, fun path o => do
      match TrackConfig.ofFile (files path) with
      | .ok config => return { o with config := some config }
      | .error _ => throw .configUnreadable⟩,
    ⟨"zoom", some 'z', false, false, fun text o => do
      return { o with zoom := ← between 0 24 text }⟩,
    ⟨"frames", none, false, false, fun text o => do
      return { o with frames := ← between 1 100000 text }⟩,
    ⟨"pan-x", none, true, false, fun text o => do return { o with panX := ← number text }⟩,
    ⟨"pan-y", none, true, false, fun text o => do return { o with panY := ← number text }⟩,
    ⟨"frame-millis", none, false, false, fun text o => do
      return { o with frameMillis := ← natural text }⟩,
    ⟨"width", none, false, false, fun text o => do
      return { o with width := ← between 16 8192 text }⟩,
    ⟨"height", none, false, false, fun text o => do
      return { o with height := ← between 16 8192 text }⟩,
    ⟨"output", some 'o', false, false, fun text o => .ok { o with output := text }⟩,
    ⟨"parallel-requests", none, false, false, fun text o => do
      return { o with parallelRequests := ← between 1 100 text }⟩]
  flags := [helpFlag, ⟨"version", 'V', .version⟩]
  commands := "help" :: formats.map Prod.fst

def splitCommas (text : String) : List String :=
  (text.toList.splitOn ',').map String.ofList

/-- What may be given after the command: files, in one value or several. -/
def fileLevel : Level (List String) where
  options := [⟨"file", some 'f', false, true, fun text files => .ok (files ++ splitCommas text)⟩]
  flags := [helpFlag]
  commands := []

/-! ## 4. The command line -/

def Reading.new {σ : Type} (values : σ) : Reading σ := ⟨values, [], none⟩

def parseFiles (words : List String) : Except Refusal (List String) := do
  let (r, _) ← fileLevel.read false (.new []) words
  let r ← r.settle
  if r.given.isEmpty then throw .optionMissing else return r.values

/-- What asking for help on some words leads to. -/
def helpFor : List String → Refusal
  | [] => .help
  | [word] => if (optionLevel fun _ => none).commands.contains word then .help else .unknownCommand
  | _ => .unknownCommand

/-- The paths that some words may give for the configuration file. -/
def configPaths : List String → List String
  | [] => []
  | [word] => match Argument.of word with
    | .long "track-config" (some path) => [path]
    | _ => []
  | word :: next :: rest => match Argument.of word with
    | .long "track-config" (some path) => path :: configPaths (next :: rest)
    | .long "track-config" none => next :: configPaths (next :: rest)
    | _ => configPaths (next :: rest)

/-- What a command line without the name of the program asks for. The value of the last option
before the command is looked at last. -/
def parse (files : FileSystem) (words : List String) : Except Refusal Invocation := do
  let (r, command) ← (optionLevel files).read false (.new .default) words
  match command with
  | none =>
    let r ← r.settle
    throw (if r.given.isEmpty then .nothingGiven else .commandMissing)
  | some (name, rest) =>
    match formats.lookup name with
    | none => throw (helpFor rest)
    | some format =>
      let paths ← parseFiles rest
      let r ← r.settle
      return ⟨format, paths, r.values⟩

end TourMap.CommandLine
