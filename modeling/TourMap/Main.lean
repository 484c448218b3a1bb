import TourMap.Program

/-!
# Main: the program at a terminal

Reads the files that the command line names and says what was drawn. The picture itself is not
written: the lines, arrows and transform of a `Drawing` are all that a canvas needs.
-/

namespace TourMap.Terminal

/-- What a file holds, if it can be read. -/
def readOctets? (path : String) : IO (Option (List UInt8)) := do
  try return some (← IO.FS.readBinFile path).toList
  catch _ => return none

def readPaths (paths : List String) : IO CommandLine.FileSystem := do
  let contents ← paths.mapM fun path => return (path, ← readOctets? path)
  return fun path => (contents.lookup path).join

def usage : String :=
  "Usage: tourmap [OPTIONS] <gpx|geojson> --file <FILE>[,<FILE>...]

Options:
      --track-config <FILE>     the appearance of the tours, in JSON
  -z, --zoom <0..24>            the zoom level (12)
      --frames <1..100000>      how many frames to show (60)
      --pan-x <PIXELS>          how far the map moves between two frames (0)
      --pan-y <PIXELS>
      --frame-millis <N>        how long a frame is shown (16)
      --width <16..8192>        the size of the picture (1024 x 768)
      --height <16..8192>
  -o, --output <FILE>           the path of the picture (tours.png)
      --parallel-requests <1..100>
                                how many files to read at a time (10)
  -h, --help
  -V, --version"

/-- What a user is told about a command line that is not carried out. -/
def describe : CommandLine.Refusal → String
  | .help => usage
  | .nothingGiven => usage
  | .version => "tourmap 0.1.0"
  | .unknownArgument => "There is an argument that has no meaning here."
  | .unknownCommand => "There is no such command: use gpx or geojson."
  | .commandMissing => "A command is missing: use gpx or geojson."
  | .optionMissing => "At least one file has to be given with --file."
  | .valueMissing => "The value of an option is missing."
  | .valueUnneeded => "An option that has no value is given one."
  | .valueRefused => "The value of an option is out of range."
  | .repeated => "An option is given more than once."
  | .configUnreadable => "The track configuration cannot be used."

def report : Outcome → String
  | .refused refusal => describe refusal
  | .failed error => "Failed to assemble tours: " ++ error.message
  | .drawn summary =>
    let lines := match summary.drawing.picture.buckets.lineBucket with
      | some bucket => toString bucket.lineCount ++ " lines with " ++
        toString bucket.vertexCount ++ " vertices"
      | none => "nothing"
    "Loaded " ++ toString summary.loaded ++ " tours, could not read " ++
      toString summary.failed ++ " files, drew " ++ lines ++ " for " ++ summary.drawing.output

def run (words : List String) : IO Outcome := do
  let configs ← readPaths (CommandLine.configPaths words)
  match CommandLine.parse configs words with
  | .error refusal => return .refused refusal
  | .ok invocation =>
    let seed ← IO.rand 0 1000000
    let files ← readPaths invocation.files
    return Program.carryOut files (Color.randomAt (mkStdGen seed)) (fun _ => 0) invocation

end TourMap.Terminal

def main (words : List String) : IO UInt32 := do
  let outcome ← TourMap.Terminal.run words
  IO.println (TourMap.Terminal.report outcome)
  return UInt32.ofNat outcome.exitCode
