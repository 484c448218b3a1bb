import TourMap.Animation
import TourMap.CommandLine.Options

/-!
# Program: from a command line to a picture

The program loads the tours that its command line names, gives each of them a color, and shows them
around the center of their bounding box.
-/

namespace TourMap

structure Drawing where
  picture : Picture Double Single
  width : Nat
  height : Nat
  output : String

structure Summary where
  loaded : Nat
  /-- The number of files that could not be read. -/
  failed : Nat
  noPoint : Bool
  drawing : Drawing

inductive Outcome where
  | refused (refusal : CommandLine.Refusal)
  | failed (error : TrackError)
  | drawn (summary : Summary)

namespace Program

def paint (color : Nat → Color) (tours : List Places) : List (Tour Double) :=
  tours.zipIdx.map fun (places, i) => .withColor places.toArray (color i)

/-- The point that the map shows at first: without any point, the place at latitude and longitude
zero. -/
def centerOf (track : TrackData Double) : GeoPoint Double :=
  track.center.getD ⟨.zero false, .zero false⟩

def draw (options : CommandLine.Options) (track : TrackData Double) : Drawing where
  picture := Animation.run (options.config.getD .default) track
    (.ofGeo (centerOf track) options.zoom) ⟨options.panX, options.panY⟩ options.frames
  width := options.width
  height := options.height
  output := options.output

/-- What the program does once its command line was read. The colors are drawn at random, and which
file is read first is up to the `pick`. -/
def carryOut (files : CommandLine.FileSystem) (color : Nat → Color) (pick : Nat → Nat)
    (invocation : CommandLine.Invocation) : Outcome :=
  let options := invocation.options
  let (tours, failed) :=
    loadTours invocation.format options.parallelRequests pick (invocation.files.map files)
  match TrackData.ofTours 1 (paint color tours) with
  | .error e => .failed e
  | .ok track => .drawn ⟨tours.length, failed, track.center.isNone, draw options track⟩

def run (files : CommandLine.FileSystem) (color : Nat → Color) (pick : Nat → Nat)
    (words : List String) : Outcome :=
  match CommandLine.parse files words with
  | .error refusal => .refused refusal
  | .ok invocation => carryOut files color pick invocation

end Program

/-- The number that tells whoever runs the program how it ended. -/
def Outcome.exitCode : Outcome → Nat
  | refused refusal => refusal.exitCode
  | failed _ => 1
  | drawn _ => 0

end TourMap
