import TourMap.TrackFile.GeoJson
import TourMap.TrackFile.Gpx
import TourMap.TrackFile.Pool

/-!
# Load: the tours of several files

Files are read in parallel, and each file that was read is kept under its number, so that the tours
come out in the order of the files, whatever file is read first (`assemble`). A file that cannot be
read is left out.
-/

namespace TourMap

inductive TrackFormat where
  /-- Each segment of a track is a tour. -/
  | gpx
  /-- Each line string is a tour. -/
  | geoJson
  deriving DecidableEq

inductive TrackFileError where
  | gpx (error : GpxError)
  | geoJson (error : GeoJson.FileError)

abbrev Places := List (GeoPoint Double)

def TrackFormat.read (format : TrackFormat) (content : Option (List UInt8)) :
    Except TrackFileError (List Places) :=
  match format with
  | .gpx => (Gpx.ofFile content).mapError .gpx
  | .geoJson => (GeoJson.ofFile content).mapError .geoJson

/-- What came of a file: its tours, if it could be read. -/
structure FileTours where
  /-- The number of the file among the files. -/
  file : Nat
  tours : Option (List Places)

/-- The tours of the files that were read, in the order of the files. -/
def assemble (files : List FileTours) : List Places :=
  let read := files.filter (·.tours.isSome)
  let ordered := read.mergeSort fun a b => a.file ≤ b.file
  (ordered.flatMap fun o => o.tours.getD []).filter (!·.isEmpty)

def readAll (format : TrackFormat) (files : List (Option (List UInt8))) : List FileTours :=
  files.zipIdx.map fun (content, number) => ⟨number, (format.read content).toOption⟩

/-- The tours of files of which only so many are read at a time, and the number of files that could
not be read. The `pick` decides which file is read first. -/
def loadTours (format : TrackFormat) (parallel : Nat) (pick : Nat → Nat)
    (files : List (Option (List UInt8))) : List Places × Nat :=
  let ended := completions parallel pick (readAll format files)
  (assemble ended, ended.countP (·.tours.isNone))

end TourMap
