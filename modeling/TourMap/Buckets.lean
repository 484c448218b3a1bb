import TourMap.Config
import TourMap.Geometry.Point

/-!
# Buckets: the geometry handed over to be drawn

A `LineBucket` holds any number of lines in one buffer of vertices and one of colors, with the
offset at which each line ends, and the positions of direction arrows. `LineBucket.lines` cuts the
buffers apart again, and `LineBucket.compile` turns them into the fixed-point numbers that a
graphics processor takes. `RenderBuckets` is empty or holds one line bucket.
-/

namespace TourMap

/-! ## 1. Lines -/

structure Vertex (N : Type) where
  point : Point N
  color : Color
  deriving DecidableEq

/-- Lines that share their buffers. -/
structure LineBucket (N : Type) where
  style : LineStyle N
  vertices : Array (Point N)
  colors : Array Color
  /-- The index after the last vertex of each line. -/
  lineEnds : Array Nat
  arrows : Array (Point N)
  deriving DecidableEq

/-- A bucket ready to be uploaded: pixels are counted in eighths. -/
structure CompiledLines where
  positions : Array (Point Int)
  colors : Array Color
  lineEnds : Array UInt32
  arrows : Array (Point Int)
  deriving DecidableEq

namespace LineBucket

variable {N : Type}

def new (style : LineStyle N) : LineBucket N := ⟨style, #[], #[], #[], #[]⟩

def reset (b : LineBucket N) : LineBucket N := new b.style

/-- Appends a line. A single vertex makes no line. -/
def addLine (b : LineBucket N) (line : Array (Vertex N)) : LineBucket N :=
  if line.size < 2 then b
  else
    { b with
      vertices := b.vertices ++ line.map (·.point)
      colors := b.colors ++ line.map (·.color)
      lineEnds := b.lineEnds.push (b.vertices.size + line.size) }

def setArrows (b : LineBucket N) (arrows : Array (Point N)) : LineBucket N := { b with arrows }

/-- The number of lines. -/
def lineCount (b : LineBucket N) : Nat := b.lineEnds.size

def vertexCount (b : LineBucket N) : Nat := b.vertices.size

/-- The vertices from the index `start` up to the index `stop`. -/
def slice (b : LineBucket N) (start stop : Nat) : Array (Vertex N) :=
  ((b.vertices.extract start stop).zip (b.colors.extract start stop)).map fun (p, c) => ⟨p, c⟩

/-- The lines between the given ends, the first of which begins at `start`. -/
def linesFrom (b : LineBucket N) : (start : Nat) → (ends : List Nat) → List (Array (Vertex N))
  | _, [] => []
  | start, stop :: rest => b.slice start stop :: b.linesFrom stop rest

def lines (b : LineBucket N) : List (Array (Vertex N)) := b.linesFrom 0 b.lineEnds.toList

/-! ## 2. Compiling -/

/-- How many units of a compiled coordinate make a pixel. -/
def coordScale : Nat := 8

variable [Arithmetic N]

open Arithmetic in
/-- A coordinate in eighths of a pixel, rounded to an integer of 16 bits. -/
def toFixedPoint (v : N) : Int :=
  toInt (clamp (round (v * ofInt coordScale)) (ofInt (-32768)) (ofInt 32767))

def compilePoint (p : Point N) : Point Int := ⟨toFixedPoint p.x, toFixedPoint p.y⟩

/-- The bucket in fixed-point numbers. The lines of a solid style all have its color. -/
def compile (b : LineBucket N) : CompiledLines where
  positions := b.vertices.map compilePoint
  colors :=
    match b.style.colorMode with
    | .solid => Array.replicate b.colors.size b.style.color
    | .gradient => b.colors
  lineEnds := b.lineEnds.map UInt32.ofNat
  arrows := b.arrows.map compilePoint

end LineBucket

/-! ## 3. Buckets -/

/-- What is drawn for one position of the map. -/
structure RenderBuckets (N : Type) where
  lineBucket : Option (LineBucket N)
  deriving DecidableEq

namespace RenderBuckets

variable {N : Type}

def empty : RenderBuckets N := ⟨none⟩

def toList (b : RenderBuckets N) : List (LineBucket N) := b.lineBucket.toList

def isEmpty (b : RenderBuckets N) : Bool := b.lineBucket.isNone

/-- Gives all buckets another style and leaves their geometry alone. -/
def setStyle (b : RenderBuckets N) (style : LineStyle N) : RenderBuckets N :=
  ⟨b.lineBucket.map fun l => { l with style }⟩

variable [Arithmetic N]

/-- The line bucket, a new one in the default style if there is none. -/
def lineBucketOrNew (b : RenderBuckets N) : LineBucket N := b.lineBucket.getD (.new .default)

/-- Changes the line bucket, after it was created if there was none. -/
def modifyLines (b : RenderBuckets N) (f : LineBucket N → LineBucket N) : RenderBuckets N :=
  ⟨some (f b.lineBucketOrNew)⟩

end RenderBuckets

end TourMap
