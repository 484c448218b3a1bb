import TourMap.Style

/-!
# Config: the appearance and tuning of the tours

A `TrackConfig` is what a user can set. Its tuning values are brought into their ranges by
`sanitized`, and what the geometry needs of it are the `BuildSettings`.
-/

namespace TourMap

open Arithmetic

structure Rgb where
  red : UInt8
  green : UInt8
  blue : UInt8
  deriving DecidableEq

structure TrackConfig (N : Type) where
  lineColor : Rgb
  /-- The opacity of a solid line: 255 is opaque. -/
  lineOpacity : UInt8
  /-- The width of a line in pixels. -/
  lineWidth : N
  lineColorMode : ColorMode
  lineCap : Cap
  /-- The height of the tours above the ground, if there is any. -/
  verticalOffset : Option N
  showArrows : Bool
  /-- The distance between two arrows in pixels. -/
  arrowDistance : N
  /-- The distance in pixels that a point must have to the vertex before it, to become a vertex. -/
  minDistance : N
  /-- How far the geometry reaches from the center of the window, in pixels. -/
  clipExtent : N
  /-- How many milliseconds a computation waits for another request to replace it. -/
  coalescingDelay : Nat
  deriving DecidableEq

namespace TrackConfig

variable {N : Type} [Arithmetic N]

/-- The greatest clip extent: eight times as much still fits into 16 bits. -/
def maxClipExtent : N := ofInt 4095

def default : TrackConfig N where
  lineColor := ⟨128, 0, 255⟩
  lineOpacity := 192
  lineWidth := ofInt 4
  lineColorMode := .gradient
  lineCap := .round
  verticalOffset := none
  showArrows := false
  arrowDistance := ofInt 60
  minDistance := ofInt 3
  clipExtent := ofInt 2048
  coalescingDelay := 0

/-- The configuration with its tuning values in range: a clip extent between one pixel and the
greatest one, and no negative distance or width. A clip extent that is not a number stays. -/
def sanitized (c : TrackConfig N) : TrackConfig N :=
  { c with
    clipExtent := clamp c.clipExtent (ofInt 1) maxClipExtent
    minDistance := Arithmetic.max c.minDistance (ofInt 0)
    arrowDistance := Arithmetic.max c.arrowDistance (ofInt 0)
    lineWidth := Arithmetic.max c.lineWidth (ofInt 0) }

omit [Arithmetic N] in
def lineArgb (c : TrackConfig N) : Color :=
  .argb c.lineOpacity c.lineColor.red c.lineColor.green c.lineColor.blue

def style (c : TrackConfig N) : LineStyle N where
  width := c.lineWidth
  color := c.lineArgb
  cap := c.lineCap
  heightOffset := c.verticalOffset.getD (ofInt 0)
  fixed := true
  colorMode := c.lineColorMode

end TrackConfig

def LineStyle.default {N : Type} [Arithmetic N] : LineStyle N := TrackConfig.default.style

/-- What the geometry depends on besides the track and the position. -/
structure BuildSettings (N : Type) where
  /-- A point becomes a vertex if it is further than this from the last vertex, in pixels. -/
  minDistance : N
  /-- A point gets an arrow if it is further than this from the last arrow, in pixels. -/
  arrowDistance : N
  showArrows : Bool
  /-- How far the geometry reaches from the center, in pixels. -/
  clipExtent : N
  style : LineStyle N
  deriving DecidableEq

namespace BuildSettings

variable {N : Type} [Arithmetic N]

/-- The settings of a configuration, its tuning values brought into range. -/
def ofConfig (config : TrackConfig N) : BuildSettings N :=
  let c := config.sanitized
  { minDistance := c.minDistance
    arrowDistance := c.arrowDistance
    showArrows := c.showArrows
    clipExtent := c.clipExtent
    style := c.style }

/-- The settings of a user who sets nothing. -/
def default : BuildSettings N := ofConfig .default

end BuildSettings

end TourMap
