import TourMap.Geometry.Mercator

/-!
# Position: where a map is looked at

A `MapPosition` is the point of the world at the center of the window, with a zoom level. At level
`z` the world is `2 ^ z` tiles of 256 pixels wide. A `RenderTransform` places what was computed for
one position into the window at another one.
-/

namespace TourMap

open Arithmetic

/-! ## 1. Tiles -/

def tileSize : Nat := 256

def maxZoom : Nat := 24

/-- A tile of the level `z`, counted from the North-West. -/
structure TileIndex where
  z : Nat
  x : Nat
  y : Nat
  deriving DecidableEq

/-- An upright rectangle of the world. -/
structure Rect (W : Type) where
  left : W
  top : W
  width : W
  height : W
  deriving DecidableEq

/-- The part of the world that a tile covers. The level is a signed word of 32 bits. -/
def TileIndex.rect {W : Type} [Arithmetic W] (t : TileIndex) : Rect W :=
  let size : W := exp2 (-Int.bmod t.z 4294967296)
  { left := ofInt t.x * size, top := ofInt t.y * size, width := size, height := size }

/-! ## 2. Positions -/

/-- The center of a window and its zoom level. -/
structure MapPosition (W : Type) where
  x : W
  y : W
  zoom : Nat
  deriving DecidableEq

namespace MapPosition

variable {W : Type}

/-- The position at a point of the world; too great a zoom level is taken as the greatest one. -/
def ofPoint (p : Point W) (zoom : Nat) : MapPosition W := ⟨p.x, p.y, Nat.min zoom maxZoom⟩

def ofGeo [Mercator W] (center : GeoPoint W) (zoom : Nat) : MapPosition W :=
  ofPoint center.project zoom

variable [Arithmetic W]

/-- The North-West corner of the world, at level zero. -/
def corner : MapPosition W := ⟨ofInt 0, ofInt 0, 0⟩

/-- The zoom level, no more than the greatest one. -/
def level (p : MapPosition W) : Nat := Nat.min p.zoom maxZoom

def scale (p : MapPosition W) : W := exp2 p.level

def worldPixels (p : MapPosition W) : W := ofInt tileSize * p.scale

/-- The index along one axis of the tile at `v`: the last tile also holds its far border. -/
def tileAlong (p : MapPosition W) (v : W) : Nat :=
  (toInt (clamp (floor (v * p.scale)) (ofInt 0) (p.scale - ofInt 1))).toNat

/-- The tile at the center. -/
def tileIndex (p : MapPosition W) : TileIndex :=
  { z := p.level, x := p.tileAlong p.x, y := p.tileAlong p.y }

/-- The position moved by so many pixels: around the world along one axis, up to its border along
the other. -/
def panPixels (p : MapPosition W) (dx dy : W) : MapPosition W :=
  { p with
    x := fract (p.x + dx / p.worldPixels)
    y := clamp (p.y + dy / p.worldPixels) (ofInt 0) (ofInt 1) }

end MapPosition

/-! ## 3. Transforms -/

/-- A scaling followed by a translation, in pixels from the center of a window. -/
structure RenderTransform (W : Type) where
  translate : Point W
  scale : W
  deriving DecidableEq

namespace RenderTransform

variable {W N : Type} [Arithmetic W]

def identity : RenderTransform W := ⟨.origin, ofInt 1⟩

/-- Places pixels computed for the position `built` into the window at `viewport`. Along the
horizontal axis the nearer way around the world is taken. -/
def between (built viewport : MapPosition W) : RenderTransform W :=
  let dx := built.x - viewport.x
  let dy := built.y - viewport.y
  { translate :=
      { x := (dx - round dx) * viewport.worldPixels
        y := dy * viewport.worldPixels }
    scale := viewport.scale / built.scale }

/-- Where a pixel is placed. -/
def apply [Resolution W N] (t : RenderTransform W) (p : Point N) : Point W :=
  { x := widen p.x * t.scale + t.translate.x
    y := widen p.y * t.scale + t.translate.y }

end RenderTransform

end TourMap
