import TourMap.Number.Arithmetic

/-!
# Style: colors and the look of lines

A color is one word, alpha first, then red, green and blue. A line is drawn either in the one
color of its style or with the colors of its vertices.
-/

namespace TourMap

/-! ## 1. Colors -/

/-- A color, packed as alpha, red, green and blue from the highest byte down. -/
structure Color where
  packed : UInt32
  deriving DecidableEq, Inhabited

namespace Color

def argb (a r g b : UInt8) : Color :=
  ⟨a.toUInt32 <<< 24 ||| r.toUInt32 <<< 16 ||| g.toUInt32 <<< 8 ||| b.toUInt32⟩

def rgb (r g b : UInt8) : Color := argb 255 r g b

/-- The transparency: 255 is opaque. -/
def alpha (c : Color) : UInt8 := (c.packed >>> 24).toUInt8

/-- The channels, red, green and blue first and alpha last. -/
def rgba (c : Color) : List UInt8 :=
  [(c.packed >>> 16).toUInt8, (c.packed >>> 8).toUInt8, c.packed.toUInt8, c.alpha]

def random {γ : Type} [RandomGen γ] (generator : γ) : Color × γ :=
  let (r, generator) := randNat generator 0 254
  let (g, generator) := randNat generator 0 254
  let (b, generator) := randNat generator 0 254
  (rgb (UInt8.ofNat r) (UInt8.ofNat g) (UInt8.ofNat b), generator)

/-- One of a sequence of colors drawn at random. -/
def randomAt {γ : Type} [RandomGen γ] (generator : γ) : Nat → Color
  | 0 => (random generator).1
  | n + 1 => randomAt (random generator).2 n

end Color

/-! ## 2. Lines -/

inductive Cap where
  | butt
  | round
  /-- Square, past the last vertex by half the width. -/
  | square
  deriving DecidableEq

inductive ColorMode where
  | solid
  /-- The colors of the vertices, with steps in between. -/
  | gradient
  deriving DecidableEq

structure LineStyle (N : Type) where
  width : N
  color : Color
  cap : Cap
  heightOffset : N
  /-- Whether the width is the same at all zoom levels. -/
  fixed : Bool
  colorMode : ColorMode
  deriving DecidableEq

end TourMap
