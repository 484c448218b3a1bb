import TourMap.Geometry.Point
import TourMap.Number.Fixed

/-!
# Mercator: the projection of the globe onto a square

The world is the unit square: `x` grows from West to East and `y` from North to South. A latitude
or longitude out of range is moved to the nearest one in range, so a projection always succeeds
and lies in the square.
-/

namespace TourMap

/-- A place on the globe, in degrees: latitudes grow to the North, longitudes to the East. -/
structure GeoPoint (α : Type) where
  latitude : α
  longitude : α
  deriving DecidableEq

class Mercator (W : Type) extends Arithmetic W where
  /-- The ratio of a circle's circumference to its diameter. -/
  pi : W
  /-- The latitude, in degrees, at which the square world ends. -/
  maxLatitude : W
  /-- The height `asinh (tan φ)` on the map of a latitude in radians. -/
  heightOfLatitude : W → W
  /-- The latitude `atan (sinh t)` in radians of a height on the map. -/
  latitudeOfHeight : W → W

namespace GeoPoint

open Arithmetic

variable {W : Type} [Mercator W]

/-- The greatest longitude, in degrees. -/
def maxLongitude : W := ofInt 180

/-- `degrees` moved into the interval from `-limit` to `limit`; zero if it is not a number. -/
def inRange (degrees limit : W) : W :=
  if isNaN degrees then ofInt 0 else clamp degrees (-limit) limit

def project (p : GeoPoint W) : Point W :=
  let latitude := inRange p.latitude Mercator.maxLatitude
  let longitude := inRange p.longitude maxLongitude
  let height := Mercator.heightOfLatitude (latitude * (Mercator.pi / ofInt 180))
  { x := clamp (half + longitude / ofInt 360) (ofInt 0) (ofInt 1)
    y := clamp (half - height / (ofInt 2 * Mercator.pi)) (ofInt 0) (ofInt 1) }

def unproject (p : Point W) : GeoPoint W :=
  let height := (half - p.y) * ofInt 2 * Mercator.pi
  { latitude := Mercator.latitudeOfHeight height * (ofInt 180 / Mercator.pi)
    longitude := (p.x - half) * ofInt 360 }

end GeoPoint

/-! ## Instances -/

/-- An odd function on fixed-point numbers as a function on binary numbers: it is applied to the
magnitude, and the sign stays. An infinity counts as the number `limit` of its sign. -/
def Binary.liftFixed {f : Format} (limit : Int) (g : Int → Int) : Binary f → Binary f
  | .nan => .nan
  | .infinity negative => ofRatio f negative (g limit).natAbs 1 (-Fixed.digits)
  | .finite negative m e _ =>
    ofRatio f negative (g (Fixed.ofScaled m e)).natAbs 1 (-Fixed.digits)

instance Mercator.instDouble : Mercator Double where
  pi := .ofScaled double 884279719003555 (-48)
  maxLatitude := .ofRatio double false 8505112877980659 100000000000000 0
  heightOfLatitude := Binary.liftFixed Fixed.maxAngle Fixed.heightOfLatitude
  latitudeOfHeight := Binary.liftFixed Fixed.maxHeight Fixed.latitudeOfHeight

/-- A function on fixed-point numbers as a function on the rationals. -/
def rationalOfFixed (g : Int → Int) (x : Rat) : Rat :=
  mkRat (g ((x.num * Fixed.one).fdiv x.den)) Fixed.one.toNat

instance Mercator.instRational : Mercator Rat where
  pi := mkRat Fixed.pi Fixed.one.toNat
  maxLatitude := mkRat 8505112877980659 100000000000000
  heightOfLatitude := rationalOfFixed Fixed.heightOfLatitude
  latitudeOfHeight := rationalOfFixed Fixed.latitudeOfHeight

end TourMap
