import TourMap.Geometry.Point

/-!
# Clipper: the part of a polyline inside a rectangle

`LineClipper` follows a polyline point by point and says of each segment whether it lies inside
the rectangle, outside of it, or crosses its border; in the last case it keeps the part inside.
Where a coordinate lies with respect to the rectangle is its `Side`, and a point has one for
each axis (`Outcode`). A segment whose ends lie beyond one and the same border is outside; any
other has its outer ends moved onto a border, one at a time, until both are inside.
-/

namespace TourMap

/-! ## 1. Rectangles and outcodes -/

/-- Where a coordinate lies with respect to an interval. -/
inductive Side where
  | below
  | within
  | above
  deriving DecidableEq

/-- Where a point lies with respect to a rectangle, along both axes. -/
structure Outcode where
  x : Side
  y : Side
  deriving DecidableEq

namespace Outcode

def inside : Outcode := ⟨.within, .within⟩

/-- Whether two points lie beyond one and the same border. -/
def sharesSide (a b : Outcode) : Bool :=
  (a.x != .within && a.x == b.x) || (a.y != .within && a.y == b.y)

end Outcode

/-- A rectangle; its border belongs to it. -/
structure Region (α : Type) where
  min : Point α
  max : Point α
  deriving DecidableEq

structure Segment (α : Type) where
  first : Point α
  second : Point α
  deriving DecidableEq

variable {α : Type} [Arithmetic α]

/-- Where `v` lies with respect to the interval from `lo` to `hi`. -/
def Side.of (v lo hi : α) : Side :=
  if v < lo then .below else if hi < v then .above else .within

namespace Region

/-- The square around the origin that reaches `extent` far along each axis. -/
def centered (extent : α) : Region α := ⟨⟨-extent, -extent⟩, ⟨extent, extent⟩⟩

/-- Where a point lies with respect to the rectangle. -/
def outcode (r : Region α) (p : Point α) : Outcode :=
  ⟨Side.of p.x r.min.x r.max.x, Side.of p.y r.min.y r.max.y⟩

def contains (r : Region α) (p : Point α) : Bool := r.outcode p == .inside

/-! ## 2. Clipping one segment -/

def atHeight (s : Segment α) (y : α) : Point α :=
  ⟨s.first.x + (s.second.x - s.first.x) * (y - s.first.y) / (s.second.y - s.first.y), y⟩

def atAbscissa (s : Segment α) (x : α) : Point α :=
  ⟨x, s.first.y + (s.second.y - s.first.y) * (x - s.first.x) / (s.second.x - s.first.x)⟩

/-- Where the segment meets the border that an end with the given outcode lies beyond; an end
beyond two borders is taken to the horizontal one. -/
def crossing (r : Region α) (s : Segment α) (out : Outcode) : Point α :=
  match out.y, out.x with
  | .above, _ => atHeight s r.max.y
  | .below, _ => atHeight s r.min.y
  | .within, .above => atAbscissa s r.max.x
  | .within, _ => atAbscissa s r.min.x

/-- The part of a segment inside the rectangle, given the outcodes of its ends. Each round moves
an end onto a border. -/
def clip (r : Region α) : (rounds : Nat) → Segment α → (a b : Outcode) → Option (Segment α)
  | rounds, s, a, b =>
    if a = .inside ∧ b = .inside then some s
    else match rounds with
      | 0 => none
      | n + 1 =>
        if a.sharesSide b then none
        else if a ≠ .inside then
          let p := r.crossing s a
          r.clip n ⟨p, s.second⟩ (r.outcode p) b
        else
          let p := r.crossing s b
          r.clip n ⟨s.first, p⟩ a (r.outcode p)

end Region

/-! ## 3. Following a polyline -/

inductive Clipped where
  | inside
  | outside
  | intersection
  deriving DecidableEq

/-- A polyline that is followed point by point. -/
structure LineClipper (α : Type) where
  region : Region α
  last : Point α
  code : Outcode
  /-- The part inside of the last segment that crossed the border. -/
  line : Segment α
  deriving DecidableEq

namespace LineClipper

def new (region : Region α) : LineClipper α :=
  { region, last := .origin, code := .inside, line := ⟨.origin, .origin⟩ }

def centered (extent : α) : LineClipper α := new (.centered extent)

def start (c : LineClipper α) (p : Point α) : LineClipper α :=
  { c with last := p, code := c.region.outcode p }

def isInside (c : LineClipper α) : Bool := c.code == .inside

/-- The part inside of the segment from the last point to `p`, if that segment is neither inside
nor beyond one border. Four rounds take both ends onto two borders each. -/
def clipTo (c : LineClipper α) (p : Point α) : Option (Segment α) :=
  c.region.clip 4 ⟨c.last, p⟩ c.code (c.region.outcode p)

def next (c : LineClipper α) (p : Point α) : Clipped × LineClipper α :=
  let code := c.region.outcode p
  let moved := { c with last := p, code }
  if c.code = .inside ∧ code = .inside then (.inside, moved)
  else if c.code.sharesSide code then (.outside, moved)
  else match c.clipTo p with
    | some line => (.intersection, { moved with line })
    | none => (.outside, moved)

end LineClipper

end TourMap
