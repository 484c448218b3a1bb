import TourMap.Number.Arithmetic

/-!
# Point: points of the plane

Pixels are points of narrow numbers, Mercator coordinates points of wide ones. The distance
between two pixels is the greater of the distances along the axes.
-/

namespace TourMap

structure Point (α : Type) where
  x : α
  y : α
  deriving DecidableEq

namespace Point

variable {α : Type} [Arithmetic α]

def origin : Point α := ⟨Arithmetic.ofInt 0, Arithmetic.ofInt 0⟩

/-- Whether `q` is further away from `p` than `distance`, along either axis. -/
def furtherThan (p q : Point α) (distance : α) : Bool :=
  decide (distance < Arithmetic.abs (p.x - q.x)) || decide (distance < Arithmetic.abs (p.y - q.y))

/-- Whether two points have the same coordinates. -/
def coincides (p q : Point α) : Bool := p.x == q.x && p.y == q.y

end Point

end TourMap
