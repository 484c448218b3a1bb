import Mathlib.Order.Lattice
import Mathlib.Algebra.Order.Ring.Rat
import TourMap.Number.Arithmetic
import TourMap.Proofs.Number.Rational

/-!
# Interval: numbers between two limits

A comparison with what is not a number fails, so that it lies beyond no limit; a number that lies
`Within` an interval is one, and beyond neither limit.
-/

namespace TourMap.Arithmetic

variable {α : Type} [Arithmetic α]

/-- Whether `x` is a number that lies between two limits, the limits included. -/
structure Within (lo hi x : α) : Prop where
  number : isNaN x = false
  low : ¬ x < lo
  high : ¬ hi < x

instance Within.instDecidable (lo hi x : α) : Decidable (Within lo hi x) :=
  decidable_of_iff (isNaN x = false ∧ ¬ x < lo ∧ ¬ hi < x)
    ⟨fun ⟨number, low, high⟩ => ⟨number, low, high⟩, fun h => ⟨h.number, h.low, h.high⟩⟩

variable {lo hi x : α}

/-- A number is brought between two limits that lie between themselves. -/
theorem within_clamp (hlo : Within lo hi lo) (hhi : Within lo hi hi) (hx : isNaN x = false) :
    Within lo hi (clamp x lo hi) := by
  unfold clamp
  split
  · exact hlo
  · rename_i hlow
    split
    · exact hhi
    · rename_i hhigh
      exact ⟨hx, hlow, hhigh⟩

theorem Within.clamp_eq (h : Within lo hi x) : clamp x lo hi = x := by
  unfold clamp
  rw [if_neg h.low, if_neg h.high]

theorem within_rat {lo hi x : Rat} : Within lo hi x ↔ lo ≤ x ∧ x ≤ hi :=
  ⟨fun h => ⟨not_lt.1 h.low, not_lt.1 h.high⟩,
    fun ⟨hlow, hhigh⟩ => ⟨isNaN_rat x, not_lt.2 hlow, not_lt.2 hhigh⟩⟩

end TourMap.Arithmetic
