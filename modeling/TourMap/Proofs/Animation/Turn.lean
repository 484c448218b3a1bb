import TourMap.Position

/-!
# Turn: where a moving map last came to another tile

Geometry is asked for when the map comes to another tile. The tile in which a map is after `n` frames
was entered at the `turn` of `n`.
-/

namespace TourMap

variable {W : Type} [Arithmetic W]

/-- The positions of a map that moves by `pan` pixels after every frame. -/
def MapPosition.along (start : MapPosition W) (pan : Point W) : Nat → MapPosition W
  | 0 => start
  | k + 1 => (along start pan k).panPixels pan.x pan.y

/-- Whether `j` is the least index such that the positions from `j` to `n` are all in one tile. -/
structure IsTurn (v : Nat → MapPosition W) (n j : Nat) : Prop where
  le : j ≤ n
  same : ∀ i, j ≤ i → i ≤ n → (v i).tileIndex = (v n).tileIndex
  least : ∀ i, i ≤ n → (∀ k, i ≤ k → k ≤ n → (v k).tileIndex = (v n).tileIndex) → j ≤ i

/-- The index at which the tile of the position `n` was entered. -/
def turn (v : Nat → MapPosition W) : Nat → Nat
  | 0 => 0
  | n + 1 => if (v (n + 1)).tileIndex = (v n).tileIndex then turn v n else n + 1

variable {v : Nat → MapPosition W} {n : Nat}

theorem turn_succ_of_eq (h : (v (n + 1)).tileIndex = (v n).tileIndex) :
    turn v (n + 1) = turn v n := if_pos h

theorem turn_succ_of_ne (h : (v (n + 1)).tileIndex ≠ (v n).tileIndex) : turn v (n + 1) = n + 1 :=
  if_neg h

theorem isTurn_turn (v : Nat → MapPosition W) (n : Nat) : IsTurn v n (turn v n) := by
  induction n with
  | zero =>
    refine ⟨Nat.le_refl 0, fun i _ hi => ?_, fun i _ _ => Nat.zero_le i⟩
    rw [Nat.le_zero.1 hi]
  | succ n ih =>
    by_cases htile : (v (n + 1)).tileIndex = (v n).tileIndex
    · -- The last position is in the tile in which the map was already.
      rw [turn_succ_of_eq htile]
      refine ⟨Nat.le_succ_of_le ih.le, fun i hj hi => ?_, fun i hi hsame => ?_⟩
      · rcases Nat.le_succ_iff.1 hi with hi | rfl
        · rw [ih.same i hj hi, htile]
        · rfl
      · rcases Nat.le_succ_iff.1 hi with hi | rfl
        · refine ih.least i hi fun k hik hk => ?_
          rw [hsame k hik (Nat.le_succ_of_le hk), htile]
        · exact Nat.le_succ_of_le ih.le
    · rw [turn_succ_of_ne htile]
      refine ⟨Nat.le_refl _, fun i hj hi => by rw [Nat.le_antisymm hi hj], fun i hi hsame => ?_⟩
      rcases Nat.le_succ_iff.1 hi with hi | rfl
      · exact (htile (hsame n hi (Nat.le_succ n)).symm).elim
      · exact Nat.le_refl _

end TourMap
