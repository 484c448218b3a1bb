import TourMap.Config

/-!
# Config: tuning values that are in range stay there

To bring a configuration into range twice is to do it once, as long as the limits are in order.
-/

namespace TourMap

open Arithmetic

variable {N : Type} [Arithmetic N]

theorem Arithmetic.max_max (x y : N) : max (max x y) y = max x y := by
  by_cases hlt : y < x
  · simp only [max, if_pos hlt]
  · simp only [max, if_neg hlt, ite_self]

/-- No limit is below the other or itself, the wrong way round. -/
theorem Arithmetic.clamp_clamp {lo hi : N} (hlo : ¬ lo < lo) (hhi : ¬ hi < hi) (hle : ¬ hi < lo)
    (x : N) : clamp (clamp x lo hi) lo hi = clamp x lo hi := by
  by_cases hlow : x < lo
  · simp only [clamp, if_pos hlow, if_neg hlo, if_neg hle]
  · by_cases hhigh : hi < x
    · simp only [clamp, if_neg hlow, if_pos hhigh, if_neg hle, if_neg hhi]
    · simp only [clamp, if_neg hlow, if_neg hhigh]

/-- What a program brings into range stays as it is. -/
theorem TrackConfig.sanitized_sanitized (config : TrackConfig Single) :
    config.sanitized.sanitized = config.sanitized := by
  have hclamp (x : Single) : clamp (clamp x (ofInt 1) TrackConfig.maxClipExtent) (ofInt 1)
      TrackConfig.maxClipExtent = clamp x (ofInt 1) TrackConfig.maxClipExtent :=
    Arithmetic.clamp_clamp (by decide) (by decide) (by decide) x
  simp only [TrackConfig.sanitized, Arithmetic.max_max, hclamp]

end TourMap
