import Mathlib.Tactic.IntervalCases
import TourMap.Text.Utf8

/-!
# Utf8: the octets of a character are read as this character

The first octet of a character tells how many are still to come and how great the next one must be
at least, or may be at most. The octets that `String.utf8EncodeChar` gives are read one by one
(`Spells`), up to the last one, which completes the character.
-/

namespace TourMap.Utf8

/-- Whether octets are the rest of a character of which some were read, or a whole one. -/
inductive Spells (c : Char) : Option Pending → List UInt8 → Prop
  | last {pending : Option Pending} {b : UInt8} (h : step pending b = some (none, some c)) :
    Spells c pending [b]
  | next {pending : Option Pending} {p : Pending} {b : UInt8} {rest : List UInt8}
    (h : step pending b = some (some p, none)) (hrest : Spells c (some p) rest) :
    Spells c pending (b :: rest)

theorem toNat_ofNat {n : Nat} (h : n < 256) : (UInt8.ofNat n).toNat = n := by
  rw [UInt8.toNat_ofNat']
  exact Nat.mod_eq_of_lt h

theorem step_more {p : Pending} {n : Nat} (hn : n < 64) (hlow : p.low.toNat ≤ n + 128)
    (hhigh : n + 128 ≤ p.high.toNat) (howed : 1 < p.owed) :
    step (some p) (UInt8.ofNat (n + 128)) =
      some (some ⟨p.owed - 1, 0x80, 0xBF, p.bits * 64 + n⟩, none) := by
  have hoctet : (UInt8.ofNat (n + 128)).toNat = n + 128 := toNat_ofNat (by omega)
  have hbits : (n + 128) % 64 = n := by omega
  unfold step
  dsimp only
  rw [if_neg, if_neg (by omega), hoctet, hbits]
  rw [UInt8.lt_iff_toNat_lt, UInt8.lt_iff_toNat_lt, hoctet]
  omega

theorem step_last {p : Pending} {n : Nat} (hn : n < 64) (hlow : p.low.toNat ≤ n + 128)
    (hhigh : n + 128 ≤ p.high.toNat) (howed : p.owed = 1) :
    step (some p) (UInt8.ofNat (n + 128)) = some (none, some (Char.ofNat (p.bits * 64 + n))) := by
  have hoctet : (UInt8.ofNat (n + 128)).toNat = n + 128 := toNat_ofNat (by omega)
  have hbits : (n + 128) % 64 = n := by omega
  unfold step
  dsimp only
  rw [if_neg, if_pos (by omega), hoctet, hbits]
  rw [UInt8.lt_iff_toNat_lt, UInt8.lt_iff_toNat_lt, hoctet]
  omega

/-! ## First octets -/

theorem step_lead {n : Nat} {p : Pending} (hn : n < 256) (hoctet : 128 ≤ n)
    (h : lead? (UInt8.ofNat n) = some p) : step none (UInt8.ofNat n) = some (some p, none) := by
  unfold step
  dsimp only
  rw [if_neg, h]
  · rfl
  · rw [UInt8.lt_iff_toNat_lt, toNat_ofNat hn]
    exact Nat.not_lt.2 hoctet

theorem lead_two {k : Nat} (hlow : 2 ≤ k) (hhigh : k < 32) :
    lead? (UInt8.ofNat (k + 192)) = some ⟨1, 0x80, 0xBF, k⟩ := by
  interval_cases k <;> rfl

theorem lead_three {k : Nat} (hk : k < 16) :
    lead? (UInt8.ofNat (k + 224)) =
      some ⟨2, if k = 0 then 0xA0 else 0x80, if k = 13 then 0x9F else 0xBF, k⟩ := by
  interval_cases k <;> rfl

theorem lead_four {k : Nat} (hk : k < 5) :
    lead? (UInt8.ofNat (k + 240)) =
      some ⟨3, if k = 0 then 0x90 else 0x80, if k = 4 then 0x8F else 0xBF, k⟩ := by
  interval_cases k <;> rfl

/-! ## Characters -/

variable {c : Char} {n : Nat}

theorem spells_one (hc : Char.ofNat n = c) (hn : n ≤ 127) : Spells c none [UInt8.ofNat n] := by
  have hoctet : (UInt8.ofNat n).toNat = n := toNat_ofNat (by omega)
  refine .last ?_
  unfold step
  dsimp only
  rw [if_pos, hoctet, hc]
  rw [UInt8.lt_iff_toNat_lt, hoctet]
  exact Nat.lt_succ_of_le hn

theorem spells_two (hc : Char.ofNat n = c) (hlow : 128 ≤ n) (hhigh : n ≤ 2047) :
    Spells c none [UInt8.ofNat (n / 64 % 32 + 192), UInt8.ofNat (n % 64 + 128)] := by
  have hbits : n / 64 % 32 * 64 + n % 64 = n := by omega
  refine .next (step_lead (by omega) (by omega) (lead_two (by omega) (by omega))) (.last ?_)
  rw [step_last (by omega) (Nat.le_add_left ..) ?_ rfl, hbits, hc]
  show n % 64 + 128 ≤ 191
  omega

theorem spells_three (hc : Char.ofNat n = c) (hvalid : n < 0xD800 ∨ 0xDFFF < n) (hlow : 2048 ≤ n)
    (hhigh : n ≤ 65535) :
    Spells c none [UInt8.ofNat (n / 4096 % 16 + 224), UInt8.ofNat (n / 64 % 64 + 128),
      UInt8.ofNat (n % 64 + 128)] := by
  have hbits : (n / 4096 % 16 * 64 + n / 64 % 64) * 64 + n % 64 = n := by omega
  refine .next (step_lead (by omega) (by omega) (lead_three (by omega)))
    (.next (step_more (by omega) ?_ ?_ Nat.one_lt_two) (.last ?_))
  · -- No shorter form and no surrogate has this first octet.
    show (if n / 4096 % 16 = 0 then (0xA0 : UInt8) else 0x80).toNat ≤ n / 64 % 64 + 128
    split
    · show 160 ≤ _
      omega
    · exact Nat.le_add_left ..
  · show _ ≤ (if n / 4096 % 16 = 13 then (0x9F : UInt8) else 0xBF).toNat
    split
    · show _ ≤ 159
      omega
    · show _ ≤ 191
      omega
  · rw [step_last (by omega) (Nat.le_add_left ..) ?_ rfl, hbits, hc]
    show n % 64 + 128 ≤ 191
    omega

theorem spells_four (hc : Char.ofNat n = c) (hlow : 65536 ≤ n) (hhigh : n < 0x110000) :
    Spells c none [UInt8.ofNat (n / 262144 % 8 + 240), UInt8.ofNat (n / 4096 % 64 + 128),
      UInt8.ofNat (n / 64 % 64 + 128), UInt8.ofNat (n % 64 + 128)] := by
  have hbits : ((n / 262144 % 8 * 64 + n / 4096 % 64) * 64 + n / 64 % 64) * 64 + n % 64 = n := by
    omega
  refine .next (step_lead (by omega) (by omega) (lead_four (by omega)))
    (.next (step_more (by omega) ?_ ?_ (Nat.lt_of_sub_eq_succ rfl))
      (.next (step_more (by omega) (Nat.le_add_left ..) ?_ Nat.one_lt_two) (.last ?_)))
  · show (if n / 262144 % 8 = 0 then (0x90 : UInt8) else 0x80).toNat ≤ n / 4096 % 64 + 128
    split
    · show 144 ≤ _
      omega
    · exact Nat.le_add_left ..
  · show _ ≤ (if n / 262144 % 8 = 4 then (0x8F : UInt8) else 0xBF).toNat
    split
    · show _ ≤ 143
      omega
    · show _ ≤ 191
      omega
  · show n / 64 % 64 + 128 ≤ 191
    omega
  · rw [step_last (by omega) (Nat.le_add_left ..) ?_ rfl, hbits, hc]
    show n % 64 + 128 ≤ 191
    omega

theorem spells_utf8EncodeChar (c : Char) : Spells c none (String.utf8EncodeChar c) := by
  have hvalid : c.toNat < 0xD800 ∨ 0xDFFF < c.toNat ∧ c.toNat < 0x110000 := c.valid
  have hc : Char.ofNat c.toNat = c := Char.ofNat_toNat c
  rw [String.utf8EncodeChar.eq_1, show c.val.toNat = c.toNat from rfl]
  by_cases hone : c.toNat ≤ 127
  · rw [if_pos hone]
    exact spells_one hc hone
  rw [if_neg hone]
  by_cases htwo : c.toNat ≤ 2047
  · rw [if_pos htwo]
    exact spells_two hc (by omega) htwo
  rw [if_neg htwo]
  by_cases hthree : c.toNat ≤ 65535
  · rw [if_pos hthree]
    exact spells_three hc (by omega) (by omega) hthree
  · rw [if_neg hthree]
    exact spells_four hc (by omega) (by omega)

end TourMap.Utf8
