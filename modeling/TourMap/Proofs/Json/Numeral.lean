import Mathlib.Data.List.TakeDrop
import TourMap.Json.Scan

/-!
# Numeral: numbers in JSON texts

A number is written with a sign, digits, a fraction and an exponent. It is kept with as many digits
as fit into a word (`Numeral.read`), unless it is too great; a reader takes it and nothing that comes
after it, if that is a blank or the end of a part (`takeNumber_append`).
-/

namespace TourMap.Json

/-! ## 1. Parts of a number -/

/-- The parts of a number in a text. -/
structure Numeral where
  negative : Bool
  whole : List Char
  /-- The digits after a point; without any there is no point. -/
  fraction : List Char
  /-- The letter, the sign and the digits of an exponent. -/
  exponent : Option (Char × List Char × List Char)

namespace Numeral

def exponentText (n : Numeral) : List Char :=
  match n.exponent with
  | none => []
  | some (letter, sign, digits) => letter :: (sign ++ digits)

def fractionText (n : Numeral) : List Char :=
  if n.fraction = [] then [] else '.' :: n.fraction

/-- The text without the sign. -/
def unsignedText (n : Numeral) : List Char := n.whole ++ (n.fractionText ++ n.exponentText)

def text (n : Numeral) : List Char :=
  if n.negative then '-' :: n.unsignedText else n.unsignedText

/-- Whether the parts are such as JSON says: no digit stands before or after a zero that is the
first one. -/
structure WellFormed (n : Numeral) : Prop where
  whole_ne_nil : n.whole ≠ []
  whole_digits : ∀ c ∈ n.whole, c.isDigit = true
  zero_alone : n.whole.head? = some '0' → n.whole = ['0']
  fraction_digits : ∀ c ∈ n.fraction, c.isDigit = true
  exponent : ∀ letter sign digits, n.exponent = some (letter, sign, digits) →
    (letter = 'e' ∨ letter = 'E') ∧ sign ∈ [[], ['+'], ['-']] ∧ digits ≠ [] ∧
      ∀ c ∈ digits, c.isDigit = true

def exponentValue? (n : Numeral) : Option Int :=
  n.exponent.map fun (_, sign, digits) =>
    Binary.signed (sign == ['-']) (DecimalText.valueOf digits)

/-- The number as it is kept, unless it is too great: of the digits as many as fit into a word. -/
def read (n : Numeral) : Except Fault Number :=
  let (significand, left) := addDigits 0 n.whole
  if n.fraction = [] then
    match n.exponentValue? with
    | some e => ofScientific n.negative significand (left.length + e)
    | none =>
      if left.isEmpty then .ok (ofInteger n.negative significand)
      else ofScientific n.negative significand left.length
  else
    let (significand, leftOver) := addDigits significand n.fraction
    ofScientific n.negative significand
      (left.length - (n.fraction.length - leftOver.length : Nat) + n.exponentValue?.getD 0)

end Numeral

/-- Whether a text writes a number that is not too great. -/
def IsNumeral (text : List Char) (x : Number) : Prop :=
  ∃ n : Numeral, n.WellFormed ∧ n.text = text ∧ n.read = .ok x

theorem isNumeral_digits {digits : List Char} {x : Number} (hne : digits ≠ [])
    (hdigits : ∀ c ∈ digits, c.isDigit = true) (hzero : digits.head? = some '0' → digits = ['0'])
    (hread : (⟨false, digits, [], none⟩ : Numeral).read = .ok x) : IsNumeral digits x :=
  ⟨⟨false, digits, [], none⟩, ⟨hne, hdigits, hzero, nofun, nofun⟩,
    by simp only [Numeral.text, Numeral.unsignedText, Numeral.fractionText, Numeral.exponentText,
      if_true, List.append_nil, Bool.false_eq_true, if_false], hread⟩

/-- What may follow a number: nothing, a blank, or the end of a part. -/
def Ends (rest : List Char) : Prop :=
  ∀ c, rest.head? = some c → isBlank c = true ∨ c = ',' ∨ c = ']' ∨ c = '}'

/-! ## 2. Readers one after the other -/

section Readers

variable {α β : Type}

theorem bind_eq {r : Reader α} {f : α → Reader β} {text rest : List Char} {a : α}
    (h : r text = .ok (a, rest)) : (r >>= f) text = f a rest := by
  show (r text).bind (fun p => f p.1 p.2) = f a rest
  rw [h]
  rfl

theorem liftM_eq {result : Except Fault α} {a : α} (h : result = .ok a) (text : List Char) :
    (liftM result : Reader α) text = .ok (a, text) := by
  rw [h]
  rfl

end Readers

/-! ## 3. Digits -/

theorem isDigit_not_isBlank {c : Char} (hc : c.isDigit = true) : isBlank c = false := by
  by_contra hblank
  simp only [isBlank, Bool.not_eq_false, Bool.or_eq_true, beq_iff_eq] at hblank
  rcases hblank with ((rfl | rfl) | rfl) | rfl <;> exact absurd hc (by decide)

theorem Ends.head_not_digit {rest : List Char} (h : Ends rest) :
    ∀ c, rest.head? = some c → c.isDigit = false ∧ c ≠ '.' ∧ c ≠ 'e' ∧ c ≠ 'E' := by
  intro c hc
  rcases h c hc with hblank | rfl | rfl | rfl
  · simp only [isBlank, Bool.or_eq_true, beq_iff_eq] at hblank
    rcases hblank with ((rfl | rfl) | rfl) | rfl <;> decide
  all_goals decide

/-- Whether no digit follows. -/
def NoDigit (rest : List Char) : Prop := ∀ c, rest.head? = some c → c.isDigit = false

theorem takeDigits_append {digits rest : List Char} (hdigits : ∀ c ∈ digits, c.isDigit = true)
    (hrest : NoDigit rest) : takeDigits (digits ++ rest) = .ok (digits, rest) := by
  have htake : rest.takeWhile Char.isDigit = [] ∧ rest.dropWhile Char.isDigit = rest := by
    cases rest with
    | nil => exact ⟨rfl, rfl⟩
    | cons c rest =>
      have hc : ¬ c.isDigit = true := by
        rw [hrest c rfl]
        exact Bool.false_ne_true
      exact ⟨List.takeWhile_cons_of_neg hc, List.dropWhile_cons_of_neg hc⟩
  show Except.ok ((digits ++ rest).span Char.isDigit) = _
  rw [List.span_eq_takeWhile_dropWhile, List.takeWhile_append_of_pos hdigits,
    List.dropWhile_append_of_pos hdigits, htake.1, htake.2, List.append_nil]

/-- A character that is no zero is the first one of several digits. -/
theorem takeWhole_cons {c : Char} (hc : c ≠ '0') (hdigit : c.isDigit = true)
    (text : List Char) : takeWhole (c :: text) = ((c :: ·) <$> takeDigits) text := by
  unfold takeWhole
  rw [bind_eq (show take (c :: text) = .ok (some c, text) from rfl)]
  refine congrFun ?_ text
  split
  · rename_i heq
    cases heq
  · rename_i heq
    exact absurd (Option.some.inj heq) hc
  · rename_i heq
    obtain rfl := Option.some.inj heq
    rw [if_pos hdigit]
    rfl

theorem takeWhole_append {n : Numeral} (hn : n.WellFormed) {rest : List Char}
    (hrest : NoDigit rest) : takeWhole (n.whole ++ rest) = .ok (n.whole, rest) := by
  obtain ⟨c, digits, hwhole⟩ := List.exists_cons_of_ne_nil hn.whole_ne_nil
  have hdigits := hn.whole_digits
  have hzero := hn.zero_alone
  rw [hwhole] at hdigits hzero ⊢
  by_cases hc : c = '0'
  · -- A zero stands alone.
    subst hc
    have hnext : ¬ rest.head?.any Char.isDigit = true := by
      intro hany
      obtain ⟨d, hd, hisDigit⟩ := (Option.any_eq_true _ _).1 hany
      rw [hrest d hd] at hisDigit
      cases hisDigit
    rw [hzero rfl]
    show (if rest.head?.any Char.isDigit then (throw .malformed : Reader (List Char))
      else pure ['0']) rest = _
    rw [if_neg hnext]
    rfl
  · have htake := takeDigits_append (fun d hd => hdigits d (List.mem_cons_of_mem _ hd)) hrest
    rw [List.cons_append, takeWhole_cons hc (hdigits c List.mem_cons_self)]
    show (takeDigits (digits ++ rest)).map (fun p => (c :: p.1, p.2)) = _
    rw [htake]
    rfl

/-- Digits of which there must be one, as in a fraction and in an exponent. -/
theorem takeFraction_append {digits rest : List Char} (hne : digits ≠ [])
    (hdigits : ∀ c ∈ digits, c.isDigit = true) (hrest : NoDigit rest) :
    takeFraction (digits ++ rest) = .ok (digits, rest) := by
  obtain ⟨c, digits, rfl⟩ := List.exists_cons_of_ne_nil hne
  show (if c.isDigit then takeDigits else throw .malformed) (c :: digits ++ rest) = _
  rw [if_pos (hdigits c List.mem_cons_self), takeDigits_append hdigits hrest]

theorem takeExponent_append {sign digits rest : List Char} (hsign : sign ∈ [[], ['+'], ['-']])
    (hne : digits ≠ []) (hdigits : ∀ c ∈ digits, c.isDigit = true) (hrest : NoDigit rest) :
    takeExponent (sign ++ digits ++ rest) =
      .ok (Binary.signed (sign == ['-']) (DecimalText.valueOf digits), rest) := by
  obtain ⟨c, digits, rfl⟩ := List.exists_cons_of_ne_nil hne
  have hc := hdigits c List.mem_cons_self
  have htake := takeDigits_append hdigits hrest
  have hunsigned (negative : Bool) :
      (do if c.isDigit then return Binary.signed negative (DecimalText.valueOf (← takeDigits))
          else throw .malformed : Reader Int) (c :: digits ++ rest) =
        .ok (Binary.signed negative (DecimalText.valueOf (c :: digits)), rest) := by
    rw [if_pos hc, bind_eq htake]
    rfl
  simp only [List.mem_cons, List.not_mem_nil, or_false] at hsign
  rcases hsign with rfl | rfl | rfl
  · have hplus : c ≠ '+' := by rintro rfl; exact absurd hc (by decide)
    have hminus : c ≠ '-' := by rintro rfl; exact absurd hc (by decide)
    unfold takeExponent
    rw [bind_eq (show peek ([] ++ c :: digits ++ rest) = .ok (some c, c :: digits ++ rest) from rfl)]
    refine Eq.trans (congrFun (?_ : _ = ?unsigned) _) ?_
    rotate_left
    -- A digit is no sign.
    · split
      · rename_i heq
        exact absurd (Option.some.inj heq) hplus
      · rename_i heq
        exact absurd (Option.some.inj heq) hminus
      · rfl
    · exact hunsigned false
  · exact hunsigned false
  · exact hunsigned true

theorem Ends.noDigit {rest : List Char} (h : Ends rest) : NoDigit rest :=
  fun c hc => (h.head_not_digit c hc).1

theorem takeExponent?_append {n : Numeral} (hn : n.WellFormed) {rest : List Char}
    (hrest : Ends rest) :
    takeExponent? (n.exponentText ++ rest) = .ok (n.exponentValue?, rest) := by
  unfold Numeral.exponentText Numeral.exponentValue?
  cases hexponent : n.exponent with
  | none =>
    show takeExponent? rest = .ok (none, rest)
    unfold takeExponent?
    rw [bind_eq (show peek rest = .ok (rest.head?, rest) from rfl)]
    refine congrFun (a := rest) (?_ : _ = (pure none : Reader (Option Int)))
    split
    · rename_i heq
      exact absurd rfl (hrest.head_not_digit _ heq).2.2.1
    · rename_i heq
      exact absurd rfl (hrest.head_not_digit _ heq).2.2.2
    · rfl
  | some e =>
    obtain ⟨letter, sign, digits⟩ := e
    obtain ⟨hletter, hsign, hne, hdigits⟩ := hn.exponent letter sign digits hexponent
    have htake := takeExponent_append hsign hne hdigits hrest.noDigit
    -- Both letters are read in the same way.
    have hread : (some <$> takeExponent) (sign ++ digits ++ rest) =
        .ok (some (Binary.signed (sign == ['-']) (DecimalText.valueOf digits)), rest) := by
      show (takeExponent >>= fun e => pure (some e)) _ = _
      rw [bind_eq htake]
      rfl
    rcases hletter with rfl | rfl <;> exact hread

theorem noDigit_exponentText {n : Numeral} (hn : n.WellFormed) {rest : List Char}
    (hrest : Ends rest) : NoDigit (n.exponentText ++ rest) := by
  unfold Numeral.exponentText
  cases hexponent : n.exponent with
  | none => exact hrest.noDigit
  | some e =>
    obtain ⟨letter, sign, digits⟩ := e
    obtain ⟨hletter, -⟩ := hn.exponent letter sign digits hexponent
    intro c hc
    obtain rfl := Option.some.inj hc
    rcases hletter with rfl | rfl <;> decide

theorem head_exponentText_ne {n : Numeral} (hn : n.WellFormed) {rest : List Char}
    (hrest : Ends rest) : (n.exponentText ++ rest).head? ≠ some '.' := by
  intro hpoint
  unfold Numeral.exponentText at hpoint
  cases hexponent : n.exponent with
  | none =>
    rw [hexponent] at hpoint
    exact (hrest.head_not_digit _ hpoint).2.1 rfl
  | some e =>
    obtain ⟨letter, sign, digits⟩ := e
    rw [hexponent] at hpoint
    obtain rfl := Option.some.inj hpoint
    rcases (hn.exponent _ _ _ hexponent).1 with h | h <;> exact absurd h (by decide)

/-- A number without a fraction. -/
theorem takeNumber_whole {n : Numeral} (hn : n.WellFormed) (hfraction : n.fraction = [])
    {x : Number} (hx : n.read = .ok x) {rest : List Char} (hrest : Ends rest) :
    takeNumber n.negative (n.whole ++ (n.exponentText ++ rest)) = .ok (x, rest) := by
  have hnoDigit := noDigit_exponentText hn hrest
  have hexponent := takeExponent?_append hn hrest
  unfold Numeral.read at hx
  unfold takeNumber
  rw [bind_eq (takeWhole_append hn hnoDigit)]
  generalize addDigits 0 n.whole = kept at hx ⊢
  obtain ⟨significand, left⟩ := kept
  dsimp only at hx ⊢
  rw [if_pos hfraction] at hx
  rw [bind_eq (show peek (n.exponentText ++ rest) = .ok (_, n.exponentText ++ rest) from rfl),
    if_neg (head_exponentText_ne hn hrest), bind_eq hexponent]
  cases hvalue : n.exponentValue? with
  | some e =>
    rw [hvalue] at hx
    exact liftM_eq hx rest
  | none =>
    rw [hvalue] at hx
    dsimp only at hx ⊢
    by_cases hempty : left.isEmpty = true
    · rw [if_pos hempty] at hx ⊢
      rw [← Except.ok.inj hx]
      rfl
    · rw [if_neg hempty] at hx ⊢
      exact liftM_eq hx rest

theorem takeNumber_fraction {n : Numeral} (hn : n.WellFormed) (hfraction : n.fraction ≠ [])
    {x : Number} (hx : n.read = .ok x) {rest : List Char} (hrest : Ends rest) :
    takeNumber n.negative (n.whole ++ ('.' :: (n.fraction ++ (n.exponentText ++ rest)))) =
      .ok (x, rest) := by
  have hpoint : NoDigit ('.' :: (n.fraction ++ (n.exponentText ++ rest))) := by
    rintro c hc
    obtain rfl := Option.some.inj hc
    decide
  unfold Numeral.read at hx
  unfold takeNumber
  rw [bind_eq (takeWhole_append hn hpoint)]
  generalize addDigits 0 n.whole = kept at hx ⊢
  obtain ⟨significand, left⟩ := kept
  dsimp only at hx ⊢
  rw [if_neg hfraction] at hx
  rw [bind_eq (show peek ('.' :: (n.fraction ++ (n.exponentText ++ rest))) =
      .ok (some '.', '.' :: (n.fraction ++ (n.exponentText ++ rest))) from rfl),
    if_pos rfl, bind_eq (show (discard take : Reader Unit)
      ('.' :: (n.fraction ++ (n.exponentText ++ rest))) =
      .ok ((), n.fraction ++ (n.exponentText ++ rest)) from rfl),
    bind_eq (takeFraction_append hfraction hn.fraction_digits (noDigit_exponentText hn hrest))]
  generalize addDigits significand n.fraction = kept at hx ⊢
  obtain ⟨significand, leftOver⟩ := kept
  dsimp only at hx ⊢
  rw [bind_eq (takeExponent?_append hn hrest)]
  exact liftM_eq hx rest

/-- A number in a text is read, and nothing after it. -/
theorem takeNumber_append {n : Numeral} (hn : n.WellFormed) {x : Number} (hx : n.read = .ok x)
    {rest : List Char} (hrest : Ends rest) :
    takeNumber n.negative (n.unsignedText ++ rest) = .ok (x, rest) := by
  rw [Numeral.unsignedText, Numeral.fractionText, List.append_assoc, List.append_assoc]
  by_cases hfraction : n.fraction = []
  · rw [if_pos hfraction]
    exact takeNumber_whole hn hfraction hx hrest
  · rw [if_neg hfraction]
    exact takeNumber_fraction hn hfraction hx hrest

end TourMap.Json
