import TourMap.Json.Value
import TourMap.Proofs.Json.Numeral

/-!
# Text: JSON texts are read as what they write

A text `Writes` a value if it is made up as JSON says: of numbers and strings, of brackets around
parts with commas between them, and of blanks. A value that nests no more brackets than a reader
allows is read from each text that writes it (`takeObject_of_writes`). What the text of a string
stands for is decided by the reader of strings.
-/

namespace TourMap.Json

/-! ## 1. Texts -/

def Blanks (text : List Char) : Prop := ∀ c ∈ text, isBlank c = true

/-- Whether a text, closed by a quote, writes what stands between quotes. -/
def IsQuoted (text : List Char) (s : String) : Prop := takeString text = .ok (s, [])

/-- What stands before a part: a comma, unless it is the first one. -/
inductive Separator : (first : Bool) → List Char → Prop
  | first {before : List Char} (hbefore : Blanks before) : Separator true before
  | comma {before after : List Char} (hbefore : Blanks before) (hafter : Blanks after) :
    Separator false (before ++ ',' :: after)

mutual

/-- Whether a text writes a value that nests no more brackets than so many levels. -/
inductive Writes : (levels : Nat) → Value → List Char → Prop
  | null {l : Nat} : Writes l .null "null".toList
  | bool {l : Nat} (b : Bool) : Writes l (.bool b) (if b then "true" else "false").toList
  | number {l : Nat} {n : Number} {text : List Char} (hn : IsNumeral text n) :
    Writes l (.number n) text
  | string {l : Nat} {s : String} {text : List Char} (hs : IsQuoted text s) :
    Writes l (.string s) ('"' :: text)
  | array {l : Nat} {values : List Value} {text : List Char}
    (hvalues : WritesElements l true values text) : Writes (l + 1) (.array values) ('[' :: text)
  | object {l : Nat} {members : Members} {text : List Char}
    (hmembers : WritesMembers l true members text) : Writes (l + 1) (.object members) ('{' :: text)

/-- Whether a text writes elements up to the end of their array. -/
inductive WritesElements : (levels : Nat) → (first : Bool) → List Value → List Char → Prop
  | close {l : Nat} {first : Bool} {blanks : List Char} (hblanks : Blanks blanks) :
    WritesElements l first [] (blanks ++ [']'])
  | element {l : Nat} {first : Bool} {value : Value} {values : List Value}
    {separator text rest : List Char} (hseparator : Separator first separator)
    (hvalue : Writes l value text) (hrest : WritesElements l false values rest) :
    WritesElements l first (value :: values) (separator ++ (text ++ rest))

/-- Whether a text writes members up to the end of their object. -/
inductive WritesMembers : (levels : Nat) → (first : Bool) → Members → List Char → Prop
  | close {l : Nat} {first : Bool} {blanks : List Char} (hblanks : Blanks blanks) :
    WritesMembers l first [] (blanks ++ ['}'])
  | member {l : Nat} {first : Bool} {key : String} {value : Value} {members : Members}
    {separator name before after text rest : List Char} (hseparator : Separator first separator)
    (hname : IsQuoted name key) (hbefore : Blanks before) (hafter : Blanks after)
    (hvalue : Writes l value text) (hrest : WritesMembers l false members rest) :
    WritesMembers l first ((key, value) :: members)
      (separator ++ '"' :: (name ++ (before ++ ':' :: (after ++ (text ++ rest)))))

end

/-! ## 2. Blanks -/

theorem blanks_nil : Blanks [] := nofun

theorem dropWhile_blanks {blanks : List Char} (hblanks : Blanks blanks) (text : List Char)
    (htext : ∀ c, text.head? = some c → isBlank c = false) :
    (blanks ++ text).dropWhile isBlank = text := by
  induction blanks with
  | nil =>
    cases text with
    | nil => rfl
    | cons c rest =>
      rw [List.nil_append, List.dropWhile_cons_of_neg]
      rw [htext c rfl]
      exact Bool.false_ne_true
  | cons c rest ih =>
    rw [List.cons_append, List.dropWhile_cons_of_pos (hblanks c List.mem_cons_self)]
    exact ih fun d hd => hblanks d (List.mem_cons_of_mem _ hd)

theorem peekToken_blanks {blanks : List Char} (hblanks : Blanks blanks) {c : Char}
    (hc : isBlank c = false) (rest : List Char) :
    peekToken (blanks ++ c :: rest) = .ok (some c, c :: rest) := by
  have hdrop := dropWhile_blanks hblanks (c :: rest) (by rintro d hd; cases hd; exact hc)
  show Except.ok (((blanks ++ c :: rest).dropWhile isBlank).head?,
    (blanks ++ c :: rest).dropWhile isBlank) = _
  rw [hdrop]
  rfl

theorem peekValue_blanks {blanks : List Char} (hblanks : Blanks blanks) {c : Char}
    (hc : isBlank c = false) (rest : List Char) :
    peekValue (blanks ++ c :: rest) = .ok (c, c :: rest) :=
  bind_eq (peekToken_blanks hblanks hc rest)

theorem discard_take (c : Char) (rest : List Char) :
    (discard take : Reader Unit) (c :: rest) = .ok ((), rest) := rfl

/-! ## 3. Strings -/

theorem scanString_append {strict : Bool} {place : StringPlace} {read : List UInt8}
    {text left : List Char} {octets : List UInt8} (rest : List Char)
    (h : scanString strict place read text = .ok (octets, left)) :
    scanString strict place read (text ++ rest) = .ok (octets, left ++ rest) := by
  induction text generalizing place read with
  | nil =>
    unfold scanString at h
    cases h
  | cons c text ih =>
    rw [List.cons_append]
    unfold scanString at h ⊢
    split at h
    · obtain ⟨rfl, rfl⟩ := Prod.mk.inj (Except.ok.inj h)
      rfl
    · split at h
      · exact ih h
      · cases h

theorem takeString_eq (text : List Char) :
    takeString text = (scanString true .plain [] text).bind fun p =>
      match Utf8.text? p.1 with
      | some s => .ok (s, p.2)
      | none => .error .malformed := by
  show (liftM (scanString true .plain [] text) >>= fun p =>
    match Utf8.text? p.1 with
    | some s => do set p.2; return s
    | none => throw .malformed : Reader String) text = _
  cases hscan : scanString true .plain [] text with
  | error fault => rfl
  | ok p =>
    show (match Utf8.text? p.1 with
      | some s => do set p.2; return s
      | none => throw .malformed : Reader String) text =
      match Utf8.text? p.1 with
      | some s => .ok (s, p.2)
      | none => .error .malformed
    cases Utf8.text? p.1 <;> rfl

theorem takeString_append {text : List Char} {s : String} (h : takeString text = .ok (s, []))
    (rest : List Char) : takeString (text ++ rest) = .ok (s, rest) := by
  rw [takeString_eq] at h ⊢
  cases hscan : scanString true .plain [] text with
  | error fault =>
    rw [hscan] at h
    cases h
  | ok p =>
    obtain ⟨octets, left⟩ := p
    rw [hscan] at h
    change (match Utf8.text? octets with
      | some s => Except.ok (s, left)
      | none => .error Fault.malformed) = .ok (s, []) at h
    rw [scanString_append rest hscan]
    show (match Utf8.text? octets with
      | some s => Except.ok (s, left ++ rest)
      | none => .error Fault.malformed) = .ok (s, rest)
    cases htext : Utf8.text? octets with
    | none =>
      rw [htext] at h
      cases h
    | some t =>
      rw [htext] at h
      obtain ⟨rfl, rfl⟩ := Prod.mk.inj (Except.ok.inj h)
      rfl

/-! ## 4. Parts and what stands between them -/

theorem IsNumeral.head {text : List Char} {x : Number} (h : IsNumeral text x) :
    ∃ c rest, text = c :: rest ∧ (c = '-' ∨ c.isDigit = true) := by
  obtain ⟨n, hn, rfl, -⟩ := h
  obtain ⟨c, digits, hwhole⟩ := List.exists_cons_of_ne_nil hn.whole_ne_nil
  have hdigit := hn.whole_digits c (by rw [hwhole]; exact List.mem_cons_self)
  unfold Numeral.text
  by_cases hnegative : n.negative = true
  · rw [if_pos hnegative]
    exact ⟨'-', _, rfl, .inl rfl⟩
  · rw [if_neg hnegative, Numeral.unsignedText, hwhole]
    exact ⟨c, _, rfl, .inr hdigit⟩

/-- A value begins with a character that is no blank and ends no array. -/
theorem Writes.head {l : Nat} {value : Value} {text : List Char} (h : Writes l value text) :
    ∃ c rest, text = c :: rest ∧ isBlank c = false ∧ c ≠ ']' := by
  cases h with
  | number hn =>
    obtain ⟨c, rest, rfl, hc⟩ := hn.head
    rcases hc with rfl | hdigit
    · exact ⟨'-', rest, rfl, by decide, by decide⟩
    · refine ⟨c, rest, rfl, isDigit_not_isBlank hdigit, ?_⟩
      rintro rfl
      exact absurd hdigit (by decide)
  | bool b => cases b <;> exact ⟨_, _, rfl, by decide, by decide⟩
  | null | string | array | object => exact ⟨_, _, rfl, by decide, by decide⟩

theorem hasElement_separator {first : Bool} {separator : List Char}
    (hseparator : Separator first separator) {c : Char} (hblank : isBlank c = false)
    (hc : c ≠ ']') (rest : List Char) :
    hasElement first (separator ++ c :: rest) = .ok (true, c :: rest) := by
  unfold hasElement
  cases hseparator with
  | first hbefore =>
    rw [bind_eq (peekToken_blanks hbefore hblank rest)]
    refine congrFun (a := c :: rest) (?_ : _ = (pure true : Reader Bool))
    split
    · rename_i heq
      cases heq
    · rename_i heq
      exact absurd (Option.some.inj heq) hc
    · rfl
  | comma hbefore hafter =>
    rw [List.append_assoc, List.cons_append,
      bind_eq (peekToken_blanks hbefore (by decide) _)]
    show (discard take >>= fun _ => peekValue >>= fun d =>
      if d = ']' then throw .malformed else pure true : Reader Bool) (',' :: _) = _
    rw [bind_eq (discard_take ',' _), bind_eq (peekValue_blanks hafter hblank rest), if_neg hc]
    rfl

theorem hasElement_close {first : Bool} {blanks : List Char} (hblanks : Blanks blanks)
    (rest : List Char) :
    hasElement first (blanks ++ ']' :: rest) = .ok (false, ']' :: rest) := by
  unfold hasElement
  rw [bind_eq (peekToken_blanks hblanks (by decide) rest)]
  rfl

theorem hasMember_separator {first : Bool} {separator : List Char}
    (hseparator : Separator first separator) (rest : List Char) :
    hasMember first (separator ++ '"' :: rest) = .ok (true, '"' :: rest) := by
  unfold hasMember
  cases hseparator with
  | first hbefore =>
    rw [bind_eq (peekToken_blanks hbefore (by decide) rest)]
    rfl
  | comma hbefore hafter =>
    rw [List.append_assoc, List.cons_append,
      bind_eq (peekToken_blanks hbefore (by decide) _)]
    show (discard take >>= fun _ => peekValue >>= fun d =>
      if d = '"' then pure true else throw .malformed : Reader Bool) (',' :: _) = _
    rw [bind_eq (discard_take ',' _), bind_eq (peekValue_blanks hafter (by decide) rest)]
    rfl

theorem hasMember_close {first : Bool} {blanks : List Char} (hblanks : Blanks blanks)
    (rest : List Char) :
    hasMember first (blanks ++ '}' :: rest) = .ok (false, '}' :: rest) := by
  unfold hasMember
  rw [bind_eq (peekToken_blanks hblanks (by decide) rest)]
  rfl

theorem takeColon_blanks {blanks : List Char} (hblanks : Blanks blanks) (rest : List Char) :
    takeColon (blanks ++ ':' :: rest) = .ok ((), rest) := by
  unfold takeColon
  rw [bind_eq (peekToken_blanks hblanks (by decide) rest)]
  rfl

theorem enter_eq {depth : Nat} (hdepth : 1 < depth) (c : Char) (rest : List Char) :
    enter depth (c :: rest) = .ok (depth - 1, rest) := by
  show (if depth ≤ 1 then throw .malformed else pure (depth - 1) : Reader Nat) rest = _
  rw [if_neg (by omega)]
  rfl

/-- What follows a value in brackets ends a number. -/
theorem Ends.separated {first : Bool} (hfirst : first = false) {separator : List Char}
    (h : Separator first separator) (rest : List Char) : Ends (separator ++ rest) := by
  cases h with
  | first => cases hfirst
  | @comma before after hbefore hafter =>
    intro c hc
    cases before with
    | nil =>
      obtain rfl := Option.some.inj hc
      exact .inr (.inl rfl)
    | cons d before =>
      obtain rfl := Option.some.inj hc
      exact .inl (hbefore _ List.mem_cons_self)

theorem Ends.closed {blanks : List Char} (hblanks : Blanks blanks) {c : Char}
    (hc : c = ']' ∨ c = '}') (rest : List Char) : Ends (blanks ++ c :: rest) := by
  intro d hd
  cases blanks with
  | nil =>
    obtain rfl := Option.some.inj hd
    exact .inr (.inr hc)
  | cons e blanks =>
    obtain rfl := Option.some.inj hd
    exact .inl (hblanks _ List.mem_cons_self)

theorem WritesElements.ends {l : Nat} {values : List Value} {text : List Char}
    (h : WritesElements l false values text) (rest : List Char) : Ends (text ++ rest) := by
  cases h with
  | close hblanks =>
    rw [List.append_assoc]
    exact .closed hblanks (.inl rfl) _
  | element hseparator =>
    rw [List.append_assoc]
    exact .separated rfl hseparator _

theorem WritesMembers.ends {l : Nat} {members : Members} {text : List Char}
    (h : WritesMembers l false members text) (rest : List Char) : Ends (text ++ rest) := by
  cases h with
  | close hblanks =>
    rw [List.append_assoc]
    exact .closed hblanks (.inr rfl) _
  | member hseparator =>
    rw [List.append_assoc]
    exact .separated rfl hseparator _

/-! ## 5. Values -/

theorem takeValue_number {n d : Nat} {x : Number} {text blanks rest : List Char}
    (hx : IsNumeral text x) (hblanks : Blanks blanks) (hrest : Ends rest) :
    takeValue (n + 1) d (blanks ++ (text ++ rest)) = .ok (.number x, rest) := by
  obtain ⟨m, hm, rfl, hread⟩ := hx
  have htake := takeNumber_append hm hread hrest
  rw [takeValue]
  unfold Numeral.text
  by_cases hnegative : m.negative = true
  · rw [if_pos hnegative, List.cons_append, bind_eq (peekValue_blanks hblanks (by decide) _)]
    rw [hnegative] at htake
    show (discard take >>= fun _ => takeNumber true >>= fun x => pure (.number x) : Reader Value)
      ('-' :: (m.unsignedText ++ rest)) = _
    rw [bind_eq (discard_take '-' _), bind_eq htake]
    rfl
  · rw [if_neg hnegative]
    rw [Bool.not_eq_true] at hnegative
    rw [hnegative] at htake
    obtain ⟨c, digits, hwhole⟩ := List.exists_cons_of_ne_nil hm.whole_ne_nil
    have hc := hm.whole_digits c (by rw [hwhole]; exact List.mem_cons_self)
    have htext : m.unsignedText ++ rest =
        c :: (digits ++ (m.fractionText ++ m.exponentText) ++ rest) := by
      rw [Numeral.unsignedText, hwhole]
      rfl
    rw [htext] at htake ⊢
    rw [bind_eq (peekValue_blanks hblanks (isDigit_not_isBlank hc) _)]
    -- None of the other values begins with a digit.
    refine Eq.trans (congrFun (?_ : _ = if c.isDigit then Value.number <$> takeNumber false
      else throw .malformed) _) ?_
    · split
      iterate 7 exact absurd hc (by decide)
      rfl
    · rw [if_pos hc]
      show (takeNumber false >>= fun x => pure (.number x) : Reader Value) _ = _
      rw [bind_eq htake]
      rfl

/-- What is read in so many rounds: a value, and up to the end of their brackets elements and
members. -/
structure Rounds (n : Nat) : Prop where
  value : ∀ {l d : Nat} {value : Value} {text blanks rest : List Char}, Writes l value text →
    2 * text.length ≤ n → l < d → Blanks blanks → Ends rest →
      takeValue n d (blanks ++ (text ++ rest)) = .ok (value, rest)
  elements : ∀ {l d : Nat} {first : Bool} {read values : List Value} {text rest : List Char},
    WritesElements l first values text → 2 * text.length < n → l < d →
      takeElements n d first read (text ++ rest) = .ok (read.reverse ++ values, ']' :: rest)
  members : ∀ {l d : Nat} {first : Bool} {read members : Members} {text rest : List Char},
    WritesMembers l first members text → 2 * text.length < n → l < d →
      takeMembers n d first read (text ++ rest) = .ok (read.reverse ++ members, '}' :: rest)

theorem Writes.length_pos {l : Nat} {value : Value} {text : List Char} (h : Writes l value text) :
    0 < text.length := by
  obtain ⟨c, rest, rfl, -⟩ := h.head
  exact Nat.succ_pos _

theorem rounds_zero : Rounds 0 where
  value h hlength := by
    have := h.length_pos
    omega
  elements _ hlength := by omega
  members _ hlength := by omega

theorem Rounds.value_succ {n : Nat} (ih : Rounds n) {l d : Nat} {value : Value}
    {text blanks rest : List Char} (h : Writes l value text) (hlength : 2 * text.length ≤ n + 1)
    (hdepth : l < d) (hblanks : Blanks blanks) (hrest : Ends rest) :
    takeValue (n + 1) d (blanks ++ (text ++ rest)) = .ok (value, rest) := by
  cases h with
  | number hn => exact takeValue_number hn hblanks hrest
  | null =>
    show takeValue (n + 1) d (blanks ++ 'n' :: ("ull".toList ++ rest)) = _
    rw [takeValue, bind_eq (peekValue_blanks hblanks (by decide) _)]
    rfl
  | bool b =>
    cases b
    · show takeValue (n + 1) d (blanks ++ 'f' :: ("alse".toList ++ rest)) = _
      rw [takeValue, bind_eq (peekValue_blanks hblanks (by decide) _)]
      rfl
    · show takeValue (n + 1) d (blanks ++ 't' :: ("rue".toList ++ rest)) = _
      rw [takeValue, bind_eq (peekValue_blanks hblanks (by decide) _)]
      rfl
  | string hs =>
    rw [List.cons_append, takeValue, bind_eq (peekValue_blanks hblanks (by decide) _)]
    show (discard take >>= fun _ => takeString >>= fun s => pure (.string s) : Reader Value) _ = _
    rw [bind_eq (discard_take '"' _), bind_eq (takeString_append hs rest)]
    rfl
  | array hvalues =>
    rw [List.cons_append, takeValue, bind_eq (peekValue_blanks hblanks (by decide) _)]
    rw [List.length_cons] at hlength
    show (enter d >>= fun depth => takeElements n depth true [] >>= fun values =>
      endArray >>= fun _ => pure (.array values) : Reader Value) _ = _
    rw [bind_eq (enter_eq (by omega) '[' _),
      bind_eq (ih.elements hvalues (by omega) (by omega))]
    rfl
  | object hmembers =>
    rw [List.cons_append, takeValue, bind_eq (peekValue_blanks hblanks (by decide) _)]
    rw [List.length_cons] at hlength
    show (enter d >>= fun depth => takeMembers n depth true [] >>= fun members =>
      endObject >>= fun _ => pure (.object members) : Reader Value) _ = _
    rw [bind_eq (enter_eq (by omega) '{' _),
      bind_eq (ih.members hmembers (by omega) (by omega))]
    rfl

theorem Rounds.elements_succ {n : Nat} (ih : Rounds n) {l d : Nat} {first : Bool}
    {read values : List Value} {text rest : List Char} (h : WritesElements l first values text)
    (hlength : 2 * text.length < n + 1) (hdepth : l < d) :
    takeElements (n + 1) d first read (text ++ rest) =
      .ok (read.reverse ++ values, ']' :: rest) := by
  rw [takeElements]
  cases h with
  | close hblanks =>
    rw [List.append_assoc, List.singleton_append, bind_eq (hasElement_close hblanks rest),
      List.append_nil]
    rfl
  | @element _ _ value values separator text more hseparator hvalue hmore =>
    obtain ⟨c, text, rfl, hblank, hc⟩ := hvalue.head
    simp only [List.length_append, List.length_cons] at hlength
    have hvalue : takeValue n d (c :: (text ++ (more ++ rest))) = .ok (value, more ++ rest) :=
      ih.value hvalue (by simp only [List.length_cons]; omega) hdepth blanks_nil (hmore.ends rest)
    rw [List.append_assoc, List.append_assoc, List.cons_append,
      bind_eq (hasElement_separator hseparator hblank hc _), if_pos rfl, bind_eq hvalue,
      ih.elements hmore (by omega) hdepth, List.reverse_cons, List.append_assoc]
    rfl

theorem Rounds.members_succ {n : Nat} (ih : Rounds n) {l d : Nat} {first : Bool}
    {read members : Members} {text rest : List Char} (h : WritesMembers l first members text)
    (hlength : 2 * text.length < n + 1) (hdepth : l < d) :
    takeMembers (n + 1) d first read (text ++ rest) =
      .ok (read.reverse ++ members, '}' :: rest) := by
  rw [takeMembers]
  cases h with
  | close hblanks =>
    rw [List.append_assoc, List.singleton_append, bind_eq (hasMember_close hblanks rest),
      List.append_nil]
    rfl
  | @member _ _ key value members separator name before after text more hseparator hname hbefore
      hafter hvalue hmore =>
    simp only [List.length_append, List.length_cons] at hlength
    have hpos := hvalue.length_pos
    have hvalue := ih.value hvalue (by omega) hdepth hafter (hmore.ends rest)
    simp only [List.append_assoc, List.cons_append]
    rw [bind_eq (hasMember_separator hseparator _), if_pos rfl, bind_eq (discard_take '"' _),
      bind_eq (takeString_append hname _), bind_eq (takeColon_blanks hbefore _), bind_eq hvalue,
      ih.members hmore (by omega) hdepth, List.reverse_cons, List.append_assoc]
    rfl

theorem rounds (n : Nat) : Rounds n := by
  induction n with
  | zero => exact rounds_zero
  | succ n ih => exact ⟨ih.value_succ, ih.elements_succ, ih.members_succ⟩

/-! ## 6. Documents -/

/-- Whether a text, with blanks around it, writes an object that nests fewer brackets than a reader
allows. -/
def WritesObject (members : Members) (text : List Char) : Prop :=
  ∃ before after inner l, Blanks before ∧ Blanks after ∧ WritesMembers l true members inner ∧
    l + 1 < maxDepth ∧ text = before ++ '{' :: (inner ++ after)

/-- An object is read from each text that writes it, and nothing but blanks is left. -/
theorem takeObject_of_writes {members : Members} {text : List Char}
    (h : WritesObject members text) :
    ∃ rest, takeObject text = .ok (members, rest) ∧ endText rest = .ok ((), []) := by
  obtain ⟨before, after, inner, l, hbefore, hafter, hmembers, hdepth, rfl⟩ := h
  have hrounds : 2 * inner.length < 2 * ('{' :: (inner ++ after)).length + 2 := by
    simp only [List.length_cons, List.length_append]
    omega
  have hinner : takeMembers (2 * ('{' :: (inner ++ after)).length + 2) (maxDepth - 1) true []
      (inner ++ after) = .ok (members, '}' :: after) :=
    (rounds _).members hmembers hrounds (by omega)
  refine ⟨after, ?_, ?_⟩
  · unfold takeObject
    rw [bind_eq (peekValue_blanks hbefore (by decide) _), if_pos rfl]
    show (enter maxDepth >>= fun depth =>
      takeMembers (2 * ('{' :: (inner ++ after)).length + 2) depth true [] >>= fun members =>
        endObject >>= fun _ => pure members : Reader Members) ('{' :: (inner ++ after)) = _
    rw [bind_eq (enter_eq (by decide) '{' _), bind_eq hinner]
    rfl
  · have hdrop := dropWhile_blanks hafter [] nofun
    unfold endText
    rw [bind_eq (show peekToken after = .ok (none, []) from ?_)]
    · rfl
    · show Except.ok ((after.dropWhile isBlank).head?, after.dropWhile isBlank) = _
      rw [← List.append_nil after, hdrop]
      rfl

end TourMap.Json
