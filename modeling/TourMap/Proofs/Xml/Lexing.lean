import TourMap.Proofs.Xml.Written

/-!
# Lexing: the tokens of what is written

A solidus may be the first character of a mark, and a bracket too. So a lexer holds such characters
back (`Mode.pending`), and the tokens of a text are what it gives and what it then holds back, less
what it held back before (`Lexes`). Lexing one text after another gives their tokens one after
another.
-/

namespace TourMap.Xml

/-! ## 1. Tokens held back -/

/-- The tokens of the characters that a lexer holds back. -/
def Mode.pending : Mode → List Token
  | .solidus => [.char '/']
  | .bracket => [.char ']']
  | .brackets => [.char ']', .char ']']
  | .hyphen => [.char '-']
  | .literalBracket => [.char ']']
  | .literalBrackets => [.char ']', .char ']']
  | .question => [.char '?']
  | _ => []

def textOfTokens (tokens : List Token) : List Char := tokens.flatMap Token.text

theorem textOfTokens_append (first second : List Token) :
    textOfTokens (first ++ second) = textOfTokens first ++ textOfTokens second :=
  List.flatMap_append

/-- The tokens that characters complete one after the other, outside of a document type. -/
inductive Emits : Mode → List Char → List Token → Mode → Prop
  | nil {m : Mode} : Emits m [] [] m
  | cons {m m' m'' : Mode} {c : Char} {text : List Char} {tokens more : List Token}
    (h : Lexer.step ⟨m, false⟩ c = some (⟨m', false⟩, tokens)) (hrest : Emits m' text more m'') :
    Emits m (c :: text) (tokens ++ more) m''

/-- The tokens of a text, which are given as far as they are not held back. -/
def Lexes (m : Mode) (text : List Char) (tokens : List Token) (m' : Mode) : Prop :=
  ∃ emitted, Emits m text emitted m' ∧ m.pending ++ tokens = emitted ++ m'.pending

variable {m m' m'' : Mode} {text more : List Char} {tokens others : List Token}

theorem Emits.single {c : Char} (h : Lexer.step ⟨m, false⟩ c = some (⟨m', false⟩, tokens)) :
    Emits m [c] tokens m' := by
  have hcons := Emits.cons h .nil
  rwa [List.append_nil] at hcons

/-- A character that completes no token. -/
theorem Emits.held {c : Char} (h : Lexer.step ⟨m, false⟩ c = some (⟨m', false⟩, []))
    (hrest : Emits m' text tokens m'') : Emits m (c :: text) tokens m'' :=
  .cons h hrest

theorem Emits.append (h : Emits m text tokens m') (hmore : Emits m' more others m'') :
    Emits m (text ++ more) (tokens ++ others) m'' := by
  induction h with
  | nil => exact hmore
  | cons h _ ih =>
    rw [List.append_assoc]
    exact .cons h (ih hmore)

theorem Lexes.append (h : Lexes m text tokens m') (hmore : Lexes m' more others m'') :
    Lexes m (text ++ more) (tokens ++ others) m'' := by
  obtain ⟨emitted, hemits, heq⟩ := h
  obtain ⟨emittedMore, hemitsMore, heqMore⟩ := hmore
  refine ⟨emitted ++ emittedMore, hemits.append hemitsMore, ?_⟩
  calc m.pending ++ (tokens ++ others)
      = emitted ++ m'.pending ++ others := by rw [← List.append_assoc, heq]
    _ = emitted ++ (emittedMore ++ m''.pending) := by rw [List.append_assoc, heqMore]
    _ = emitted ++ emittedMore ++ m''.pending := (List.append_assoc ..).symm

theorem Emits.lexes (h : Emits m text tokens m') (hm : m.pending = []) (hm' : m'.pending = []) :
    Lexes m text tokens m' := by
  refine ⟨tokens, h, ?_⟩
  rw [hm, hm', List.nil_append, List.append_nil]

theorem Lexes.emits (h : Lexes m text tokens m') (hm : m.pending = []) (hm' : m'.pending = []) :
    Emits m text tokens m' := by
  obtain ⟨emitted, hemits, heq⟩ := h
  rw [hm, hm', List.nil_append, List.append_nil] at heq
  rwa [heq]

/-- The character that gives the last token of a text. -/
theorem Emits.exists_last {t : Token} (h : Emits m text (tokens ++ [t]) m') :
    ∃ before c after m₁ m₂ first second, text = before ++ c :: after ∧ tokens = first ++ second ∧
      Emits m before first m₁ ∧
      Lexer.step ⟨m₁, false⟩ c = some (⟨m₂, false⟩, second ++ [t]) ∧ Emits m₂ after [] m' := by
  generalize hall : tokens ++ [t] = all at h
  induction h generalizing tokens with
  | nil => exact absurd hall (by simp)
  | @cons m m₂ m' c rest given others hstep hrest ih =>
    rcases List.append_eq_append_iff.1 hall with ⟨left, rfl, hlast⟩ | ⟨left, rfl, hothers⟩
    · cases left with
      | nil =>
        -- The last token is still to come.
        obtain ⟨before, d, after, m₁, m₂, first, second, rfl, hnil, hbefore, hlater⟩ :=
          ih (show [] ++ [t] = others from hlast)
        rw [List.append_nil] at hstep
        refine ⟨c :: before, d, after, m₁, m₂, tokens ++ first, second, rfl, ?_,
          .cons hstep hbefore, hlater⟩
        rw [List.append_assoc, ← hnil, List.append_nil]
      | cons t' left =>
        obtain ⟨rfl, hnil⟩ := List.cons.inj hlast
        obtain ⟨rfl, rfl⟩ := List.append_eq_nil_iff.1 hnil.symm
        exact ⟨[], c, rest, m, m₂, [], tokens, rfl, rfl, .nil, hstep, hrest⟩
    · obtain ⟨before, d, after, m₁, m₂, first, second, rfl, rfl, hbefore, hlater⟩ := ih hothers.symm
      exact ⟨c :: before, d, after, m₁, m₂, given ++ first, second, rfl,
        (List.append_assoc ..).symm, .cons hstep hbefore, hlater⟩

/-! ## 2. Characters that are no marks -/

/-- The characters that are marks, or may be the first character of one. -/
def marks : List Char := ['<', '/', ']', '>', '=', '\'', '"', '&', ';', '?']

theorem isNamePart_not_mem_marks {c : Char} (hc : isNamePart c = true) : c ∉ marks := by
  intro hmem
  have hmarks : marks.all (fun d => !isNamePart d) = true := by decide
  have hnot := List.all_eq_true.1 hmarks c hmem
  rw [hc] at hnot
  cases hnot

theorem isNameStart_not_mem_marks {c : Char} (hc : isNameStart c = true) : c ∉ marks := by
  apply isNamePart_not_mem_marks
  rw [isNamePart, hc]
  rfl

theorem isBlank_not_mem_marks {c : Char} (hc : isBlank c = true) : c ∉ marks := by
  intro hmem
  have hmarks : marks.all (fun d => !isBlank d) = true := by decide
  have hnot := List.all_eq_true.1 hmarks c hmem
  rw [hc] at hnot
  cases hnot

theorem ofTextChar_eq_char {c : Char} (hc : c ∉ marks) : Token.ofTextChar c = .char c := by
  simp only [marks, List.mem_cons, List.not_mem_nil, or_false, not_or] at hc
  obtain ⟨-, -, -, h1, h2, h3, h4, h5, h6, -⟩ := hc
  unfold Token.ofTextChar
  split
  · exact absurd rfl h1
  · exact absurd rfl h2
  · unfold Token.ofChar
    split <;> first | rfl | contradiction

theorem inText_eq {c : Char} (hopen : c ≠ '<') (hsolidus : c ≠ '/') (hbracket : c ≠ ']') :
    Mode.inText c = (.text, [.ofTextChar c]) := by
  unfold Mode.inText
  split <;> first | rfl | contradiction

/-- The token of a character within an instruction. -/
def Token.ofInstructionChar (c : Char) : Token :=
  if c = '<' then .tagStart else if c = '/' then .endTagStart else .ofTextChar c

theorem inInstruction_eq {c : Char} (hc : c ≠ '?') :
    Mode.inInstruction c = (.instruction, [.ofInstructionChar c]) := by
  unfold Mode.inInstruction Token.ofInstructionChar
  split
  · contradiction
  · rfl
  · rfl
  · rename_i hopen hsolidus
    rw [if_neg hopen, if_neg hsolidus]

theorem emits_text_char {c : Char} (hc : c ∉ marks) : Emits .text [c] [.char c] .text := by
  refine .single ?_
  have hmarks := hc
  simp only [marks, List.mem_cons, List.not_mem_nil, or_false, not_or] at hmarks
  obtain ⟨h1, h2, h3, -⟩ := hmarks
  show (Lexer.goText ⟨.text, false⟩ [] c) = _
  unfold Lexer.goText
  rw [inText_eq h1 h2 h3, ofTextChar_eq_char hc]
  rfl

theorem emits_instruction_char {c : Char} (hc : c ∉ marks) :
    Emits .instruction [c] [.char c] .instruction := by
  refine .single ?_
  have htoken := ofTextChar_eq_char hc
  simp only [marks, List.mem_cons, List.not_mem_nil, or_false, not_or] at hc
  obtain ⟨hopen, hsolidus, -, -, -, -, -, -, -, hquestion⟩ := hc
  show Lexer.go ⟨.instruction, false⟩ (Mode.inInstruction c).1 (Mode.inInstruction c).2 = _
  rw [inInstruction_eq hquestion, Token.ofInstructionChar, if_neg hopen, if_neg hsolidus, htoken]
  rfl

/-- In text and in an instruction characters that are no marks stand for themselves. -/
theorem lexes_chars (hm : m = .text ∨ m = .instruction) {text : List Char}
    (htext : ∀ c ∈ text, c ∉ marks) : Lexes m text (text.map .char) m := by
  have hpending : m.pending = [] := by rcases hm with rfl | rfl <;> rfl
  refine Emits.lexes ?_ hpending hpending
  induction text with
  | nil => exact .nil
  | cons c rest ih =>
    have hrest := ih fun d hd => htext d (List.mem_cons_of_mem _ hd)
    have hc := htext c List.mem_cons_self
    rcases hm with rfl | rfl
    · exact (emits_text_char hc).append hrest
    · exact (emits_instruction_char hc).append hrest

theorem lexes_blanks (hm : m = .text ∨ m = .instruction) (htext : Blanks text) :
    Lexes m text (text.map .char) m :=
  lexes_chars hm fun c hc => isBlank_not_mem_marks (htext c hc)

theorem lexes_name (hm : m = .text ∨ m = .instruction) {name : List Char} (h : IsName name) :
    Lexes m name (name.map .char) m :=
  lexes_chars hm fun c hc => isNamePart_not_mem_marks (h.parts c hc)

/-! ## 3. Runs of characters between marks -/

/-- Whether a lexer is in text, and may hold characters back. -/
def Mode.InText (m : Mode) : Prop := m ∈ [.text, .solidus, .bracket, .brackets]

theorem Mode.inText_iff : m.InText ↔ m = .text ∨ m = .solidus ∨ m = .bracket ∨ m = .brackets := by
  simp only [InText, List.mem_cons, List.not_mem_nil, or_false]

theorem Mode.inText_text : Mode.text.InText := inText_iff.2 (.inl rfl)

/-- The tokens that text may hold. -/
def Token.isOrdinary : Token → Bool
  | .char _ => true
  | .quote _ => true
  | .equals => true
  | .semicolon => true
  | .tagEnd => true
  | .emptyTagEnd => true
  | _ => false

theorem ofTextChar_isOrdinary {c : Char} (hreference : c ≠ '&') :
    (Token.ofTextChar c).isOrdinary = true := by
  unfold Token.ofTextChar
  split
  · rfl
  · rfl
  · unfold Token.ofChar
    split <;> first | rfl | contradiction

theorem text_ofTextChar (c : Char) : (Token.ofTextChar c).text = [c] := by
  unfold Token.ofTextChar
  split
  · rfl
  · rfl
  · unfold Token.ofChar
    split <;> rfl

theorem pending_isOrdinary (m : Mode) : ∀ t ∈ m.pending, t.isOrdinary = true := by
  intro t ht
  cases m <;> simp only [Mode.pending, List.mem_cons, List.not_mem_nil, or_false, or_self] at ht <;>
    first | contradiction | (rw [ht]; rfl)

/-- A character after some tokens is given or held back. -/
theorem goText_eq {c : Char} (hopen : c ≠ '<') (hreference : c ≠ '&') {before : List Token}
    (hbefore : ∀ t ∈ before, t.isOrdinary = true) :
    ∃ m' emitted, m'.InText ∧ Lexer.goText ⟨m, false⟩ before c = some (⟨m', false⟩, emitted) ∧
      textOfTokens (emitted ++ m'.pending) = textOfTokens before ++ [c] ∧
      ∀ t ∈ emitted, t.isOrdinary = true := by
  by_cases hsolidus : c = '/'
  · subst hsolidus
    exact ⟨.solidus, before ++ [], by simp [Mode.inText_iff], rfl,
      by simp [textOfTokens_append]; rfl, by rwa [List.append_nil]⟩
  by_cases hbracket : c = ']'
  · subst hbracket
    exact ⟨.bracket, before ++ [], by simp [Mode.inText_iff], rfl,
      by simp [textOfTokens_append]; rfl, by rwa [List.append_nil]⟩
  refine ⟨.text, before ++ [.ofTextChar c], Mode.inText_text, ?_, ?_, ?_⟩
  · unfold Lexer.goText
    rw [inText_eq hopen hsolidus hbracket]
    rfl
  · show textOfTokens (before ++ [.ofTextChar c] ++ []) = _
    rw [List.append_nil, textOfTokens_append]
    show _ ++ ((Token.ofTextChar c).text ++ []) = _
    rw [text_ofTextChar]
    rfl
  · intro t ht
    rcases List.mem_append.1 ht with ht | ht
    · exact hbefore t ht
    · rw [List.mem_singleton.1 ht]
      exact ofTextChar_isOrdinary hreference

/-- A character in text is given, with what was held back before it, or held back itself. Only one
that ends what looks like a literal is not ordinary. -/
theorem step_inText {c : Char} (hm : m.InText) (hopen : c ≠ '<') (hreference : c ≠ '&') :
    ∃ m' emitted, m'.InText ∧ Lexer.step ⟨m, false⟩ c = some (⟨m', false⟩, emitted) ∧
      textOfTokens (emitted ++ m'.pending) = textOfTokens m.pending ++ [c] ∧
      ∀ t ∈ emitted, t.isOrdinary = true ∨ m = .brackets ∧ c = '>' ∧ t = .literalEnd := by
  obtain ⟨m', emitted, hm', hgo, htext, htokens⟩ :=
    goText_eq (m := m) hopen hreference (pending_isOrdinary m)
  have hemitted : ∀ t ∈ emitted, t.isOrdinary = true ∨ m = .brackets ∧ c = '>' ∧ t = .literalEnd :=
    fun t ht => .inl (htokens t ht)
  rcases Mode.inText_iff.1 hm with rfl | rfl | rfl | rfl
  · exact ⟨m', emitted, hm', hgo, htext, hemitted⟩
  · by_cases hend : c = '>'
    · subst hend
      refine ⟨.text, [.emptyTagEnd], Mode.inText_text, rfl, rfl, fun t ht => .inl ?_⟩
      rw [List.mem_singleton.1 ht]
      rfl
    · refine ⟨m', emitted, hm', ?_, htext, hemitted⟩
      show (if c = '>' then _ else Lexer.goOuter ⟨.solidus, false⟩ [.char '/'] c) = _
      rw [if_neg hend]
      exact hgo
  · by_cases hbracket : c = ']'
    · subst hbracket
      exact ⟨.brackets, [], by simp [Mode.inText_iff], rfl, rfl, by simp⟩
    · refine ⟨m', emitted, hm', ?_, htext, hemitted⟩
      show (if c = ']' then _ else Lexer.goText ⟨.bracket, false⟩ [.char ']'] c) = _
      rw [if_neg hbracket]
      exact hgo
  · by_cases hend : c = '>'
    · subst hend
      exact ⟨.text, [.literalEnd], Mode.inText_text, rfl, rfl, by simp⟩
    by_cases hbracket : c = ']'
    · subst hbracket
      refine ⟨.brackets, [.char ']'], by simp [Mode.inText_iff], rfl, rfl, fun t ht => .inl ?_⟩
      rw [List.mem_singleton.1 ht]
      rfl
    · refine ⟨m', emitted, hm', ?_, htext, hemitted⟩
      show (if c = '>' then _ else if c = ']' then _ else
        Lexer.goText ⟨.brackets, false⟩ [.char ']', .char ']'] c) = _
      rw [if_neg hend, if_neg hbracket]
      exact hgo

theorem emits_text (hm : m.InText) {text : List Char} (hchars : ∀ c ∈ text, c ≠ '<' ∧ c ≠ '&')
    (hnoEnd : ¬ Token.literalEnd.text <:+: textOfTokens m.pending ++ text) :
    ∃ m' emitted, m'.InText ∧ Emits m text emitted m' ∧
      textOfTokens (emitted ++ m'.pending) = textOfTokens m.pending ++ text ∧
      ∀ t ∈ emitted, t.isOrdinary = true := by
  induction text generalizing m with
  | nil => exact ⟨m, [], hm, .nil, (List.append_nil _).symm, nofun⟩
  | cons c rest ih =>
    obtain ⟨hopen, hreference⟩ := hchars c List.mem_cons_self
    obtain ⟨m', emitted, hm', hstep, htext, hemitted⟩ := step_inText hm hopen hreference
    -- What was held back and is still to come is the end of the same text.
    have hsplit : textOfTokens m.pending ++ c :: rest =
        textOfTokens emitted ++ (textOfTokens m'.pending ++ rest) := by
      rw [← List.append_assoc, ← textOfTokens_append, htext, List.append_assoc]
      rfl
    have hrest : ¬ Token.literalEnd.text <:+: textOfTokens m'.pending ++ rest := by
      intro hinfix
      apply hnoEnd
      rw [hsplit]
      exact hinfix.trans (List.suffix_append _ _).isInfix
    obtain ⟨m'', more, hm'', hmore, htextMore, hordinary⟩ :=
      ih hm' (fun d hd => hchars d (List.mem_cons_of_mem _ hd)) hrest
    refine ⟨m'', emitted ++ more, hm'', .cons hstep hmore, ?_, ?_⟩
    · rw [List.append_assoc, textOfTokens_append, htextMore, hsplit]
    · intro t ht
      rcases List.mem_append.1 ht with ht | ht
      · rcases hemitted t ht with h | ⟨rfl, rfl, -⟩
        · exact h
        · exact absurd ⟨[], rest, rfl⟩ hnoEnd
      · exact hordinary t ht

theorem lexes_text {text : List Char} (hchars : ∀ c ∈ text, c ≠ '<' ∧ c ≠ '&')
    (hnoEnd : ¬ Token.literalEnd.text <:+: text) :
    ∃ m' tokens, m'.InText ∧ Lexes .text text tokens m' ∧ textOfTokens tokens = text ∧
      ∀ t ∈ tokens, t.isOrdinary = true := by
  obtain ⟨m', emitted, hm', hemits, htext, hordinary⟩ :=
    emits_text (m := .text) Mode.inText_text hchars hnoEnd
  refine ⟨m', emitted ++ m'.pending, hm', ⟨emitted, hemits, rfl⟩, htext, ?_⟩
  intro t ht
  rcases List.mem_append.1 ht with ht | ht
  · exact hordinary t ht
  · exact pending_isOrdinary m' t ht

/-- Characters that are given or held back one after the other, where each may follow. -/
theorem lexes_run (Good : Mode → List Char → Prop) (text : List Char) (tokenOf : Char → Token)
    (hstep : ∀ m c rest, Good m (c :: rest) → ∃ m' emitted,
      Lexer.step ⟨m, false⟩ c = some (⟨m', false⟩, emitted) ∧
      m.pending ++ [tokenOf c] = emitted ++ m'.pending ∧ Good m' rest)
    (h : Good m text) : ∃ m', Good m' [] ∧ Lexes m text (text.map tokenOf) m' := by
  induction text generalizing m with
  | nil => exact ⟨m, h, [], .nil, List.append_nil _⟩
  | cons c rest ih =>
    obtain ⟨m', emitted, hemits, hpending, hgood⟩ := hstep m c rest h
    obtain ⟨m'', hend, hrest⟩ := ih hgood
    have hfirst : Lexes m [c] [tokenOf c] m' := ⟨emitted, .single hemits, hpending⟩
    exact ⟨m'', hend, hfirst.append hrest⟩

/-- A text within a comment stands for itself, and so does each of its hyphens. -/
theorem lexes_comment {text : List Char} (hnoHyphens : ¬ ['-', '-'] <:+: text ++ ['-']) :
    Lexes .comment text (text.map .char) .comment := by
  let Good (m : Mode) (text : List Char) : Prop := m ∈ [.comment, .hyphen] ∧
    ¬ ['-', '-'] <:+: textOfTokens m.pending ++ (text ++ ['-'])
  have hrun := lexes_run (m := .comment) Good text .char ?_ ⟨by simp, hnoHyphens⟩
  · obtain ⟨m', ⟨hm', hend⟩, hlexes⟩ := hrun
    simp only [List.mem_cons, List.not_mem_nil, or_false] at hm'
    rcases hm' with rfl | rfl
    · exact hlexes
    · exact absurd ⟨[], [], rfl⟩ hend
  · rintro m c rest ⟨hm, hno⟩
    simp only [List.mem_cons, List.not_mem_nil, or_false] at hm
    by_cases hc : c = '-'
    · subst hc
      rcases hm with rfl | rfl
      · exact ⟨.hyphen, [], rfl, rfl, by simp, hno⟩
      · exact absurd ⟨[], rest ++ ['-'], rfl⟩ hno
    · have hrest : ¬ ['-', '-'] <:+: rest ++ ['-'] := fun h => by
        apply hno
        exact h.trans ((List.suffix_cons c _).trans (List.suffix_append _ _)).isInfix
      rcases hm with rfl | rfl
      · exact ⟨.comment, [.char c], if_neg hc, rfl, by simp, hrest⟩
      · exact ⟨.comment, [.char '-', .char c], if_neg hc, rfl, by simp, hrest⟩

/-- A text within a literal stands for itself. Brackets at its end may be held back. -/
theorem lexes_literal {text : List Char} (hnoEnd : ¬ Token.literalEnd.text <:+: text) :
    ∃ m' ∈ [Mode.literal, .literalBracket, .literalBrackets],
      Lexes .literal text (text.map .char) m' := by
  let Good (m : Mode) (text : List Char) : Prop :=
    m ∈ [Mode.literal, .literalBracket, .literalBrackets] ∧
      ¬ Token.literalEnd.text <:+: textOfTokens m.pending ++ text
  have hrun := lexes_run (m := .literal) Good text .char ?_ ⟨by simp, hnoEnd⟩
  · obtain ⟨m', ⟨hm', -⟩, hlexes⟩ := hrun
    exact ⟨m', hm', hlexes⟩
  · rintro m c rest ⟨hm, hno⟩
    simp only [List.mem_cons, List.not_mem_nil, or_false] at hm
    have hrest : ¬ Token.literalEnd.text <:+: rest := fun h => by
      apply hno
      exact h.trans ((List.suffix_cons c _).trans (List.suffix_append _ _)).isInfix
    by_cases hbracket : c = ']'
    · subst hbracket
      rcases hm with rfl | rfl | rfl
      · exact ⟨.literalBracket, [], rfl, rfl, by simp, hno⟩
      · exact ⟨.literalBrackets, [], rfl, rfl, by simp, hno⟩
      · refine ⟨.literalBrackets, [.char ']'], rfl, rfl, by simp, fun h => hno ?_⟩
        exact h.trans (List.suffix_cons ']' _).isInfix
    rcases hm with rfl | rfl | rfl
    · exact ⟨.literal, [.char c], if_neg hbracket, rfl, by simp, hrest⟩
    · exact ⟨.literal, [.char ']', .char c], if_neg hbracket, rfl, by simp, hrest⟩
    · have hend : c ≠ '>' := by
        rintro rfl
        exact hno ⟨[], rest, rfl⟩
      refine ⟨.literal, [.char ']', .char ']', .char c], ?_, rfl, by simp, hrest⟩
      exact (if_neg hend).trans (if_neg hbracket)

theorem lexes_instruction {text : List Char} (hnoEnd : ¬ Token.instructionEnd.text <:+: text) :
    ∃ m' ∈ [Mode.instruction, .question],
      Lexes .instruction text (text.map .ofInstructionChar) m' := by
  let Good (m : Mode) (text : List Char) : Prop := m ∈ [Mode.instruction, .question] ∧
    ¬ Token.instructionEnd.text <:+: textOfTokens m.pending ++ text
  have hrun := lexes_run (m := .instruction) Good text .ofInstructionChar ?_
    ⟨by simp, hnoEnd⟩
  · obtain ⟨m', ⟨hm', -⟩, hlexes⟩ := hrun
    exact ⟨m', hm', hlexes⟩
  · rintro m c rest ⟨hm, hno⟩
    simp only [List.mem_cons, List.not_mem_nil, or_false] at hm
    by_cases hquestion : c = '?'
    · subst hquestion
      rcases hm with rfl | rfl
      · exact ⟨.question, [], rfl, rfl, by simp, hno⟩
      · refine ⟨.question, [.char '?'], rfl, rfl, by simp, fun h => hno ?_⟩
        exact h.trans (List.suffix_cons '?' _).isInfix
    have hrest : ¬ Token.instructionEnd.text <:+: rest := fun h => by
      apply hno
      exact h.trans ((List.suffix_cons c _).trans (List.suffix_append _ _)).isInfix
    rcases hm with rfl | rfl
    · refine ⟨.instruction, [.ofInstructionChar c], ?_, rfl, by simp, hrest⟩
      show Lexer.go ⟨.instruction, false⟩ (Mode.inInstruction c).1 (Mode.inInstruction c).2 = _
      rw [inInstruction_eq hquestion]
      rfl
    · have hend : c ≠ '>' := by
        rintro rfl
        exact hno ⟨[], rest, rfl⟩
      refine ⟨.instruction, [.char '?', .ofInstructionChar c], ?_, rfl, by simp, hrest⟩
      show (if c = '>' then _ else Lexer.go ⟨.question, false⟩ (Mode.inInstruction c).1
        (.char '?' :: (Mode.inInstruction c).2)) = _
      rw [if_neg hend, inInstruction_eq hquestion]
      rfl

/-! ## 4. Marks -/

theorem lexes_ampersand (hm : m.InText) : Lexes m ['&'] [.ampersand] .text := by
  refine ⟨m.pending ++ [.ampersand], .single ?_, (List.append_nil _).symm⟩
  rcases Mode.inText_iff.1 hm with rfl | rfl | rfl | rfl <;> rfl

theorem emits_opened (hm : m.InText) : Emits m ['<'] m.pending .opened := by
  refine .single ?_
  rcases Mode.inText_iff.1 hm with rfl | rfl | rfl | rfl <;> rfl

/-- What a mark gives that begins with a `<`. -/
theorem lexes_mark (hm : m.InText) (h : Emits .opened text tokens m') (hm' : m'.pending = []) :
    Lexes m ('<' :: text) tokens m' := by
  refine ⟨m.pending ++ tokens, (emits_opened hm).append h, ?_⟩
  rw [hm', List.append_nil]

theorem lexes_tagStart (hm : m.InText) {c : Char} (hc : isNameStart c = true) :
    Lexes m ['<', c] [.tagStart, .char c] .text := by
  refine lexes_mark hm (.single ?_) rfl
  have hpart : isNamePart c = true := by
    rw [isNamePart, hc]
    rfl
  have hmarks := isNamePart_not_mem_marks hpart
  have hbang : c ≠ '!' := by
    rintro rfl
    exact absurd hc (by decide)
  have htoken := ofTextChar_eq_char hmarks
  simp only [marks, List.mem_cons, List.not_mem_nil, or_false, not_or] at hmarks
  obtain ⟨hopen, hsolidus, hbracket, -, -, -, -, -, -, hquestion⟩ := hmarks
  show Lexer.goOpened ⟨.opened, false⟩ c = _
  unfold Lexer.goOpened
  rw [if_neg hquestion, if_neg hsolidus, if_neg hbang, if_pos (by rw [hpart, Bool.or_true])]
  show Lexer.goText ⟨.opened, false⟩ [.tagStart] c = _
  unfold Lexer.goText
  rw [inText_eq hopen hsolidus hbracket, htoken]
  rfl

theorem lexes_endTagStart (hm : m.InText) : Lexes m ['<', '/'] [.endTagStart] .text :=
  lexes_mark hm (.single rfl) rfl

theorem lexes_instructionStart (hm : m.InText) :
    Lexes m ['<', '?'] [.instructionStart] .instruction :=
  lexes_mark hm (.single rfl) rfl

theorem lexes_commentStart (hm : m.InText) :
    Lexes m Token.commentStart.text [.commentStart] .comment := by
  rw [show Token.commentStart.text = ['<', '!', '-', '-'] by decide]
  exact lexes_mark hm (.held rfl (.held rfl (.single rfl))) rfl

theorem lexes_literalStart (hm : m.InText) :
    Lexes m Token.literalStart.text [.literalStart] .literal := by
  rw [show Token.literalStart.text = ['<', '!', '[', 'C', 'D', 'A', 'T', 'A', '['] by decide]
  exact lexes_mark hm (.held rfl (.held rfl (.held rfl (.held rfl (.held rfl (.held rfl (.held rfl
    (.single rfl)))))))) rfl

theorem lexes_commentEnd : Lexes .comment Token.commentEnd.text [.commentEnd] .text := by
  rw [show Token.commentEnd.text = ['-', '-', '>'] by decide]
  exact Emits.lexes (.held rfl (.held rfl (.single rfl))) rfl rfl

theorem lexes_literalEnd (hm : m ∈ [Mode.literal, .literalBracket, .literalBrackets]) :
    Lexes m Token.literalEnd.text [.literalEnd] .text := by
  rw [show Token.literalEnd.text = [']', ']', '>'] by decide]
  simp only [List.mem_cons, List.not_mem_nil, or_false] at hm
  rcases hm with rfl | rfl | rfl
  all_goals exact ⟨_, .cons rfl (.cons rfl (.single rfl)), rfl⟩

theorem lexes_instructionEnd (hm : m ∈ [Mode.instruction, .question]) :
    Lexes m ['?', '>'] [.instructionEnd] .text := by
  simp only [List.mem_cons, List.not_mem_nil, or_false] at hm
  rcases hm with rfl | rfl
  all_goals exact ⟨_, .cons rfl (.single rfl), rfl⟩

theorem lexes_tagEnd : Lexes .text ['>'] [.tagEnd] .text :=
  Emits.lexes (.single rfl) rfl rfl

theorem lexes_emptyTagEnd : Lexes .text ['/', '>'] [.emptyTagEnd] .text :=
  Emits.lexes (.held rfl (.single rfl)) rfl rfl

theorem lexes_semicolon : Lexes .text [';'] [.semicolon] .text :=
  Emits.lexes (.single rfl) rfl rfl

theorem lexes_equals (hm : m = .text ∨ m = .instruction) : Lexes m ['='] [.equals] m := by
  rcases hm with rfl | rfl <;> exact Emits.lexes (.single rfl) rfl rfl

theorem lexes_quote (hm : m.InText) (q : Quote) :
    Lexes m (Token.quote q).text [.quote q] .text := by
  refine ⟨m.pending ++ [.quote q], ?_, (List.append_nil _).symm⟩
  cases q <;> rcases Mode.inText_iff.1 hm with rfl | rfl | rfl | rfl <;> exact .single rfl

theorem lexes_quote_same (hm : m = .text ∨ m = .instruction) (q : Quote) :
    Lexes m (Token.quote q).text [.quote q] m := by
  rcases hm with rfl | rfl <;> cases q <;> exact Emits.lexes (.single rfl) rfl rfl

end TourMap.Xml
