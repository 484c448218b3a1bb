import TourMap.Proofs.Xml.Lexing

/-!
# Attributes: an attribute is read as it is written

The tokens of an attribute lead from the blank before it to its closing quote (`Goes`), with its name
and its value. Characters that are held back by a lexer reach the value later, but in their order.
-/

namespace TourMap.Xml

/-! ## 1. Names and references -/

theorem utf8Octets_append (text others : List Char) :
    utf8Octets (text ++ others) = utf8Octets text ++ utf8Octets others :=
  List.flatMap_append

/-- A first character and the others make a name. -/
theorem isName_cons {c : Char} {rest : List Char} (hstart : isNameStart c = true)
    (hrest : rest.all isNamePart = true)
    (hoctets : (utf8Octets (c :: rest)).length ≤ PartialName.maxOctets) : IsName (c :: rest) := by
  refine ⟨List.cons_ne_nil c rest, ?_, ?_, hoctets⟩
  · rintro d ⟨⟩
    exact hstart
  · intro d hd
    rcases List.mem_cons.1 hd with rfl | hd
    · rw [isNamePart, hstart]
      rfl
    · exact List.all_eq_true.1 hrest d hd

/-- A name of which some characters were read. -/
def PartialName.of (read : List Char) : PartialName :=
  ⟨read.reverse, (utf8Octets read).length⟩

theorem PartialName.chars_of (read : List Char) : (PartialName.of read).chars = read :=
  List.reverse_reverse read

theorem isNamePart_not_isBlank {c : Char} (hc : isNamePart c = true) : isBlank c = false := by
  cases hblank : isBlank c with
  | false => rfl
  | true =>
    simp only [isBlank, Bool.or_eq_true, beq_iff_eq] at hblank
    rcases hblank with ((rfl | rfl) | rfl) | rfl <;> exact absurd hc (by decide)

theorem IsName.add?_of {read rest : List Char} {c : Char} (h : IsName (read ++ c :: rest)) :
    (PartialName.of read).add? c = some (.of (read ++ [c])) := by
  have hnext : isNextOfName (PartialName.of read).isEmpty c = true := by
    cases read with
    | nil => exact h.start c rfl
    | cons d read =>
      have hempty : (PartialName.of (d :: read)).isEmpty = false := by
        simp [PartialName.of, PartialName.isEmpty]
      rw [hempty]
      exact h.parts c (List.mem_append_right _ List.mem_cons_self)
  have hoctets : (PartialName.of read).octets ≤ PartialName.maxOctets := by
    have hall := h.octets
    rw [utf8Octets_append, List.length_append] at hall
    exact Nat.le_trans (Nat.le_add_right _ _) hall
  have hlength : (utf8Octets (read ++ [c])).length = (utf8Octets read).length + c.utf8Size := by
    rw [utf8Octets_append, List.length_append]
    show _ + (String.utf8EncodeChar c ++ []).length = _
    rw [List.append_nil, String.length_utf8EncodeChar]
  unfold PartialName.add? PartialName.of
  rw [hlength, List.reverse_append]
  exact if_pos (Bool.and_eq_true_iff.2 ⟨hnext, decide_eq_true hoctets⟩)

theorem IsReference.extend {v : Version} {read rest : List Char} {d c : Char}
    (h : IsReference v (read ++ d :: rest) c) :
    extendReference? read.reverse d = some (d :: read.reverse) := by
  obtain ⟨first, others, heq, hfirst, hothers⟩ := h.start
  unfold extendReference?
  rw [if_pos]
  cases read with
  | nil =>
    obtain ⟨rfl, -⟩ := List.cons.inj heq
    rcases hfirst with rfl | hfirst
    · rfl
    · rw [List.reverse_nil]
      simp only [List.isEmpty_nil, isNextOfName, if_true, hfirst, Bool.or_true]
  | cons e read =>
    obtain ⟨-, rfl⟩ := List.cons.inj heq
    have hd := hothers d (List.mem_append_right _ List.mem_cons_self)
    have hempty : (e :: read).reverse.isEmpty = false := by simp
    simp only [hempty, isNextOfName, hd, Bool.false_eq_true, if_false, Bool.or_true]

theorem IsReference.not_mem_marks {v : Version} {name : List Char} {c : Char}
    (h : IsReference v name c) : ∀ d ∈ name, d ∉ marks := by
  obtain ⟨first, rest, rfl, hfirst, hrest⟩ := h.start
  intro d hd
  rcases List.mem_cons.1 hd with rfl | hd
  · rcases hfirst with rfl | hfirst
    · decide
    · exact isNameStart_not_mem_marks hfirst
  · exact isNamePart_not_mem_marks (hrest d hd)

/-- The tokens of a reference. -/
def referenceTokens (name : List Char) : List Token :=
  .ampersand :: (name.map .char ++ [.semicolon])

theorem lexes_reference {v : Version} {name : List Char} {c : Char} (h : IsReference v name c)
    {m : Mode} (hm : m.InText) :
    Lexes m ('&' :: (name ++ [';'])) (referenceTokens name) .text :=
  (lexes_ampersand hm).append ((lexes_chars (.inl rfl) h.not_mem_marks).append lexes_semicolon)

/-! ## 2. Attributes token by token -/

/-- An attribute of which some tokens were read, and after some more of them. -/
inductive Goes (v : Version) : PartialAttribute → List Token → PartialAttribute → Prop
  | nil {p : PartialAttribute} : Goes v p [] p
  | cons {p p' p'' : PartialAttribute} {t : Token} {rest : List Token}
    (h : p.step v .empty t = some (.next p')) (hrest : Goes v p' rest p'') : Goes v p (t :: rest) p''

variable {v : Version} {p p' p'' : PartialAttribute} {tokens more : List Token}

theorem Goes.append (h : Goes v p tokens p') (hmore : Goes v p' more p'') :
    Goes v p (tokens ++ more) p'' := by
  induction h with
  | nil => exact hmore
  | cons h _ ih => exact .cons h (ih hmore)

theorem Goes.single {t : Token} (h : p.step v .empty t = some (.next p')) : Goes v p [t] p' :=
  .cons h .nil

theorem goes_before {before : List Char} (hne : before ≠ []) (hbefore : Blanks before)
    (blank : Bool) : Goes v (.awaited blank) (before.map .char) (.awaited true) := by
  induction before generalizing blank with
  | nil => exact absurd rfl hne
  | cons c rest ih =>
    have hstep : (PartialAttribute.awaited blank).step v .empty (.char c) =
        some (.next (.awaited true)) := if_pos (hbefore c List.mem_cons_self)
    cases rest with
    | nil => exact .single hstep
    | cons d rest =>
      exact .cons hstep (ih nofun (fun e he => hbefore e (List.mem_cons_of_mem _ he)) true)

theorem goes_name {read name : List Char} (hread : read ≠ []) (h : IsName (read ++ name)) :
    Goes v (.name (.of read)) (name.map .char) (.name (.of (read ++ name))) := by
  induction name generalizing read with
  | nil =>
    rw [List.append_nil]
    exact .nil
  | cons c rest ih =>
    have hblank := isNamePart_not_isBlank (h.parts c (List.mem_append_right _ List.mem_cons_self))
    have hstep : (PartialAttribute.name (.of read)).step v .empty (.char c) =
        some (.next (.name (.of (read ++ [c])))) := by
      show (if isBlank c then _ else ((PartialName.of read).add? c).map _) = _
      rw [hblank, h.add?_of]
      rfl
    rw [← List.singleton_append, ← List.append_assoc] at h ⊢
    exact .cons hstep (ih (by simp) h)

theorem goes_awaited_name {name : List Char} (h : IsName name) :
    Goes v (.awaited true) (name.map .char) (.name (.of name)) := by
  obtain ⟨c, rest, rfl⟩ := List.exists_cons_of_ne_nil h.ne_nil
  have hblank := isNamePart_not_isBlank (h.parts c List.mem_cons_self)
  have hadd : PartialName.empty.add? c = some (.of [c]) :=
    IsName.add?_of (show IsName ([] ++ c :: rest) from h)
  have hstep : (PartialAttribute.awaited true).step v .empty (.char c) =
      some (.next (.name (.of [c]))) := by
    show (if isBlank c then _ else if true then (PartialName.empty.add? c).map _ else _) = _
    rw [hblank, hadd]
    rfl
  exact .cons hstep (goes_name (by simp) h)

theorem goes_named {name blanks : List Char} (hblanks : Blanks blanks) :
    Goes v (.named name) (blanks.map .char) (.named name) := by
  induction blanks with
  | nil => exact .nil
  | cons c rest ih =>
    exact .cons (if_pos (hblanks c List.mem_cons_self))
      (ih fun d hd => hblanks d (List.mem_cons_of_mem _ hd))

theorem goes_equals {name blanks : List Char} (hblanks : Blanks blanks) :
    Goes v (.name (.of name)) (blanks.map .char ++ [.equals]) (.value name .awaited) := by
  cases blanks with
  | nil =>
    refine .single ?_
    show some (Step.next (PartialAttribute.value (PartialName.of name).chars .awaited)) = _
    rw [PartialName.chars_of]
  | cons c rest =>
    have hfirst : (PartialAttribute.name (.of name)).step v .empty (.char c) =
        some (.next (.named name)) := by
      show (if isBlank c then some (Step.next (PartialAttribute.named (PartialName.of name).chars))
        else _) = _
      rw [if_pos (hblanks c List.mem_cons_self), PartialName.chars_of]
    have hrest : Goes v (.named name) (rest.map .char) (.named name) :=
      goes_named fun d hd => hblanks d (List.mem_cons_of_mem c hd)
    exact .cons hfirst (hrest.append (.single rfl))

/-! ## 3. Values token by token -/

variable {key : List Char} {q : Quote}

theorem step_value {value next : PartialValue} {t : Token}
    (h : value.step v .empty t = some (.next next)) :
    (PartialAttribute.value key value).step v .empty t = some (.next (.value key next)) := by
  unfold PartialAttribute.step
  simp only [h]

theorem step_value_done {value : PartialValue} {chars : List Char} {t : Token}
    (h : value.step v .empty t = some (.done chars)) :
    (PartialAttribute.value key value).step v .empty t = some (.done (key, chars)) := by
  unfold PartialAttribute.step
  simp only [h]

theorem goes_quote {blanks : List Char} (hblanks : Blanks blanks) (q : Quote) :
    Goes v (.value key .awaited) (blanks.map .char ++ [.quote q])
      (.value key (.opened q [] false)) := by
  induction blanks with
  | nil => exact .single rfl
  | cons c rest ih =>
    have hstep : PartialValue.awaited.step v .empty (.char c) = some (.next .awaited) :=
      if_pos (hblanks c List.mem_cons_self)
    exact .cons (step_value hstep) (ih fun d hd => hblanks d (List.mem_cons_of_mem _ hd))

/-- What was read of a value, the last character first, and whether that may be the first one of a
pair that ends a line. -/
abbrev ValueRead := List Char × Bool

def ValueRead.opened (q : Quote) (s : ValueRead) : PartialValue := .opened q s.1 s.2

def ValueRead.add (s : ValueRead) (c : Char) : ValueRead :=
  if s.2 && c == '\n' then (s.1, false) else ((if isBlank c then ' ' else c) :: s.1, c == '\r')

def ValueRead.addPiece (s : ValueRead) : Piece → ValueRead
  | .char c => s.add c
  | .reference _ c => (c :: s.1, false)

theorem foldl_addPiece (s : ValueRead) (pieces : List Piece) :
    (pieces.foldl ValueRead.addPiece s).1 = (valueOf s.2 pieces).reverse ++ s.1 := by
  induction pieces generalizing s with
  | nil => rfl
  | cons p rest ih =>
    obtain ⟨read, afterReturn⟩ := s
    rw [List.foldl_cons, ih]
    cases p with
    | reference name c =>
      rw [valueOf, List.reverse_cons, List.append_assoc]
      rfl
    | char c =>
      rw [valueOf]
      show (valueOf (ValueRead.add (read, afterReturn) c).2 rest).reverse ++
        (ValueRead.add (read, afterReturn) c).1 = _
      unfold ValueRead.add
      by_cases hline : (afterReturn && c == '\n') = true
      · rw [if_pos hline, if_pos hline]
      · rw [if_neg hline, if_neg hline, List.reverse_cons, List.append_assoc]
        rfl

theorem add_eq (s : ValueRead) (c : Char) :
    PartialValue.add q s.1 s.2 c = (s.add c).opened q := by
  unfold PartialValue.add ValueRead.add
  split <;> rfl

/-- A token of a value adds its text. -/
theorem step_opened (s : ValueRead) {t : Token} (ht : t.isOrdinary = true ∨ t = .literalEnd)
    (hquote : t ≠ .quote q) (hplain : ∀ c, t = .char c → v.isPlain c = true) :
    (s.opened q).step v .empty t = some (.next ((t.text.foldl ValueRead.add s).opened q)) := by
  obtain ⟨read, afterReturn⟩ := s
  cases t with
  | char c =>
    show (if v.isPlain c then some (Step.next (PartialValue.add q read afterReturn c))
      else none) = _
    rw [if_pos (hplain c rfl), add_eq (read, afterReturn)]
    rfl
  | quote other =>
    show (if other = q then _ else some (Step.next (PartialValue.opened q
      ((Token.quote other).text ++ read) false))) = _
    rw [if_neg fun h => hquote (congrArg Token.quote h)]
    cases other <;> cases afterReturn <;> rfl
  | equals | semicolon | tagEnd | emptyTagEnd | literalEnd => cases afterReturn <;> rfl
  | _ => rcases ht with ht | ht <;> cases ht

theorem goes_tokens (s : ValueRead) {tokens : List Token}
    (htokens : ∀ t ∈ tokens, t.isOrdinary = true ∨ t = .literalEnd)
    (hquote : ∀ t ∈ tokens, t ≠ .quote q)
    (hplain : ∀ c, .char c ∈ tokens → v.isPlain c = true) :
    Goes v (.value key (s.opened q)) tokens
      (.value key (((textOfTokens tokens).foldl ValueRead.add s).opened q)) := by
  induction tokens generalizing s with
  | nil => exact .nil
  | cons t rest ih =>
    have hstep := step_opened (v := v) s (htokens t List.mem_cons_self)
      (hquote t List.mem_cons_self) fun c hc => hplain c (hc ▸ List.mem_cons_self)
    have hrest := ih (t.text.foldl ValueRead.add s)
      (fun t ht => htokens t (List.mem_cons_of_mem _ ht))
      (fun t ht => hquote t (List.mem_cons_of_mem _ ht))
      fun c hc => hplain c (List.mem_cons_of_mem _ hc)
    rw [← List.foldl_append] at hrest
    exact .cons (step_value hstep) hrest

theorem goes_referenceName {read name : List Char} {c : Char} (h : IsReference v (read ++ name) c)
    (before : List Char) :
    Goes v (.value key (.reference q before read.reverse)) (name.map .char)
      (.value key (.reference q before (read ++ name).reverse)) := by
  induction name generalizing read with
  | nil =>
    rw [List.append_nil]
    exact .nil
  | cons d rest ih =>
    have hstep : (PartialValue.reference q before read.reverse).step v .empty (.char d) =
        some (.next (.reference q before (read ++ [d]).reverse)) := by
      show (extendReference? read.reverse d).map _ = _
      rw [h.extend, List.reverse_append]
      rfl
    rw [← List.singleton_append, ← List.append_assoc] at h ⊢
    exact .cons (step_value hstep) (ih h)

/-- A reference adds the character that it stands for. -/
theorem goes_reference {name : List Char} {c : Char} (h : IsReference v name c) (s : ValueRead) :
    Goes v (.value key (s.opened q)) (referenceTokens name)
      (.value key (ValueRead.opened q (c :: s.1, false))) := by
  have hstart : (s.opened q).step v .empty .ampersand = some (.next (.reference q s.1 [])) := rfl
  have hend : (PartialValue.reference q s.1 name.reverse).step v .empty .semicolon =
      some (.next (ValueRead.opened q (c :: s.1, false))) := by
    show (Entities.empty.valueOf? v name.reverse.reverse).map _ = _
    unfold Entities.valueOf?
    rw [List.reverse_reverse, h.referent]
    rfl
  have hname : IsReference v ([] ++ name) c := h
  exact .cons (step_value hstart)
    ((goes_referenceName hname s.1).append (.single (step_value hend)))

theorem isPlain_of_mem_pending {m : Mode} (hm : m.InText) :
    ∀ c ∈ textOfTokens m.pending, v.isPlain c = true ∧ Token.ofChar c = .char c := by
  have hall : (textOfTokens m.pending).all
      (fun c => v.isPlain c && Token.ofChar c == .char c) = true := by
    cases v <;> rcases Mode.inText_iff.1 hm with rfl | rfl | rfl | rfl <;> decide
  intro c hc
  have h := List.all_eq_true.1 hall c hc
  rw [Bool.and_eq_true, beq_iff_eq] at h
  exact h

theorem pending_ne_quote (m : Mode) (q : Quote) : ∀ t ∈ m.pending, t ≠ .quote q := by
  intro t ht
  cases m <;> simp only [Mode.pending, List.mem_cons, List.not_mem_nil, or_false, or_self] at ht <;>
    first | contradiction | (rw [ht]; exact fun h => Token.noConfusion h)

theorem mem_textOfTokens {t : Token} (ht : t ∈ tokens) {c : Char} (hc : c ∈ t.text) :
    c ∈ textOfTokens tokens :=
  List.mem_flatMap.2 ⟨t, ht, hc⟩

variable (key) in
/-- The characters that a lexer holds back in text may stand in any value. -/
theorem goes_pending {m : Mode} (hm : m.InText) (s : ValueRead) :
    Goes v (.value key (s.opened q)) m.pending
      (.value key (((textOfTokens m.pending).foldl ValueRead.add s).opened q)) :=
  goes_tokens s (fun t ht => .inl (pending_isOrdinary m t ht)) (pending_ne_quote m q)
    fun d hd => (isPlain_of_mem_pending hm d (mem_textOfTokens hd List.mem_cons_self)).1

variable (key) in
/-- The characters of a value reach it in their order, but for those held back. -/
theorem emits_pieces {m : Mode} (hm : m.InText) (s : ValueRead) {pieces : List Piece}
    (hpieces : ∀ p ∈ pieces, p.IsWritten v q) :
    ∃ m' emitted s', m'.InText ∧ Emits m (pieces.flatMap Piece.text) emitted m' ∧
      Goes v (.value key (s.opened q)) emitted (.value key (ValueRead.opened q s')) ∧
      (textOfTokens m'.pending).foldl ValueRead.add s' =
        pieces.foldl ValueRead.addPiece ((textOfTokens m.pending).foldl ValueRead.add s) := by
  induction pieces generalizing m s with
  | nil => exact ⟨m, [], s, hm, .nil, .nil, rfl⟩
  | cons p rest ih =>
    have hrest : ∀ p ∈ rest, p.IsWritten v q := fun p hp => hpieces p (List.mem_cons_of_mem _ hp)
    cases hpieces p List.mem_cons_self with
    | @char c hplain hmark hreference hquote =>
      obtain ⟨m', emitted, hm', hstep, htext, hemitted⟩ := step_inText hm hmark hreference
      -- What is given was held back, or is the character itself.
      have hchars : ∀ t ∈ emitted, ∀ d ∈ t.text,
          v.isPlain d = true ∧ Token.ofChar d ≠ .quote q := by
        intro t ht d hd
        have hmem : d ∈ textOfTokens m.pending ++ [c] := by
          rw [← htext, textOfTokens_append]
          exact List.mem_append_left _ (mem_textOfTokens ht hd)
        rcases List.mem_append.1 hmem with hmem | hmem
        · obtain ⟨hplain, hchar⟩ := isPlain_of_mem_pending (v := v) hm d hmem
          exact ⟨hplain, by rw [hchar]; exact nofun⟩
        · obtain rfl := List.mem_singleton.1 hmem
          exact ⟨hplain, hquote⟩
      have hgoes : Goes v (.value key (s.opened q)) emitted _ := goes_tokens s
        (fun t ht => (hemitted t ht).imp id fun h => h.2.2)
        (by
          rintro t ht rfl
          cases q
          · exact (hchars _ ht '\'' List.mem_cons_self).2 rfl
          · exact (hchars _ ht '"' List.mem_cons_self).2 rfl)
        fun d hd => (hchars _ hd d List.mem_cons_self).1
      obtain ⟨m'', more, s', hm'', hemits, hmore, hs'⟩ := ih hm' _ hrest
      refine ⟨m'', emitted ++ more, s', hm'', .cons hstep hemits, hgoes.append hmore, ?_⟩
      rw [hs', ← List.foldl_append, ← textOfTokens_append, htext, List.foldl_append]
      rfl
    | @reference name c h =>
      obtain ⟨emitted, hemits, heq⟩ := lexes_reference h hm
      rw [show Mode.text.pending = [] from rfl, List.append_nil] at heq
      subst heq
      obtain ⟨m'', more, s', hm'', hmoreEmits, hmore, hs'⟩ := ih (m := .text) Mode.inText_text
        (c :: ((textOfTokens m.pending).foldl ValueRead.add s).1, false) hrest
      refine ⟨m'', m.pending ++ referenceTokens name ++ more, s', hm'', hemits.append hmoreEmits,
        ((goes_pending key hm s).append (goes_reference h _)).append hmore, ?_⟩
      exact hs'

variable (key) in
/-- A value in quotes, up to the second of them. -/
theorem lexes_value {pieces : List Piece} (hpieces : ∀ p ∈ pieces, p.IsWritten v q) :
    ∃ m' tokens afterReturn, m'.InText ∧ Lexes .text (pieces.flatMap Piece.text) tokens m' ∧
      Goes v (.value key (.opened q [] false)) tokens
        (.value key (.opened q (valueOf false pieces).reverse afterReturn)) := by
  obtain ⟨m', emitted, s', hm', hemits, hgoes, hs'⟩ :=
    emits_pieces (m := .text) key Mode.inText_text ([], false) hpieces
  have hpending := goes_pending (v := v) (q := q) key hm' s'
  rw [hs'] at hpending
  have hread := foldl_addPiece ([], false) pieces
  rw [List.append_nil] at hread
  refine ⟨m', emitted ++ m'.pending, (pieces.foldl ValueRead.addPiece ([], false)).2, hm',
    ⟨emitted, hemits, rfl⟩, ?_⟩
  rw [← hread]
  exact hgoes.append hpending

/-! ## 4. Attributes -/

/-- An attribute, up to the quote that closes it. -/
structure Opens (v : Version) (m : Mode) (name value text : List Char) (tokens : List Token)
    (q : Quote) : Prop where
  lexes : Lexes m text (tokens ++ [.quote q]) m
  goes : ∀ blank, ∃ afterReturn, Goes v (.awaited blank) tokens
    (.value name (.opened q value.reverse afterReturn))

/-- The blanks, the name and the equals sign of an attribute, and what stands in its quotes. -/
theorem opens_of_value {m m' : Mode} (hm : m = .text ∨ m = .instruction) {a : WrittenAttribute}
    (ha : a.IsSpaced) (hname : IsName a.name.text) {value : List Char} {afterReturn : Bool}
    (hvalue : Lexes m (a.value.flatMap Piece.text) tokens m')
    (hquote : Lexes m' (Token.quote a.quote).text [.quote a.quote] m)
    (hgoes : Goes v (.value a.name.text (.opened a.quote [] false)) tokens
      (.value a.name.text (.opened a.quote value.reverse afterReturn))) :
    ∃ tokens, Opens v m a.name.text value a.text tokens a.quote := by
  have hlexes := (lexes_blanks hm ha.before).append ((lexes_name hm hname).append
    ((lexes_blanks hm ha.beforeEquals).append ((lexes_equals hm).append
      ((lexes_blanks hm ha.afterEquals).append
        ((lexes_quote_same hm a.quote).append (hvalue.append hquote))))))
  refine ⟨a.before.map .char ++ (a.name.text.map .char ++ (a.beforeEquals.map .char ++ [.equals] ++
    (a.afterEquals.map .char ++ [.quote a.quote] ++ tokens))), ?_, fun blank => ⟨afterReturn, ?_⟩⟩
  · simpa only [WrittenAttribute.text, List.append_assoc, List.cons_append,
      List.nil_append] using hlexes
  · exact (goes_before ha.before_ne_nil ha.before blank).append ((goes_awaited_name hname).append
      ((goes_equals ha.beforeEquals).append ((goes_quote ha.afterEquals a.quote).append hgoes)))

theorem WrittenAttribute.IsWritten.opens {a : WrittenAttribute} (h : a.IsWritten v) :
    ∃ tokens, Opens v .text a.name.text (valueOf false a.value) a.text tokens a.quote := by
  obtain ⟨m', tokens, afterReturn, hm', hlexes, hgoes⟩ :=
    lexes_value a.name.text h.value
  exact opens_of_value (.inl rfl) h.toIsSpaced h.name.isName hlexes (lexes_quote hm' _) hgoes

/-- The last quote of an attribute completes it. -/
theorem step_lastQuote (name value : List Char) (q : Quote) (afterReturn : Bool) :
    (PartialAttribute.value name (.opened q value.reverse afterReturn)).step v .empty (.quote q) =
      some (.done (name, value)) := by
  apply step_value_done
  show (if q = q then some (Step.done value.reverse.reverse) else _) = _
  rw [if_pos rfl, List.reverse_reverse]

/-! ## 5. Fields of a declaration -/

theorem mem_fieldChars {c : Char} (h : c ∈ fieldChars) :
    c ∉ marks ∧ isBlank c = false ∧ v.isPlain c = true := by
  have hall : fieldChars.all (fun c => !marks.contains c && !isBlank c && v.isPlain c) = true := by
    cases v <;> decide +kernel
  have hc := List.all_eq_true.1 hall c h
  simp only [Bool.and_eq_true, Bool.not_eq_true', List.contains_eq_mem,
    decide_eq_false_iff_not] at hc
  exact ⟨hc.1.1, hc.1.2, hc.2⟩

theorem valueOf_chars {value : List Char} (hvalue : ∀ c ∈ value, c ∈ fieldChars)
    (afterReturn : Bool) : valueOf afterReturn (value.map .char) = value := by
  induction value generalizing afterReturn with
  | nil => rfl
  | cons c rest ih =>
    have hc := hvalue c List.mem_cons_self
    have hblank := (mem_fieldChars (v := .v10) hc).2.1
    have hline : c ≠ '\n' := by
      rintro rfl
      cases hblank
    rw [List.map_cons, valueOf, if_neg (by simp [hline]), hblank,
      ih fun d hd => hvalue d (List.mem_cons_of_mem _ hd)]
    rfl

theorem WrittenAttribute.IsField.opens {a : WrittenAttribute} {name : String} {value : List Char}
    (hname : IsName name.toList) (h : a.IsField name value) :
    ∃ tokens, Opens v .instruction name.toList value a.text tokens a.quote := by
  have htext : a.value.flatMap Piece.text = value := by
    rw [h.value_eq, List.flatMap_map]
    exact List.flatMap_singleton' value
  have hlexes : Lexes .instruction (a.value.flatMap Piece.text) (value.map .char) .instruction := by
    rw [htext]
    exact lexes_chars (.inr rfl) fun c hc => (mem_fieldChars (v := v) (h.chars c hc)).1
  have htokens : textOfTokens (value.map .char) = value := by
    rw [textOfTokens, List.flatMap_map]
    exact List.flatMap_singleton' value
  have hgoes : Goes v (.value a.name.text (.opened a.quote [] false)) (value.map .char) _ :=
    goes_tokens ([], false)
    (fun t ht => by obtain ⟨c, -, rfl⟩ := List.mem_map.1 ht; exact .inl rfl)
    (fun t ht => by obtain ⟨c, -, rfl⟩ := List.mem_map.1 ht; exact nofun)
    fun c hc => by
      obtain ⟨d, hd, heq⟩ := List.mem_map.1 hc
      obtain rfl := Token.char.inj heq
      exact (mem_fieldChars (h.chars d hd)).2.2
  have hread := foldl_addPiece ([], false) (value.map .char)
  rw [valueOf_chars h.chars, List.append_nil, List.foldl_map] at hread
  change (value.foldl ValueRead.add ([], false)).1 = value.reverse at hread
  have hopened : (value.foldl ValueRead.add ([], false)).opened a.quote =
      .opened a.quote value.reverse (value.foldl ValueRead.add ([], false)).2 := by
    rw [ValueRead.opened, hread]
  rw [htokens, hopened] at hgoes
  have hplain : a.name.text = name.toList := by
    rw [h.name_eq]
    rfl
  rw [← hplain] at hname ⊢
  exact opens_of_value (.inr rfl) h.toIsSpaced hname hlexes (lexes_quote_same (.inr rfl) _) hgoes

end TourMap.Xml
