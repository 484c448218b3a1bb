import TourMap.Proofs.Xml.Tags

/-!
# Contents: nodes are read as what is in them

Each kind of node leads a reader from content to content, with the events of the node
(`takes_content`). A text may end in characters that the lexer holds back; what comes next gives them
first.
-/

namespace TourMap.Xml

variable {r : Reader} {core next last : Core} {m m' m'' : Mode} {text more : List Char}

variable {opened : List OpenElement} {element : OpenElement} {p : Passage} {events : List Event}
  {fresh : Bool}

/-! ## 1. Text -/

theorem Passage.addMark_eq (p : Passage) {t : Token} (ht : t.isOrdinary = true)
    (hchar : ∀ c, t ≠ .char c) : p.addMark t = t.text.foldl Passage.add p := by
  cases t with
  | char c => exact absurd rfl (hchar c)
  | quote q => cases q <;> rfl
  | equals | semicolon | tagEnd | emptyTagEnd => rfl
  | _ => cases ht

theorem step_ordinary {t : Token} (ht : t.isOrdinary = true)
    (hplain : ∀ c, t = .char c → r.header.version.isPlain c = true) (l : Lexer) :
    (r.put l ⟨.content, element :: opened, p, events, fresh⟩).step t =
      .ok (r.put l ⟨.content, element :: opened, t.text.foldl .add p, events, fresh⟩) := by
  cases t with
  | char c =>
    show (if r.header.version.isPlain c then _ else _) = _
    rw [if_pos (hplain c rfl)]
    rfl
  | quote q | equals | semicolon | tagEnd | emptyTagEnd =>
    rw [← Passage.addMark_eq p ht nofun]
    rfl
  | _ => cases ht

theorem runs_ordinary {tokens : List Token} (htokens : ∀ t ∈ tokens, t.isOrdinary = true)
    (hplain : ∀ c, .char c ∈ tokens → r.header.version.isPlain c = true) :
    Runs r ⟨.content, element :: opened, p, events, fresh⟩ tokens
      ⟨.content, element :: opened, (textOfTokens tokens).foldl .add p, events, fresh⟩ := by
  induction tokens generalizing p with
  | nil => exact .nil
  | cons t rest ih =>
    have hrest := ih (p := t.text.foldl .add p) (fun t ht => htokens t (List.mem_cons_of_mem _ ht))
      fun c hc => hplain c (List.mem_cons_of_mem _ hc)
    rw [← List.foldl_append] at hrest
    exact .cons (step_ordinary (htokens t List.mem_cons_self)
      fun c hc => hplain c (hc ▸ List.mem_cons_self)) hrest

variable (element opened p events fresh) in
theorem takes_text (htext : IsText r.header.version text) :
    ∃ m', m'.InText ∧ Takes r ⟨.content, element :: opened, p, events, fresh⟩ .text text
      ⟨.content, element :: opened, text.foldl .add p, events, fresh⟩ m' := by
  obtain ⟨m', tokens, hm', hlexes, htokens, hordinary⟩ :=
    lexes_text (fun c hc => (htext.chars c hc).2) htext.noEnd
  refine ⟨m', hm', tokens, hlexes, ?_⟩
  rw [← htokens]
  apply runs_ordinary hordinary
  intro c hc
  have hmem := mem_textOfTokens hc (c := c) List.mem_cons_self
  rw [htokens] at hmem
  exact (htext.chars c hmem).1

theorem runs_referenceName {read name : List Char} {v : Version} {c : Char}
    (h : IsReference v (read ++ name) c) :
    Runs r ⟨.reference read.reverse, opened, p, events, fresh⟩ (name.map .char)
      ⟨.reference (read ++ name).reverse, opened, p, events, fresh⟩ := by
  induction name generalizing read with
  | nil =>
    rw [List.append_nil]
    exact .nil
  | cons d rest ih =>
    have hstep (l : Lexer) :
        (r.put l ⟨.reference read.reverse, opened, p, events, fresh⟩).step (.char d) =
          .ok (r.put l ⟨.reference (read ++ [d]).reverse, opened, p, events, fresh⟩) := by
      show Reader.orFail _ ((extendReference? read.reverse d).map _) = _
      rw [h.extend, List.reverse_append]
      rfl
    rw [← List.singleton_append, ← List.append_assoc] at h ⊢
    exact .cons hstep (ih h)

theorem takes_reference {name : List Char} {c : Char} (h : IsReference r.header.version name c)
    (hm : m.InText) :
    Takes r ⟨.content, element :: opened, p, events, fresh⟩ m ('&' :: (name ++ [';']))
      ⟨.content, element :: opened, p.addLiteral c, events, fresh⟩ .text := by
  refine ⟨referenceTokens name, lexes_reference h hm, ?_⟩
  have hend (l : Lexer) :
      (r.put l ⟨.reference name.reverse, element :: opened, p, events, fresh⟩).step .semicolon =
        .ok (r.put l ⟨.content, element :: opened, p.addLiteral c, events, fresh⟩) := by
    show Reader.refer _ name.reverse.reverse = _
    unfold Reader.refer
    rw [List.reverse_reverse, show (r.put l ⟨.reference name.reverse, element :: opened, p, events,
      fresh⟩).header.version.referent? name = some c from h.referent]
    rfl
  have hname : IsReference r.header.version ([] ++ name) c := h
  exact .cons (fun l => rfl) ((runs_referenceName hname).append (.single hend))

theorem runs_literal (htext : ∀ c ∈ text, r.header.version.allows c = true) :
    Runs r ⟨.literal, opened, p, events, fresh⟩ (text.map .char)
      ⟨.literal, opened, text.foldl .addLiteral p, events, fresh⟩ := by
  induction text generalizing p with
  | nil => exact .nil
  | cons c rest ih =>
    have hstep (l : Lexer) :
        (r.put l ⟨.literal, opened, p, events, fresh⟩).step (.char c) =
          .ok (r.put l ⟨.literal, opened, p.addLiteral c, events, fresh⟩) := by
      show (if r.header.version.allows c then _ else _) = _
      rw [if_pos (htext c List.mem_cons_self)]
      rfl
    exact .cons hstep (ih fun d hd => htext d (List.mem_cons_of_mem _ hd))

theorem takes_literal (htext : IsLiteral r.header.version text) (hm : m.InText) :
    Takes r ⟨.content, element :: opened, p, events, fresh⟩ m
      (Token.literalStart.text ++ (text ++ Token.literalEnd.text))
      ⟨.content, element :: opened, text.foldl .addLiteral p, events, fresh⟩ .text := by
  obtain ⟨m', hm', hlexes⟩ := lexes_literal htext.noEnd
  refine ⟨[.literalStart] ++ (text.map .char ++ [.literalEnd]),
    (lexes_literalStart hm).append (hlexes.append (lexes_literalEnd hm')), ?_⟩
  exact .cons (fun l => rfl) ((runs_literal htext.chars).append (.single fun l => rfl))

/-! ## 2. Comments and instructions -/

theorem runs_comment (htext : ∀ c ∈ text, r.header.version.allows c = true) :
    Runs r ⟨.comment, opened, p, events, fresh⟩ (text.map .char)
      ⟨.comment, opened, p, events, fresh⟩ := by
  induction text with
  | nil => exact .nil
  | cons c rest ih =>
    refine .cons (fun l => ?_) (ih fun d hd => htext d (List.mem_cons_of_mem _ hd))
    show (if r.header.version.allows c then _ else _) = _
    rw [if_pos (htext c List.mem_cons_self)]

/-- A comment that was begun leaves nothing. -/
theorem takes_comment (htext : IsComment r.header.version text) (hm : m.InText)
    (hstart : ∀ l, (r.put l core).step .commentStart =
      .ok (r.put l ⟨.comment, opened, p, events, fresh⟩)) :
    Takes r core m (Token.commentStart.text ++ (text ++ Token.commentEnd.text))
      ⟨.content, opened, p, events, fresh⟩ .text := by
  refine ⟨[.commentStart] ++ (text.map .char ++ [.commentEnd]),
    (lexes_commentStart hm).append ((lexes_comment htext.noHyphens).append lexes_commentEnd), ?_⟩
  exact .cons hstart ((runs_comment htext.chars).append (.single fun l => rfl))

theorem step_instruction {i next : PartialInstruction} {t : Token}
    (hdeclaration : i.isDeclaration t = false)
    (h : i.step r.header.version t = some (.next next)) (l : Lexer) :
    (r.put l ⟨.instruction i, opened, p, events, fresh⟩).step t =
      .ok (r.put l ⟨.instruction next, opened, p, events, fresh⟩) := by
  show Reader.stepInstruction _ i t = _
  unfold Reader.stepInstruction
  rw [hdeclaration, Bool.and_false, if_neg Bool.false_ne_true,
    show i.step (r.put l ⟨.instruction i, opened, p, events, fresh⟩).header.version t =
      some (.next next) from h]
  rfl

theorem step_lastOfInstruction {i : PartialInstruction}
    (h : i.step r.header.version .instructionEnd = some (.done ())) (l : Lexer) :
    (r.put l ⟨.instruction i, opened, p, events, fresh⟩).step .instructionEnd =
      .ok (r.put l ⟨.content, opened, p, events, false⟩) := by
  have hdeclaration : i.isDeclaration .instructionEnd = false := by cases i <;> rfl
  show Reader.stepInstruction _ i .instructionEnd = _
  unfold Reader.stepInstruction
  rw [hdeclaration, Bool.and_false, if_neg Bool.false_ne_true,
    show i.step (r.put l ⟨.instruction i, opened, p, events, fresh⟩).header.version
      .instructionEnd = some (.done ()) from h]
  rfl

theorem runs_target {name : List Char} (h : IsName name) :
    Runs r ⟨.instruction .new, opened, p, events, fresh⟩ (name.map .char)
      ⟨.instruction (.target (.of name)), opened, p, events, fresh⟩ := by
  let place (n : PartialName) : Place := .instruction (.target n)
  suffices hplace : ∀ (n n' : PartialName) (c : Char) (l : Lexer), isBlank c = false →
      n.add? c = some n' → (r.put l ⟨place n, opened, p, events, fresh⟩).step (.char c) =
        .ok (r.put l ⟨place n', opened, p, events, fresh⟩) from
    runs_name hplace (show IsName ([] ++ name) from h)
  intro n n' c l hblank hadd
  refine step_instruction ?_ ?_ l
  · show (isBlank c && _) = false
    rw [hblank]
    rfl
  · show (if !isBlank c then (n.add? c).map _ else _) = _
    rw [hblank, hadd]
    rfl

theorem isTarget_of {name : List Char} (h : IsName name)
    (hname : name.map Char.toLower ≠ declarationName) : (PartialName.of name).isTarget = true := by
  obtain ⟨c, rest, rfl⟩ := List.exists_cons_of_ne_nil h.ne_nil
  unfold PartialName.isTarget
  rw [PartialName.chars_of, bne_iff_ne.2 hname]
  simp [PartialName.of, PartialName.isEmpty]

theorem ofInstructionChar_eq_char {c : Char} (hc : c ∉ marks) :
    Token.ofInstructionChar c = .char c := by
  have htoken := ofTextChar_eq_char hc
  simp only [marks, List.mem_cons, List.not_mem_nil, or_false, not_or] at hc
  unfold Token.ofInstructionChar
  rw [if_neg hc.1, if_neg hc.2.1, htoken]

/-- The blank after the name of an instruction shows that it is no declaration. -/
theorem step_afterTarget {target : List Char} (h : IsName target)
    (hname : target.map Char.toLower ≠ declarationName) {c : Char} (hc : isBlank c = true)
    (l : Lexer) :
    (r.put l ⟨.instruction (.target (.of target)), opened, p, events, fresh⟩).step (.char c) =
      .ok (r.put l ⟨.instruction .content, opened, p, events, fresh⟩) := by
  refine step_instruction ?_ ?_ l
  · have hne : target ≠ declarationName := by
      rintro rfl
      exact hname (by decide)
    show (isBlank c && (PartialName.of target).chars == declarationName) = false
    rw [PartialName.chars_of, beq_false_of_ne hne, Bool.and_false]
  · show (if !isBlank c then _ else if (PartialName.of target).isTarget then _ else _) = _
    rw [hc, isTarget_of h hname]
    rfl

theorem step_instructionChar {c : Char} (hc : r.header.version.allows c = true) (l : Lexer) :
    (r.put l ⟨.instruction .content, opened, p, events, fresh⟩).step (.ofInstructionChar c) =
      .ok (r.put l ⟨.instruction .content, opened, p, events, fresh⟩) := by
  refine step_instruction rfl ?_ l
  have hchar : PartialInstruction.content.step r.header.version (.char c) =
      some (.next .content) := if_pos hc
  unfold Token.ofInstructionChar Token.ofTextChar
  split
  · rfl
  split
  · rfl
  split
  · rfl
  · rfl
  · unfold Token.ofChar
    split <;> first | rfl | exact hchar

theorem runs_instructionContent {content : List Char}
    (h : ∀ c ∈ content, r.header.version.allows c = true) :
    Runs r ⟨.instruction .content, opened, p, events, fresh⟩ (content.map .ofInstructionChar)
      ⟨.instruction .content, opened, p, events, fresh⟩ := by
  induction content with
  | nil => exact .nil
  | cons c rest ih =>
    exact .cons (step_instructionChar (h c List.mem_cons_self))
      (ih fun d hd => h d (List.mem_cons_of_mem _ hd))

/-- An instruction that was begun leaves nothing. -/
theorem takes_instruction {target content : List Char}
    (h : IsInstruction r.header.version target content) (hm : m.InText)
    (hstart : ∀ l, (r.put l core).step .instructionStart =
      .ok (r.put l ⟨.instruction .new, opened, p, events, fresh⟩)) :
    Takes r core m ('<' :: '?' :: (target ++ (content ++ ['?', '>'])))
      ⟨.content, opened, p, events, false⟩ .text := by
  have htarget : Takes r core m ('<' :: '?' :: target)
      ⟨.instruction (.target (.of target)), opened, p, events, fresh⟩ .instruction :=
    ⟨.instructionStart :: target.map .char, (lexes_instructionStart hm).append
      (lexes_name (.inr rfl) h.isName),
      .cons hstart (runs_target h.isName)⟩
  suffices hrest : Takes r ⟨.instruction (.target (.of target)), opened, p, events, fresh⟩
      .instruction (content ++ ['?', '>']) ⟨.content, opened, p, events, false⟩ .text from
    htarget.append hrest
  obtain ⟨m', hm', hlexes⟩ := lexes_instruction h.noEnd
  refine ⟨_, hlexes.append (lexes_instructionEnd hm'), ?_⟩
  have hisTarget := isTarget_of h.isName h.noDeclaration
  cases content with
  | nil => exact .single (step_lastOfInstruction (if_pos hisTarget))
  | cons c rest =>
    have hblank := h.blank c rfl
    rw [List.map_cons, ofInstructionChar_eq_char (isBlank_not_mem_marks hblank)]
    exact .cons (step_afterTarget h.isName h.noDeclaration hblank)
      ((runs_instructionContent fun d hd => h.chars d (List.mem_cons_of_mem _ hd)).append
        (.single (step_lastOfInstruction rfl)))

/-! ## 3. Nodes -/

/-- Whether nodes in an element are read as what is in them, up to the tag that ends it. -/
def TakesNodes (r : Reader) (m : Mode) (opened : List OpenElement) (p : Passage)
    (events : List Event) (nodes : List Node) : Prop :=
  ∃ m' p' events', m'.InText ∧
    Takes r ⟨.content, opened, p, events, false⟩ m (textOf nodes)
      ⟨.content, opened, p', events', false⟩ m' ∧
    p'.event?.toList ++ events' = (eventsFrom p nodes).reverse ++ events

theorem event?_reverse (p : Passage) : p.event?.toList.reverse = p.event?.toList := by
  cases p.event? <;> rfl

theorem TakesNodes.nil (hm : m.InText) : TakesNodes r m opened p events [] := by
  refine ⟨m, p, events, hm, .nil, ?_⟩
  rw [eventsFrom, event?_reverse]

theorem TakesNodes.cons {n : Node} {rest : List Node}
    (hfirst : Takes r ⟨.content, opened, p, events, false⟩ m n.text
      ⟨.content, opened, n.passage p, (n.events p).reverse ++ events, false⟩ m')
    (hrest : TakesNodes r m' opened (n.passage p) ((n.events p).reverse ++ events) rest) :
    TakesNodes r m opened p events (n :: rest) := by
  obtain ⟨m'', p', events', hm'', htakes, heq⟩ := hrest
  refine ⟨m'', p', events', hm'', hfirst.append htakes, ?_⟩
  rw [heq, eventsFrom, List.reverse_append, List.append_assoc]

/-- An element is read to its end if its content is read to the tag that ends it. -/
theorem finishes_element (hr : r.IsDirect) {tag : WrittenTag} {content : List Node}
    {blanks : List Char} (htag : tag.IsWritten r.header.version) {inner : Scope}
    (hinner : (scopeOf opened).enter? tag.name tag.read = some inner) (hblanks : Blanks blanks)
    (hm : m.InText)
    (hstart : ∀ l, (r.put l core).step .tagStart =
      .ok (r.put l ⟨.tagName .empty, opened, .empty, events, false⟩))
    (hcontent : TakesNodes r .text (⟨tag.name, inner⟩ :: opened) .empty
      (.start tag.name tag.data :: events) content) :
    Finishes r core m (Node.element tag content (some blanks)).text
      ⟨.content, ⟨tag.name, inner⟩ :: opened, .empty,
        (eventsFrom .empty content).reverse ++ .start tag.name tag.data :: events, false⟩ := by
  obtain ⟨m', p', events', hm', htakes, hevents⟩ := hcontent
  have hfirst := takes_start hr htag hm hinner hstart
  let element : OpenElement := ⟨tag.name, inner⟩
  have hlast : Finishes r ⟨.content, element :: opened, p', events', false⟩ m'
      ('<' :: '/' :: (tag.name.text ++ (blanks ++ ['>'])))
      ⟨.content, element :: opened, .empty, p'.event?.toList ++ events', false⟩ :=
    finishes_endTag htag.name hblanks hm'
  rw [hevents] at hlast
  have hall := (hfirst.append htakes).finishes hlast
  simpa only [Node.text, List.cons_append, List.append_assoc, List.nil_append] using hall

/-- Content is read as what is in it. Characters that follow others belong to the same text. -/
theorem takes_content (hr : r.IsDirect) {scope : Scope} {nodes : List Node}
    (h : IsContent r.header.version scope nodes) (hscope : scopeOf opened = scope)
    (hopened : opened ≠ []) (hm : m.InText)
    (hchars : ∀ text, nodes.head? = some (.chars text) → m = .text) :
    TakesNodes r m opened p events nodes := by
  have htext := Mode.inText_text
  induction h generalizing m p events opened with
  | nil => exact .nil hm
  | @element scope inner tag content rest blanks htag hinner _ hblanks _ ihContent ihRest =>
    obtain ⟨element, others, rfl⟩ := List.exists_cons_of_ne_nil hopened
    have hcontent : TakesNodes r .text (⟨tag.name, inner⟩ :: element :: others) .empty
        (.start tag.name tag.data :: (p.event?.toList ++ events)) content :=
      ihContent rfl (List.cons_ne_nil _ _) htext fun _ _ => rfl
    have hall : Finishes r ⟨.content, element :: others, p, events, false⟩ m _ _ :=
      finishes_element hr htag (hscope ▸ hinner) hblanks hm (fun l => rfl) hcontent
    refine .cons ?_ (ihRest hscope hopened htext fun _ _ => rfl)
    simpa [Node.events, Node.passage, event?_reverse] using hall.takes
  | @empty scope inner tag rest htag hinner _ ihRest =>
    obtain ⟨element, others, rfl⟩ := List.exists_cons_of_ne_nil hopened
    have hall : Finishes r ⟨.content, element :: others, p, events, false⟩ m _
        ⟨.content, _ :: element :: others, .empty, _ :: (p.event?.toList ++ events), false⟩ :=
      finishes_empty hr htag hm (hscope ▸ hinner) fun l => rfl
    refine .cons ?_ (ihRest hscope hopened htext fun _ _ => rfl)
    have hnone : Passage.empty.event? = none := rfl
    simpa [Node.text, Node.events, Node.passage, eventsFrom, event?_reverse, hnone] using hall.takes
  | @chars scope text rest htext' hnext _ ihRest =>
    obtain ⟨element, others, rfl⟩ := List.exists_cons_of_ne_nil hopened
    obtain rfl := hchars text rfl
    obtain ⟨m', hm', htakes⟩ := takes_text others element p events false htext'
    exact .cons htakes (ihRest hscope hopened hm' fun more hmore => absurd hmore (hnext more))
  | @reference scope name c rest hname _ ihRest =>
    obtain ⟨element, others, rfl⟩ := List.exists_cons_of_ne_nil hopened
    exact .cons (takes_reference hname hm) (ihRest hscope hopened htext fun _ _ => rfl)
  | @literal scope text rest hliteral _ ihRest =>
    obtain ⟨element, others, rfl⟩ := List.exists_cons_of_ne_nil hopened
    exact .cons (takes_literal hliteral hm) (ihRest hscope hopened htext fun _ _ => rfl)
  | @comment scope text rest hcomment _ ihRest =>
    obtain ⟨element, others, rfl⟩ := List.exists_cons_of_ne_nil hopened
    exact .cons (takes_comment hcomment hm fun l => rfl)
      (ihRest hscope hopened htext fun _ _ => rfl)
  | @instruction scope target content rest hinstruction _ ihRest =>
    obtain ⟨element, others, rfl⟩ := List.exists_cons_of_ne_nil hopened
    have htakes : Takes r ⟨.content, element :: others, p, events, false⟩ m
        (Node.instruction target content).text
        ⟨.content, element :: others, .empty, p.event?.toList ++ events, false⟩ .text :=
      takes_instruction hinstruction hm fun l => rfl
    refine .cons ?_ (ihRest hscope hopened htext fun _ _ => rfl)
    simpa [Node.events, Node.passage, event?_reverse] using htakes

end TourMap.Xml
