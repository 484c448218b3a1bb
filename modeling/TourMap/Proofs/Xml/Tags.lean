import TourMap.Proofs.Xml.Runs

/-!
# Tags: an element begins and ends as it is written

A tag is read up to its name, and then attribute by attribute (`takes_tag`). Blanks may stand before
its end, which begins an element or, in an element that is empty, finishes it at once. The last tag
of an element finishes it (`finishes_endTag`).
-/

namespace TourMap.Xml

variable {r : Reader} {core : Core} {m : Mode} {opened : List OpenElement} {p : Passage}
  {events : List Event} {fresh : Bool}

/-! ## 1. Names -/

/-- A name is read in the same way wherever it stands. -/
theorem runs_name {place : PartialName → Place}
    (hplace : ∀ (n n' : PartialName) (c : Char) (l : Lexer), isBlank c = false →
      n.add? c = some n' → (r.put l ⟨place n, opened, p, events, fresh⟩).step (.char c) =
        .ok (r.put l ⟨place n', opened, p, events, fresh⟩))
    {read name : List Char} (h : IsName (read ++ name)) :
    Runs r ⟨place (.of read), opened, p, events, fresh⟩ (name.map .char)
      ⟨place (.of (read ++ name)), opened, p, events, fresh⟩ := by
  induction name generalizing read with
  | nil =>
    rw [List.append_nil]
    exact .nil
  | cons c rest ih =>
    have hblank := isNamePart_not_isBlank (h.parts c (List.mem_append_right _ List.mem_cons_self))
    have hadd := h.add?_of
    rw [← List.singleton_append, ← List.append_assoc] at h ⊢
    exact .cons (fun l => hplace _ _ c l hblank hadd) (ih h)

theorem runs_tagName {name : List Char} (h : IsName name) :
    Runs r ⟨.tagName .empty, opened, p, events, fresh⟩ (name.map .char)
      ⟨.tagName (.of name), opened, p, events, fresh⟩ := by
  refine runs_name (fun n n' c l hblank hadd => ?_) (show IsName ([] ++ name) from h)
  show (if isBlank c then _ else Reader.orFail _ ((n.add? c).map _)) = _
  rw [hblank, hadd]
  rfl

theorem runs_endTagName {name : List Char} (h : IsName name) :
    Runs r ⟨.endTagName .empty, opened, p, events, fresh⟩ (name.map .char)
      ⟨.endTagName (.of name), opened, p, events, fresh⟩ := by
  refine runs_name (fun n n' c l hblank hadd => ?_) (show IsName ([] ++ name) from h)
  show (if isBlank c then _ else Reader.orFail _ ((n.add? c).map _)) = _
  rw [hblank, hadd]
  rfl

theorem lexes_tagName (hm : m.InText) {name : List Char} (h : IsName name) :
    Lexes m ('<' :: name) (.tagStart :: name.map .char) .text := by
  obtain ⟨c, rest, rfl⟩ := List.exists_cons_of_ne_nil h.ne_nil
  have hrest := lexes_chars (.inl rfl) fun d hd =>
    isNamePart_not_mem_marks (h.parts d (List.mem_cons_of_mem c hd))
  exact (lexes_tagStart hm (h.start c rfl)).append hrest

theorem withName_of {name : Name} (hname : name.IsWritten) (next : Name → Reader.Result) :
    r.withName (.of name.text) next = next name := by
  unfold Reader.withName
  rw [PartialName.chars_of, hname.read]

/-! ## 2. Attributes -/

/-- Whether a reader is in a tag after its name and some attributes. -/
inductive AfterAttributes (name : Name) : List Attribute → Place → Prop
  | named : AfterAttributes name [] (.tagName (.of name.text))
  | spaced {attributes : List Attribute} {blank : Bool} :
    AfterAttributes name attributes (.tag ⟨name, attributes.reverse, .awaited blank⟩)

theorem step_tag {t next : PartialTag} {token : Token}
    (hend : t.mayEnd = false ∨ ∃ c, token = .char c)
    (h : t.step r.header.version r.entities token = some next) (l : Lexer) :
    (r.put l ⟨.tag t, opened, p, events, fresh⟩).step token =
      .ok (r.put l ⟨.tag next, opened, p, events, fresh⟩) := by
  have hstep (r : Reader) : r.stepTag t token =
      r.orFail ((t.step r.header.version r.entities token).map fun t => r.goTo (.tag t)) := by
    unfold Reader.stepTag
    rcases hend with hend | ⟨c, rfl⟩
    · rw [hend]
    · cases t.mayEnd <;> rfl
  show Reader.stepTag _ t token = _
  rw [hstep]
  show Reader.orFail _ ((t.step r.header.version r.entities token).map _) = _
  rw [h]
  rfl

theorem Goes.runs (hr : r.IsDirect) {name : Name} {attributes : List Attribute}
    {current next : PartialAttribute} {tokens : List Token}
    (h : Goes r.header.version current tokens next) :
    Runs r ⟨.tag ⟨name, attributes, current⟩, opened, p, events, fresh⟩ tokens
      ⟨.tag ⟨name, attributes, next⟩, opened, p, events, fresh⟩ := by
  induction h with
  | nil => exact .nil
  | @cons current current' _ t _ hstep _ ih =>
    have hend : PartialTag.mayEnd ⟨name, attributes, current⟩ = false ∨ ∃ c, t = .char c := by
      cases current with
      | awaited blank =>
        cases t with
        | char c => exact .inr ⟨c, rfl⟩
        | _ => cases hstep
      | _ => exact .inl rfl
    have htag : PartialTag.step ⟨name, attributes, current⟩ r.header.version r.entities t =
        some ⟨name, attributes, current'⟩ := by
      unfold PartialTag.step
      rw [hr.entities]
      simp only [hstep]
    exact .cons (step_tag hend htag) ih

/-- The first token of an attribute is a blank. -/
theorem Goes.awaited {v : Version} {t : Token} {rest : List Token} {next : PartialAttribute}
    (h : Goes v (.awaited false) (t :: rest) next) :
    ∃ c, t = .char c ∧ isBlank c = true ∧ Goes v (.awaited true) rest next := by
  cases h with
  | cons hstep hrest =>
    cases t with
    | char c =>
      have hchar : (if isBlank c then some (Step.next (PartialAttribute.awaited true)) else none) =
          some (.next _) := hstep
      by_cases hblank : isBlank c = true
      · rw [if_pos hblank] at hchar
        cases hchar
        exact ⟨c, rfl, hblank, hrest⟩
      · rw [if_neg hblank] at hchar
        cases hchar
    | _ => cases hstep

/-- What stands after the attributes so far, the blank after the name included. -/
theorem AfterAttributes.runs (hr : r.IsDirect) {name : Name} (hname : name.IsWritten)
    {attributes : List Attribute} {place : Place} (hplace : AfterAttributes name attributes place)
    {tokens : List Token} (hne : tokens ≠ []) {current : PartialAttribute}
    (h : Goes r.header.version (.awaited false) tokens current) :
    Runs r ⟨place, opened, p, events, fresh⟩ tokens
      ⟨.tag ⟨name, attributes.reverse, current⟩, opened, p, events, fresh⟩ := by
  obtain ⟨t, rest, rfl⟩ := List.exists_cons_of_ne_nil hne
  obtain ⟨c, rfl, hblank, hrest⟩ := h.awaited
  refine .cons (fun l => ?_) (hrest.runs hr)
  cases hplace with
  | named =>
    show (if isBlank c then Reader.withName _ _ _ else _) = _
    rw [if_pos hblank, withName_of hname]
    rfl
  | spaced =>
    refine step_tag (.inr ⟨c, rfl⟩) ?_ l
    unfold PartialTag.step PartialAttribute.step
    simp only [hblank, if_true]

/-- The quote that ends the value of an attribute completes it. -/
theorem runs_lastQuote (hr : r.IsDirect) {name : Name} {attributes : List Attribute}
    {a : WrittenAttribute} (ha : a.name.IsWritten) (afterReturn : Bool) :
    Runs r
      ⟨.tag ⟨name, attributes, .value a.name.text
        (.opened a.quote (valueOf false a.value).reverse afterReturn)⟩, opened, p, events, fresh⟩
      [.quote a.quote]
      ⟨.tag ⟨name, a.toAttribute :: attributes, .awaited false⟩, opened, p, events, fresh⟩ := by
  refine .single (step_tag (.inl rfl) ?_)
  unfold PartialTag.step
  rw [hr.entities]
  simp only [step_lastQuote]
  unfold Attribute.ofChars?
  rw [ha.read]
  rfl

variable (opened p events fresh) in
theorem takes_attribute (hr : r.IsDirect) {name : Name} (hname : name.IsWritten)
    {attributes : List Attribute} {place : Place} (hplace : AfterAttributes name attributes place)
    {a : WrittenAttribute} (ha : a.IsWritten r.header.version) :
    ∃ place', AfterAttributes name (attributes ++ [a.toAttribute]) place' ∧
      Takes r ⟨place, opened, p, events, fresh⟩ .text a.text
        ⟨place', opened, p, events, fresh⟩ .text := by
  obtain ⟨tokens, hopens⟩ := ha.opens
  obtain ⟨afterReturn, hgoes⟩ := hopens.goes false
  have hne : tokens ≠ [] := by
    rintro rfl
    cases hgoes
  have hreverse :
      (attributes ++ [a.toAttribute]).reverse = a.toAttribute :: attributes.reverse := by
    rw [List.reverse_append]
    rfl
  refine ⟨.tag ⟨name, (attributes ++ [a.toAttribute]).reverse, .awaited false⟩, .spaced,
    tokens ++ [.quote a.quote], hopens.lexes, ?_⟩
  rw [hreverse]
  exact (hplace.runs hr hname hne hgoes).append (runs_lastQuote hr ha.name afterReturn)

variable (opened p events fresh) in
theorem takes_attributes (hr : r.IsDirect) {name : Name} (hname : name.IsWritten)
    {read : List Attribute} {place : Place} (hplace : AfterAttributes name read place)
    {attributes : List WrittenAttribute} (h : ∀ a ∈ attributes, a.IsWritten r.header.version) :
    ∃ place', AfterAttributes name (read ++ attributes.map (·.toAttribute)) place' ∧
      Takes r ⟨place, opened, p, events, fresh⟩ .text (attributes.flatMap (·.text))
        ⟨place', opened, p, events, fresh⟩ .text := by
  induction attributes generalizing read place with
  | nil =>
    refine ⟨place, ?_, .nil⟩
    rw [List.map_nil, List.append_nil]
    exact hplace
  | cons a rest ih =>
    obtain ⟨place', hplace', hfirst⟩ := takes_attribute opened p events fresh hr hname
      hplace (h a List.mem_cons_self)
    obtain ⟨place'', hplace'', hrest⟩ := ih hplace' fun b hb => h b (List.mem_cons_of_mem _ hb)
    refine ⟨place'', ?_, hfirst.append hrest⟩
    rw [List.append_assoc] at hplace''
    exact hplace''

variable (opened p events fresh) in
/-- The blanks before the end of a tag. -/
theorem takes_lastBlanks (hr : r.IsDirect) {name : Name} (hname : name.IsWritten)
    {attributes : List Attribute} {place : Place} (hplace : AfterAttributes name attributes place)
    {blanks : List Char} (hblanks : Blanks blanks) :
    ∃ place', AfterAttributes name attributes place' ∧
      Takes r ⟨place, opened, p, events, fresh⟩ .text blanks
        ⟨place', opened, p, events, fresh⟩ .text := by
  by_cases hne : blanks = []
  · subst hne
    exact ⟨place, hplace, .nil⟩
  have hgoes := goes_before (v := r.header.version) hne hblanks false
  have htokens : blanks.map Token.char ≠ [] := fun h => hne (List.map_eq_nil_iff.1 h)
  exact ⟨_, .spaced, blanks.map .char,
    lexes_blanks (.inl rfl) hblanks, hplace.runs hr hname htokens hgoes⟩

/-! ## 3. The first tag of an element -/

/-- A tag up to the mark that ends it. -/
theorem takes_tag (hr : r.IsDirect) {tag : WrittenTag} (htag : tag.IsWritten r.header.version)
    (hm : m.InText) (hstart : ∀ l, (r.put l core).step .tagStart =
      .ok (r.put l ⟨.tagName .empty, opened, p, events, fresh⟩)) :
    ∃ place, AfterAttributes tag.name tag.read place ∧
      Takes r core m ('<' :: tag.text) ⟨place, opened, p, events, fresh⟩ .text := by
  have hname : Takes r core m ('<' :: tag.name.text)
      ⟨.tagName (.of tag.name.text), opened, p, events, fresh⟩ .text :=
    ⟨_, lexes_tagName hm htag.name.isName, .cons hstart (runs_tagName htag.name.isName)⟩
  obtain ⟨place, hplace, hattributes⟩ := takes_attributes opened p events fresh hr htag.name
    .named htag.attributes
  obtain ⟨place', hplace', hblanks⟩ := takes_lastBlanks opened p events fresh hr htag.name hplace
    htag.blanks
  exact ⟨place', hplace', hname.append (hattributes.append hblanks)⟩

/-- The name spaces that are known inside of open elements. -/
def scopeOf (opened : List OpenElement) : Scope := opened.head?.elim .outermost OpenElement.scope

variable (core) in
theorem put_start {l : Lexer} {name : Name} {attributes : List Attribute} {inner : Scope}
    (hinner : (scopeOf core.opened).enter? name attributes = some inner) (empty : Bool) :
    (r.put l core).start name attributes empty =
      if empty then Reader.finish (r.put l ⟨.content, ⟨name, inner⟩ :: core.opened, core.passage,
        .start name (attributes.filter (·.isData)) :: core.events, core.fresh⟩)
      else .ok (r.put l ⟨.content, ⟨name, inner⟩ :: core.opened, core.passage,
        .start name (attributes.filter (·.isData)) :: core.events, core.fresh⟩) := by
  have hscope : (r.put l core).scope = scopeOf core.opened := by
    obtain ⟨place, opened, p, events, fresh⟩ := core
    cases opened <;> rfl
  unfold Reader.start
  rw [hscope, hinner]
  rfl

theorem AfterAttributes.step_tagEnd {name : Name} (hname : name.IsWritten)
    {attributes : List Attribute} {place : Place} (hplace : AfterAttributes name attributes place)
    (l : Lexer) : (r.put l ⟨place, opened, p, events, fresh⟩).step .tagEnd =
      (r.put l ⟨place, opened, p, events, fresh⟩).start name attributes false := by
  cases hplace with
  | named => exact withName_of hname _
  | spaced =>
    show Reader.start _ name attributes.reverse.reverse false = _
    rw [List.reverse_reverse]

theorem AfterAttributes.step_emptyTagEnd {name : Name} (hname : name.IsWritten)
    {attributes : List Attribute} {place : Place} (hplace : AfterAttributes name attributes place)
    (l : Lexer) : (r.put l ⟨place, opened, p, events, fresh⟩).step .emptyTagEnd =
      (r.put l ⟨place, opened, p, events, fresh⟩).start name attributes true := by
  cases hplace with
  | named => exact withName_of hname _
  | spaced =>
    show Reader.start _ name attributes.reverse.reverse true = _
    rw [List.reverse_reverse]

/-- A tag with its end begins an element. -/
theorem takes_start (hr : r.IsDirect) {tag : WrittenTag} (htag : tag.IsWritten r.header.version)
    (hm : m.InText) {inner : Scope}
    (hinner : (scopeOf opened).enter? tag.name tag.read = some inner)
    (hstart : ∀ l, (r.put l core).step .tagStart =
      .ok (r.put l ⟨.tagName .empty, opened, p, events, fresh⟩)) :
    Takes r core m ('<' :: (tag.text ++ ['>']))
      ⟨.content, ⟨tag.name, inner⟩ :: opened, p, .start tag.name tag.data :: events, fresh⟩
      .text := by
  obtain ⟨place, hplace, htakes⟩ := takes_tag hr htag hm hstart
  have hend : Takes r ⟨place, opened, p, events, fresh⟩ .text ['>']
      ⟨.content, ⟨tag.name, inner⟩ :: opened, p, .start tag.name tag.data :: events, fresh⟩
      .text :=
    ⟨[.tagEnd], lexes_tagEnd, .single fun l => (hplace.step_tagEnd htag.name l).trans
      (put_start ⟨place, opened, p, events, fresh⟩ hinner false)⟩
  exact htakes.append hend

/-- An element without content may be one tag. -/
theorem finishes_empty (hr : r.IsDirect) {tag : WrittenTag} (htag : tag.IsWritten r.header.version)
    (hm : m.InText) {inner : Scope}
    (hinner : (scopeOf opened).enter? tag.name tag.read = some inner)
    (hstart : ∀ l, (r.put l core).step .tagStart =
      .ok (r.put l ⟨.tagName .empty, opened, p, events, fresh⟩)) :
    Finishes r core m ('<' :: (tag.text ++ ['/', '>']))
      ⟨.content, ⟨tag.name, inner⟩ :: opened, p, .start tag.name tag.data :: events, fresh⟩ := by
  obtain ⟨place, hplace, htakes⟩ := takes_tag hr htag hm hstart
  have hend : Finishes r ⟨place, opened, p, events, fresh⟩ .text ['/', '>']
      ⟨.content, ⟨tag.name, inner⟩ :: opened, p, .start tag.name tag.data :: events, fresh⟩ :=
    ⟨[], .emptyTagEnd, _, lexes_emptyTagEnd, .nil, fun l => (hplace.step_emptyTagEnd htag.name
      l).trans (put_start ⟨place, opened, p, events, fresh⟩ hinner true)⟩
  exact htakes.finishes hend

/-! ## 4. The last tag of an element -/

theorem runs_endTag {name : Name} {blanks : List Char} (hblanks : Blanks blanks) :
    Runs r ⟨.endTag name, opened, p, events, fresh⟩ (blanks.map .char)
      ⟨.endTag name, opened, p, events, fresh⟩ := by
  induction blanks with
  | nil => exact .nil
  | cons c rest ih =>
    exact .cons (fun l => if_pos (hblanks c List.mem_cons_self))
      (ih fun d hd => hblanks d (List.mem_cons_of_mem _ hd))

/-- The last tag of an element finishes it, if it has the right name. -/
theorem finishes_endTag {element : OpenElement} (hname : element.name.IsWritten)
    {blanks : List Char} (hblanks : Blanks blanks) (hm : m.InText) :
    Finishes r ⟨.content, element :: opened, p, events, fresh⟩ m
      ('<' :: '/' :: (element.name.text ++ (blanks ++ ['>'])))
      ⟨.content, element :: opened, .empty, p.event?.toList ++ events, fresh⟩ := by
  have hfinish (place : Place) (l : Lexer) :
      (r.put l ⟨place, element :: opened, .empty, p.event?.toList ++ events, fresh⟩).finishNamed
        element.name = (r.put l ⟨.content, element :: opened, .empty, p.event?.toList ++ events,
          fresh⟩).finish := if_pos rfl
  have hstart : Takes r ⟨.content, element :: opened, p, events, fresh⟩ m
      ('<' :: '/' :: element.name.text) ⟨.endTagName (.of element.name.text), element :: opened,
        .empty, p.event?.toList ++ events, fresh⟩ .text :=
    ⟨.endTagStart :: element.name.text.map .char, (lexes_endTagStart hm).append
      (lexes_name (.inl rfl) hname.isName),
      .cons (fun l => rfl) (runs_endTagName hname.isName)⟩
  suffices hlast : Finishes r ⟨.endTagName (.of element.name.text), element :: opened, .empty,
      p.event?.toList ++ events, fresh⟩ .text (blanks ++ ['>'])
      ⟨.content, element :: opened, .empty, p.event?.toList ++ events, fresh⟩ from
    hstart.finishes hlast
  have hlexes := (lexes_blanks (.inl rfl) hblanks).append lexes_tagEnd
  cases blanks with
  | nil =>
    refine ⟨[], .tagEnd, _, hlexes, .nil, fun l => ?_⟩
    exact (withName_of hname _).trans (hfinish _ l)
  | cons c rest =>
    refine ⟨(c :: rest).map .char, .tagEnd, ⟨.endTag element.name, element :: opened, .empty,
      p.event?.toList ++ events, fresh⟩, hlexes, ?_, hfinish _⟩
    have hblank (l : Lexer) :
        (r.put l ⟨.endTagName (.of element.name.text), element :: opened, .empty,
          p.event?.toList ++ events, fresh⟩).step (.char c) =
        .ok (r.put l ⟨.endTag element.name, element :: opened, .empty, p.event?.toList ++ events,
          fresh⟩) := by
      show (if isBlank c then Reader.withName _ _ _ else _) = _
      rw [if_pos (hblanks c List.mem_cons_self), withName_of hname]
      rfl
    exact .cons hblank (runs_endTag fun d hd => hblanks d (List.mem_cons_of_mem _ hd))

end TourMap.Xml
