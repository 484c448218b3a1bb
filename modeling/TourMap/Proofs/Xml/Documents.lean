import TourMap.Proofs.Xml.Contents

/-!
# Documents: octets that write a document are read as what is in it

A declaration may change the version that a reader takes, and the encoding that it knows, but not
the characters that follow (`IsDeclaration.reads`). After it a document is read up to the end of its
outermost element (`WritesDocument.reading_eq`).
-/

namespace TourMap.Xml

variable {r r' r'' : Reader} {core core' core'' : Core} {m m' m'' : Mode} {text more : List Char}

/-! ## 1. Texts that are read -/

/-- Whether a reader goes on as another one after a text. -/
def Reads (r : Reader) (core : Core) (m : Mode) (text : List Char) (r' : Reader) (core' : Core)
    (m' : Mode) : Prop :=
  ∀ rest, Reading.ofRest .nothing (r.put ⟨m, false⟩ core) (utf8Octets text ++ rest) =
    Reading.ofRest .nothing (r'.put ⟨m', false⟩ core') rest

theorem Reads.append (h : Reads r core m text r' core' m')
    (hmore : Reads r' core' m' more r'' core'' m'') :
    Reads r core m (text ++ more) r'' core'' m'' := by
  intro rest
  rw [utf8Octets_append, List.append_assoc, h, hmore]

theorem Takes.reads (hr : r.IsDirect) (h : Takes r core m text core' m') (hm : m.pending = [])
    (hm' : m'.pending = []) : Reads r core m text r core' m' := by
  obtain ⟨tokens, hlexes, hruns⟩ := h
  exact hruns.reads hr (hlexes.emits hm hm')

/-! ## 2. Fields of a declaration -/

/-- A reader that knows what a document declares. -/
def Reader.declare (r : Reader) (header : Header) : Reader := { r with header }

theorem Reader.IsDirect.declare (hr : r.IsDirect) {header : Header}
    (hheader : header.encoding.getD .utf8 = .utf8) : (r.declare header).IsDirect :=
  ⟨hr.entities, hr.replacement, hr.replaced, hheader⟩

/-- Whether a reader is in a declaration where some fields may come next. -/
inductive AwaitsField : List HeaderField → Place → Bool → Prop
  | first : AwaitsField [.version] (.instruction (.target (.of declarationName))) true
  | later {fields : List HeaderField} {blank : Bool} :
    AwaitsField fields (.declaration ⟨fields, .awaited blank⟩) false

/-- A declaration and what else a reader holds in it. -/
def Core.ofDeclaration (fields : List HeaderField) (current : PartialAttribute) : Core :=
  ⟨.declaration ⟨fields, current⟩, [], .empty, [], false⟩

theorem Goes.runs_declaration {current next : PartialAttribute} {tokens : List Token}
    (h : Goes r.header.version current tokens next) (fields : List HeaderField) :
    Runs r (.ofDeclaration fields current) tokens (.ofDeclaration fields next) := by
  induction h with
  | nil => exact .nil
  | @cons current current' _ t _ hstep _ ih =>
    refine .cons (fun l => ?_) ih
    have hdeclaration : PartialDeclaration.step ⟨fields, current⟩ r.header t =
        some (r.header, .next ⟨fields, current'⟩) := by
      unfold PartialDeclaration.step
      split
      · rename_i hawaited
        have hawaited : current = .awaited _ := hawaited
        rw [hawaited] at hstep
        cases hstep
      · simp only [hstep]
    show Reader.stepDeclaration _ ⟨fields, current⟩ t = _
    unfold Reader.stepDeclaration
    rw [show (r.put l (.ofDeclaration fields current)).header = r.header from rfl, hdeclaration]
    rfl

theorem AwaitsField.runs {fields : List HeaderField} {place : Place} {fresh : Bool}
    (hplace : AwaitsField fields place fresh) {tokens : List Token} (hne : tokens ≠ [])
    {current : PartialAttribute} (h : Goes r.header.version (.awaited false) tokens current) :
    Runs r ⟨place, [], .empty, [], fresh⟩ tokens (.ofDeclaration fields current) := by
  cases hplace with
  | first =>
    obtain ⟨t, rest, rfl⟩ := List.exists_cons_of_ne_nil hne
    obtain ⟨c, rfl, hblank, hrest⟩ := h.awaited
    refine .cons (fun l => ?_) (hrest.runs_declaration _)
    show (if true && (isBlank c && (PartialName.of declarationName).chars == declarationName) then
      _ else _) = _
    rw [hblank, PartialName.chars_of, BEq.rfl]
    rfl
  | @later fields blank =>
    obtain ⟨t, rest, rfl⟩ := List.exists_cons_of_ne_nil hne
    obtain ⟨c, rfl, hblank, hrest⟩ := h.awaited
    have hfirst : (PartialAttribute.awaited blank).step r.header.version .empty (.char c) =
        some (.next (.awaited true)) := if_pos hblank
    exact Goes.runs_declaration (.cons hfirst hrest) fields

/-- A field of a declaration is known as soon as its value is read. -/
theorem reads_field (hr : r.IsDirect) {fields : List HeaderField} {place : Place} {fresh : Bool}
    (hplace : AwaitsField fields place fresh) {field : HeaderField} (hfield : field ∈ fields)
    {name : String} (hname : IsName name.toList)
    (hread : HeaderField.ofName? name.toList = some field) {a : WrittenAttribute}
    {value : List Char} (ha : a.IsField name value) {header : Header}
    (hset : r.header.set? field value = some header)
    (hheader : header.encoding.getD .utf8 = .utf8) :
    Reads r ⟨place, [], .empty, [], fresh⟩ .instruction a.text (r.declare header)
      (.ofDeclaration field.later (.awaited false)) .instruction := by
  obtain ⟨tokens, hopens⟩ := ha.opens (v := r.header.version) hname
  obtain ⟨afterReturn, hgoes⟩ := hopens.goes false
  have hne : tokens ≠ [] := by
    rintro rfl
    cases hgoes
  refine (hplace.runs hne hgoes).reads_last hr (hr.declare hheader)
    (hopens.lexes.emits rfl rfl) fun l => ?_
  have hstep : PartialDeclaration.step ⟨fields, .value name.toList
      (.opened a.quote value.reverse afterReturn)⟩ r.header (.quote a.quote) =
      some (header, .next ⟨field.later, .awaited false⟩) := by
    unfold PartialDeclaration.step
    simp only [step_lastQuote, hread, Option.bind_eq_bind, Option.bind_some,
      List.contains_iff_mem, hfield, if_true, hset]
    rfl
  show Reader.stepDeclaration _ ⟨fields, _⟩ (.quote a.quote) = _
  unfold Reader.stepDeclaration
  rw [show (r.put l _).header = r.header from rfl, hstep]
  rfl

/-- A field that need not be there. What it says must not change the version. -/
theorem reads_optional (hr : r.IsDirect) {fields : List HeaderField} {field : HeaderField}
    (hfield : field ∈ fields) {name : String} (hname : IsName name.toList)
    (hread : HeaderField.ofName? name.toList = some field) {attributes : List WrittenAttribute}
    (honce : attributes.length ≤ 1)
    (h : ∀ a ∈ attributes, ∃ value header, a.IsField name value ∧
      r.header.set? field value = some header ∧ header.version = r.header.version ∧
      header.encoding.getD .utf8 = .utf8) :
    ∃ r' fields', r'.IsDirect ∧ r'.header.version = r.header.version ∧
      (fields' = fields ∨ fields' = field.later) ∧
      Reads r (.ofDeclaration fields (.awaited false)) .instruction (attributes.flatMap (·.text)) r'
        (.ofDeclaration fields' (.awaited false)) .instruction := by
  cases attributes with
  | nil => exact ⟨r, fields, hr, rfl, .inl rfl, Takes.nil.reads hr rfl rfl⟩
  | cons a rest =>
    obtain rfl : rest = [] :=
      List.length_eq_zero_iff.1 (Nat.le_zero.1 (Nat.le_of_succ_le_succ honce))
    obtain ⟨value, header, ha, hset, hversion, hheader⟩ := h a List.mem_cons_self
    refine ⟨r.declare header, field.later, hr.declare hheader, hversion, .inr rfl, ?_⟩
    rw [List.flatMap_singleton]
    exact reads_field hr .later hfield hname hread ha hset hheader

/-! ## 3. Declarations -/

/-- The name of an encoding agrees with the mark for UTF-8, if there is one. -/
theorem declare?_utf8 {name : List Char} (h : Encoding.declare? none name = some .utf8)
    {mark : Option Encoding} (hmark : mark.getD .utf8 = .utf8) :
    Encoding.declare? mark name = some .utf8 := by
  cases mark with
  | none => exact h
  | some e =>
    obtain rfl : e = .utf8 := hmark
    unfold Encoding.declare? at h ⊢
    generalize Encoding.labels.find? _ = found at h ⊢
    cases found with
    | none => cases h
    | some found =>
      obtain ⟨label, declared⟩ := found
      cases declared with
      | none => cases h
      | some declared =>
        obtain rfl := Option.some.inj h
        rfl

theorem set?_encoding {h : Header} {name : List Char}
    (hname : Encoding.declare? none name = some .utf8) (hh : h.encoding.getD .utf8 = .utf8) :
    h.set? .encoding name = some ⟨h.version, some .utf8⟩ := by
  unfold Header.set?
  rw [declare?_utf8 hname hh]
  rfl

/-- The mark that begins a declaration, and the name of it. -/
theorem takes_declarationStart :
    Takes r ⟨.content, [], .empty, [], true⟩ .text ('<' :: '?' :: declarationName)
      ⟨.instruction (.target (.of declarationName)), [], .empty, [], true⟩ .instruction := by
  have hname : IsName declarationName := isName_cons (by decide) (by decide) (by decide)
  exact ⟨.instructionStart :: declarationName.map .char,
    (lexes_instructionStart Mode.inText_text).append (lexes_name (.inr rfl) hname),
    .cons (fun l => rfl) (runs_target hname)⟩

theorem takes_declarationEnd {fields : List HeaderField} (hfields : .version ∉ fields)
    {blanks : List Char} (hblanks : Blanks blanks) :
    Takes r (.ofDeclaration fields (.awaited false)) .instruction (blanks ++ ['?', '>'])
      ⟨.content, [], .empty, [], false⟩ .text := by
  have hlexes := (lexes_blanks (.inr rfl) hblanks).append
    (lexes_instructionEnd (m := .instruction) (by simp))
  have hend (blank : Bool) (l : Lexer) :
      (r.put l (.ofDeclaration fields (.awaited blank))).step .instructionEnd =
        .ok (r.put l ⟨.content, [], .empty, [], false⟩) := by
    have hstep : PartialDeclaration.step ⟨fields, .awaited blank⟩ r.header .instructionEnd =
        some (r.header, .done ()) := by
      show (if fields.contains .version then none else _) = _
      rw [if_neg (by simpa using hfields)]
    show Reader.stepDeclaration _ ⟨fields, .awaited blank⟩ .instructionEnd = _
    unfold Reader.stepDeclaration
    rw [show (r.put l _).header = r.header from rfl, hstep]
    rfl
  refine ⟨_, hlexes, ?_⟩
  by_cases hne : blanks = []
  · subst hne
    exact .single (hend false)
  · exact ((goes_before hne hblanks false).runs_declaration fields).append (.single (hend true))

/-- After a declaration a reader knows the version, and still takes UTF-8. -/
theorem IsDeclaration.reads {v : Version} (h : IsDeclaration text v) {mark : Option Encoding}
    (hmark : mark.getD .utf8 = .utf8) :
    ∃ r fresh, r.IsDirect ∧ r.header.version = v ∧
      Reads (.new mark) ⟨.content, [], .empty, [], true⟩ .text text r
        ⟨.content, [], .empty, [], fresh⟩ .text := by
  have hnew : (Reader.new mark).IsDirect := ⟨rfl, rfl, rfl, hmark⟩
  cases h with
  | absent => exact ⟨.new mark, true, hnew, rfl, Takes.nil.reads hnew rfl rfl⟩
  | @present v number version encoding standalone blanks hversion hv hencoding honce hstandalone
      hlast hblanks =>
    have hstart := (takes_declarationStart (r := .new mark)).reads hnew rfl rfl
    have hset : (Reader.new mark).header.set? .version number = some ⟨v, mark⟩ := by
      show (Version.ofNumber? number).map _ = _
      rw [hv]
      rfl
    have hfirst := reads_field hnew .first (by simp)
      (show IsName "version".toList from isName_cons (by decide) (by decide) (by decide))
      (by decide) hversion hset hmark
    have hdirect : ((Reader.new mark).declare ⟨v, mark⟩).IsDirect := hnew.declare hmark
    have hlater : .encoding ∈ HeaderField.version.later := by simp [HeaderField.later]
    obtain ⟨r₁, fields₁, hr₁, hv₁, hfields₁, hreads₁⟩ := reads_optional hdirect hlater
      (show IsName "encoding".toList from isName_cons (by decide) (by decide) (by decide))
      (by decide) honce fun a ha => by
        obtain ⟨name, hname, hdeclare⟩ := hencoding a ha
        exact ⟨name, ⟨v, some .utf8⟩, hname, set?_encoding hdeclare hmark, rfl, rfl⟩
    have hlater₁ : .standalone ∈ fields₁ := by
      rcases hfields₁ with rfl | rfl <;> simp [HeaderField.later]
    obtain ⟨r₂, fields₂, hr₂, hv₂, hfields₂, hreads₂⟩ := reads_optional hr₁ hlater₁
      (show IsName "standalone".toList from isName_cons (by decide) (by decide) (by decide))
      (by decide) hlast fun a ha => by
        obtain ⟨value, hname, hvalue⟩ := hstandalone a ha
        exact ⟨value, r₁.header, hname, if_pos hvalue, rfl, hr₁.utf8⟩
    have hfields : .version ∉ fields₂ := by
      rcases hfields₂ with rfl | rfl
      · rcases hfields₁ with rfl | rfl <;> simp [HeaderField.later]
      · simp [HeaderField.later]
    have hend := (takes_declarationEnd (r := r₂) hfields hblanks).reads hr₂ rfl rfl
    refine ⟨r₂, false, hr₂, hv₂.trans hv₁, ?_⟩
    have hall := hstart.append (hfirst.append (hreads₁.append (hreads₂.append hend)))
    simpa only [List.flatMap_cons, List.flatMap_append, List.append_assoc,
      List.cons_append] using hall

/-! ## 4. Documents -/

theorem takes_blanks (htext : Blanks text) (fresh : Bool) :
    ∃ fresh', Takes r ⟨.content, [], .empty, [], fresh⟩ .text text
      ⟨.content, [], .empty, [], fresh'⟩ .text := by
  have hlexes : Lexes .text text (text.map .char) .text :=
    lexes_blanks (.inl rfl) htext
  suffices hruns : ∃ fresh', Runs r ⟨.content, [], .empty, [], fresh⟩ (text.map .char)
      ⟨.content, [], .empty, [], fresh'⟩ by
    obtain ⟨fresh', hruns⟩ := hruns
    exact ⟨fresh', text.map .char, hlexes, hruns⟩
  clear hlexes
  induction text generalizing fresh with
  | nil => exact ⟨fresh, .nil⟩
  | cons c rest ih =>
    obtain ⟨fresh', hrest⟩ := ih (fun d hd => htext d (List.mem_cons_of_mem _ hd)) false
    have hfirst (l : Lexer) : (r.put l ⟨.content, [], .empty, [], fresh⟩).step (.char c) =
        .ok (r.put l ⟨.content, [], .empty, [], false⟩) := if_pos (htext c List.mem_cons_self)
    exact ⟨fresh', .cons hfirst hrest⟩

/-- What stands before the outermost element leaves nothing. -/
theorem takes_prolog {nodes : List Node} (h : IsProlog r.header.version nodes) (fresh : Bool) :
    ∃ fresh', Takes r ⟨.content, [], .empty, [], fresh⟩ .text (textOf nodes)
      ⟨.content, [], .empty, [], fresh'⟩ .text := by
  have htext := Mode.inText_text
  induction h generalizing fresh with
  | nil => exact ⟨fresh, .nil⟩
  | chars hblanks _ ih =>
    obtain ⟨fresh₁, hfirst⟩ := takes_blanks (r := r) hblanks fresh
    obtain ⟨fresh', hrest⟩ := ih fresh₁
    exact ⟨fresh', hfirst.append hrest⟩
  | comment hcomment _ ih =>
    obtain ⟨fresh', hrest⟩ := ih false
    exact ⟨fresh', (takes_comment hcomment htext fun l => rfl).append hrest⟩
  | @instruction target content rest hinstruction _ ih =>
    obtain ⟨fresh', hrest⟩ := ih false
    have hfirst : Takes r ⟨.content, [], .empty, [], fresh⟩ .text
        (Node.instruction target content).text ⟨.content, [], .empty, [], false⟩ .text :=
      takes_instruction hinstruction htext fun l => rfl
    exact ⟨fresh', hfirst.append hrest⟩

/-- The outermost element is read to its end. -/
theorem finishes_root (hr : r.IsDirect) {tag : WrittenTag} {content : List Node}
    {closing : Option (List Char)}
    (h : IsContent r.header.version .outermost [.element tag content closing]) (fresh : Bool) :
    ∃ inner, Finishes r ⟨.content, [], .empty, [], fresh⟩ .text
      (Node.element tag content closing).text
      ⟨.content, [⟨tag.name, inner⟩], .empty,
        (eventsFrom .empty content).reverse ++ [.start tag.name tag.data], false⟩ := by
  have htext := Mode.inText_text
  cases h with
  | @element _ inner _ _ _ blanks htag hinner hcontent hblanks _ =>
    refine ⟨inner, finishes_element hr htag hinner hblanks htext (fun l => rfl) ?_⟩
    exact takes_content hr hcontent rfl (List.cons_ne_nil _ _) htext fun _ _ => rfl
  | @empty _ inner _ _ htag hinner _ =>
    exact ⟨inner, finishes_empty hr htag htext hinner fun l => rfl⟩

theorem reads_root (hr : r.IsDirect) {tag : WrittenTag} {content : List Node}
    {closing : Option (List Char)}
    (h : IsContent r.header.version .outermost [.element tag content closing]) (fresh : Bool)
    (rest : List UInt8) :
    Reading.ofRest .nothing (r.put ⟨.text, false⟩ ⟨.content, [], .empty, [], fresh⟩)
        (utf8Octets (Node.element tag content closing).text ++ rest) =
      ⟨(Node.element tag content closing).events .empty, true⟩ := by
  obtain ⟨inner, tokens, t, last, hlexes, hruns, hstep⟩ := finishes_root hr h fresh
  refine hruns.reads_end hr (hlexes.emits rfl rfl) (fun l => (hstep l).trans ?_) rest
  have hevents : (Event.finish :: ((eventsFrom .empty content).reverse ++
      [Event.start tag.name tag.data])).reverse =
        (Node.element tag content closing).events .empty := by
    rw [List.reverse_cons, List.reverse_append, List.reverse_reverse]
    rfl
  rw [← hevents]
  rfl

/-- What a document may begin with gives no encoding away. -/
def BeginsPlainly (text : List Char) : Prop :=
  ∃ c rest, text = c :: rest ∧ (c = '<' ∨ isBlank c = true)

theorem IsProlog.beginsPlainly {v : Version} {nodes : List Node} (h : IsProlog v nodes)
    (hmore : BeginsPlainly more) : BeginsPlainly (textOf nodes ++ more) := by
  induction h with
  | nil => exact hmore
  | @chars text rest hblanks _ ih =>
    cases text with
    | nil => exact ih
    | cons c text => exact ⟨c, _, rfl, .inr (hblanks c List.mem_cons_self)⟩
  | comment => exact ⟨'<', _, rfl, .inl rfl⟩
  | instruction => exact ⟨'<', _, rfl, .inl rfl⟩

theorem IsDeclaration.beginsPlainly {v : Version} (h : IsDeclaration text v)
    (hmore : BeginsPlainly more) : BeginsPlainly (text ++ more) := by
  cases h with
  | absent => exact hmore
  | present => exact ⟨'<', _, rfl, .inl rfl⟩

theorem ofMark_eq_none (h : BeginsPlainly text) (after : List UInt8) :
    Encoding.ofMark (utf8Octets text ++ after) = (none, utf8Octets text ++ after) := by
  obtain ⟨c, rest, rfl, hc⟩ := h
  have hoctet : ∃ b : UInt8, String.utf8EncodeChar c = [b] ∧ b ∉ [0xEF, 0xFE, 0xFF] := by
    rcases hc with rfl | hblank
    · exact ⟨0x3C, by decide, by decide⟩
    · simp only [isBlank, Bool.or_eq_true, beq_iff_eq] at hblank
      rcases hblank with ((rfl | rfl) | rfl) | rfl
      all_goals exact ⟨_, rfl, by decide⟩
  obtain ⟨b, hencode, hb⟩ := hoctet
  have htext : utf8Octets (c :: rest) ++ after = b :: (utf8Octets rest ++ after) := by
    rw [utf8Octets, List.flatMap_cons, hencode]
    rfl
  rw [htext]
  unfold Encoding.ofMark
  split <;> first | rfl | simp_all

/-- Octets that write a document are read as the events of its outermost element. -/
theorem WritesDocument.reading_eq {tag : WrittenTag} {content : List Node}
    {closing : Option (List Char)} {octets : List UInt8}
    (h : WritesDocument (.element tag content closing) octets) :
    Reading.ofOctets octets = ⟨(Node.element tag content closing).events .empty, true⟩ := by
  obtain ⟨mark, declaration, v, prolog, after, hmark, hdeclaration, hprolog, hcontent, rfl⟩ := h
  let text := declaration ++ (textOf prolog ++ (Node.element tag content closing).text)
  have hreads {mark : Option Encoding} (hmark : mark.getD .utf8 = .utf8) :
      Reading.ofRest .nothing (.new mark) (utf8Octets text ++ after) =
        ⟨(Node.element tag content closing).events .empty, true⟩ := by
    obtain ⟨r, fresh, hr, rfl, hfirst⟩ := hdeclaration.reads hmark
    obtain ⟨fresh', hsecond⟩ := takes_prolog hprolog fresh
    show Reading.ofRest .nothing ((Reader.new mark).put ⟨.text, false⟩
      ⟨.content, [], .empty, [], true⟩) _ = _
    rw [utf8Octets_append, utf8Octets_append, List.append_assoc, hfirst, List.append_assoc,
      hsecond.reads hr rfl rfl, reads_root hr hcontent]
  have hbegins : BeginsPlainly text := by
    refine hdeclaration.beginsPlainly (hprolog.beginsPlainly ?_)
    cases closing <;> exact ⟨'<', _, rfl, .inl rfl⟩
  simp only [List.mem_cons, List.not_mem_nil, or_false] at hmark
  rcases hmark with rfl | rfl
  · unfold Reading.ofOctets
    rw [List.nil_append, ofMark_eq_none hbegins]
    exact hreads rfl
  · exact hreads (show (some Encoding.utf8).getD .utf8 = .utf8 from rfl)

end TourMap.Xml
