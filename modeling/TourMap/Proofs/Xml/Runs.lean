import TourMap.Proofs.Text.Utf8
import TourMap.Proofs.Xml.Attributes

/-!
# Runs: what a reader makes of tokens, and of the octets that give them

Of what a reader holds the tokens after a declaration change a part only (`Core`). What tokens do to
it (`Runs`) is what the octets do that give the tokens (`Runs.reads`), as long as no entity is
declared.
-/

namespace TourMap.Xml

/-! ## 1. Tokens -/

/-- What a reader holds that tokens change, but for those of a declaration. -/
structure Core where
  place : Place
  opened : List OpenElement
  passage : Passage
  events : List Event
  fresh : Bool

/-- A reader with another core and lexer. -/
def Reader.put (r : Reader) (l : Lexer) (core : Core) : Reader :=
  { r with
    lexer := l
    place := core.place
    opened := core.opened
    passage := core.passage
    events := core.events
    fresh := core.fresh }

/-- What tokens do one after the other to the core of a reader. -/
inductive Runs (r : Reader) : Core → List Token → Core → Prop
  | nil {core : Core} : Runs r core [] core
  | cons {core next last : Core} {t : Token} {rest : List Token}
    (h : ∀ l, (r.put l core).step t = .ok (r.put l next)) (hrest : Runs r next rest last) :
    Runs r core (t :: rest) last

variable {r : Reader} {core next last : Core} {tokens more : List Token}

theorem Runs.single {t : Token} (h : ∀ l, (r.put l core).step t = .ok (r.put l next)) :
    Runs r core [t] next :=
  .cons h .nil

theorem Runs.append (h : Runs r core tokens next) (hmore : Runs r next more last) :
    Runs r core (tokens ++ more) last := by
  induction h with
  | nil => exact hmore
  | cons h _ ih => exact .cons h (ih hmore)

theorem Runs.exists_of_append (h : Runs r core (tokens ++ more) last) :
    ∃ next, Runs r core tokens next ∧ Runs r next more last := by
  induction tokens generalizing core with
  | nil => exact ⟨core, .nil, h⟩
  | cons t rest ih =>
    cases h with
    | cons hstep hrest =>
      obtain ⟨next, hfirst, hlast⟩ := ih hrest
      exact ⟨next, .cons hstep hfirst, hlast⟩

theorem Runs.foldlM_eq (h : Runs r core tokens next) (l : Lexer) :
    tokens.foldlM Reader.step (r.put l core) = .ok (r.put l next) := by
  induction h with
  | nil => rfl
  | cons h _ ih =>
    rw [List.foldlM_cons, h l]
    exact ih

/-! ## 2. Characters -/

/-- Whether a reader takes UTF-8 and knows no entities. -/
structure Reader.IsDirect (r : Reader) : Prop where
  entities : r.entities = .empty
  replacement : r.replacement = []
  replaced : r.replaced = 0
  utf8 : r.header.encoding.getD .utf8 = .utf8

theorem Reader.readChar_put {l l' : Lexer} {c : Char} (hstep : l.step c = some (l', tokens)) :
    (r.put l core).readChar c = tokens.foldlM Reader.step (r.put l' core) := by
  unfold Reader.readChar
  rw [show (r.put l core).lexer.step c = some (l', tokens) from hstep]
  rfl

theorem Reader.IsDirect.read_eq (hr : r.IsDirect) (l : Lexer) (core : Core) (c : Char) :
    (r.put l core).read c = Reader.readNested Reader.maxReplaced (r.put l core) c := by
  show Reader.readNested _ { r.put l core with replaced := 0 } c = _
  rw [← hr.replaced]
  rfl

/-- A character of which the tokens lead on, where no entity is to be replaced. -/
theorem read_eq_ok (hr : r.IsDirect) {l l' : Lexer} {c : Char}
    (hstep : l.step c = some (l', tokens)) {r' : Reader}
    (h : tokens.foldlM Reader.step (r.put l' core) = .ok r') (hr' : r'.replacement = []) :
    (r.put l core).read c = .ok r' := by
  have hempty : r'.replacement.isEmpty = true := by
    rw [hr']
    rfl
  rw [hr.read_eq]
  unfold Reader.readNested
  rw [Reader.readChar_put hstep, h]
  show (if r'.replacement.isEmpty then Except.ok r' else _) = _
  rw [if_pos hempty]

theorem Runs.read_eq (hr : r.IsDirect) (h : Runs r core tokens next) {l l' : Lexer} {c : Char}
    (hstep : l.step c = some (l', tokens)) : (r.put l core).read c = .ok (r.put l' next) :=
  read_eq_ok hr hstep (h.foldlM_eq l') hr.replacement

theorem read_eq_error (hr : r.IsDirect) {l l' : Lexer} {c : Char}
    (hstep : l.step c = some (l', tokens)) {reading : Reading}
    (h : tokens.foldlM Reader.step (r.put l' core) = .error reading) :
    (r.put l core).read c = .error reading := by
  rw [hr.read_eq]
  unfold Reader.readNested
  rw [Reader.readChar_put hstep, h]
  rfl

/-! ## 3. Octets -/

/-- Reads on after a character, unless the document has ended. -/
def Reading.goOn (result : Reader.Result) (rest : List UInt8) : Reading :=
  match result with
  | .error reading => reading
  | .ok r => Reading.ofRest .nothing r rest

/-- The octets of a character are read as this character. -/
theorem ofRest_spells {r : Reader} (hr : r.header.encoding.getD .utf8 = .utf8) {c : Char}
    {pending : Option Utf8.Pending} {octets : List UInt8} (h : Utf8.Spells c pending octets)
    (rest : List UInt8) :
    Reading.ofRest (pending.elim .nothing .octets) r (octets ++ rest) =
      Reading.goOn (r.read c) rest := by
  have hstep (pending : Option Utf8.Pending) (b : UInt8) :
      (r.header.encoding.getD .utf8).step (pending.elim .nothing .octets) b =
        Encoding.stepUtf8 pending b := by
    rw [hr]
    cases pending <;> rfl
  induction h with
  | @last pending b h =>
    rw [List.singleton_append, Reading.ofRest, hstep, Encoding.stepUtf8, h]
    rfl
  | @next pending p b octets h _ ih =>
    rw [List.cons_append, Reading.ofRest, hstep, Encoding.stepUtf8, h]
    exact ih

theorem Reader.IsDirect.ofRest_char (hr : r.IsDirect) (l : Lexer) (core : Core) (c : Char)
    (text : List Char) (rest : List UInt8) :
    Reading.ofRest .nothing (r.put l core) (utf8Octets (c :: text) ++ rest) =
      Reading.goOn ((r.put l core).read c) (utf8Octets text ++ rest) := by
  rw [utf8Octets, List.flatMap_cons, List.append_assoc]
  have hutf8 : (r.put l core).header.encoding.getD .utf8 = .utf8 := hr.utf8
  exact ofRest_spells hutf8 (Utf8.spells_utf8EncodeChar c) _

/-- A text is read as the tokens that it gives. -/
theorem Runs.reads (hr : r.IsDirect) {m m' : Mode} {text : List Char}
    (hemits : Emits m text tokens m') (h : Runs r core tokens next) (rest : List UInt8) :
    Reading.ofRest .nothing (r.put ⟨m, false⟩ core) (utf8Octets text ++ rest) =
      Reading.ofRest .nothing (r.put ⟨m', false⟩ next) rest := by
  induction hemits generalizing core with
  | nil =>
    cases h
    rfl
  | cons hstep _ ih =>
    obtain ⟨middle, hfirst, hlast⟩ := h.exists_of_append
    rw [hr.ofRest_char, hfirst.read_eq hr hstep]
    exact ih hlast

/-- A text whose last token is read in a way of its own: up to the character that gives this token
all others are read. -/
theorem Runs.reads_upTo (hr : r.IsDirect) {m m' : Mode} {text : List Char} {t : Token}
    (hemits : Emits m text (tokens ++ [t]) m') (h : Runs r core tokens next) (rest : List UInt8) :
    ∃ m₁ m₂ c after before second, Lexer.step ⟨m₁, false⟩ c = some (⟨m₂, false⟩, second ++ [t]) ∧
      Runs r before second next ∧ Emits m₂ after [] m' ∧
      Reading.ofRest .nothing (r.put ⟨m, false⟩ core) (utf8Octets text ++ rest) =
        Reading.goOn ((r.put ⟨m₁, false⟩ before).read c) (utf8Octets after ++ rest) := by
  obtain ⟨before, c, after, m₁, m₂, first, second, rfl, rfl, hbefore, hstep, hafter⟩ :=
    hemits.exists_last
  obtain ⟨middle, hfirst, hsecond⟩ := h.exists_of_append
  refine ⟨m₁, m₂, c, after, middle, second, hstep, hsecond, hafter, ?_⟩
  rw [utf8Octets_append, List.append_assoc, hfirst.reads hr hbefore, hr.ofRest_char]

/-- A text whose last token ends the document is read up to there. -/
theorem Runs.reads_end (hr : r.IsDirect) {m m' : Mode} {text : List Char} {t : Token}
    (hemits : Emits m text (tokens ++ [t]) m') (h : Runs r core tokens next) {reading : Reading}
    (hend : ∀ l, (r.put l next).step t = .error reading) (rest : List UInt8) :
    Reading.ofRest .nothing (r.put ⟨m, false⟩ core) (utf8Octets text ++ rest) = reading := by
  obtain ⟨m₁, m₂, c, after, before, second, hstep, hsecond, -, heq⟩ := h.reads_upTo hr hemits rest
  have hfold : (second ++ [t]).foldlM Reader.step (r.put ⟨m₂, false⟩ before) = .error reading := by
    rw [List.foldlM_append, hsecond.foldlM_eq]
    show (r.put ⟨m₂, false⟩ next).step t >>= _ = _
    rw [hend]
    rfl
  rw [heq, read_eq_error hr hstep hfold]
  rfl

/-- A text whose last token changes what is no part of the core. -/
theorem Runs.reads_last {r' : Reader} (hr : r.IsDirect) (hr' : r'.IsDirect) {m m' : Mode}
    {text : List Char} {t : Token} (hemits : Emits m text (tokens ++ [t]) m')
    (h : Runs r core tokens next) (hlast : ∀ l, (r.put l next).step t = .ok (r'.put l last))
    (rest : List UInt8) :
    Reading.ofRest .nothing (r.put ⟨m, false⟩ core) (utf8Octets text ++ rest) =
      Reading.ofRest .nothing (r'.put ⟨m', false⟩ last) rest := by
  obtain ⟨m₁, m₂, c, after, before, second, hstep, hsecond, hafter, heq⟩ :=
    h.reads_upTo hr hemits rest
  have hfold : (second ++ [t]).foldlM Reader.step (r.put ⟨m₂, false⟩ before) =
      .ok (r'.put ⟨m₂, false⟩ last) := by
    rw [List.foldlM_append, hsecond.foldlM_eq]
    show (r.put ⟨m₂, false⟩ next).step t >>= _ = _
    rw [hlast]
    rfl
  rw [heq, read_eq_ok hr hstep hfold hr'.replacement]
  exact Runs.nil.reads hr' hafter rest

/-! ## 4. Texts -/

variable {m m' m'' : Mode} {text others : List Char}

/-- What the tokens of a text do to the core of a reader. -/
def Takes (r : Reader) (core : Core) (m : Mode) (text : List Char) (next : Core) (m' : Mode) :
    Prop :=
  ∃ tokens, Lexes m text tokens m' ∧ Runs r core tokens next

theorem Takes.nil : Takes r core m [] core m := ⟨[], ⟨[], .nil, List.append_nil _⟩, .nil⟩

theorem Takes.append (h : Takes r core m text next m') (hmore : Takes r next m' others last m'') :
    Takes r core m (text ++ others) last m'' := by
  obtain ⟨tokens, hlexes, hruns⟩ := h
  obtain ⟨tokensMore, hlexesMore, hrunsMore⟩ := hmore
  exact ⟨tokens ++ tokensMore, hlexes.append hlexesMore, hruns.append hrunsMore⟩

/-- Whether the last token of a text finishes the innermost element of a core. -/
def Finishes (r : Reader) (core : Core) (m : Mode) (text : List Char) (ended : Core) : Prop :=
  ∃ tokens t last, Lexes m text (tokens ++ [t]) .text ∧ Runs r core tokens last ∧
    ∀ l, (r.put l last).step t = (r.put l ended).finish

theorem Takes.finishes (h : Takes r core m text next m') (hmore : Finishes r next m' others last) :
    Finishes r core m (text ++ others) last := by
  obtain ⟨tokens, hlexes, hruns⟩ := h
  obtain ⟨tokensMore, t, before, hlexesMore, hrunsMore, hstep⟩ := hmore
  refine ⟨tokens ++ tokensMore, t, before, ?_, hruns.append hrunsMore, hstep⟩
  rw [List.append_assoc]
  exact hlexes.append hlexesMore

/-- An element that is finished inside of another one. -/
theorem Finishes.takes {place : Place} {ended element : OpenElement} {opened : List OpenElement}
    {p : Passage} {events : List Event} {fresh : Bool}
    (h : Finishes r core m text ⟨place, ended :: element :: opened, p, events, fresh⟩) :
    Takes r core m text ⟨.content, element :: opened, p, .finish :: events, fresh⟩ .text := by
  obtain ⟨tokens, t, last, hlexes, hruns, hstep⟩ := h
  exact ⟨tokens ++ [t], hlexes, hruns.append (.single fun l => hstep l)⟩

end TourMap.Xml
