import TourMap.Xml.Declaration
import TourMap.Xml.Doctype
import TourMap.Xml.Event
import TourMap.Xml.Instruction

/-!
# Reader: how a document is read from its front

A reader takes a document one character at a time (`Reader.read`) and holds what it has met so far.
It stops where the document is malformed or its root element ends, whatever comes after. The text of
an entity is read in the place of the reference to it, so that it may hold elements.
-/

namespace TourMap.Xml

/-! ## 1. What a reader holds -/

/-- Where in a document a reader is. What was read of a reference is kept with the last character
first. -/
inductive Place where
  | content
  | reference (name : List Char)
  | comment
  | literal
  | instruction (i : PartialInstruction)
  | declaration (d : PartialDeclaration)
  | doctype (d : Doctype)
  | tagName (name : PartialName)
  | tag (t : PartialTag)
  | endTagName (name : PartialName)
  /-- In a tag that ends an element, after its name. -/
  | endTag (name : Name)

structure OpenElement where
  name : Name
  /-- The name spaces that may be used inside of it. -/
  scope : Scope

structure Reader where
  lexer : Lexer
  place : Place
  header : Header
  entities : Entities
  /-- Whether nothing was met, so that a declaration may come. -/
  fresh : Bool
  typed : Bool
  opened : List OpenElement
  passage : Passage
  /-- A text that is to be read before the document goes on. -/
  replacement : List Char
  /-- How many references were replaced since the last character of the document itself. -/
  replaced : Nat
  /-- How many characters of the texts in their places are left. -/
  waiting : Nat
  /-- The events, the last one first. -/
  events : List Event

/-- A reader that goes on, or the reading of a document that ends. -/
abbrev Reader.Result := Except Reading Reader

namespace Reader

/-- Nothing was read of a document with a mark or none. -/
def new (mark : Option Encoding) : Reader where
  lexer := .new
  place := .content
  header := ⟨.v10, mark⟩
  entities := .empty
  fresh := true
  typed := false
  opened := []
  passage := .empty
  replacement := []
  replaced := 0
  waiting := 0
  events := []

/-- The reading of a document that is malformed or not complete. -/
def broken (r : Reader) : Reading := ⟨r.events.reverse, false⟩

def whole (r : Reader) : Reading := ⟨r.events.reverse, true⟩

def fail (r : Reader) : Result := .error r.broken

/-- Goes on if there is a way. -/
def orFail (r : Reader) : Option Reader → Result
  | some next => .ok next
  | none => r.fail

def goTo (r : Reader) (place : Place) : Reader := { r with place }

/-- Goes on at a place, after something that no declaration of the document may follow. -/
def meet (r : Reader) (place : Place) : Reader := { r with place, fresh := false }

/-- Whether no element is open. -/
def isOutside (r : Reader) : Bool := r.opened.isEmpty

def scope (r : Reader) : Scope :=
  match r.opened with
  | [] => .outermost
  | element :: _ => element.scope

/-! ## 2. Elements -/

/-- Ends a passage of text. -/
def endPassage (r : Reader) : Reader :=
  { r with passage := .empty, events := r.passage.event?.toList ++ r.events }

def finish (r : Reader) : Result :=
  let r := { r.goTo .content with events := .finish :: r.events, opened := r.opened.tail }
  if r.isOutside then .error r.whole else .ok r

/-- Begins an element at the end of its tag. One that is empty ends at once. -/
def start (r : Reader) (name : Name) (attributes : List Attribute) (empty : Bool) : Result :=
  match r.scope.enter? name attributes with
  | none => r.fail
  | some scope =>
    let r := { r.goTo .content with
      events := .start name (attributes.filter (·.isData)) :: r.events
      opened := ⟨name, scope⟩ :: r.opened }
    if empty then r.finish else .ok r

def finishNamed (r : Reader) (name : Name) : Result :=
  match r.opened with
  | element :: _ => if element.name = name then r.finish else r.fail
  | [] => r.fail

/-! ## 3. Tokens in content -/

def stepInside (r : Reader) : Token → Result
  | .char c =>
    if r.header.version.isPlain c then .ok { r with passage := r.passage.add c } else r.fail
  | .ampersand => .ok (r.goTo (.reference []))
  | .literalStart => .ok (r.goTo .literal)
  | .commentStart => .ok (r.goTo .comment)
  | .instructionStart => .ok (r.endPassage.goTo (.instruction .new))
  | .tagStart => .ok (r.endPassage.goTo (.tagName .empty))
  | .endTagStart => .ok (r.endPassage.goTo (.endTagName .empty))
  | .literalEnd => r.fail
  | .doctypeStart => r.fail
  | .declarationStart => r.fail
  | token => .ok { r with passage := r.passage.addMark token }

def stepOutside (r : Reader) : Token → Result
  | .char c => if isBlank c then .ok (r.meet .content) else r.fail
  | .commentStart => .ok (r.meet .comment)
  | .instructionStart => .ok (r.goTo (.instruction .new))
  | .tagStart => .ok (r.meet (.tagName .empty))
  | .doctypeStart =>
    if r.typed then r.fail else .ok { r.meet (.doctype .awaited) with typed := true }
  | _ => r.fail

def refer (r : Reader) (name : List Char) : Result :=
  match r.header.version.referent? name with
  | some c => .ok { r.goTo .content with passage := r.passage.addLiteral c }
  | none =>
    match r.entities.general.lookup (String.ofList name) with
    | some text => .ok { r.goTo .content with passage := r.passage.refer, replacement := text }
    | none => r.fail

def stepReference (r : Reader) (name : List Char) : Token → Result
  | .char c => r.orFail ((extendReference? name c).map fun name => r.goTo (.reference name))
  | .semicolon => r.refer name.reverse
  | _ => r.fail

def stepComment (r : Reader) : Token → Result
  | .commentEnd => .ok (r.goTo .content)
  | .char c => if r.header.version.allows c then .ok r else r.fail
  | _ => r.fail

def stepLiteral (r : Reader) : Token → Result
  | .literalEnd => .ok (r.goTo .content)
  | .char c =>
    if r.header.version.allows c then .ok { r with passage := r.passage.addLiteral c } else r.fail
  | _ => r.fail

/-! ## 4. Tokens in instructions and the document type -/

/-- A token in an instruction. The declaration of a document may only come first. -/
def stepInstruction (r : Reader) (i : PartialInstruction) (token : Token) : Result :=
  if r.fresh && i.isDeclaration token then .ok (r.meet (.declaration .new))
  else
    match i.step r.header.version token with
    | none => r.fail
    | some (.next i) => .ok (r.goTo (.instruction i))
    | some (.done ()) => .ok (r.meet .content)

def stepDeclaration (r : Reader) (d : PartialDeclaration) (token : Token) : Result :=
  match d.step r.header token with
  | none => r.fail
  | some (header, .next d) => .ok { r with header, place := .declaration d }
  | some (header, .done ()) => .ok { r with header, place := .content }

def stepDoctype (r : Reader) (d : Doctype) (token : Token) : Result :=
  match d.step r.header.version r.entities token with
  | none => r.fail
  | some (.next d) => .ok (r.goTo (.doctype d))
  | some (.declare entities d) => .ok { r.goTo (.doctype d) with entities }
  | some (.replace replacement d) => .ok { r.goTo (.doctype d) with replacement }
  | some .done => .ok (r.goTo .content)

/-! ## 5. Tokens in tags -/

/-- Goes on with a name that is complete. -/
def withName (r : Reader) (name : PartialName) (next : Name → Result) : Result :=
  match Name.ofChars? name.chars with
  | some name => next name
  | none => r.fail

def stepTagName (r : Reader) (read : PartialName) : Token → Result
  | .tagEnd => r.withName read fun name => r.start name [] false
  | .emptyTagEnd => r.withName read fun name => r.start name [] true
  | .char c =>
    if isBlank c then r.withName read fun name => .ok (r.goTo (.tag (.new name)))
    else r.orFail ((read.add? c).map fun read => r.goTo (.tagName read))
  | _ => r.fail

def stepTag (r : Reader) (t : PartialTag) (token : Token) : Result :=
  match t.mayEnd, token with
  | true, .tagEnd => r.start t.name t.attributes.reverse false
  | true, .emptyTagEnd => r.start t.name t.attributes.reverse true
  | _, token =>
    r.orFail ((t.step r.header.version r.entities token).map fun t => r.goTo (.tag t))

/-- A token in the name of a tag that ends an element. -/
def stepEndTagName (r : Reader) (read : PartialName) : Token → Result
  | .tagEnd => r.withName read fun name => r.finishNamed name
  | .char c =>
    if isBlank c then r.withName read fun name => .ok (r.goTo (.endTag name))
    else r.orFail ((read.add? c).map fun read => r.goTo (.endTagName read))
  | _ => r.fail

/-- A token in a tag that ends an element, after its name. -/
def stepEndTag (r : Reader) (name : Name) : Token → Result
  | .tagEnd => r.finishNamed name
  | .char c => if isBlank c then .ok r else r.fail
  | _ => r.fail

/-! ## 6. Characters -/

def step (r : Reader) (token : Token) : Result :=
  match r.place with
  | .content => if r.isOutside then r.stepOutside token else r.stepInside token
  | .reference name => r.stepReference name token
  | .comment => r.stepComment token
  | .literal => r.stepLiteral token
  | .instruction i => r.stepInstruction i token
  | .declaration d => r.stepDeclaration d token
  | .doctype d => r.stepDoctype d token
  | .tagName name => r.stepTagName name token
  | .tag t => r.stepTag t token
  | .endTagName name => r.stepEndTagName name token
  | .endTag name => r.stepEndTag name token

def readChar (r : Reader) (c : Char) : Result :=
  match r.lexer.step c with
  | none => r.fail
  | some (lexer, tokens) => tokens.foldlM step { r with lexer }

/-- How many references one character of a document may lead to. -/
def maxReplaced : Nat := 10

/-- How many characters may be left where a reference is replaced. -/
def maxWaiting : Nat := 1000000

/-- Takes the text that stands for a reference, if there may be another one. -/
def takeReplacement (r : Reader) : Result :=
  if r.replaced < maxReplaced && r.waiting ≤ maxWaiting then
    .ok { r with
      replacement := []
      replaced := r.replaced + 1
      waiting := r.waiting + r.replacement.length }
  else
    r.fail

/-- One character, and the text in place of the reference that it ends. No more than `depth` such
texts lie within each other. -/
def readNested (depth : Nat) (r : Reader) (c : Char) : Result := do
  let r ← r.readChar c
  if r.replacement.isEmpty then return r
  match depth with
  | 0 => r.fail
  | depth + 1 =>
    r.replacement.foldlM (fun r c => readNested depth { r with waiting := r.waiting - 1 } c)
      (← r.takeReplacement)

/-- One character of a document. -/
def read (r : Reader) (c : Char) : Result := readNested maxReplaced { r with replaced := 0 } c

end Reader

/-! ## 7. Documents -/

/-- Reads on; `left` was read of a character. -/
def Reading.ofRest : (left : PartialChar) → Reader → List UInt8 → Reading
  | _, r, [] => r.broken
  | left, r, b :: rest =>
    match (r.header.encoding.getD .utf8).step left b with
    | none => r.broken
    | some (left, none) => ofRest left r rest
    | some (left, some c) =>
      match r.read c with
      | .error reading => reading
      | .ok r => ofRest left r rest

def Reading.ofOctets (octets : List UInt8) : Reading :=
  let (mark, octets) := Encoding.ofMark octets
  ofRest .nothing (.new mark) octets

end TourMap.Xml
