import TourMap.Xml.Reader

/-!
# Written: documents and the octets that write them

A document is made of nodes, which are given as they are written: an attribute with the blanks
around its equals sign, a text with its references. `textOf` is the text of nodes and `eventsFrom`
what is in them for a reader; comments and blanks leave nothing. Octets write a document
(`WritesDocument`) if they are its text in UTF-8, after a declaration or none.
-/

namespace TourMap.Xml

/-! ## 1. Names and values -/

def Blanks (text : List Char) : Prop := ∀ c ∈ text, isBlank c = true

/-- The octets of a text in UTF-8. -/
def utf8Octets (text : List Char) : List UInt8 := text.flatMap String.utf8EncodeChar

/-- Whether characters are a name, and one that is not too long. -/
structure IsName (name : List Char) : Prop where
  ne_nil : name ≠ []
  start : ∀ c, name.head? = some c → isNameStart c = true
  parts : ∀ c ∈ name, isNamePart c = true
  octets : (utf8Octets name).length ≤ PartialName.maxOctets

def Name.text (n : Name) : List Char :=
  match n.space with
  | none => n.base.toList
  | some space => space.toList ++ ':' :: n.base.toList

structure Name.IsWritten (n : Name) : Prop where
  isName : IsName n.text
  read : Name.ofChars? n.text = some n

/-- Whether a reference with a name stands for a character. -/
structure IsReference (v : Version) (name : List Char) (c : Char) : Prop where
  start : ∃ first rest, name = first :: rest ∧ (first = '#' ∨ isNameStart first = true) ∧
    ∀ d ∈ rest, isNamePart d = true
  referent : v.referent? name = some c

/-- A part of a value: a character that stands for itself, or a reference to one. -/
inductive Piece where
  | char (c : Char)
  | reference (name : List Char) (c : Char)

def Piece.text : Piece → List Char
  | char c => [c]
  | reference name _ => '&' :: (name ++ [';'])

inductive Piece.IsWritten (v : Version) (q : Quote) : Piece → Prop
  | char {c : Char} (hplain : v.isPlain c = true) (hmark : c ≠ '<') (hreference : c ≠ '&')
    (hquote : Token.ofChar c ≠ .quote q) : IsWritten v q (.char c)
  | reference {name : List Char} {c : Char} (h : IsReference v name c) :
    IsWritten v q (.reference name c)

/-- The value that pieces stand for: a blank that stands for itself is a space, and the end of a
line one blank. -/
def valueOf : (afterReturn : Bool) → List Piece → List Char
  | _, [] => []
  | afterReturn, .char c :: rest =>
    if afterReturn && c == '\n' then valueOf false rest
    else (if isBlank c then ' ' else c) :: valueOf (c == '\r') rest
  | _, .reference _ c :: rest => c :: valueOf false rest

/-! ## 2. Tags -/

/-- An attribute with the blanks before it and around its equals sign. -/
structure WrittenAttribute where
  before : List Char
  name : Name
  beforeEquals : List Char
  afterEquals : List Char
  quote : Quote
  value : List Piece

namespace WrittenAttribute

def text (a : WrittenAttribute) : List Char :=
  a.before ++ (a.name.text ++ (a.beforeEquals ++ '=' :: (a.afterEquals ++
    ((Token.quote a.quote).text ++ (a.value.flatMap Piece.text ++ (Token.quote a.quote).text)))))

/-- The attribute that is read. -/
def toAttribute (a : WrittenAttribute) : Attribute := ⟨a.name, valueOf false a.value⟩

/-- Whether blanks stand where they may stand, and one at least before the name. -/
structure IsSpaced (a : WrittenAttribute) : Prop where
  before_ne_nil : a.before ≠ []
  before : Blanks a.before
  beforeEquals : Blanks a.beforeEquals
  afterEquals : Blanks a.afterEquals

structure IsWritten (v : Version) (a : WrittenAttribute) : Prop extends a.IsSpaced where
  name : a.name.IsWritten
  value : ∀ p ∈ a.value, p.IsWritten v a.quote

end WrittenAttribute

/-- What a tag holds, with the blanks before its end. -/
structure WrittenTag where
  name : Name
  attributes : List WrittenAttribute
  blanks : List Char

namespace WrittenTag

def text (t : WrittenTag) : List Char :=
  t.name.text ++ (t.attributes.flatMap (·.text) ++ t.blanks)

/-- The attributes, those that declare name spaces included. -/
def read (t : WrittenTag) : List Attribute := t.attributes.map (·.toAttribute)

/-- The attributes that declare nothing. -/
def data (t : WrittenTag) : List Attribute := t.read.filter (·.isData)

structure IsWritten (v : Version) (t : WrittenTag) : Prop where
  name : t.name.IsWritten
  attributes : ∀ a ∈ t.attributes, a.IsWritten v
  blanks : Blanks t.blanks

end WrittenTag

/-! ## 3. Nodes -/

inductive Node where
  /-- An element, with the blanks in its last tag. An empty element may have no such tag. -/
  | element (tag : WrittenTag) (content : List Node) (closing : Option (List Char))
  | chars (text : List Char)
  | reference (name : List Char) (c : Char)
  | literal (text : List Char)
  | comment (text : List Char)
  | instruction (target content : List Char)

mutual

def Node.text : Node → List Char
  | .element tag content (some blanks) =>
    '<' :: (tag.text ++ '>' :: (textOf content ++
      '<' :: '/' :: (tag.name.text ++ (blanks ++ ['>']))))
  | .element tag _ none => '<' :: (tag.text ++ ['/', '>'])
  | .chars text => text
  | .reference name _ => '&' :: (name ++ [';'])
  | .literal text => Token.literalStart.text ++ (text ++ Token.literalEnd.text)
  | .comment text => Token.commentStart.text ++ (text ++ Token.commentEnd.text)
  | .instruction target content => '<' :: '?' :: (target ++ (content ++ ['?', '>']))

def textOf : List Node → List Char
  | [] => []
  | n :: rest => n.text ++ textOf rest

end

/-- The passage of text that goes on after a node, if one went on before it. -/
def Node.passage (p : Passage) : Node → Passage
  | .element _ _ _ => .empty
  | .chars text => text.foldl .add p
  | .reference _ c => p.addLiteral c
  | .literal text => text.foldl .addLiteral p
  | .comment _ => p
  | .instruction _ _ => .empty

mutual

/-- What is in a node for a reader, after a passage of text. -/
def Node.events (p : Passage) (n : Node) : List Event :=
  match n with
  | .element tag content _ =>
    p.event?.toList ++ .start tag.name tag.data :: (eventsFrom .empty content ++ [.finish])
  | .instruction _ _ => p.event?.toList
  | .chars _ => []
  | .reference _ _ => []
  | .literal _ => []
  | .comment _ => []
termination_by structural n

/-- What is in nodes up to the end of their element, after a passage of text. -/
def eventsFrom (p : Passage) (nodes : List Node) : List Event :=
  match nodes with
  | [] => p.event?.toList
  | n :: rest => n.events p ++ eventsFrom (n.passage p) rest
termination_by structural nodes

end

/-- Whether a text may stand for itself between tags. -/
structure IsText (v : Version) (text : List Char) : Prop where
  chars : ∀ c ∈ text, v.isPlain c = true ∧ c ≠ '<' ∧ c ≠ '&'
  noEnd : ¬ Token.literalEnd.text <:+: text

structure IsLiteral (v : Version) (text : List Char) : Prop where
  chars : ∀ c ∈ text, v.allows c = true
  noEnd : ¬ Token.literalEnd.text <:+: text

/-- Whether a text may stand in a comment: two hyphens stand only at its end. -/
structure IsComment (v : Version) (text : List Char) : Prop where
  chars : ∀ c ∈ text, v.allows c = true
  noHyphens : ¬ ['-', '-'] <:+: text ++ ['-']

structure IsInstruction (v : Version) (target content : List Char) : Prop where
  isName : IsName target
  noDeclaration : target.map Char.toLower ≠ declarationName
  blank : ∀ c, content.head? = some c → isBlank c = true
  chars : ∀ c ∈ content, v.allows c = true
  noEnd : ¬ Token.instructionEnd.text <:+: content

/-- Whether nodes are well-formed content where some name spaces are known. -/
inductive IsContent (v : Version) : Scope → List Node → Prop
  | nil {scope : Scope} : IsContent v scope []
  | element {scope inner : Scope} {tag : WrittenTag} {content rest : List Node} {blanks : List Char}
    (htag : tag.IsWritten v) (hinner : scope.enter? tag.name tag.read = some inner)
    (hcontent : IsContent v inner content) (hblanks : Blanks blanks)
    (hrest : IsContent v scope rest) : IsContent v scope (.element tag content (some blanks) :: rest)
  | empty {scope inner : Scope} {tag : WrittenTag} {rest : List Node} (htag : tag.IsWritten v)
    (hinner : scope.enter? tag.name tag.read = some inner) (hrest : IsContent v scope rest) :
    IsContent v scope (.element tag [] none :: rest)
  | chars {scope : Scope} {text : List Char} {rest : List Node} (htext : IsText v text)
    (hnext : ∀ more, rest.head? ≠ some (.chars more)) (hrest : IsContent v scope rest) :
    IsContent v scope (.chars text :: rest)
  | reference {scope : Scope} {name : List Char} {c : Char} {rest : List Node}
    (h : IsReference v name c) (hrest : IsContent v scope rest) :
    IsContent v scope (.reference name c :: rest)
  | literal {scope : Scope} {text : List Char} {rest : List Node} (htext : IsLiteral v text)
    (hrest : IsContent v scope rest) : IsContent v scope (.literal text :: rest)
  | comment {scope : Scope} {text : List Char} {rest : List Node} (htext : IsComment v text)
    (hrest : IsContent v scope rest) : IsContent v scope (.comment text :: rest)
  | instruction {scope : Scope} {target content : List Char} {rest : List Node}
    (h : IsInstruction v target content) (hrest : IsContent v scope rest) :
    IsContent v scope (.instruction target content :: rest)

/-! ## 4. Documents -/

/-- Whether nodes may stand before the outermost element. -/
inductive IsProlog (v : Version) : List Node → Prop
  | nil : IsProlog v []
  | chars {text : List Char} {rest : List Node} (htext : Blanks text) (hrest : IsProlog v rest) :
    IsProlog v (.chars text :: rest)
  | comment {text : List Char} {rest : List Node} (htext : IsComment v text)
    (hrest : IsProlog v rest) : IsProlog v (.comment text :: rest)
  | instruction {target content : List Char} {rest : List Node} (h : IsInstruction v target content)
    (hrest : IsProlog v rest) : IsProlog v (.instruction target content :: rest)

/-- The characters of a version or the name of an encoding. -/
def fieldChars : List Char :=
  "abcdefghijklmnopqrstuvwxyzABCDEFGHIJKLMNOPQRSTUVWXYZ0123456789.-_".toList

/-- Whether an attribute is a field of a declaration. -/
structure WrittenAttribute.IsField (name : String) (value : List Char) (a : WrittenAttribute) : Prop
    extends a.IsSpaced where
  name_eq : a.name = .plain name
  value_eq : a.value = value.map .char
  chars : ∀ c ∈ value, c ∈ fieldChars

/-- Whether a text declares a version and no encoding but UTF-8. -/
inductive IsDeclaration : List Char → Version → Prop
  | absent : IsDeclaration [] .v10
  | present {v : Version} {number : List Char} {version : WrittenAttribute}
    {encoding standalone : List WrittenAttribute} {blanks : List Char}
    (hversion : version.IsField "version" number) (hv : Version.ofNumber? number = some v)
    (hencoding : ∀ a ∈ encoding, ∃ name, a.IsField "encoding" name ∧
      Encoding.declare? none name = some .utf8)
    (honce : encoding.length ≤ 1)
    (hstandalone : ∀ a ∈ standalone, ∃ value, a.IsField "standalone" value ∧
      value ∈ ["yes".toList, "no".toList])
    (hlast : standalone.length ≤ 1) (hblanks : Blanks blanks) :
    IsDeclaration ('<' :: '?' :: (declarationName ++
      ((version :: (encoding ++ standalone)).flatMap (·.text) ++ (blanks ++ ['?', '>'])))) v

/-- Whether octets write a document with an outermost element. Whatever comes after that element
does not matter. -/
def WritesDocument (root : Node) (octets : List UInt8) : Prop :=
  ∃ mark declaration v prolog after, mark ∈ [[], [0xEF, 0xBB, 0xBF]] ∧
    IsDeclaration declaration v ∧ IsProlog v prolog ∧ IsContent v .outermost [root] ∧
    octets = mark ++ (utf8Octets (declaration ++ (textOf prolog ++ root.text)) ++ after)

end TourMap.Xml
