import TourMap.Xml.Character

/-!
# Token: the marks in the text of a document

A document is read one character at a time. Which characters are marks depends on where they stand:
a `>` ends a tag but not a comment. `Lexer.step` gives the tokens that a character completes.
-/

namespace TourMap.Xml

/-! ## 1. Tokens -/

/-- What may stand around a value. -/
inductive Quote where
  | single
  | double
  deriving DecidableEq

/-- A character or mark of a document. -/
inductive Token where
  | char (c : Char)
  | quote (q : Quote)
  | equals
  | ampersand
  | semicolon
  | tagStart
  | endTagStart
  | tagEnd
  | emptyTagEnd
  | instructionStart
  | instructionEnd
  | commentStart
  | commentEnd
  | literalStart
  | literalEnd
  | doctypeStart
  | declarationStart
  deriving DecidableEq

def Token.text : Token → List Char
  | char c => [c]
  | quote .single => ['\'']
  | quote .double => ['"']
  | equals => ['=']
  | ampersand => ['&']
  | semicolon => [';']
  | tagStart => ['<']
  | endTagStart => ['<', '/']
  | tagEnd => ['>']
  | emptyTagEnd => ['/', '>']
  | instructionStart => ['<', '?']
  | instructionEnd => ['?', '>']
  | commentStart => "<!--".toList
  | commentEnd => "-->".toList
  | literalStart => "<![CDATA[".toList
  | literalEnd => "]]>".toList
  | doctypeStart => "<!DOCTYPE".toList
  | declarationStart => ['<', '!']

/-- The token of a character that stands for itself in a document type. -/
def Token.ofChar : Char → Token
  | '\'' => .quote .single
  | '"' => .quote .double
  | '&' => .ampersand
  | ';' => .semicolon
  | c => .char c

/-- The token of a character that stands for itself in text or a tag. -/
def Token.ofTextChar : Char → Token
  | '>' => .tagEnd
  | '=' => .equals
  | c => .ofChar c

/-! ## 2. Where a character stands -/

/-- Where a character stands. -/
inductive Mode where
  | text
  | solidus
  | bracket
  | brackets
  /-- After `<`. -/
  | opened
  /-- After `<!`. -/
  | bang
  /-- Inside of a mark of which some characters are still to come. -/
  | within (rest : List Char) (mark : Token)
  | comment
  | hyphen
  | hyphens
  | literal
  | literalBracket
  | literalBrackets
  | instruction
  | question
  /-- In a document type. -/
  | doctype
  /-- In a declaration of a document type. -/
  | declaration
  | quoted (q : Quote)
  deriving DecidableEq

def Mode.inText : Char → Mode × List Token
  | '<' => (.opened, [])
  | '/' => (.solidus, [])
  | ']' => (.bracket, [])
  | c => (.text, [.ofTextChar c])

def Mode.inInstruction : Char → Mode × List Token
  | '?' => (.question, [])
  | '<' => (.instruction, [.tagStart])
  | '/' => (.instruction, [.endTagStart])
  | c => (.instruction, [.ofTextChar c])

/-- A character in a declaration of a document type, but for the one that ends it. -/
def Mode.inDeclaration (c : Char) : Mode × List Token :=
  if c = '<' then (.opened, [])
  else match Token.ofChar c with
    | .quote q => (.quoted q, [.quote q])
    | token => (.declaration, [token])

/-! ## 3. Tokens from characters -/

/-- What decides how a character is read. -/
structure Lexer where
  mode : Mode
  /-- Whether the document type was begun and has not ended. -/
  inDoctype : Bool

namespace Lexer

def new : Lexer := ⟨.text, false⟩

/-- Where a character stands after a tag, a comment or an instruction. -/
def outer (l : Lexer) : Mode := if l.inDoctype then .doctype else .text

def go (l : Lexer) (mode : Mode) (tokens : List Token) : Option (Lexer × List Token) :=
  some ({ l with mode }, tokens)

def goText (l : Lexer) (before : List Token) (c : Char) : Option (Lexer × List Token) :=
  let (mode, tokens) := Mode.inText c
  l.go mode (before ++ tokens)

/-- A character after a tag, a comment or an instruction, after some tokens. -/
def goOuter (l : Lexer) (before : List Token) (c : Char) : Option (Lexer × List Token) :=
  if !l.inDoctype then l.goText before c
  else if c = '<' then l.go .opened before
  else if c = '>' then some (⟨.text, false⟩, before ++ [.tagEnd])
  else l.go .doctype (before ++ [.ofChar c])

def goDeclaration (l : Lexer) (before : List Token) (c : Char) : Option (Lexer × List Token) :=
  if c = '>' then l.go l.outer (before ++ [.tagEnd])
  else
    let (mode, tokens) := Mode.inDeclaration c
    l.go mode (before ++ tokens)

/-- A character after `<`. -/
def goOpened (l : Lexer) (c : Char) : Option (Lexer × List Token) :=
  if c = '?' then l.go .instruction [.instructionStart]
  else if c = '/' then l.go l.outer [.endTagStart]
  else if c = '!' then l.go .bang []
  else if isBlank c || isNamePart c then l.goOuter [.tagStart] c
  else none

/-- A character after `<!`. -/
def goBang (l : Lexer) (c : Char) : Option (Lexer × List Token) :=
  match c with
  | '-' => l.go (.within ['-'] .commentStart) []
  | '[' => l.go (.within "CDATA[".toList .literalStart) []
  | 'D' => l.go (.within "OCTYPE".toList .doctypeStart) []
  | c =>
    if l.inDoctype && (c == 'E' || c == 'A' || c == 'N') then
      l.goDeclaration [.declarationStart] c
    else none

def goMark (l : Lexer) : Token → Option (Lexer × List Token)
  | .commentStart => l.go .comment [.commentStart]
  | .literalStart => l.go .literal [.literalStart]
  | .doctypeStart => some (⟨.doctype, true⟩, [.doctypeStart])
  | _ => none

/-- One character: the tokens that it completes. A mark that is not finished as it was begun makes a
document malformed. -/
def step (l : Lexer) (c : Char) : Option (Lexer × List Token) :=
  match l.mode with
  | .text => l.goText [] c
  | .solidus => if c = '>' then l.go l.outer [.emptyTagEnd] else l.goOuter [.char '/'] c
  | .bracket => if c = ']' then l.go .brackets [] else l.goText [.char ']'] c
  | .brackets =>
    if c = '>' then l.go .text [.literalEnd]
    else if c = ']' then l.go .brackets [.char ']']
    else l.goText [.char ']', .char ']'] c
  | .opened => l.goOpened c
  | .bang => l.goBang c
  | .within [] _ => none
  | .within (expected :: rest) mark =>
    if c ≠ expected then none
    else if rest.isEmpty then l.goMark mark
    else l.go (.within rest mark) []
  | .comment => if c = '-' then l.go .hyphen [] else l.go .comment [.char c]
  | .hyphen => if c = '-' then l.go .hyphens [] else l.go .comment [.char '-', .char c]
  | .hyphens => if c = '>' then l.go l.outer [.commentEnd] else none
  | .literal => if c = ']' then l.go .literalBracket [] else l.go .literal [.char c]
  | .literalBracket =>
    if c = ']' then l.go .literalBrackets [] else l.go .literal [.char ']', .char c]
  | .literalBrackets =>
    if c = '>' then l.go .text [.literalEnd]
    else if c = ']' then l.go .literalBrackets [.char ']']
    else l.go .literal [.char ']', .char ']', .char c]
  | .instruction =>
    let (mode, tokens) := Mode.inInstruction c
    l.go mode tokens
  | .question =>
    if c = '>' then l.go l.outer [.instructionEnd]
    else
      let (mode, tokens) := Mode.inInstruction c
      l.go mode (.char '?' :: tokens)
  | .doctype => l.goOuter [] c
  | .declaration => l.goDeclaration [] c
  | .quoted q =>
    if Token.ofChar c = .quote q then l.go .declaration [.quote q] else l.go (.quoted q) [.char c]

end Lexer

/-! ## 4. Parts of a document -/

/-- What a token does to a part of a document: the part goes on or is complete. -/
inductive Step (σ α : Type) where
  | next (s : σ)
  | done (a : α)

end TourMap.Xml
