import TourMap.Xml.Entity
import TourMap.Xml.Instruction

/-!
# Doctype: the document type

A document type has a name, may point to declarations elsewhere, which are not read, and may hold
some itself, both any number of times and in any order. Of the declarations only those of entities
matter; text in quotes may stand between them.
-/

namespace TourMap.Xml

/-! ## 1. Places in a document type -/

/-- Where in a document type a reader is. What was read of a word is kept with the last character
first. -/
inductive Doctype where
  | awaited
  | name
  /-- After its name and a blank, and between what it points to and what it holds. -/
  | named
  | keyword (read : List Char)
  | publicAwaited
  | publicId (q : Quote)
  | systemAwaited
  | systemId (q : Quote)
  | declarations
  /-- There, in text between quotes. -/
  | quoted (q : Quote)
  | comment
  /-- In an instruction, between the declarations or in the rest of one. -/
  | instruction (i : PartialInstruction) (inRest : Bool)
  /-- In a reference to a parameter entity. -/
  | reference (read : List Char)
  | declaration (read : List Char)
  | entity (e : PartialEntity)
  /-- In the rest of a declaration. -/
  | rest

inductive DoctypeStep where
  | next (d : Doctype)
  | declare (entities : Entities) (d : Doctype)
  | replace (text : List Char) (d : Doctype)
  | done

/-! ## 2. Characters and words -/

/-- Whether a character is one of the capitals that the words of a document type are made of. -/
def isCapital (c : Char) : Bool := 'A' ≤ c && c ≤ 'Z'

def isPublic (c : Char) : Bool :=
  c == ' ' || c == '\n' || c == '\r' || c.isAlphanum || "-'()+,./:=?;!*#@$_%".toList.contains c

/-- Where a word leads that says how declarations elsewhere are found. -/
def Doctype.afterKeyword? (word : List Char) : Option Doctype :=
  [("PUBLIC", Doctype.publicAwaited), ("SYSTEM", .systemAwaited)].lookup (String.ofList word)

def Doctype.afterDeclaration? (word : List Char) : Option Doctype :=
  [("ENTITY", Doctype.entity (.awaited .general)), ("ELEMENT", .rest), ("ATTLIST", .rest),
    ("NOTATION", .rest)].lookup (String.ofList word)

/-! ## 3. Tokens -/

namespace Doctype

/-- A token where an identifier is still to come, between quotes. -/
def stepAwaited (d : Doctype) (opened : Quote → Doctype) : Token → Option DoctypeStep
  | .char c => if isBlank c then some (.next d) else none
  | .quote q => some (.next (opened q))
  | _ => none

/-- A token in the word that says how declarations elsewhere are found. -/
def stepKeyword (read : List Char) : Token → Option DoctypeStep
  | .char c =>
    if isCapital c then some (.next (keyword (c :: read)))
    else if isBlank c then (afterKeyword? read.reverse).map .next
    else none
  | .quote q =>
    match afterKeyword? read.reverse with
    | some publicAwaited => some (.next (publicId q))
    | some systemAwaited => some (.next (systemId q))
    | _ => none
  | _ => none

def stepHead : Doctype → Token → Option DoctypeStep
  | awaited, .char c =>
    if isBlank c then some (.next awaited)
    else if isNameStart c then some (.next name)
    else none
  | name, .char c =>
    if isBlank c then some (.next named)
    else if isNamePart c then some (.next name)
    else none
  | name, .tagEnd => some .done
  | named, .char c =>
    if isBlank c then some (.next named)
    else if c = '[' then some (.next declarations)
    else if isCapital c then some (.next (keyword [c]))
    else none
  | named, .tagEnd => some .done
  | keyword read, token => stepKeyword read token
  | publicAwaited, token => stepAwaited publicAwaited publicId token
  | publicId q, .char c => if isPublic c then some (.next (publicId q)) else none
  | publicId q, .semicolon => some (.next (publicId q))
  | publicId q, .quote other => some (.next (if other = q then systemAwaited else publicId q))
  | systemAwaited, token => stepAwaited systemAwaited systemId token
  | systemId q, .char _ => some (.next (systemId q))
  | systemId q, .quote other => some (.next (if other = q then named else systemId q))
  | _, _ => none

/-- A token between the declarations. -/
def stepDeclarations : Token → Option DoctypeStep
  | .char c =>
    if isBlank c then some (.next declarations)
    else if c = '%' then some (.next (reference []))
    else if c = ']' then some (.next named)
    else none
  | .quote q => some (.next (quoted q))
  | .commentStart => some (.next comment)
  | .instructionStart => some (.next (instruction .new false))
  | .declarationStart => some (.next (declaration []))
  | _ => none

def stepReference (entities : Entities) (read : List Char) : Token → Option DoctypeStep
  | .char c => if isNamePart c then some (.next (reference (c :: read))) else none
  | .semicolon =>
    (entities.parameter? read.reverse).map fun text => .replace text declarations
  | _ => none

def stepWord (read : List Char) : Token → Option DoctypeStep
  | .char c =>
    if isBlank c then (afterDeclaration? read.reverse).map .next
    else if isCapital c then some (.next (declaration (c :: read)))
    else none
  | _ => none

def stepRest : Token → Option DoctypeStep
  | .tagEnd => some (.next declarations)
  | .instructionStart => some (.next (instruction .new true))
  | _ => some (.next rest)

/-- One token of a document type. -/
def step (d : Doctype) (v : Version) (entities : Entities) (token : Token) : Option DoctypeStep :=
  match d with
  | declarations => stepDeclarations token
  | quoted q => some (.next (if token = .quote q then declarations else quoted q))
  | comment => some (.next (if token = .commentEnd then declarations else comment))
  | instruction i inRest =>
    (i.step v token).map fun
      | .next i => .next (instruction i inRest)
      | .done () => .next (if inRest then rest else declarations)
  | reference read => stepReference entities read token
  | declaration read => stepWord read token
  | entity e =>
    match e.step v entities token with
    | none => none
    | some (.next e) => some (.next (entity e))
    | some (.done entities) => some (.declare entities rest)
  | rest => stepRest token
  | head => head.stepHead token

end Doctype

end TourMap.Xml
