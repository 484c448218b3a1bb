import TourMap.Xml.Value

/-!
# Entity: how a document type declares entities

A parameter entity, marked by a percent sign, holds declarations; any other entity holds content. In
the text of an entity references by code and references to parameter entities are replaced at once;
those by name are kept for later. An entity outside of the document is not read: it counts as empty.
-/

namespace TourMap.Xml

inductive EntityKind where
  | general
  | parameter
  deriving DecidableEq

/-- Declares an entity. If it is declared already, that declaration goes on to count. -/
def Entities.declare (entities : Entities) (kind : EntityKind) (name text : List Char) : Entities :=
  let entry := (String.ofList name, text)
  match kind with
  | .general => { entities with general := entities.general ++ [entry] }
  | .parameter => { entities with parameters := entities.parameters ++ [entry] }

/-- The text of a parameter entity. -/
def Entities.parameter? (entities : Entities) (name : List Char) : Option (List Char) :=
  entities.parameters.lookup (String.ofList name)

/-- The text of an entity of which some characters were read. What was read of it and of a reference
in it is kept with the last character first. -/
inductive PartialText where
  | plain (read : List Char)
  /-- After `&`. -/
  | ampersand (read : List Char)
  /-- In a reference by code, after `&#`. -/
  | code (read digits : List Char)
  /-- In a reference to a parameter entity, after `%`. -/
  | parameter (read key : List Char)

def PartialText.step (v : Version) (entities : Entities) :
    PartialText → Char → Option PartialText
  | .plain read, c =>
    if c = '&' then some (.ampersand read)
    else if c = '%' then some (.parameter read [])
    else if v.allows c then some (.plain (c :: read))
    else none
  | .ampersand read, c =>
    if c = '#' then some (.code read [])
    else if v.allows c then some (.plain (c :: '&' :: read))
    else none
  | .code read digits, c =>
    if c = ';' then (v.charOfCode? digits.reverse).map fun c => .plain (c :: read)
    else if v.allows c then some (.code read (c :: digits))
    else none
  | .parameter read key, c =>
    if c = ';' then (entities.parameter? key.reverse).map fun text => .plain (text.reverse ++ read)
    else if isNamePart c then some (.parameter read (c :: key))
    else none

/-- The declaration of an entity of which some tokens were read, after its first blank. -/
inductive PartialEntity where
  | awaited (kind : EntityKind)
  | name (kind : EntityKind) (key : PartialName)
  | named (kind : EntityKind) (key : List Char)
  | text (kind : EntityKind) (key : List Char) (q : Quote) (text : PartialText)

/-- The name of an entity before its first character. The mark of a parameter entity counts as a
part of it. -/
def EntityKind.name : EntityKind → PartialName
  | .general => .empty
  | .parameter => .after 1

/-- One token of a declaration of an entity; the entities when its text is complete. -/
def PartialEntity.step (v : Version) (entities : Entities) :
    PartialEntity → Token → Option (Step PartialEntity Entities)
  | .awaited kind, .char c =>
    if isBlank c then some (.next (.awaited kind))
    else if c = '%' then
      match kind with
      | .general => some (.next (.awaited .parameter))
      | .parameter => none
    else (kind.name.add? c).map fun key => .next (.name kind key)
  | .awaited _, _ => none
  | .name kind key, .char c =>
    if isBlank c then some (.next (.named kind key.chars))
    else (key.add? c).map fun key => .next (.name kind key)
  | .name _ _, _ => none
  | .named kind key, .char c =>
    if isBlank c then some (.next (.named kind key))
    else if c = 'S' || c = 'P' then some (.done (entities.declare kind key []))
    else none
  | .named kind key, .quote q => some (.next (.text kind key q (.plain [])))
  | .named _ _, _ => none
  | .text kind key q p, .char c => (p.step v entities c).map fun p => .next (.text kind key q p)
  | .text kind key q (.plain read), .quote other =>
    if other = q then some (.done (entities.declare kind key read.reverse)) else none
  | .text _ _ _ _, _ => none

end TourMap.Xml
