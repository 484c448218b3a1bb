import TourMap.Text.Digits
import TourMap.Xml.Name
import TourMap.Xml.Token

/-!
# Value: quoted values and the references in them

A reference stands for a character or for the text of an entity. In a value that text is taken as it
is (`PartialValue.step`); elsewhere it is read as if it stood in the place of the reference. A blank
that stands for itself in a value counts as a space, and the end of a line as one blank even if it is
written with two characters.
-/

namespace TourMap.Xml

/-! ## 1. References -/

/-- The texts that the entities of a document stand for. Of two with one name the first counts. -/
structure Entities where
  /-- Those for the content of a document. -/
  general : List (String × List Char)
  /-- Those for its document type. -/
  parameters : List (String × List Char)

def Entities.empty : Entities := ⟨[], []⟩

/-- The character with a code, which must be one that the document may hold. -/
def Version.charOf? (v : Version) (code : Nat) : Option Char :=
  if code.isValidChar && v.allows (Char.ofNat code) then some (Char.ofNat code) else none

/-- Digits without the sign that may stand before them. -/
def withoutSign : List Char → List Char
  | '+' :: digits => digits
  | digits => digits

/-- The character that a code in digits stands for; an `x` marks hexadecimal digits. -/
def Version.charOfCode? (v : Version) : List Char → Option Char
  | 'x' :: digits => (Digits.hexadecimal? (withoutSign digits)).bind v.charOf?
  | digits => (Digits.decimal? (withoutSign digits)).bind v.charOf?

def namedChars : List (String × Char) :=
  [("lt", '<'), ("gt", '>'), ("amp", '&'), ("apos", '\''), ("quot", '"')]

/-- The character that a reference stands for on its own account: one of those with names, or one
given by its code. -/
def Version.referent? (v : Version) : List Char → Option Char
  | '#' :: code => v.charOfCode? code
  | name => namedChars.lookup (String.ofList name)

/-- The text that a reference within a value stands for. -/
def Entities.valueOf? (entities : Entities) (v : Version) (name : List Char) :
    Option (List Char) :=
  match v.referent? name with
  | some c => some [c]
  | none => entities.general.lookup (String.ofList name)

/-- Goes on with a reference by a character; `read` holds those before, the last one first. -/
def extendReference? (read : List Char) (c : Char) : Option (List Char) :=
  if (read.isEmpty && c == '#') || isNextOfName read.isEmpty c then some (c :: read) else none

/-! ## 2. Values -/

/-- A value of which some tokens were read. What was read of it and of a reference in it is kept
with the last character first. -/
inductive PartialValue where
  /-- Its opening quote is still to come. -/
  | awaited
  /-- Between its quotes; the last character may have been the first one of a pair that ends a
  line. -/
  | opened (q : Quote) (read : List Char) (afterReturn : Bool)
  | reference (q : Quote) (read key : List Char)

/-- A character that stands for itself between the quotes of a value. -/
def PartialValue.add (q : Quote) (read : List Char) (afterReturn : Bool) (c : Char) :
    PartialValue :=
  if afterReturn && c == '\n' then .opened q read false
  else .opened q ((if isBlank c then ' ' else c) :: read) (c == '\r')

/-- One token of a value. Between its quotes a value may hold all marks but those that begin a tag
or an instruction. -/
def PartialValue.step (v : Version) (entities : Entities) :
    PartialValue → Token → Option (Step PartialValue (List Char))
  | .awaited, .char c => if isBlank c then some (.next .awaited) else none
  | .awaited, .quote q => some (.next (.opened q [] false))
  | .awaited, _ => none
  | .opened q read _, .quote other =>
    if other = q then some (.done read.reverse)
    else some (.next (.opened q ((Token.quote other).text ++ read) false))
  | .opened q read _, .ampersand => some (.next (.reference q read []))
  | .opened q read afterReturn, .char c =>
    if v.isPlain c then some (.next (.add q read afterReturn c)) else none
  | .opened _ _ _, .tagStart => none
  | .opened _ _ _, .instructionStart => none
  | .opened q read _, token => some (.next (.opened q (token.text.reverse ++ read) false))
  | .reference q read key, .char c =>
    (extendReference? key c).map fun key => .next (.reference q read key)
  | .reference q read key, .semicolon =>
    (entities.valueOf? v key.reverse).map fun text => .next (.opened q (text.reverse ++ read) false)
  | .reference _ _ _, _ => none

/-! ## 3. Named values -/

/-- A named value of which some tokens were read, the blanks before it included. -/
inductive PartialAttribute where
  /-- Its name is still to come, for which there must be a blank. -/
  | awaited (blank : Bool)
  | name (key : PartialName)
  /-- Its name was read. -/
  | named (key : List Char)
  /-- The equals sign was read. -/
  | value (key : List Char) (value : PartialValue)

/-- One token of a named value; the name and the value when it is complete. -/
def PartialAttribute.step (v : Version) (entities : Entities) :
    PartialAttribute → Token → Option (Step PartialAttribute (List Char × List Char))
  | .awaited blank, .char c =>
    if isBlank c then some (.next (.awaited true))
    else if blank then (PartialName.empty.add? c).map fun key => .next (.name key)
    else none
  | .awaited _, _ => none
  | .name key, .char c =>
    if isBlank c then some (.next (.named key.chars))
    else (key.add? c).map fun key => .next (.name key)
  | .name key, .equals => some (.next (.value key.chars .awaited))
  | .name _, _ => none
  | .named key, .char c => if isBlank c then some (.next (.named key)) else none
  | .named key, .equals => some (.next (.value key .awaited))
  | .named _, _ => none
  | .value key p, token =>
    match p.step v entities token with
    | none => none
    | some (.next p) => some (.next (.value key p))
    | some (.done chars) => some (.done (key, chars))

end TourMap.Xml
