import TourMap.Xml.Encoding
import TourMap.Xml.Name
import TourMap.Xml.Value

/-!
# Declaration: how a document says what it is

A document may begin with a declaration of its version, its encoding and whether it stands alone, in
this order. What it declares counts as soon as it is read.
-/

namespace TourMap.Xml

/-- The version with a number. A number that is not known yet counts as the first one. -/
def Version.ofNumber? : List Char → Option Version
  | ['1', '.', '1'] => some .v11
  | '1' :: '.' :: digits =>
    if !digits.isEmpty && digits.all Char.isDigit then some .v10 else none
  | _ => none

/-- What is known of a document before its first element. -/
structure Header where
  version : Version
  /-- The encoding, if there is a mark or it was declared. -/
  encoding : Option Encoding

/-- Something that a declaration may say. -/
inductive HeaderField where
  | version
  | encoding
  | standalone
  deriving DecidableEq

namespace HeaderField

/-- The field with a first letter, and with a name that the other letters make. -/
def ofBase? : Char → String → Option HeaderField
  | 'v', "ersion" => some .version
  | 'e', "ncoding" => some .encoding
  | 's', "tandalone" => some .standalone
  | _, _ => none

/-- The field with a name. What stands after its first letter is a name in its own right, and may be
given in a name space. -/
def ofName? : List Char → Option HeaderField
  | first :: start :: rest =>
    if isNameStart start then
      (Name.ofChars? (start :: rest)).bind fun name => ofBase? first name.base
    else
      none
  | _ => none

def later : HeaderField → List HeaderField
  | version => [encoding, standalone]
  | encoding => [standalone]
  | standalone => []

end HeaderField

def Header.set? (h : Header) (field : HeaderField) (value : List Char) : Option Header :=
  match field with
  | .version => (Version.ofNumber? value).map fun version => { h with version }
  | .encoding => (Encoding.declare? h.encoding value).map fun e => { h with encoding := some e }
  | .standalone => if value ∈ ["yes".toList, "no".toList] then some h else none

structure PartialDeclaration where
  fields : List HeaderField
  current : PartialAttribute

namespace PartialDeclaration

def new : PartialDeclaration := ⟨[.version], .awaited true⟩

def step (d : PartialDeclaration) (h : Header) (token : Token) :
    Option (Header × Step PartialDeclaration Unit) :=
  match d.current, token with
  | .awaited _, .instructionEnd =>
    if d.fields.contains .version then none else some (h, .done ())
  | current, token =>
    match current.step h.version .empty token with
    | none => none
    | some (.next current) => some (h, .next { d with current })
    | some (.done (name, value)) => do
      let field ← HeaderField.ofName? name
      if d.fields.contains field then
        return (← h.set? field value, .next ⟨field.later, .awaited false⟩)
      else failure

end PartialDeclaration

end TourMap.Xml
