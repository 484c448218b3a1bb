import TourMap.Xml.Name
import TourMap.Xml.Value

/-!
# Tag: elements with their attributes and name spaces

Some attributes of an element declare name spaces; the short names of these may be used in the
element and whatever it holds. No two of its other attributes have the same name in the same name
space.
-/

namespace TourMap.Xml

/-! ## 1. Attributes -/

structure Attribute where
  name : Name
  value : List Char
  deriving DecidableEq

namespace Attribute

/-- The attribute with a name and a value in characters. -/
def ofChars? (name value : List Char) : Option Attribute :=
  (Name.ofChars? name).map fun name => ⟨name, value⟩

/-- Whether an attribute declares the short name of a name space. -/
def declaresSpace (a : Attribute) : Bool := a.name.space == some "xmlns"

/-- Whether an attribute declares the name space of elements without a short name. -/
def declaresDefault (a : Attribute) : Bool := a.name == .plain "xmlns"

/-- Whether an attribute declares nothing. -/
def isData (a : Attribute) : Bool := !a.declaresSpace && !a.declaresDefault

end Attribute

def maxAttributes : Nat := 65536

/-! ## 2. Name spaces -/

/-- The name space of the short name `xml`. -/
def xmlSpace : String := "http://www.w3.org/XML/1998/namespace"

/-- What may not be the name space of elements without a short name. -/
def reservedSpaces : List String := ["xmlns", "xml", xmlSpace, "http://www.w3.org/2000/xmlns/"]

/-- Whether an attribute may declare what it declares: two short names have a meaning by themselves,
and each must stand for something. -/
def Attribute.mayDeclare (a : Attribute) : Bool :=
  let space := String.ofList a.value
  if a.declaresDefault then !reservedSpaces.contains space
  else !a.declaresSpace || !a.value.isEmpty && a.name.base != "xmlns" &&
    (a.name.base != "xml" || space == xmlSpace)

/-- The short names of name spaces that may be used, with the name spaces. Of two that are the same
the first counts. -/
abbrev Scope := List (String × String)

namespace Scope

def outermost : Scope := [("xml", xmlSpace)]

def declare (scope : Scope) (attributes : List Attribute) : Scope :=
  (attributes.filter (·.declaresSpace)).map (fun a => (a.name.base, String.ofList a.value)) ++ scope

/-- A name with its name space in full, if that is known or none is given. -/
def expand? (scope : Scope) (name : Name) : Option Name :=
  match name.space with
  | none => some name
  | some space => (scope.lookup space).map fun full => ⟨some full, name.base⟩

end Scope

def allDifferent : List Name → Bool
  | [] => true
  | name :: rest => !rest.contains name && allDifferent rest

/-- The scope inside of an element, if its name and attributes are in order. -/
def Scope.enter? (scope : Scope) (name : Name) (attributes : List Attribute) : Option Scope :=
  let inner := scope.declare attributes
  match inner.expand? name, (attributes.filter (·.isData)).mapM fun a => inner.expand? a.name with
  | some _, some names =>
    if attributes.length ≤ maxAttributes && attributes.all (·.mayDeclare) && allDifferent names &&
        name.space != some "xml" && name.space != some "xmlns" then some inner
    else none
  | _, _ => none

/-! ## 3. Tags -/

/-- A tag of which some tokens were read, after its name. -/
structure PartialTag where
  name : Name
  /-- The attributes, the last one first. -/
  attributes : List Attribute
  current : PartialAttribute

namespace PartialTag

def new (name : Name) : PartialTag := ⟨name, [], .awaited true⟩

def mayEnd (t : PartialTag) : Bool :=
  match t.current with
  | .awaited _ => true
  | _ => false

/-- One token of a tag, but for those that end it. -/
def step (t : PartialTag) (v : Version) (entities : Entities) (token : Token) :
    Option PartialTag :=
  match t.current.step v entities token with
  | none => none
  | some (.next current) => some { t with current }
  | some (.done (name, value)) => do
    let a ← Attribute.ofChars? name value
    return { t with attributes := a :: t.attributes, current := .awaited false }

end PartialTag

end TourMap.Xml
