import TourMap.Xml.Tag

/-!
# Event: what a document holds, in its order

What can be read of a document is a list of events: if it is malformed somewhere, the events before
that place are still there.
-/

namespace TourMap.Xml

inductive Event where
  | start (name : Name) (attributes : List Attribute)
  | finish
  | text (chars : List Char)
  deriving DecidableEq

structure Reading where
  events : List Event
  /-- Whether the document was read to the end of its root element. -/
  complete : Bool

/-! ## Text between tags -/

/-- The text between two tags, as far as it was read. Blanks at its very start are left out. -/
structure Passage where
  /-- Its characters, the last one first. -/
  chars : List Char
  /-- Whether it counts. Blanks alone do not, unless a reference to an entity stands first. -/
  counts : Bool

namespace Passage

def empty : Passage := ⟨[], false⟩

/-- Goes on with a character that stands for itself in text. -/
def add (p : Passage) (c : Char) : Passage :=
  if isBlank c then if p.chars.isEmpty then p else { p with chars := c :: p.chars }
  else ⟨c :: p.chars, true⟩

/-- Goes on with a character that is given literally or by a reference. -/
def addLiteral (p : Passage) (c : Char) : Passage := ⟨c :: p.chars, p.counts || !isBlank c⟩

/-- Goes on with a mark that stands for itself in text. -/
def addMark (p : Passage) (token : Token) : Passage := ⟨token.text.reverse ++ p.chars, true⟩

/-- A reference to an entity stands after the characters so far. -/
def refer (p : Passage) : Passage := { p with counts := p.counts || p.chars.isEmpty }

/-- The event of a passage that ends, if it is not empty and counts. -/
def event? (p : Passage) : Option Event :=
  if p.counts && !p.chars.isEmpty then some (.text p.chars.reverse) else none

end Passage

end TourMap.Xml
