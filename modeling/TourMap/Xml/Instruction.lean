import TourMap.Xml.Name
import TourMap.Xml.Token

/-!
# Instruction: what a document tells a program

An instruction has a name and, after a blank, data that do not matter here. One name is kept for the
declaration of a document, in all ways of writing it with capitals.
-/

namespace TourMap.Xml

def declarationName : List Char := ['x', 'm', 'l']

def PartialName.isTarget (n : PartialName) : Bool :=
  !n.isEmpty && n.chars.map Char.toLower != declarationName

inductive PartialInstruction where
  | target (name : PartialName)
  | content

namespace PartialInstruction

def new : PartialInstruction := .target .empty

/-- Whether a token shows that an instruction would be the declaration of a document. -/
def isDeclaration : PartialInstruction → Token → Bool
  | .target name, .char c => isBlank c && name.chars == declarationName
  | _, _ => false

def step (v : Version) : PartialInstruction → Token → Option (Step PartialInstruction Unit)
  | .target name, .char c =>
    if !isBlank c then (name.add? c).map fun name => .next (.target name)
    else if name.isTarget then some (.next .content)
    else none
  | .target name, .instructionEnd => if name.isTarget then some (.done ()) else none
  | .target _, _ => none
  | .content, .instructionEnd => some (.done ())
  | .content, .char c => if v.allows c then some (.next .content) else none
  | .content, _ => some (.next .content)

end PartialInstruction

end TourMap.Xml
