import TourMap.Json.Scan

/-!
# Value: JSON documents

A document that is read as a whole is a `Value`. Of members with the same name the last one counts.
Values may be nested 127 deep.
-/

namespace TourMap.Json

inductive Value where
  | null
  | bool (b : Bool)
  | number (n : Number)
  | string (s : String)
  | array (elements : List Value)
  | object (members : List (String × Value))

/-- The members of an object, in the order of the text. -/
abbrev Members := List (String × Value)

/-- The value of the last member with the given name. -/
def Members.get? (name : String) : Members → Option Value
  | [] => none
  | (key, value) :: rest =>
    match Members.get? name rest with
    | some later => some later
    | none => if key = name then some value else none

theorem Members.sizeOf_get? {name : String} {members : Members} {value : Value}
    (h : Members.get? name members = some value) : sizeOf value < sizeOf members := by
  induction members with
  | nil => cases h
  | cons member rest ih =>
    obtain ⟨key, v⟩ := member
    unfold Members.get? at h
    split at h
    · rename_i later hlater
      cases h
      have := ih hlater
      simp only [List.cons.sizeOf_spec]
      omega
    · split at h
      · cases h
        simp only [List.cons.sizeOf_spec, Prod.mk.sizeOf_spec]
        omega
      · cases h

/-- How deep a document may be nested, plus one. -/
def maxDepth : Nat := 128

/-- Enters brackets, of which so many less one may be open inside. -/
def enter (depth : Nat) : Reader Nat := do
  discard take
  if depth ≤ 1 then throw .malformed else return depth - 1

mutual

/-- Takes a value. Each round takes a character or enters brackets. -/
def takeValue : (rounds depth : Nat) → Reader Value
  | 0, _ => throw .malformed
  | n + 1, depth => do
    match ← peekValue with
    | 'n' => discard take; takeWord "ull".toList; return .null
    | 't' => discard take; takeWord "rue".toList; return .bool true
    | 'f' => discard take; takeWord "alse".toList; return .bool false
    | '-' => discard take; return .number (← takeNumber true)
    | '"' => discard take; return .string (← takeString)
    | '[' =>
      let elements ← takeElements n (← enter depth) true []
      endArray
      return .array elements
    | '{' =>
      let members ← takeMembers n (← enter depth) true []
      endObject
      return .object members
    | c => if c.isDigit then return .number (← takeNumber false) else throw .malformed

/-- Takes the elements of an array; `read` holds those before, the last one first. -/
def takeElements : (rounds depth : Nat) → (first : Bool) → (read : List Value) →
    Reader (List Value)
  | 0, _, _, _ => throw .malformed
  | n + 1, depth, first, read => do
    if ← hasElement first then
      let value ← takeValue n depth
      takeElements n depth false (value :: read)
    else return read.reverse

/-- Takes the members of an object; `read` holds those before, the last one first. -/
def takeMembers : (rounds depth : Nat) → (first : Bool) → (read : Members) → Reader Members
  | 0, _, _, _ => throw .malformed
  | n + 1, depth, first, read => do
    if ← hasMember first then
      discard take
      let key ← takeString
      takeColon
      let value ← takeValue n depth
      takeMembers n depth false ((key, value) :: read)
    else return read.reverse

end

def takeObject : Reader Members := do
  if (← peekValue) = '{' then
    let members ← takeMembers (2 * (← get).length + 2) (← enter maxDepth) true []
    endObject
    return members
  else mistyped

end TourMap.Json
