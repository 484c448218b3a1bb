/-!
# Argument: how the words of a command line are read

A command line is read one word at a time. An option has a value, in the same word or as the next
one; a flag has none and ends the reading; a command ends it too, and what follows is read by the
command. The value of an option is looked at when the next option begins, so that of two faults
mostly the first one counts. `Level.read` reads the words.
-/

namespace TourMap.CommandLine

/-! ## 1. Words -/

inductive Refusal where
  | help
  | version
  | nothingGiven
  /-- There is no such option, or no place for a word. -/
  | unknownArgument
  | unknownCommand
  | commandMissing
  | optionMissing
  | valueMissing
  | valueUnneeded
  /-- The value of an option is not one that it can have. -/
  | valueRefused
  | repeated
  | configUnreadable
  deriving DecidableEq

/-- The number that tells whoever runs the program how it ended: all is well after help. -/
def Refusal.exitCode : Refusal → Nat
  | help => 0
  | version => 0
  | _ => 2

inductive Argument where
  /-- Two hyphens: no option follows. -/
  | escape
  /-- A long name after two hyphens, with a value after an equals sign. -/
  | long (name : String) (value : Option String)
  /-- A letter after one hyphen, with what follows it. -/
  | short (letter : Char) (more : List Char)
  | plain

def Argument.of (word : String) : Argument :=
  match word.toList with
  | ['-', '-'] => .escape
  | '-' :: '-' :: rest =>
    match rest.span (· != '=') with
    | (name, []) => .long (String.ofList name) none
    | (name, _ :: value) => .long (String.ofList name) (some (String.ofList value))
  | '-' :: letter :: more => .short letter more
  | _ => .plain

/-- The value that follows a letter in the same word, without an equals sign in between. -/
def attached : List Char → Option String
  | [] => none
  | '=' :: value => some (String.ofList value)
  | value => some (String.ofList value)

/-- Whether what follows a hyphen looks like a number: digits with a point behind one of them, and an
exponent of digits. -/
def looksLikeNumber (text : List Char) : Bool :=
  let (significand, exponent) := text.span fun c => c != 'e' && c != 'E'
  let isExponent := match exponent with
    | [] => true
    | _ :: digits => !digits.isEmpty && digits.all Char.isDigit
  match significand with
  | [] => false
  | first :: more =>
    first.isDigit && more.all (fun c => c.isDigit || c == '.') && more.count '.' ≤ 1 && isExponent

/-! ## 2. Options -/

structure ValueOption (σ : Type) where
  name : String
  letter : Option Char
  /-- Whether its value may be a word that looks like a negative number. -/
  takesNegative : Bool
  repeatable : Bool
  set : String → σ → Except Refusal σ

/-- An option that has no value and ends the reading. -/
structure Flag where
  name : String
  letter : Char
  outcome : Refusal

/-- What may be given at one level of a command line. -/
structure Level (σ : Type) where
  options : List (ValueOption σ)
  flags : List Flag
  commands : List String

structure Reading (σ : Type) where
  values : σ
  /-- The names of the options whose values were taken over. -/
  given : List String
  /-- The option that was read last, with its value if it was met. -/
  pending : Option (ValueOption σ × Option String)

namespace Reading

variable {σ : Type}

def accept (r : Reading σ) (o : ValueOption σ) (value : String) : Except Refusal (Reading σ) :=
  if r.given.contains o.name && !o.repeatable then .error .repeated
  else do return ⟨← o.set value r.values, o.name :: r.given, none⟩

def settle (r : Reading σ) : Except Refusal (Reading σ) :=
  match r.pending with
  | none => .ok r
  | some (_, none) => .error .valueMissing
  | some (o, some value) => r.accept o value

def awaiting (r : Reading σ) : Option (ValueOption σ) :=
  match r.pending with
  | some (o, none) => some o
  | _ => none

def begin (r : Reading σ) (o : ValueOption σ) (value : Option String) :
    Except Refusal (Reading σ) := do
  let r ← r.settle
  match value with
  | some value => r.accept o value
  | none => return { r with pending := some (o, none) }

def stop (r : Reading σ) (flag : Flag) : Except Refusal (Reading σ) := do
  discard r.settle
  throw flag.outcome

end Reading

/-! ## 3. Levels -/

namespace Level

variable {σ : Type}

def stray (level : Level σ) (escaped : Bool) (word : String) : Refusal :=
  if level.commands.isEmpty || escaped && level.commands.contains word then .unknownArgument
  else .unknownCommand

def readLong (level : Level σ) (r : Reading σ) (name : String) (value : Option String) :
    Except Refusal (Reading σ) :=
  match level.options.find? (·.name == name), level.flags.find? (·.name == name) with
  | some o, _ => r.begin o value
  | none, some flag => if value.isSome then .error .valueUnneeded else r.stop flag
  | none, none => .error .unknownArgument

def readShort (level : Level σ) (r : Reading σ) (letter : Char) (more : List Char) :
    Except Refusal (Reading σ) :=
  match level.options.find? (·.letter == some letter),
      level.flags.find? (·.letter == letter) with
  | some o, _ => r.begin o (attached more)
  | none, some flag => r.stop flag
  | none, none => .error .unknownArgument

/-- Reads words up to a command; the command and the words after it, if there is one. After two
hyphens no word has a place. -/
def read (level : Level σ) :
    (escaped : Bool) → Reading σ → List String →
      Except Refusal (Reading σ × Option (String × List String))
  | _, r, [] => .ok (r, none)
  | true, _, word :: _ => .error (level.stray true word)
  | false, r, word :: rest =>
    let asValue : Except Refusal (Reading σ) :=
      match r.awaiting with
      | some o => .ok { r with pending := some (o, some word) }
      | none => .error (level.stray false word)
    if r.awaiting.isNone && level.commands.contains word then .ok (r, some (word, rest))
    else match Argument.of word with
      | .escape => read level true r rest
      | .long name value => do read level false (← level.readLong r name value) rest
      | .short letter more => do
        if r.awaiting.any (·.takesNegative) && looksLikeNumber (letter :: more) then
          read level false (← asValue) rest
        else read level false (← level.readShort r letter more) rest
      | .plain => do read level false (← asValue) rest

end Level

end TourMap.CommandLine
