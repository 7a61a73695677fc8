import MissionIndex.Text.Fold
import MissionIndex.Text.Lower

/-!
# Phrases of a description

The text about a parameter can hold phrases with a meaning: a note of its default value, the word
that it is optional, and a type in front of a dash. Each is recognised here and taken out of the
text.
-/

namespace MissionIndex.Header

open Text

/-! ## Types -/

/-- The type names that are recognised in any case, in lower case. -/
def knownTypes : List String :=
  ["any", "array", "bool", "boolean", "code", "config", "control", "display", "group", "hashmap",
    "location", "namespace", "none", "nothing", "number", "object", "position", "scalar", "side",
    "string", "task", "void"]

/-- Where in a row of upper-case type names a reader is. -/
inductive TypeState where
  /-- in front of a name -/
  | name
  /-- inside a name -/
  | inside
  /-- behind a name and a blank -/
  | gap
deriving DecidableEq, Repr

/-- Whether upper-case names in a row, separated by a comma, a bar, a slash or the word `or`, go on
and end with this text. -/
def isTypeRow : TypeState → List Char → Bool
  | state, [] => state = .inside
  | state, c :: cs =>
    match state with
    | .name => if isBlank c then isTypeRow .name cs else c.isUpper && isTypeRow .inside cs
    | .inside =>
      if c.isUpper || c.isDigit || c = '_' then isTypeRow .inside cs
      else if c = ',' || c = '|' || c = '/' then isTypeRow .name cs
      else isBlank c && isTypeRow .gap cs
    | .gap =>
      if isBlank c then isTypeRow .gap cs
      else if c = ',' || c = '|' || c = '/' then isTypeRow .name cs
      else if c = 'o' then
        match cs with
        | 'r' :: b :: rest => isBlank b && isTypeRow .name rest
        | _ => false
      else false

/-- Whether a row of upper-case type names starts right at the front of a text and fills it. -/
def isTypeText : List Char → Bool
  | [] => false
  | c :: cs => c.isUpper && isTypeRow .inside cs

/-- Whether a text reads as a type: a known name in any case, or a row of upper-case names. -/
def looksLikeType (text : List Char) : Bool :=
  let bare := trim text
  knownTypes.contains (lower (String.ofList bare)) || isTypeText bare

/-! ## Defaults -/

/-- The ways to go on after a text, with the front part that `after` finds and without it. -/
def optionally (after : List Char → Option (List Char)) (cs : List Char) : List (List Char) :=
  (after cs).toList ++ [cs]

/-- What follows one of the words that may stand between the word for a default and the value. -/
def afterFiller (cs : List Char) : Option (List Char) :=
  (afterBlanks cs).bind fun rest ↦
    (afterFolded "value" rest).or ((afterFolded "is" rest).or (afterFolded "to" rest))

/-- What follows a colon or an equals sign. -/
def afterSign (cs : List Char) : Option (List Char) :=
  match trimStart cs with
  | c :: rest => if c = ':' || c = '=' then some rest else none
  | [] => none

/-- The ways to go on behind the word for a default: over its last letter, over a filler word, and
over a sign, where the longer way comes first. The sign is required where `needsSign` says so. -/
def defaultTails (needsSign : Bool) (cs : List Char) : List (List Char) :=
  ((optionally (afterFolded "s") cs).flatMap (optionally afterFiller)).flatMap fun rest ↦
    if needsSign then (afterSign rest).toList else optionally afterSign rest

/-- What follows the start of a note in brackets: the bracket, maybe the word `optional`, and the
word for a default. -/
def afterBracketed (cs : List Char) : Option (List Char) :=
  match cs with
  | [] => none
  | c :: rest =>
    if c = '(' || c = '[' then
      let rest := trimStart rest
      let direct := match afterFolded "optional" rest with
        | none => rest
        | some more =>
          match trimStart more with
          | d :: more => if d = ',' || d = ';' then trimStart more else d :: more
          | [] => []
      afterFolded "default" direct
    else none

/-- The text from which a default value is read, when a note of one starts at the front of a text
that `before` stands before. -/
def defaultStart? (before : Option Char) (cs : List Char) : Option (List Char) :=
  let tails := match afterBracketed cs with
    | some rest => defaultTails false rest
    | none =>
      if opensWord before then
        match afterFolded "default" cs with
        | some rest => defaultTails true rest
        | none => []
      else []
  tails.find? (· != [])

/-- Cuts a text in front of the first note of a default value. -/
def cutDefault? (before : Option Char) : List Char → Option (List Char × List Char)
  | [] => none
  | c :: cs =>
    match defaultStart? before (c :: cs) with
    | some value => some ([], value)
    | none => (cutDefault? (some c) cs).map fun (front, value) ↦ (c :: front, value)

/-- A default value without the bracket that closes its note, and without further closing brackets
and full stops. -/
def trimDefault (value : List Char) : List Char :=
  let bare := trimEnd value
  let inner := match bare.getLast? with
    | some c => if c = ')' || c = ']' then trimEnd bare.dropLast else bare
    | none => []
  trim (dropEnd (fun c ↦ c = ')' || c = '.' || c = ']') (trim inner))

/-- Takes the note of a default value out of a text. -/
def splitDefault (text : List Char) : List Char × Option (List Char) :=
  match cutDefault? none text with
  | none => (text, none)
  | some (front, value) =>
    let value := trimDefault value
    (trim (dropEnd (fun c ↦ c = '(' || c = ',' || c = '[') (trim front)),
      if value = [] then none else some value)

/-! ## Optional parameters -/

/-- What follows the word `optional`, alone or in parentheses, at the front of a text. -/
def afterOptional (before : Option Char) (cs : List Char) : Option (List Char) :=
  let bracketed := (afterChar '(' cs).bind fun rest ↦
    (afterFolded "optional" (trimStart rest)).bind fun rest ↦ afterChar ')' (trimStart rest)
  bracketed.or <|
    if opensWord before then (afterFolded "optional" cs).filter closesWord else none

/-- What follows a pair of parentheses with nothing but blanks inside. -/
def afterEmptyParens (cs : List Char) : Option (List Char) :=
  (afterChar '(' cs).bind fun rest ↦ afterChar ')' (trimStart rest)

/-- Takes out every phrase that `after` finds, from left to right. The number `skip` counts the
characters of a phrase that are still to be left out. -/
def takeOut (after : Option Char → List Char → Option (List Char)) (skip : Nat)
    (before : Option Char) : List Char → List Char
  | [] => []
  | c :: cs =>
    match skip with
    | n + 1 => takeOut after n (some c) cs
    | 0 =>
      match after before (c :: cs) with
      | some rest => takeOut after (cs.length - rest.length) (some c) cs
      | none => c :: takeOut after 0 (some c) cs

def saysOptional (before : Option Char) : List Char → Bool
  | [] => false
  | c :: cs => (afterOptional before (c :: cs)).isSome || saysOptional (some c) cs

/-- Takes the word `optional` out of a text, and the parentheses and signs that only went with
it. -/
def splitOptional (text : List Char) : List Char × Bool :=
  if saysOptional none text then
    let cleaned := stripBy (fun c ↦ c = ' ' || c = ',' || c = ';' || c = '-')
      (takeOut afterOptional 0 none text)
    (trim (takeOut (fun _ ↦ afterEmptyParens) 0 none cleaned), true)
  else (text, false)

end MissionIndex.Header
