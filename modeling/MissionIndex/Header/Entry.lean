import MissionIndex.Header.Info
import MissionIndex.Header.Phrase

/-!
# Parameter entries

A parameter section lists one parameter per entry. An entry opens with a line of one of two forms:
a number, a description and a type in angle brackets, or a number, a name or `_this` in front of a
colon. Further lines continue the description of the entry above them, up to a blank line.

A parameter under bare `_this`, or one described without any number or name, is passed by itself;
all others are elements of an array.
-/

namespace MissionIndex.Header

open Text

/-! ## Lines -/

/-- Cuts a text at an opening angle bracket and at the closing one after it. The text before, inside
and behind the brackets. -/
def splitBrackets? (cs : List Char) : Option (List Char × List Char × List Char) :=
  (cut? ['<'] cs).bind fun (before, rest) ↦
    (cut? ['>'] rest).map fun (inside, behind) ↦ (trimEnd before, inside, trimStart behind)

/-- Reads a line with a number, a colon, a description and a type in angle brackets. The
description, the type and what stands behind them. -/
def bracketed? (line : List Char) : Option (List Char × List Char × List Char) :=
  if line.takeWhile isDecimalDigit = [] then none
  else (afterChar ':' (trimStart (line.dropWhile isDecimalDigit))).bind fun rest ↦
    splitBrackets? (trimStart rest)

/-- What a parameter is known by. -/
inductive Designator where
  /-- its position in the array -/
  | position
  | name (name : List Char)
  /-- all that is passed -/
  | whole
deriving DecidableEq, Repr

/-- Reads what may follow a designator: a remark in parentheses that starts with `opt`, and the
colon. Whether there was such a remark, and the text behind the colon. -/
def designatorEnd? (cs : List Char) : Option (Bool × List Char) :=
  let remark := (afterChar '(' (trimStart cs)).bind fun rest ↦
    (afterFolded "opt" rest).bind fun rest ↦ (cut? [')'] rest).map Prod.snd
  match remark with
  | some rest => (afterChar ':' (trimStart rest)).map fun rest ↦ (true, trimStart rest)
  | none => (afterChar ':' (trimStart cs)).map fun rest ↦ (false, trimStart rest)

/-- What follows `select` and a number, with blanks in front of both. -/
def afterSelect (cs : List Char) : Option (List Char) :=
  (afterBlanks cs).bind fun rest ↦ (afterFolded "select" rest).bind fun rest ↦
    (afterBlanks rest).bind fun rest ↦
      if rest.takeWhile isDecimalDigit = [] then none else some (rest.dropWhile isDecimalDigit)

/-- Reads a line with a number, a name or `_this` in front of a colon. -/
def named? (line : List Char) : Option (Designator × Bool × List Char) :=
  let numbered :=
    if line.takeWhile isDecimalDigit = [] then none
    else (designatorEnd? (line.dropWhile isDecimalDigit)).map fun e ↦ (Designator.position, e)
  let this := (afterFolded "_this" line).bind fun rest ↦
    (((afterSelect rest).bind designatorEnd?).map fun e ↦ (Designator.position, e)).or
      ((designatorEnd? rest).map fun e ↦ (Designator.whole, e))
  let named := (afterChar '_' line).bind fun rest ↦
    if rest.takeWhile isWordChar = [] then none
    else (designatorEnd? (rest.dropWhile isWordChar)).map fun e ↦
      (Designator.name ('_' :: rest.takeWhile isWordChar), e)
  numbered.or (this.or named)

/-! ## Parameters -/

/-- The parts that are not empty, with blanks between them. -/
def joinParts (parts : List (List Char)) : String :=
  String.ofList (join [' '] (parts.filter (· != [])))

def bracketParameter (description type rest : List Char) : Parameter :=
  let (rest, default) := splitDefault rest
  let (rest, restOptional) := splitOptional rest
  let (description, optional) := splitOptional description
  { type := if trim type = [] then anyType else String.ofList (trim type)
    description := joinParts [description, rest]
    optional := restOptional || optional || default.isSome
    default := default.map String.ofList }

/-- Splits a text into a type in front of a dash and a description behind it, or else takes all of
it as one of them. -/
def splitType (text : List Char) : Option (List Char) × List Char :=
  match cut? [' ', '-', ' '] text with
  | some (head, tail) => if looksLikeType head then (some (trim head), trim tail) else (none, text)
  | none => if looksLikeType text then (some (trim text), []) else (none, text)

/-- The parameter of a line without angle brackets. -/
def namedParameter (name : Option (List Char)) (remark : Bool) (text : List Char) : Parameter :=
  let (rest, default) := splitDefault text
  let (rest, optional) := splitOptional rest
  let (type, description) := splitType rest
  { name := name.map String.ofList
    type := (type.map String.ofList).getD anyType
    description := String.ofList description
    optional := remark || optional || default.isSome
    default := default.map String.ofList }

namespace Parameter

def addLine (line : List Char) (p : Parameter) : Parameter :=
  { p with description := String.ofList (trim (p.description.toList ++ ' ' :: line)) }

end Parameter

/-! ## Sections -/

/-- The parameters read so far, and which of them further lines continue. -/
structure Listing where
  parameters : List Parameter := []
  parameter : Option Parameter := none
  /-- Whether lines continue the last of `parameters` (`some true`), `parameter` (`some false`), or
  nothing. -/
  current : Option Bool := none
  /-- Whether an entry had its type in angle brackets. -/
  sawBrackets : Bool := false
deriving DecidableEq, Repr

/-- The words that say that there are no parameters, in lower case. -/
def noneWords : List String := ["none", "nothing", "-"]

namespace Listing

def addElement (l : Listing) (p : Parameter) : Listing :=
  { l with parameters := l.parameters ++ [p], current := some true }

/-- Makes `p` the parameter that is passed by itself. -/
def setWhole (l : Listing) (p : Parameter) : Listing :=
  { l with parameter := some p, current := some false }

/-- Adds a line to the description of the current parameter. -/
def continueWith (l : Listing) (line : List Char) : Listing :=
  match l.current with
  | some true =>
    match l.parameters.getLast? with
    | some p => { l with parameters := l.parameters.dropLast ++ [p.addLine line] }
    | none => l
  | some false => { l with parameter := l.parameter.map (Parameter.addLine line) }
  | none => l

def read (l : Listing) (rawLine : List Char) : Listing :=
  let line := trim rawLine
  if line = [] then { l with current := none }
  else
    match bracketed? line with
    | some (description, type, rest) =>
      { l with sawBrackets := true }.addElement (bracketParameter description type rest)
    | none =>
      match named? line with
      | some (.whole, remark, text) => l.setWhole (namedParameter none remark text)
      | some (.position, remark, text) => l.addElement (namedParameter none remark text)
      | some (.name name, remark, text) => l.addElement (namedParameter (some name) remark text)
      | none =>
        if l.current.isSome then l.continueWith line
        else if noneWords.contains (String.ofList (dropEnd (· == '.') (lowerChars line))) then l
        else if l.parameter.isNone && l.parameters.isEmpty then
          l.setWhole (namedParameter none false line)
        else l

end Listing

end MissionIndex.Header
