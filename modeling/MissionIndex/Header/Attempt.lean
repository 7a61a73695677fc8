import MissionIndex.Header.Reading
import MissionIndex.Text.Parts

/-!
# Attempts to read a comment

`readComment` says what a header comment documents. Here the same is told step by step: what is
written down when, and each place where an item of a list is taken that might not be there. At such
a place an attempt fails, and what has been written down until then stays.

Some of what is learned on the way is not written down before the end: the convention, and the texts
that make up the description.
-/

namespace MissionIndex.Header

open Text

/-! ## Taking items -/

/-- What an attempt fails for. -/
inductive Fault where
  /-- The first item of an empty list was taken. -/
  | empty
  /-- Two items were taken from a list that has more or less of them. -/
  | unpaired
deriving DecidableEq, Repr

def firstOf {α : Type} : List α → Except Fault α
  | [] => .error .empty
  | item :: _ => .ok item

/-- The two items of a list. -/
def pairOf {α : Type} : List α → Except Fault (α × α)
  | [first, second] => .ok (first, second)
  | _ => .error .unpaired

/-! ## Parts of the documentation -/

/-- What separates a type from the description behind it. -/
def dash : List Char := [' ', '-', ' ']

/-- The description made up of several texts. -/
def tryDescribe (parts : List (List Char)) : Except Fault Description :=
  let text := join ['\n', '\n'] (parts.filter (· != []))
  if text = [] then pure {}
  else do
    let paragraph ← firstOf ((paragraphs text).filter fun part ↦ trim part != [])
    pure
      { short := String.ofList (join [' '] (((lines paragraph).map trim).filter (· != [])))
        full := String.ofList (trim (join ['\n'] ((lines text).map trim))) }

def tryAuthor (lines : List (List Char)) : Except Fault (Option String) :=
  if lines = [] then pure none
  else do
    let line ← firstOf lines
    pure (nonempty (trim line))

/-- A text without a dash as what is returned: a type, or a type in front of its description, or a
description. -/
def tryReturned (text : List Char) : Except Fault Returns :=
  if looksLikeType text then pure { type := String.ofList text }
  else do
    let first ← firstOf (words text)
    let word := dropEnd (fun c ↦ c = ',' || c = '.' || c = ':' || c = ';') first
    if looksLikeType word then
      pure
        { type := String.ofList word
          description := String.ofList (stripBy
            (fun c ↦ c = ' ' || c = ',' || c = '.' || c = ':' || c = ';' || c = '-')
            (text.drop word.length)) }
    else pure { description := String.ofList text }

def tryReturns (content : List Char) : Except Fault Returns :=
  let text := join [' '] (((lines content).map trim).filter (· != []))
  if text = [] then pure {}
  else match splitBrackets? text with
    | some (before, type, behind) =>
      pure { type := nonempty (trim type), description := joinParts [before, behind] }
    | none =>
      if occursIn dash text then do
        let (head, tail) ← pairOf (halves dash text)
        if looksLikeType head then
          pure { type := String.ofList (trim head), description := String.ofList (trim tail) }
        else tryReturned text
      else tryReturned text

/-- A text as a type in front of a dash and a description behind it, or else as one of them. -/
def trySplitType (text : List Char) : Except Fault (Option (List Char) × List Char) :=
  if occursIn dash text then do
    let (head, tail) ← pairOf (halves dash text)
    pure (if looksLikeType head then (some (trim head), trim tail) else (none, text))
  else pure (if looksLikeType text then (some (trim text), []) else (none, text))

/-- The parameter of a line without angle brackets. -/
def tryNamedParameter (name : Option (List Char)) (remark : Bool) (text : List Char) :
    Except Fault Parameter := do
  let (rest, default) := splitDefault text
  let (rest, optional) := splitOptional rest
  let (type, description) ← trySplitType rest
  pure
    { name := name.map String.ofList
      type := (type.map String.ofList).getD anyType
      description := String.ofList description
      optional := remark || optional || default.isSome
      default := default.map String.ofList }

def Listing.tryRead (l : Listing) (rawLine : List Char) : Except Fault Listing :=
  let line := trim rawLine
  if line = [] then pure { l with current := none }
  else
    match bracketed? line with
    | some (description, type, rest) =>
      pure ({ l with sawBrackets := true }.addElement (bracketParameter description type rest))
    | none =>
      match named? line with
      | some (.whole, remark, text) => do return l.setWhole (← tryNamedParameter none remark text)
      | some (.position, remark, text) => do
        return l.addElement (← tryNamedParameter none remark text)
      | some (.name name, remark, text) => do
        return l.addElement (← tryNamedParameter (some name) remark text)
      | none =>
        if l.current.isSome then pure (l.continueWith line)
        else if noneWords.contains (String.ofList (dropEnd (· == '.') (lowerChars line)))
          then pure l
        else if l.parameter.isNone && l.parameters.isEmpty then do
          return l.setWhole (← tryNamedParameter none false line)
        else pure l

/-! ## Attempts -/

/-- Writing down what a comment documents. It may end early, and what has been written until then
stays written. -/
abbrev Attempt := ExceptT Fault (StateM Info)

/-- What is not written down before the end. -/
structure Notes where
  style : Style := .plain
  /-- The texts that will make up the description. -/
  parts : List (List Char) := []

def Notes.addText (notes : Notes) (text : List Char) : Notes :=
  if text = [] then notes else { notes with parts := notes.parts ++ [text] }

namespace Attempt

/-- Reads one line of a parameter section, and writes down the parameters that there are then. -/
def readLine (l : Listing) (line : List Char) : Attempt Listing := do
  let l ← liftExcept (l.tryRead line)
  modify fun info ↦ { info with parameters := l.parameters, parameter := l.parameter }
  return l

/-- Reads the lines of a parameter section. Whether an entry had its type in angle brackets. -/
def readParameters (lines : List (List Char)) : Attempt Bool := do
  let info ← get
  let l ← lines.foldlM readLine { parameters := info.parameters, parameter := info.parameter }
  return l.sawBrackets

def readSection (notes : Notes) (s : Section) : Attempt Notes :=
  match s.key with
  | none => pure (notes.addText s.content)
  | some key =>
    if key = "description" then pure { notes.addText s.content with style := .bis }
    else if key.startsWith "author" then do
      let author ← liftExcept (tryAuthor s.lines)
      modify fun info ↦ { info with author }
      return notes
    else if key.startsWith "argument" then do
      let _ ← readParameters s.lines
      return { notes with style := .cba }
    else if key.startsWith "param" then do
      let style := if notes.style = .plain then .bis else notes.style
      let sawBrackets ← readParameters s.lines
      return { notes with style := if sawBrackets then .cba else style }
    else if key.startsWith "return" then do
      let returns ← liftExcept (tryReturns s.content)
      modify fun info ↦ { info with returns }
      return if key = "return value" then { notes with style := .cba } else notes
    else if key.startsWith "example" then do
      if s.content ≠ [] then
        modify fun info ↦ { info with examples := info.examples ++ [String.ofList s.content] }
      return notes
    else if key = "public" then do
      if let some value := publicValue? s.content then
        modify fun info ↦ { info with isPublic := some value }
      return notes
    else return notes

def read (comment : List Char) : Attempt Unit := do
  let notes ← (sections (cleanLines comment)).foldlM readSection {}
  let description ← liftExcept (tryDescribe notes.parts)
  modify fun info ↦ { info with description }
  modify fun info ↦ { info with style := notes.style }

end Attempt

/-- What is written down in the end, whether or not the attempt fails. A blank comment is not read
at all. -/
def attempted (comment : List Char) : Info :=
  if trim comment = [] then {} else ((Attempt.read comment).run.run {}).2

end MissionIndex.Header
