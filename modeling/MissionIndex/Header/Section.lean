import MissionIndex.Text.Fold
import MissionIndex.Text.Lower

/-!
# Sections of a header comment

A header comment is a row of lines. A line that starts with a known label and a colon opens a
section; what follows the colon is the first line of the section. Some labels say all they have to
say on their own line, and the text after them is free again, as is the text before the first label.

Lines may carry a *gutter* of asterisks in front, which is decoration and is removed first.
-/

namespace MissionIndex.Header

open Text

/-! ## Lines -/

/-- A line without its gutter: blanks, asterisks and at most one blank behind them. An asterisk that
would be followed by a slash is not part of the gutter. -/
def dropGutter (line : List Char) : List Char :=
  let rest := trimStart line
  let stars := rest.takeWhile (· == '*')
  let after := rest.dropWhile (· == '*')
  match stars, after with
  | [], _ => line
  | [_], '/' :: _ => line
  | _, '/' :: _ => '*' :: after
  | _, c :: cs => if isBlank c then cs else c :: cs
  | _, [] => []

/-- The lines of a comment without gutters and without blanks at their ends. -/
def cleanLines (comment : List Char) : List (List Char) :=
  (lines (unifyNewlines comment)).map fun line ↦ trimEnd (dropGutter line)

/-! ## Labels -/

/-- The labels of sections, in lower case. -/
def labels : List String :=
  ["author(s)", "author", "authors", "description", "parameter(s)", "parameter", "parameters",
    "params", "argument", "arguments", "return value", "return", "returns", "example", "examples",
    "public", "note", "notes", "function", "file"]

/-- The labels that say what they have to say on their own line, in lower case. -/
def inlineLabels : List String := ["author", "author(s)", "authors", "public", "function", "file"]

/-- A line that opens a section: its label as written, and the text behind the colon. -/
def sectionStart? (line : List Char) : Option (List Char × List Char) :=
  labels.findSome? fun label ↦
    (spanFolded label.toList (trimStart line)).bind fun (found, rest) ↦
      (afterChar ':' (trimStart rest)).map fun inline ↦ (found, trim inline)

/-! ## Sections -/

/-- A run of lines under a label, or free lines under none. -/
structure Section where
  /-- The label as written. -/
  label : Option (List Char)
  lines : List (List Char)
deriving DecidableEq, Repr

namespace Section

def key (s : Section) : Option String := s.label.map fun l ↦ lower (String.ofList l)

/-- The lines of a section as one text, without blanks around it. -/
def content (s : Section) : List Char := trim (join ['\n'] s.lines)

def isPresent (s : Section) : Bool := s.label.isSome || !s.lines.isEmpty

end Section

/-- Whether the lines after a label are free again. -/
def isInlineLabel (label : List Char) : Bool :=
  inlineLabels.contains (lower (String.ofList label))

/-- Splits lines into sections, where `current` is the section that the lines continue. -/
def sectionsFrom (current : Section) : List (List Char) → List Section
  | [] => [current]
  | line :: rest =>
    match sectionStart? line with
    | none => sectionsFrom { current with lines := current.lines ++ [line] } rest
    | some (label, inline) =>
      let opened : Section := ⟨some label, if inline = [] then [] else [inline]⟩
      if isInlineLabel label then current :: opened :: sectionsFrom ⟨none, []⟩ rest
      else current :: sectionsFrom opened rest

/-- The sections of a comment's lines. Free sections without lines are left out. -/
def sections (lines : List (List Char)) : List Section :=
  (sectionsFrom ⟨none, []⟩ lines).filter Section.isPresent

end MissionIndex.Header
