import MissionIndex.Text.Blank
import MissionIndex.Text.Lower

/-!
# Markup

Lines for a terminal are written with tags in square brackets, such as `[red]` and `[/red]`, that
say how the text between them should look. A text from elsewhere is escaped first: a backslash in
front of a bracket that would open a tag makes it a plain bracket, and a row of backslashes in front
of one is doubled to keep its meaning.

Rendering drops the tags. It is more generous with backslashes than escaping is: one in front of a
bracket that opens no tag goes as well, so escaping and rendering do not give back every text.
-/

namespace MissionIndex.CommandLine.Markup

open Text

/-! ## Tags -/

def startsTag (c : Char) : Bool := ('a' ≤ c && c ≤ 'z') || c = '#' || c = '/' || c = '@'

/-- The inside of the tag that a text starts with. -/
def tag? : List Char → Option (List Char)
  | '[' :: c :: cs =>
    let inside := cs.takeWhile fun d ↦ d != '[' && d != ']'
    if startsTag c && (cs.drop inside.length).head? == some ']' then some (c :: inside) else none
  | _ => none

def backslashes (n : Nat) : List Char := List.replicate n '\\'

/-! ## Escaping -/

/-- Escapes the rest of a text behind a row of backslashes. -/
def escapeFrom (row : Nat) : List Char → List Char
  | [] => []
  | c :: cs =>
    if c = '\\' then c :: escapeFrom (row + 1) cs
    else if (tag? (c :: cs)).isSome then backslashes (row + 1) ++ c :: escapeFrom 0 cs
    else c :: escapeFrom 0 cs

def endsInBackslash (cs : List Char) : Bool :=
  match cs.reverse with
  | '\\' :: c :: _ => c != '\\'
  | ['\\'] => true
  | _ => false

/-- Escapes a text, so that no part of it is a tag. -/
def escapeChars (cs : List Char) : List Char :=
  let escaped := escapeFrom 0 cs
  if endsInBackslash escaped then escaped ++ ['\\'] else escaped

/-- Escapes a text, so that no part of it is a tag. -/
def escape (s : String) : String := String.ofList (escapeChars s.toList)

/-! ## Rendering -/

/-- The name in a tag, up to an equals sign, in lower case and without blanks around it. -/
def tagName (inside : List Char) : List Char := lowerChars (trim (inside.takeWhile (· != '=')))

/-- The tags that are open behind another one, given those that are open in front of it from the
inside out. A tag without a name closes the innermost one. There has to be something to close. -/
def afterTag? (opened : List (List Char)) (inside : List Char) : Option (List (List Char)) :=
  match inside.takeWhile (· != '=') with
  | '/' :: name =>
    let name := lowerChars (trim name)
    if name = [] then if opened = [] then none else some opened.tail
    else if opened.contains name then some (opened.erase name) else none
  | _ => some (tagName inside :: opened)

/-- Renders the rest of a text behind a row of backslashes, or behind the start of a tag. -/
def renderFrom (opened : List (List Char)) (inTag : Bool) (row : Nat) :
    List Char → Option (List Char)
  | [] => some (backslashes row)
  | c :: cs =>
    if inTag then renderFrom opened (c != ']') 0 cs
    else if c = '\\' then renderFrom opened false (row + 1) cs
    else
      match tag? (c :: cs) with
      | some inside =>
        if row % 2 = 1 then
          (renderFrom opened false 0 cs).map fun more ↦ backslashes (row / 2) ++ c :: more
        else
          (afterTag? opened inside).bind fun opened ↦
            (renderFrom opened true 0 cs).map fun more ↦ backslashes (row / 2) ++ more
      | none =>
        let kept := if c = '[' then row - 1 else row
        (renderFrom opened false 0 cs).map fun more ↦ backslashes kept ++ c :: more

/-- Whether a character acts on the terminal in place of showing. -/
def isControl (c : Char) : Bool :=
  c = '\x07' || c = '\x08' || c = '\x0b' || c = '\x0c' || c = '\r'

def tabWidth : Nat := 8

/-- Puts blanks in place of tabs, from the given column on. -/
def expandTabs (column : Nat) : List Char → List Char
  | [] => []
  | c :: cs =>
    if c = '\t' then
      let width := tabWidth - column % tabWidth
      List.replicate width ' ' ++ expandTabs (column + width) cs
    else c :: expandTabs (if c = '\n' then 0 else column + 1) cs

/-- What a text with tags shows, unless it closes a tag that is not open. -/
def render? (s : String) : Option String :=
  (renderFrom [] false 0 s.toList).map fun cs ↦
    String.ofList (expandTabs 0 (cs.filter (!isControl ·)))

end MissionIndex.CommandLine.Markup
