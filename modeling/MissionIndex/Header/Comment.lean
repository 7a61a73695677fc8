import MissionIndex.Text.Blank

/-!
# Header comments

The header of a script is the block comment at its top. Only blanks and whole lines that start with
`//` or `#` may stand before it; a script in which anything else comes first has no header.
-/

namespace MissionIndex.Header

open Text

def commentStart : List Char := ['/', '*']

def commentEnd : List Char := ['*', '/']

/-- Whether a line starts here that may stand before the header. -/
def startsRemark (cs : List Char) : Bool := ['/', '/'].isPrefixOf cs || ['#'].isPrefixOf cs

/-- Looks for the header in what is left of a script. The flag tells that the rest of a line is
being passed over. -/
def commentFrom (inLine : Bool) : List Char → Option (List Char)
  | [] => none
  | c :: cs =>
    if inLine then commentFrom (c != '\n') cs
    else if isBlank c then commentFrom false cs
    else if startsRemark (c :: cs) then commentFrom true cs
    else if commentStart.isPrefixOf (c :: cs) then
      (cut? commentEnd ((c :: cs).drop commentStart.length)).map Prod.fst
    else none

def comment? (script : List Char) : Option (List Char) := commentFrom false (dropMarks script)

end MissionIndex.Header
