import MissionIndex.Config.Lexeme
import MissionIndex.Disk
import MissionIndex.Range

/-!
# Parse errors

What can be wrong with a description file, where it was found, and the words for it. A parse stops
at its first error, so there is at most one of them per parse.
-/

namespace MissionIndex.Config

/-- What can be wrong with a description file or a file that it includes. A `found` token is given
by its text, and is `none` at the end of the last file. -/
inductive Cause where
  | unterminatedComment
  | unterminatedText
  | malformedInclude (line : String)
  | includeTooDeep
  | recursiveInclude (target : String)
  | missingInclude (path : String)
  | unreadable (path : String) (why : ReadError)
  | expectedMark (mark : Mark) (found : Option String)
  | expectedName (what : String) (found : Option String)
  | expectedAssignment (name : String) (found : Option String)
  | expectedList (name : String) (found : Option String)
  | expectedSeparator (found : Option String)
  | expectedValue (found : Option String)
  | unexpected (found : Option String)
  /-- `+=` after a name without brackets. -/
  | appendToScalar
deriving DecidableEq, Repr

/-- The words for a token that was found, or for the end of the input. -/
def describe : Option String → String
  | none => "end of file"
  | some text => "'" ++ text ++ "'"

namespace Cause

def message : Cause → String
  | unterminatedComment => "Unterminated block comment"
  | unterminatedText => "Unterminated string"
  | malformedInclude line => "Malformed include: " ++ line
  | includeTooDeep => "Include nesting is too deep"
  | recursiveInclude target => "Recursive include of " ++ target
  | missingInclude path => "Failed to find include file " ++ path
  | unreadable path why => "Failed to read " ++ path ++ ": " ++ why.message
  | expectedMark mark found => "Expected '" ++ mark.text ++ "', got " ++ describe found
  | expectedName what found => "Expected " ++ what ++ ", got " ++ describe found
  | expectedAssignment name found => "Expected '=' after " ++ name ++ ", got " ++ describe found
  | expectedList name found =>
    "Expected '" ++ Mark.openBrace.text ++ "' for array " ++ name ++ ", got " ++ describe found
  | expectedSeparator found =>
    "Expected ',' or '" ++ Mark.closeBrace.text ++ "', got " ++ describe found
  | expectedValue found => "Expected value, got " ++ describe found
  | unexpected found => "Unexpected " ++ describe found
  | appendToScalar => "'+=' is only valid for arrays"

end Cause

/-- An error with the place of the text that is to blame. -/
structure ParseError where
  cause : Cause
  location : Location
deriving DecidableEq, Repr

namespace ParseError

def message (e : ParseError) : String := e.cause.message

/-- The error on one line, with the file and the line counted from one. -/
def report (e : ParseError) : String :=
  e.location.file ++ ":" ++ toString (e.location.range.start.line + 1) ++ ": " ++ e.message

end ParseError

end MissionIndex.Config
