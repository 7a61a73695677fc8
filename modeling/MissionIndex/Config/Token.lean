import MissionIndex.Config.Lexeme
import MissionIndex.Config.ParseError

/-!
# Tokens

The words, quoted texts and marks of a file with their places, and the requests to include another
file that stand between them. `pieces` walks over the lexemes of a file and keeps what matters:
blanks and comments are passed over, and so is every directive other than an include.
-/

namespace MissionIndex.Config

open Text

/-- What a token is. -/
inductive Token.Kind where
  | word
  /-- A quoted text and what it means. -/
  | quoted (value : String)
  | mark (m : Mark)
deriving DecidableEq, Repr

/-- A word, quoted text or mark with its place. -/
structure Token where
  kind : Token.Kind
  text : String
  location : Location
deriving DecidableEq, Repr

/-- What the lexemes of one file amount to, in order. -/
inductive Piece where
  | token (t : Token)
  /-- A request to include the file `target`, made by the directive at `range`. -/
  | include (target : String) (range : Range)
  | fault (e : ParseError)
deriving DecidableEq, Repr

def includeWord : List Char := "#include".toList

/-- The file that an include directive asks for: what stands between its quotes or angle
brackets. -/
def includeTarget? (line : List Char) : Option String :=
  match trim (line.drop includeWord.length) with
  | opener :: rest =>
    match rest.getLast? with
    | some closer =>
      if (opener = '"' && closer = '"') || (opener = '<' && closer = '>') then
        some (String.ofList rest.dropLast)
      else none
    | none => none
  | [] => none

/-- What a lexeme at position `p` of `file` amounts to. -/
def pieceAt (file : String) (p : Position) (lexeme : Lexeme) : Option Piece :=
  let whole : Location := ⟨file, p, p.advance lexeme.raw⟩
  match lexeme with
  | .blank _ | .comment _ => none
  | .word raw => some (.token ⟨.word, String.ofList raw, whole⟩)
  | .quoted raw value => some (.token ⟨.quoted (String.ofList value), String.ofList raw, whole⟩)
  | .mark m => some (.token ⟨.mark m, m.text, whole⟩)
  | .openComment _ => some (.fault ⟨.unterminatedComment, file, .ofLength p 2⟩)
  | .openQuote _ => some (.fault ⟨.unterminatedText, file, .ofLength p 1⟩)
  | .directive _ line =>
    let shown := trim line
    if includeWord.isPrefixOf shown then
      let range := Range.ofLength p shown.length
      match includeTarget? shown with
      | some target => some (.include target range)
      | none => some (.fault ⟨.malformedInclude (String.ofList shown), file, range⟩)
    else none

/-- The pieces of a row of lexemes that starts at position `p` of `file`. -/
def piecesFrom (file : String) (p : Position) : List Lexeme → List Piece
  | [] => []
  | lexeme :: rest =>
    (pieceAt file p lexeme).toList ++ piecesFrom file (p.advance lexeme.raw) rest

/-- The pieces of a file with the given text. Byte order marks in front of the text do not count
as characters of its first line. -/
def pieces (file : String) (text : List Char) : List Piece :=
  piecesFrom file .zero (lexemes (dropMarks text))

end MissionIndex.Config
