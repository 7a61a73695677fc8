/-!
# Positions and ranges

A position counts lines and characters from zero, and a range is a pair of positions in one text.
A position moves over a character by `Position.next`, so the end of a piece of text is found by
walking over it from its start.
-/

namespace MissionIndex

/-- A place between two characters of a text. -/
structure Position where
  /-- The number of line feeds before the place. -/
  line : Nat
  /-- The number of characters since the last of them. -/
  character : Nat
deriving DecidableEq, Repr, Inhabited

namespace Position

/-- The start of a text. -/
def zero : Position := ⟨0, 0⟩

/-- The place after `c`, when `c` stands at `p`. -/
def next (p : Position) (c : Char) : Position :=
  if c = '\n' then ⟨p.line + 1, 0⟩ else ⟨p.line, p.character + 1⟩

/-- The place after the text `cs` that starts at `p`. -/
def advance (p : Position) (cs : List Char) : Position := cs.foldl next p

def right (p : Position) (n : Nat) : Position := ⟨p.line, p.character + n⟩

end Position

/-- The part of a text between two places. -/
structure Range where
  start : Position
  stop : Position
deriving DecidableEq, Repr, Inhabited

namespace Range

def empty : Range := ⟨.zero, .zero⟩

/-- The first `n` characters after `p`, on one line. -/
def ofLength (p : Position) (n : Nat) : Range := ⟨p, p.right n⟩

end Range

/-- Where a class was declared or an error was found. -/
structure Location where
  /-- The path of the file, which is empty where none is known. -/
  file : String
  range : Range
deriving DecidableEq, Repr, Inhabited

end MissionIndex
