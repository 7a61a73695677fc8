/-!
# White space

The blank characters, trimming, and splitting at a character or at blanks. Texts are lists of
characters here and in every module that takes texts apart; whole names and file texts cross module
borders as strings.
-/

namespace MissionIndex.Text

/-- A white-space character: a separator, or a control character that breaks a line or moves to a
tab stop. -/
def isBlank (c : Char) : Bool :=
  let n := c.toNat
  (9 ≤ n && n ≤ 13) || (28 ≤ n && n ≤ 32) || n == 0x85 || n == 0xA0 || n == 0x1680 ||
    (0x2000 ≤ n && n ≤ 0x200A) || n == 0x2028 || n == 0x2029 || n == 0x202F || n == 0x205F ||
    n == 0x3000

/-! ## Trimming -/

def dropEnd (p : Char → Bool) (cs : List Char) : List Char := (cs.reverse.dropWhile p).reverse

/-- Drops the characters in `p` from both ends of a text. -/
def stripBy (p : Char → Bool) (cs : List Char) : List Char := dropEnd p (cs.dropWhile p)

/-- A text without the blanks at its front. -/
def trimStart (cs : List Char) : List Char := cs.dropWhile isBlank

def trimEnd (cs : List Char) : List Char := dropEnd isBlank cs

/-- A text without the blanks around it. -/
def trim (cs : List Char) : List Char := stripBy isBlank cs

/-- The byte order mark, which some editors put in front of a text. -/
def byteOrderMark : Char := '\uFEFF'

def dropMarks (cs : List Char) : List Char := cs.dropWhile (· == byteOrderMark)

/-! ## Splitting and joining -/

/-- The parts of a text between the occurrences of `sep`; a text without one is its own only
part. -/
def splitAt (sep : Char) : List Char → List (List Char)
  | [] => [[]]
  | c :: cs =>
    if c = sep then [] :: splitAt sep cs
    else match splitAt sep cs with
      | [] => [[c]]
      | part :: parts => (c :: part) :: parts

/-- The lines of a text, without the line feeds that end them. -/
def lines (cs : List Char) : List (List Char) := splitAt '\n' cs

/-- The parts in order, with `sep` between them. -/
def join (sep : List Char) : List (List Char) → List Char
  | [] => []
  | [part] => part
  | part :: parts => part ++ sep ++ join sep parts

/-- Cuts a text in front of the first occurrence of `pat`, and gives the text before and after
it. -/
def cut? (pat : List Char) : List Char → Option (List Char × List Char)
  | [] => if pat.isEmpty then some ([], []) else none
  | c :: cs =>
    if pat.isPrefixOf (c :: cs) then some ([], (c :: cs).drop pat.length)
    else (cut? pat cs).map fun (before, after) ↦ (c :: before, after)

/-- Every line ending, be it CR LF, CR or LF, becomes a line feed. -/
def unifyNewlines : List Char → List Char
  | [] => []
  | '\r' :: '\n' :: cs => '\n' :: unifyNewlines cs
  | '\r' :: cs => '\n' :: unifyNewlines cs
  | c :: cs => c :: unifyNewlines cs

end MissionIndex.Text
