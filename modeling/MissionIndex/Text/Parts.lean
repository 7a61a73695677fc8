import MissionIndex.Text.Blank

/-!
# Words, paragraphs and halves

Ways to take a text apart: at its blanks, at its blank lines, or once at a pattern. How many parts
come out depends on the text; there may be no word at all, and no second half.
-/

namespace MissionIndex.Text

/-! ## Words -/

/-- A word as a list of words, of which there is none if it has no characters. -/
def oneWord (word : List Char) : List (List Char) := if word = [] then [] else [word]

def wordsFrom (word : List Char) : List Char → List (List Char)
  | [] => oneWord word
  | c :: cs => if isBlank c then oneWord word ++ wordsFrom [] cs else wordsFrom (word ++ [c]) cs

/-- The words of a text, with blanks around them. -/
def words (cs : List Char) : List (List Char) := wordsFrom [] cs

/-! ## Paragraphs -/

/-- The number of characters up to the last line feed among the blanks at the front of a text. It is
zero if there is none. -/
def lastFeed : List Char → Nat
  | [] => 0
  | c :: cs =>
    if isBlank c then
      if 0 < lastFeed cs then lastFeed cs + 1 else if c = '\n' then 1 else 0
    else 0

/-- The parts of a text between its blank lines. A part begins behind the last line feed of the
blank lines, so it may have blanks at its front. -/
def paragraphs (cs : List Char) : List (List Char) :=
  match cs with
  | [] => [[]]
  | c :: cs =>
    if c = '\n' ∧ 0 < lastFeed cs then [] :: paragraphs (cs.drop (lastFeed cs))
    else match paragraphs cs with
      | [] => [[c]]
      | part :: parts => (c :: part) :: parts
termination_by cs.length
decreasing_by all_goals simp only [List.length_cons, List.length_drop]; omega

/-! ## Halves -/

def occursIn (pat : List Char) : List Char → Bool
  | [] => pat.isEmpty
  | c :: cs => pat.isPrefixOf (c :: cs) || occursIn pat cs

/-- The texts in front of the first occurrence of a pattern and behind it, or the whole text if
there is none. -/
def halves (pat cs : List Char) : List (List Char) :=
  match cut? pat cs with
  | some (before, after) => [before, after]
  | none => [cs]

end MissionIndex.Text
