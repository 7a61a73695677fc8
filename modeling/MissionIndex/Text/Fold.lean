import MissionIndex.Text.Blank
import MissionIndex.Text.Letter

/-!
# Words in any case

Labels and keywords in comments are recognised in upper, lower and mixed case. The words looked for
are plain ASCII. Four letters beyond ASCII pass for ASCII ones, since they change into them when
their case is changed: `ſ` for `s`, `ı` and `İ` for `i`, and the Kelvin sign for `k`.
-/

namespace MissionIndex.Text

/-- Whether `c` is the lower-case letter `p` in some case. -/
def sameFolded (p c : Char) : Bool :=
  c.toLower = p || (p = 's' && c = 'ſ') || (p = 'i' && (c = 'ı' || c = 'İ')) ||
    (p = 'k' && c = '\u212A')

/-- Splits a text behind a word that it starts with, in any case. The word is given in lower
case. -/
def spanFolded (word cs : List Char) : Option (List Char × List Char) :=
  match word, cs with
  | [], rest => some ([], rest)
  | _ :: _, [] => none
  | p :: word, c :: cs =>
    if sameFolded p c then (spanFolded word cs).map fun (found, rest) ↦ (c :: found, rest)
    else none

/-- What follows a word that a text starts with, in any case. -/
def afterFolded (word : String) (cs : List Char) : Option (List Char) :=
  (spanFolded word.toList cs).map Prod.snd

/-- What follows the blanks at the front of a text, if there are any. -/
def afterBlanks (cs : List Char) : Option (List Char) :=
  match cs with
  | [] => none
  | c :: rest => if isBlank c then some (trimStart rest) else none

/-- What follows the character `p` at the front of a text. -/
def afterChar (p : Char) : List Char → Option (List Char)
  | [] => none
  | c :: rest => if c = p then some rest else none

/-- Whether a word may begin behind the character `before`, if there is one. -/
def opensWord (before : Option Char) : Bool := !(before.any isWordChar)

/-- Whether a word may end in front of a text. -/
def closesWord (cs : List Char) : Bool := !(cs.head?.any isWordChar)

end MissionIndex.Text
