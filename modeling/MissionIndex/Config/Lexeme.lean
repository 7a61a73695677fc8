import MissionIndex.Text.Blank

/-!
# Lexemes

A description file is a sequence of lexemes: blanks, comments, directives, quoted texts, marks and
words. `lexemes` cuts a text into them from left to right, and the texts of the lexemes in a row are
the text that was cut.

A `#` opens a directive only where nothing but blanks stands before it on its line; elsewhere it is
an ordinary character of a word. The flag `fresh` carries this along. A quoted text or a comment
that is never closed becomes a last lexeme that holds the rest of the text.
-/

namespace MissionIndex.Config

open Text

/-- The signs with a meaning of their own. -/
inductive Mark where
  | openBrace
  | closeBrace
  | openBracket
  | closeBracket
  | semicolon
  | equals
  | plusEquals
  | colon
  | comma
deriving DecidableEq, Repr

namespace Mark

/-- A mark as it is written. -/
def raw : Mark → List Char
  | openBrace => ['{']
  | closeBrace => ['}']
  | openBracket => ['[']
  | closeBracket => [']']
  | semicolon => [';']
  | equals => ['=']
  | plusEquals => ['+', '=']
  | colon => [':']
  | comma => [',']

@[inherit_doc raw]
def text (m : Mark) : String := String.ofList m.raw

def ofChar? (c : Char) : Option Mark :=
  if c = '{' then some openBrace
  else if c = '}' then some closeBrace
  else if c = '[' then some openBracket
  else if c = ']' then some closeBracket
  else if c = ';' then some semicolon
  else if c = '=' then some equals
  else if c = ':' then some colon
  else if c = ',' then some comma
  else none

theorem raw_length_pos (m : Mark) : 0 < m.raw.length := by cases m <;> simp [raw]

theorem raw_of_ofChar? {c : Char} {m : Mark} (h : ofChar? c = some m) : m.raw = [c] := by
  unfold ofChar? at h
  repeat' split at h
  all_goals simp_all
  all_goals simp [← h, raw]

end Mark

/-- The smallest parts of a description file. -/
inductive Lexeme where
  | blank (c : Char)
  /-- A comment with its delimiters; the line feed that ends a line comment is not part of it. -/
  | comment (raw : List Char)
  /-- A directive line, as written and without its line continuations. -/
  | directive (raw line : List Char)
  /-- A quoted text, as written and as meant. -/
  | quoted (raw value : List Char)
  | mark (m : Mark)
  | word (raw : List Char)
  /-- A block comment without an end. -/
  | openComment (raw : List Char)
  /-- A quoted text without an end. -/
  | openQuote (raw : List Char)
deriving DecidableEq, Repr

/-! ## Character classes -/

/-- The characters that always form a lexeme of their own. -/
def isMark (c : Char) : Bool := (Mark.ofChar? c).isSome

/-- The characters that open and close a quoted text. -/
def isQuote (c : Char) : Bool := c = '"' || c = '\''

/-- Whether a word cannot go on at the front of this text. -/
def endsWord : List Char → Bool
  | [] => true
  | c :: cs =>
    isBlank c || isMark c || isQuote c ||
      (c = '/' && (cs.head? == some '/' || cs.head? == some '*'))
      || (c = '+' && cs.head? == some '=')

/-! ## Cutting off one lexeme -/

/-- Splits a text where a word that starts in front of it ends. -/
def spanWord : List Char → List Char × List Char
  | [] => ([], [])
  | c :: cs =>
    if endsWord (c :: cs) then ([], c :: cs)
    else
      let (word, rest) := spanWord cs
      (c :: word, rest)

/-- What follows an opening quote: the text up to and with the closing quote, its meaning, and the
rest. A doubled quote means one quote and closes nothing. -/
def spanQuoted (quote : Char) : List Char → Option (List Char × List Char × List Char)
  | [] => none
  | c :: cs =>
    if c = quote then
      match cs with
      | [] => some ([c], [], [])
      | d :: ds =>
        if d = quote then
          (spanQuoted quote ds).map fun (raw, value, rest) ↦ (c :: d :: raw, c :: value, rest)
        else some ([c], [], d :: ds)
    else (spanQuoted quote cs).map fun (raw, value, rest) ↦ (c :: raw, c :: value, rest)

/-- What follows the start of a block comment: the text up to and with its end, and the rest. -/
def spanComment : List Char → Option (List Char × List Char)
  | [] => none
  | '*' :: '/' :: rest => some (['*', '/'], rest)
  | c :: cs => (spanComment cs).map fun (raw, rest) ↦ (c :: raw, rest)

/-- Splits a text at its first line feed, which stays with the rest. -/
def spanLine (cs : List Char) : List Char × List Char :=
  (cs.takeWhile (· != '\n'), cs.dropWhile (· != '\n'))

/-- Splits a text where a directive in front of it ends: its text, the same without line
continuations, and the rest. A backslash in front of a line ending continues the line. -/
def spanDirective : List Char → List Char × List Char × List Char
  | [] => ([], [], [])
  | '\\' :: '\n' :: cs =>
    let (raw, line, rest) := spanDirective cs
    ('\\' :: '\n' :: raw, line, rest)
  | '\\' :: '\r' :: '\n' :: cs =>
    let (raw, line, rest) := spanDirective cs
    ('\\' :: '\r' :: '\n' :: raw, line, rest)
  | c :: cs =>
    if c = '\n' then ([], [], c :: cs)
    else
      let (raw, line, rest) := spanDirective cs
      (c :: raw, c :: line, rest)

/-- The lexeme in front of the text `c :: cs`, and what follows it. -/
def cutLexeme (fresh : Bool) (c : Char) (cs : List Char) : Lexeme × List Char :=
  if isBlank c then (.blank c, cs)
  else if c = '/' && cs.head? == some '/' then
    let (raw, rest) := spanLine cs
    (.comment (c :: raw), rest)
  else if c = '/' && cs.head? == some '*' then
    match spanComment cs.tail with
    | some (raw, rest) => (.comment (c :: '*' :: raw), rest)
    | none => (.openComment (c :: cs), [])
  else if c = '#' && fresh then
    let (raw, line, rest) := spanDirective cs
    (.directive (c :: raw) (c :: line), rest)
  else if isQuote c then
    match spanQuoted c cs with
    | some (raw, value, rest) => (.quoted (c :: raw) value, rest)
    | none => (.openQuote (c :: cs), [])
  else if c = '+' && cs.head? == some '=' then (.mark .plusEquals, cs.tail)
  else
    match Mark.ofChar? c with
    | some m => (.mark m, cs)
    | none =>
      let (word, rest) := spanWord cs
      (.word (c :: word), rest)

namespace Lexeme

/-- The text of a lexeme as it stands in the file. -/
def raw : Lexeme → List Char
  | blank c => [c]
  | mark m => m.raw
  | comment raw | directive raw _ | quoted raw _ | word raw | openComment raw | openQuote raw => raw

/-- Whether only blanks stand on the line before what follows the lexeme, given whether that was so
before it. -/
def staysFresh (fresh : Bool) : Lexeme → Bool
  | blank c => c = '\n' || fresh
  | _ => false

end Lexeme

/-! ## Cutting a whole text -/

theorem spanWord_append (cs : List Char) : (spanWord cs).1 ++ (spanWord cs).2 = cs := by
  induction cs with
  | nil => rfl
  | cons c cs ih =>
    by_cases h : endsWord (c :: cs) = true
    · simp [spanWord, h]
    · simp [spanWord, h, ih]

theorem spanComment_append {cs raw rest : List Char} (h : spanComment cs = some (raw, rest)) :
    raw ++ rest = cs := by
  fun_induction spanComment cs generalizing raw with
  | case1 => simp at h
  | case2 r =>
    simp only [Option.some.injEq, Prod.mk.injEq] at h
    obtain ⟨rfl, rfl⟩ := h
    rfl
  | case3 c cs _ ih =>
    obtain ⟨⟨a, b⟩, hab, heq⟩ := Option.map_eq_some_iff.1 h
    simp only [Prod.mk.injEq] at heq
    obtain ⟨rfl, rfl⟩ := heq
    simp [ih hab]

theorem spanQuoted_append {q : Char} {cs raw value rest : List Char}
    (h : spanQuoted q cs = some (raw, value, rest)) : raw ++ rest = cs := by
  fun_induction spanQuoted q cs generalizing raw value with
  | case1 => simp at h
  | case2 =>
    simp only [Option.some.injEq, Prod.mk.injEq] at h
    obtain ⟨rfl, -, rfl⟩ := h
    rfl
  | case3 ds ih =>
    obtain ⟨⟨a, v, b⟩, hab, heq⟩ := Option.map_eq_some_iff.1 h
    simp only [Prod.mk.injEq] at heq
    obtain ⟨rfl, -, rfl⟩ := heq
    simp [ih hab]
  | case4 d ds =>
    simp only [Option.some.injEq, Prod.mk.injEq] at h
    obtain ⟨rfl, -, rfl⟩ := h
    rfl
  | case5 c cs _ ih =>
    obtain ⟨⟨a, v, b⟩, hab, heq⟩ := Option.map_eq_some_iff.1 h
    simp only [Prod.mk.injEq] at heq
    obtain ⟨rfl, -, rfl⟩ := heq
    simp [ih hab]

theorem spanDirective_append (cs : List Char) :
    (spanDirective cs).1 ++ (spanDirective cs).2.2 = cs := by
  fun_induction spanDirective cs <;> simp_all

/-- Cutting off a lexeme loses nothing. -/
theorem cutLexeme_append (fresh : Bool) (c : Char) (cs : List Char) :
    (cutLexeme fresh c cs).1.raw ++ (cutLexeme fresh c cs).2 = c :: cs := by
  unfold cutLexeme
  split
  · rfl
  split
  · simp [spanLine, Lexeme.raw]
  split
  · next _ _ h =>
    obtain ⟨cs, rfl⟩ : ∃ ds, cs = '*' :: ds := by
      cases cs with
      | nil => simp at h
      | cons d ds => simp_all
    split
    · next hs => simpa [Lexeme.raw] using spanComment_append hs
    · simp [Lexeme.raw]
  split
  · simpa [Lexeme.raw] using spanDirective_append cs
  split
  · split
    · next hs => simpa [Lexeme.raw] using spanQuoted_append hs
    · simp [Lexeme.raw]
  split
  · next h =>
    obtain ⟨ds, rfl⟩ : ∃ ds, cs = '=' :: ds := by
      cases cs with
      | nil => simp at h
      | cons d ds => simp_all
    simp_all [Lexeme.raw, Mark.raw]
  split
  · next hm => simp [Lexeme.raw, Mark.raw_of_ofChar? hm]
  · simpa [Lexeme.raw] using spanWord_append cs

theorem cutLexeme_length (fresh : Bool) (c : Char) (cs : List Char) :
    (cutLexeme fresh c cs).2.length ≤ cs.length := by
  have h := congrArg List.length (cutLexeme_append fresh c cs)
  have hraw : 0 < (cutLexeme fresh c cs).1.raw.length := by
    unfold cutLexeme
    repeat' split
    all_goals simp [Lexeme.raw, Mark.raw_length_pos]
  simp only [List.length_append, List.length_cons] at h
  omega

def lexemesFrom (fresh : Bool) (text : List Char) : List Lexeme :=
  match text with
  | [] => []
  | c :: cs =>
    (cutLexeme fresh c cs).1 ::
      lexemesFrom ((cutLexeme fresh c cs).1.staysFresh fresh) (cutLexeme fresh c cs).2
termination_by text.length
decreasing_by
  have := cutLexeme_length fresh c cs
  simp only [List.length_cons]
  omega

def lexemes (text : List Char) : List Lexeme := lexemesFrom true text

theorem flatMap_raw_lexemesFrom (fresh : Bool) (text : List Char) :
    (lexemesFrom fresh text).flatMap Lexeme.raw = text := by
  fun_induction lexemesFrom fresh text with
  | case1 => rfl
  | case2 fresh c cs ih => rw [List.flatMap_cons, ih, cutLexeme_append]

end MissionIndex.Config
