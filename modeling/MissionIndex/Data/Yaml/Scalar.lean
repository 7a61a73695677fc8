import MissionIndex.Data.Value
import MissionIndex.Text.Blank

/-!
# YAML scalars

A scalar is written plainly or in quotes. Over a line break, a scalar goes on with a blank in place
of the break, or with the breaks after the first where there are several. Quoted scalars are texts;
a plain one is read as nothing, a truth value or a number where it looks like one.

Some scalars are well formed and still mean nothing: a number without digits behind its base, one
with too many digits, and a text with a character past the last one.
-/

namespace MissionIndex.Data.Yaml

open Text

/-! ## Characters -/

/-- The characters that end a line. -/
def isBreak (c : Char) : Bool :=
  c = '\n' || c = '\r' || c = '\u0085' || c = '\u2028' || c = '\u2029'

/-- The characters around words. -/
def isGap (c : Char) : Bool := c = ' ' || c = '\t' || isBreak c

/-- Whether a text is at its end or in front of a gap. -/
def atGap (cs : List Char) : Bool := cs.head?.all isGap

/-- The characters that lists and mappings in brackets are made of. -/
def isBracketSign (c : Char) : Bool := c = ',' || c = '[' || c = ']' || c = '{' || c = '}'

/-- The characters that a file may hold. -/
def isPrintable (c : Char) : Bool :=
  c = '\t' || c = '\n' || c = '\r' || c = '\u0085' || (32 ≤ c.toNat && c.toNat ≤ 126) ||
    (0xA0 ≤ c.toNat && c.toNat != 0xFFFE && c.toNat != 0xFFFF)

/-- Whether a line that separates documents starts here. -/
def atSeparator (cs : List Char) : Bool :=
  (['-', '-', '-'].isPrefixOf cs || ['.', '.', '.'].isPrefixOf cs) && atGap (cs.drop 3)

def breakValue (c : Char) : Char := if c = '\u2028' || c = '\u2029' then c else '\n'

/-- What a break, followed by the further breaks `more`, adds to a scalar. -/
def foldBreaks (first : Char) (more : List Char) : List Char :=
  (if breakValue first != '\n' then [breakValue first] else if more = [] then [' '] else []) ++ more

/-! ## Quoted scalars -/

/-- What a character behind a backslash means. -/
def escapes : List (Char × Char) :=
  [('0', '\x00'), ('a', '\x07'), ('b', '\x08'), ('t', '\t'), ('\t', '\t'), ('n', '\n'),
    ('v', '\x0b'), ('f', '\x0c'), ('r', '\r'), ('e', '\x1b'), (' ', ' '), ('"', '"'), ('/', '/'),
    ('\\', '\\'), ('N', '\u0085'), ('_', '\u00A0'), ('L', '\u2028'), ('P', '\u2029')]

/-- How many hexadecimal digits follow a character behind a backslash. -/
def escapeLengths : List (Char × Nat) := [('x', 2), ('u', 4), ('U', 8)]

def digitValue? (c : Char) : Option Nat :=
  if c.isDigit then some (c.toNat - 48)
  else if 'a' ≤ c.toLower && c.toLower ≤ 'f' then some (c.toLower.toNat - 87)
  else none

def valueInBase (base : Nat) (digits : List Char) : Option Nat :=
  digits.foldlM (fun n c ↦ (digitValue? c).map (base * n + ·)) 0

/-- What follows a line break inside a quoted scalar: the further breaks, and the rest. There must
not be a line that separates documents. -/
def spanBreaks : Nat → List Char → Option (List Char × List Char)
  | 0, _ => none
  | n + 1, cs =>
    if atSeparator cs then none
    else
      match cs.dropWhile fun c ↦ c = ' ' || c = '\t' with
      | [] => some ([], [])
      | c :: rest =>
        if isBreak c then (spanBreaks n rest).map fun (more, rest) ↦ (breakValue c :: more, rest)
        else some ([], c :: rest)

/-- Reads a quoted scalar behind its opening quote, over at most `n` steps: what it means, and what
follows its closing quote. It means nothing with a character past the last one in it. -/
def spanQuoted (quote : Char) : Nat → List Char → Option (Option (List Char) × List Char)
  | 0, _ => none
  | _ + 1, [] => none
  | n + 1, c :: cs =>
    let more := fun (meant : Option (List Char)) (rest : List Char) ↦
      (spanQuoted quote n rest).map fun (others, rest) ↦
        (meant.bind fun meant ↦ others.map (meant ++ ·), rest)
    if c = quote then
      if quote = '\'' && cs.head? == some quote then more (some [quote]) cs.tail
        else some (some [], cs)
    else if c = '\\' && quote = '"' then
      match cs with
      | [] => none
      | d :: rest =>
        match escapes.lookup d, escapeLengths.lookup d with
        | some meant, _ => more (some [meant]) rest
        | none, some length =>
          if rest.length < length then none
          else (valueInBase 16 (rest.take length)).bind fun value ↦
            let meant :=
              if 0x10FFFF < value then none
              else if 0xD800 ≤ value && value < 0xE000 then some ['\uFFFD']
              else some [Char.ofNat value]
            more meant (rest.drop length)
        | none, none =>
          if isBreak d then (spanBreaks (n + 1) rest).bind fun (breaks, rest) ↦
            more (some breaks) rest
          else none
    else if isGap c then
      let blanks := (c :: cs).takeWhile fun b ↦ b = ' ' || b = '\t'
      match (c :: cs).drop blanks.length with
      | [] => none
      | d :: rest =>
        if isBreak d then
          (spanBreaks (n + 1) rest).bind fun (breaks, rest) ↦ more (some (foldBreaks d breaks)) rest
        else more (some blanks) (d :: rest)
    else more (some [c]) cs

/-! ## Plain scalars -/

/-- Splits a text where a word of a plain scalar ends. Inside brackets more signs end it. -/
def spanWord (inBrackets : Bool) : List Char → List Char × List Char
  | [] => ([], [])
  | c :: cs =>
    let endsKey := c = ':' && (atGap cs || (inBrackets && cs.head?.any isBracketSign))
    if isGap c || endsKey || (inBrackets && (c = '?' || isBracketSign c)) then ([], c :: cs)
    else
      let (word, rest) := spanWord inBrackets cs
      (c :: word, rest)

/-- What follows the first line break behind a word of a plain scalar: the further breaks and the
rest, or nothing but the rest in front of a line that separates documents. -/
def spanPlainBreaks (breaks : List Char) : List Char → Option (List Char) × List Char
  | [] => (some breaks, [])
  | c :: cs =>
    if c = ' ' then spanPlainBreaks breaks cs
    else if isBreak c then
      if atSeparator cs then (none, cs) else spanPlainBreaks (breaks ++ [breakValue c]) cs
    else (some breaks, c :: cs)

/-- What stands between two words of a plain scalar, whether a line break is part of it, and what
follows. -/
def spanBetween (cs : List Char) : List Char × Bool × List Char :=
  let blanks := cs.takeWhile (· == ' ')
  match cs.drop blanks.length with
  | [] => (blanks, false, [])
  | c :: rest =>
    if isBreak c then
      if atSeparator rest then ([], true, rest)
      else
        match spanPlainBreaks [] rest with
        | (some breaks, rest) => (foldBreaks c breaks, true, rest)
        | (none, rest) => ([], true, rest)
    else (blanks, false, c :: rest)

/-! ## Meaning -/

/-- Whether a text consists of characters in `p`, and of at least one. -/
def isRow (p : Char → Bool) (cs : List Char) : Bool := cs != [] && cs.all p

def isDigitOrLine (c : Char) : Bool := c.isDigit || c = '_'

def withoutLines (cs : List Char) : List Char := cs.filter (· != '_')

/-- The value of numbers of base sixty, the first of which may be of any size. -/
def sixties? (cs : List Char) : Option Nat :=
  match splitAt ':' cs with
  | first :: second :: more =>
    let isPart := fun (part : List Char) ↦
      isRow Char.isDigit part && (part.length = 1 || (part.length = 2 && part.head?.any (· ≤ '5')))
    if isRow isDigitOrLine first && first.head?.any Char.isDigit && (second :: more).all isPart then
      some (((second :: more).map digitsValue).foldl (60 * · + ·)
        (digitsValue (withoutLines first)))
    else none
  | _ => none

/-- The number of decimal digits that a whole number may have. -/
def maxDigits : Nat := 4300

/-- The value of decimal digits, unless there are too many. -/
def decimal? (digits : List Char) : Option Nat :=
  if digits.length ≤ maxDigits then some (digitsValue digits) else none

/-- The value of the digits behind a base, if there are any. -/
def based? (base : Nat) (digits : List Char) : Option Nat :=
  if digits = [] then none else valueInBase base digits

/-- The size of a whole number as it may be written. What is written like a whole number need not
have one. -/
def wholeSize? (cs : List Char) : Option (Option Nat) :=
  match cs with
  | ['0'] => some (some 0)
  | '0' :: 'b' :: digits =>
    if isRow (fun c ↦ c = '0' || c = '1' || c = '_') digits then
      some (based? 2 (withoutLines digits))
    else none
  | '0' :: 'x' :: digits =>
    if isRow (fun c ↦ (digitValue? c).isSome || c = '_') digits then
      some (based? 16 (withoutLines digits))
    else none
  | '0' :: digits =>
    if isRow (fun c ↦ ('0' ≤ c && c ≤ '7') || c = '_') digits then
      some (valueInBase 8 (withoutLines digits))
    else none
  | c :: digits =>
    if c.isDigit && digits.all isDigitOrLine then some (decimal? (withoutLines cs))
    else if c.isDigit then
      (sixties? cs).map fun n ↦ (decimal? (withoutLines (cs.takeWhile (· != ':')))).map fun _ ↦ n
    else none
  | [] => none

/-- The size of a number with a point as it may be written. The power of ten carries a sign. -/
def pointedSize? (cs : List Char) : Option Float :=
  (cut? ['.'] cs).bind fun (whole, rest) ↦
    let places := rest.takeWhile isDigitOrLine
    let power := rest.dropWhile isDigitOrLine
    let signedPower := match power with
      | [] => true
      | e :: sign :: digits =>
        e.toLower = 'e' && (sign = '+' || sign = '-') && isRow Char.isDigit digits
      | _ => false
    let wholeFits := whole = [] || (whole.head?.any Char.isDigit && whole.all isDigitOrLine)
    let placesFit := whole != [] || places.head?.any Char.isDigit
    if wholeFits && placesFit && signedPower then readFloat? (withoutLines cs) else none

/-- The size of a number of base sixty with a point in its last part. -/
def pointedSixties? (cs : List Char) : Option Float :=
  (cut? ['.'] cs).bind fun (front, places) ↦
    (sixties? front).bind fun _ ↦
      if !places.all isDigitOrLine then none
      else
        let parts := splitAt ':' (withoutLines cs)
        (parts.mapM readFloat?).map fun values ↦
          (values.reverse.foldl (fun ((sum, unit) : Float × Float) x ↦ (sum + x * unit, unit * 60))
            (0, 1)).1

def boolWords : List (String × Bool) :=
  [("yes", true), ("Yes", true), ("YES", true), ("true", true), ("True", true), ("TRUE", true),
    ("on", true), ("On", true), ("ON", true), ("no", false), ("No", false), ("NO", false),
    ("false", false), ("False", false), ("FALSE", false), ("off", false), ("Off", false),
    ("OFF", false)]

/-- The plain scalars that stand for operations on mappings and not for themselves. -/
def operations : List String := ["=", "<<"]

def readPlain (cs : List Char) : Option Data :=
  let word := String.ofList cs
  let (negative, size) := spanSign cs
  let bare := size.length = cs.length
  if ["", "~", "null", "Null", "NULL"].contains word then some .null
  else
    match boolWords.lookup word with
    | some b => some (.bool b)
    | none =>
      match wholeSize? size with
      | some whole => whole.map fun n ↦ .int (if negative then -(n : Int) else n)
      | none =>
        let signed := fun (x : Float) ↦ Data.float (if negative then -x else x)
        some <|
          if [".inf", ".Inf", ".INF"].contains (String.ofList size)
          then signed (nearestFloat 1 1000)
          else if [".nan", ".NaN", ".NAN"].contains word then .float (0.0 / 0.0)
          else
            match (pointedSize? size).or (pointedSixties? size) with
            | some x => if size.head? == some '.' && !bare then .text word else signed x
            | none => .text word

end MissionIndex.Data.Yaml
