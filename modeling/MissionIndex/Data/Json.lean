import MissionIndex.Data.Value
import MissionIndex.Text.Blank

/-!
# JSON

Reading JSON texts as plain data. A text is first cut into tokens and the tokens are then read by a
left fold over a stack of open lists and mappings. Beside the standard's values the words `NaN`,
`Infinity` and `-Infinity` stand for numbers.
-/

namespace MissionIndex.Data.Json

open Text

/-! ## Tokens -/

/-- The parts of a JSON text. -/
inductive Token where
  | openList
  | closeList
  | openMap
  | closeMap
  | comma
  | colon
  /-- A text, number or word. -/
  | plain (value : Data)

/-- The characters that may stand between tokens. -/
def isSpace (c : Char) : Bool := c = ' ' || c = '\t' || c = '\n' || c = '\r'

def hexDigit? (c : Char) : Option Nat :=
  if c.isDigit then some (c.toNat - 48)
  else if 'a' ≤ c.toLower && c.toLower ≤ 'f' then some (c.toLower.toNat - 87)
  else none

/-- The value of four hexadecimal digits, and what follows them. -/
def fourDigits? : List Char → Option (Nat × List Char)
  | a :: b :: c :: d :: rest => do
    let a ← hexDigit? a
    let b ← hexDigit? b
    let c ← hexDigit? c
    let d ← hexDigit? d
    some (4096 * a + 256 * b + 16 * c + d, rest)
  | _ => none

/-- The character that stands behind a backslash, if it is one of the short forms. -/
def shortEscape? (c : Char) : Option Char :=
  [('"', '"'), ('\\', '\\'), ('/', '/'), ('b', '\x08'), ('f', '\x0c'), ('n', '\n'), ('r', '\r'),
    ('t', '\t')].lookup c

/-- Reads a quoted text behind its opening quote, over at most `n` characters: what it means, and
what follows its closing quote. -/
def spanText : Nat → List Char → Option (List Char × List Char)
  | 0, _ => none
  | _ + 1, [] => none
  | n + 1, c :: cs =>
    if c = '"' then some ([], cs)
    else if c.toNat < 32 then none
    else
      let more := fun (meant : Char) (rest : List Char) ↦
        (spanText n rest).map fun (more, rest) ↦ (meant :: more, rest)
      if c = '\\' then
        match cs with
        | 'u' :: digits =>
          (fourDigits? digits).bind fun (value, rest) ↦
            let paired := match rest with
              | '\\' :: 'u' :: digits =>
                if 0xD800 ≤ value && value < 0xDC00 then
                  (fourDigits? digits).filter fun (low, _) ↦ 0xDC00 ≤ low && low < 0xE000
                else none
              | _ => none
            match paired with
            | some (low, rest) =>
              more (Char.ofNat (0x10000 + 0x400 * (value - 0xD800) + (low - 0xDC00))) rest
            | none =>
              more (if 0xD800 ≤ value && value < 0xE000 then '\uFFFD' else Char.ofNat value) rest
        | d :: rest => (shortEscape? d).bind fun meant ↦ more meant rest
        | [] => none
      else more c cs

/-- Cuts a number off the front of a text. -/
def spanNumber (cs : List Char) : Option (Data × List Char) :=
  let (negative, digits) := match cs with
    | '-' :: rest => (true, rest)
    | _ => (false, cs)
  let (whole, rest) := match digits with
    | '0' :: rest => (['0'], rest)
    | _ => (digits.takeWhile Char.isDigit, digits.dropWhile Char.isDigit)
  if whole = [] then none
  else
    let (places, rest) := match rest with
      | '.' :: more =>
        if more.takeWhile Char.isDigit = [] then ([], rest)
        else (more.takeWhile Char.isDigit, more.dropWhile Char.isDigit)
      | _ => ([], rest)
    let (power, rest) := match rest with
      | e :: more =>
        let (down, digits) := spanSign more
        let shown := digits.takeWhile Char.isDigit
        if e.toLower = 'e' && shown != [] then
          (some (if down then -(digitsValue shown : Int) else digitsValue shown),
            digits.dropWhile Char.isDigit)
        else (none, rest)
      | [] => (none, rest)
    if places = [] && power = none then
      some (.int (if negative then -(digitsValue whole : Int) else digitsValue whole), rest)
    else
      let x := nearestFloat (digitsValue (whole ++ places)) (power.getD 0 - places.length)
      some (.float (if negative then -x else x), rest)

def words : List (String × Data) :=
  [("null", .null), ("true", .bool true), ("false", .bool false), ("NaN", .float (0.0 / 0.0)),
    ("Infinity", .float (nearestFloat 1 1000)), ("-Infinity", .float (-nearestFloat 1 1000))]

/-- Cuts a value that is no list or mapping off the front of a text. -/
def spanPlain (cs : List Char) : Option (Data × List Char) :=
  match cs with
  | '"' :: rest => (spanText (rest.length + 1) rest).map fun (meant, rest) ↦
      (.text (String.ofList meant), rest)
  | _ =>
    match words.find? fun (word, _) ↦ word.toList.isPrefixOf cs with
    | some (word, value) => some (value, cs.drop word.length)
    | none => spanNumber cs

/-- Cuts a token off the front of a text. -/
def spanToken (cs : List Char) : Option (Token × List Char) :=
  match cs with
  | [] => none
  | c :: rest =>
    if c = '[' then some (.openList, rest)
    else if c = ']' then some (.closeList, rest)
    else if c = '{' then some (.openMap, rest)
    else if c = '}' then some (.closeMap, rest)
    else if c = ',' then some (.comma, rest)
    else if c = ':' then some (.colon, rest)
    else (spanPlain cs).map fun (value, rest) ↦ (.plain value, rest)

/-- Cuts a text into tokens, of which there are at most `n`. -/
def tokensUpTo : Nat → List Char → Option (List Token)
  | 0, _ => none
  | n + 1, cs =>
    match cs.dropWhile isSpace with
    | [] => some []
    | rest => (spanToken rest).bind fun (token, rest) ↦ (tokensUpTo n rest).map (token :: ·)

/-! ## Reading -/

/-- What may come next. -/
inductive Awaiting where
  | value
  /-- right after an opening bracket -/
  | firstItem
  /-- right after an opening brace -/
  | firstKey
  | key
  | colon (key : String)
  /-- after a value that an open list or mapping goes on behind -/
  | separator
  /-- after the whole value -/
  | nothing (whole : Data)

/-- A list or mapping still open, with what has been read of it. -/
inductive Frame where
  | list (items : List Data)
  | map (entries : List (Data × Data)) (key : String)

/-- A place inside a JSON text: the open lists and mappings from the inside out, and what may come
next. -/
structure Reader where
  frames : List Frame := []
  awaiting : Awaiting := .value

namespace Reader

def addValue (r : Reader) (value : Data) : Reader :=
  match r.frames with
  | [] => ⟨[], .nothing value⟩
  | .list items :: outer => ⟨.list (items ++ [value]) :: outer, .separator⟩
  | .map entries key :: outer => ⟨.map (entries ++ [(.text key, value)]) key :: outer, .separator⟩

def closeList? (r : Reader) : Option Reader :=
  match r.frames with
  | .list items :: outer => some (addValue ⟨outer, .value⟩ (.list items))
  | _ => none

/-- The reader after the end of the innermost mapping. -/
def closeMap? (r : Reader) : Option Reader :=
  match r.frames with
  | .map entries _ :: outer => some (addValue ⟨outer, .value⟩ (mapOf entries))
  | _ => none

def stepValue (r : Reader) : Token → Option Reader
  | .openList => some ⟨.list [] :: r.frames, .firstItem⟩
  | .openMap => some ⟨.map [] "" :: r.frames, .firstKey⟩
  | .plain value => some (r.addValue value)
  | _ => none

def step (r : Reader) (t : Token) : Option Reader :=
  match r.awaiting, t with
  | .value, t => r.stepValue t
  | .firstItem, .closeList => r.closeList?
  | .firstItem, t => r.stepValue t
  | .firstKey, .closeMap => r.closeMap?
  | .firstKey, .plain (.text key) => some { r with awaiting := .colon key }
  | .key, .plain (.text key) => some { r with awaiting := .colon key }
  | .colon key, .colon =>
    match r.frames with
    | .map entries _ :: outer => some ⟨.map entries key :: outer, .value⟩
    | _ => none
  | .separator, .comma =>
    match r.frames with
    | .list _ :: _ => some { r with awaiting := .value }
    | .map .. :: _ => some { r with awaiting := .key }
    | [] => none
  | .separator, .closeList => r.closeList?
  | .separator, .closeMap => r.closeMap?
  | _, _ => none

end Reader

def read? (text : List Char) : Option Data :=
  (tokensUpTo (text.length + 1) text).bind fun tokens ↦
    (tokens.foldlM Reader.step {}).bind fun r ↦
      match r.awaiting with
      | .nothing whole => some whole
      | _ => none

end MissionIndex.Data.Json
