import MissionIndex.Data.Yaml.Scalar

/-!
# YAML tokens

A YAML text is cut into signs and scalars. Where blocks of lists and mappings begin and end follows
from indentation, so tokens for that are put in between.

A scalar or bracket turns out to be a key only when the colon behind it is reached. The tokenizer
therefore remembers, for each level of brackets, where the last thing stands that could be one; the
tokens that mark it as a key go in front of it afterwards. A key has to be on one line with its
colon.
-/

namespace MissionIndex.Data.Yaml

open Text

/-- The parts of a YAML text. -/
inductive Token where
  | listStart
  | mapStart
  /-- the end of a list or mapping that has no brackets -/
  | blockEnd
  | entry
  | key
  | value
  | openList
  | closeList
  | openMap
  | closeMap
  | comma
  /-- a scalar, which may be well formed and mean nothing -/
  | scalar (meaning : Option Data)
  | documentStart
  | documentEnd
deriving Inhabited

/-- Something that may turn out to be a key. -/
structure PossibleKey where
  /-- How many tokens stand before it. -/
  tokensBefore : Nat
  line : Nat
  column : Nat
  offset : Nat
  /-- Whether nothing else can stand there. -/
  required : Bool
deriving Repr

/-- A place in a YAML text. -/
structure Tokenizer where
  rest : List Char
  line : Nat := 0
  column : Nat := 0
  offset : Nat := 0
  tokens : List Token := []
  /-- The columns of the open blocks, from the inside out. -/
  blocks : List Nat := []
  /-- What may be a key at each level of brackets, from the inside out. The last level is that
  outside all brackets. -/
  keys : List (Option PossibleKey) := [none]
  /-- Whether a key may start here. -/
  keyAllowed : Bool := true

namespace Tokenizer

variable (t : Tokenizer)

def inBrackets : Bool := t.keys.length > 1

/-- The place after the character `c`, when `rest` follows it. -/
def past (c : Char) (rest : List Char) : Tokenizer :=
  if isBreak c then { t with rest, line := t.line + 1, column := 0, offset := t.offset + 1 }
  else { t with rest, column := t.column + 1, offset := t.offset + 1 }

/-- The place where `rest`, which is the end of what follows here, starts. -/
def moveTo (rest : List Char) : Tokenizer :=
  { (t.rest.take (t.rest.length - rest.length)).foldl (fun t c ↦ t.past c []) t with rest }

def add (token : Token) : Tokenizer := { t with tokens := t.tokens ++ [token] }

def insert (n : Nat) (token : Token) : Tokenizer :=
  { t with tokens := t.tokens.take n ++ token :: t.tokens.drop n }

/-- Passes over blanks, comments and line breaks. Outside brackets a key may start on a new line. -/
def skipGap (inComment : Bool) (t : Tokenizer) : List Char → Tokenizer
  | [] => { t with rest := [] }
  | c :: cs =>
    if isBreak c then
      skipGap false { t.past c cs with keyAllowed := t.keyAllowed || !t.inBrackets } cs
    else if inComment || c = ' ' then skipGap inComment (t.past c cs) cs
    else if c = '#' then skipGap true (t.past c cs) cs
    else { t with rest := c :: cs }

/-! ## Keys -/

/-- Forgets what may be a key on the innermost level. It must not be something that has to be
one. -/
def forgetKey : Option Tokenizer :=
  match t.keys with
  | some key :: outer => if key.required then none else some { t with keys := none :: outer }
  | _ => some t

/-- Forgets what may be a key and is not on this line, or too far back. -/
def forgetStale : Option Tokenizer :=
  let isStale := fun (key : PossibleKey) ↦ key.line != t.line || t.offset - key.offset > 1024
  if t.keys.any fun key ↦ key.any fun key ↦ isStale key && key.required then none
  else some { t with keys := t.keys.map (Option.filter (!isStale ·)) }

def rememberKey : Option Tokenizer :=
  if t.keyAllowed then
    t.forgetKey.map fun t ↦
      let key : PossibleKey :=
        { tokensBefore := t.tokens.length, line := t.line, column := t.column, offset := t.offset
          required := !t.inBrackets && t.blocks.head? == some t.column }
      { t with keys := some key :: t.keys.tail }
  else some t

/-! ## Blocks -/

/-- Ends the blocks that are indented deeper than `column`, which `none` is not deeper than any. -/
def closeBlocks (column : Option Nat) : List Nat → Tokenizer → Tokenizer
  | [], t => { t with blocks := [] }
  | block :: outer, t =>
    if column.all (· < block) then closeBlocks column outer (t.add .blockEnd)
    else { t with blocks := block :: outer }

/-- Whether a block that starts in `column` lies inside the open ones. -/
def opensBlock (column : Nat) : Bool := t.blocks.head?.all (· < column)

/-! ## Cutting off one token -/

/-- Cuts off a single sign. -/
def sign (c : Char) (rest : List Char) (token : Token) (keyAllowed : Bool) : Tokenizer :=
  { (t.add token).past c rest with keyAllowed }

def openBracket (c : Char) (rest : List Char) (token : Token) : Option Tokenizer :=
  t.rememberKey.map fun t ↦
    let t := t.sign c rest token true
    { t with keys := none :: t.keys }

def closeBracket (c : Char) (rest : List Char) (token : Token) : Option Tokenizer :=
  t.forgetKey.map fun t ↦
    let t := t.sign c rest token false
    { t with keys := if t.inBrackets then t.keys.tail else t.keys }

/-- Cuts off a hyphen that starts an entry. -/
def cutEntry (c : Char) (rest : List Char) : Option Tokenizer :=
  let started :=
    if t.inBrackets then some t
    else if !t.keyAllowed then none
    else if t.opensBlock t.column then
      some { t.add .listStart with blocks := t.column :: t.blocks }
    else some t
  started.bind fun t ↦ t.forgetKey.map fun t ↦ t.sign c rest .entry true

/-- Cuts off a question mark that starts a key. -/
def cutKey (c : Char) (rest : List Char) : Option Tokenizer :=
  let started :=
    if t.inBrackets then some t
    else if !t.keyAllowed then none
    else if t.opensBlock t.column then
      some { t.add .mapStart with blocks := t.column :: t.blocks }
    else some t
  started.bind fun t ↦ t.forgetKey.map fun t ↦ t.sign c rest .key (!t.inBrackets)

/-- Cuts off a colon that starts a value, and marks the key in front of it as one. -/
def cutValue (c : Char) (rest : List Char) : Option Tokenizer :=
  match t.keys with
  | some key :: outer =>
    let t := { t with keys := none :: outer }.insert key.tokensBefore .key
    let t :=
      if !t.inBrackets && t.opensBlock key.column then
        { t.insert key.tokensBefore .mapStart with blocks := key.column :: t.blocks }
      else t
    some (t.sign c rest .value false)
  | _ =>
    let started :=
      if t.inBrackets then some t
      else if !t.keyAllowed then none
      else if t.opensBlock t.column then
        some { t.add .mapStart with blocks := t.column :: t.blocks }
      else some t
    started.bind fun t ↦ t.forgetKey.map fun t ↦ t.sign c rest .value (!t.inBrackets)

/-- Cuts off a quoted scalar. -/
def cutQuoted (quote : Char) (rest : List Char) : Option Tokenizer :=
  t.rememberKey.bind fun t ↦
    (spanQuoted quote (rest.length + 1) rest).map fun (meant, rest) ↦
      { (t.add (.scalar (meant.map fun cs ↦ .text (String.ofList cs)))).moveTo rest with
        keyAllowed := false }

/-- Reads the words of a plain scalar, over at most `n` of them, and puts `between` in front of them
if there are any. A line break behind a word allows for a key again; a word on a line that is not
indented deeply enough does not belong to the scalar. -/
def plainWords (indent : Nat) : Nat → List Char → Tokenizer → List Char × Tokenizer
  | 0, _, t => ([], t)
  | n + 1, between, t =>
    let (word, rest) := spanWord t.inBrackets t.rest
    if word = [] || t.rest.head? == some '#' then ([], t)
    else
      let t := { t.moveTo rest with keyAllowed := false }
      let (gap, broken, after) := spanBetween t.rest
      let next := { t.moveTo after with keyAllowed := broken }
      if gap = [] || (!next.inBrackets && next.column < indent) then (between ++ word, next)
      else
        let (more, last) := plainWords indent n gap next
        (between ++ word ++ more, last)

/-- Cuts off a plain scalar. -/
def cutPlain : Option Tokenizer :=
  t.rememberKey.bind fun t ↦
    let indent := match t.blocks with
      | block :: _ => block + 1
      | [] => 0
    let (words, after) := plainWords indent (t.rest.length + 1) [] { t with keyAllowed := false }
    if operations.contains (String.ofList words) then none
    else some { after with tokens := t.tokens ++ [.scalar (readPlain words)] }

/-- Cuts off a line that separates documents. -/
def cutSeparator (token : Token) : Option Tokenizer :=
  (closeBlocks none t.blocks t).forgetKey.map fun t ↦
    { (t.add token).moveTo (t.rest.drop 3) with keyAllowed := false }

def startsPlain (c : Char) (cs : List Char) : Bool :=
  let reserved := ['-', '?', ':', ',', '[', ']', '{', '}', '#', '&', '*', '!', '|', '>',
    '\'', '"', '%', '@', '\u0060']
  !(isGap c || reserved.contains c) ||
    (!atGap cs && (c = '-' || (!t.inBrackets && (c = '?' || c = ':'))))

/-- Cuts the token `c :: cs` starts with off the front of what is left. -/
def cutToken (c : Char) (cs : List Char) : Option Tokenizer :=
  if t.column = 0 && atSeparator t.rest then
    t.cutSeparator (if c = '-' then .documentStart else .documentEnd)
  else if c = '[' then t.openBracket c cs .openList
  else if c = '{' then t.openBracket c cs .openMap
  else if c = ']' then t.closeBracket c cs .closeList
  else if c = '}' then t.closeBracket c cs .closeMap
  else if c = ',' then t.forgetKey.map fun t ↦ t.sign c cs .comma true
  else if c = '-' && atGap cs then t.cutEntry c cs
  else if c = '?' && (t.inBrackets || atGap cs) then t.cutKey c cs
  else if c = ':' && (t.inBrackets || atGap cs) then t.cutValue c cs
  else if c = '\'' || c = '"' then t.cutQuoted c cs
  else if t.startsPlain c cs then t.cutPlain
  else none

/-- Cuts the rest of a text into tokens, of which there are at most `n`. -/
def run : Nat → Tokenizer → Option (List Token)
  | 0, _ => none
  | n + 1, t =>
    (skipGap false t t.rest).forgetStale.bind fun t ↦
      match t.rest with
      | [] => (closeBlocks none t.blocks t).forgetKey.map Tokenizer.tokens
      | c :: cs =>
        let t := if t.inBrackets then t else closeBlocks (some t.column) t.blocks t
        (t.cutToken c cs).bind (run n)

end Tokenizer

def tokens? (text : List Char) : Option (List Token) :=
  if text.all isPrintable then
    let text := match text with
      | c :: cs => if c = byteOrderMark then cs else c :: cs
      | [] => []
    Tokenizer.run (text.length + 1) { rest := text }
  else none

end MissionIndex.Data.Yaml
