import MissionIndex.Data.Yaml.Token
import MissionIndex.Text.Utf8

/-!
# Reading YAML

Tokens are read as one document of lists, mappings and scalars, and what is missing between two
signs counts as nothing. Only when the whole document has been read is it asked what it means. A
list or mapping cannot be a key, and a scalar can be well formed and mean nothing, so this may fail
as well; the outer lists and mappings are gone through before those inside them.

Settings use no more of YAML than this: a text with anchors, tags, directives, merged mappings or
literal blocks is refused like a malformed one. What settings rely on is stated for all readers that
there may be (`Reader`).
-/

namespace MissionIndex.Data.Yaml

open Text

/-! ## Readers -/

/-- Why reading ends without a value. -/
inductive Failure where
  | malformed
  /-- Bytes came that are no characters. -/
  | undecodable
  /-- Anything else, such as a number that is none. -/
  | aborted
deriving DecidableEq, Repr

/-- A reader of YAML. It may find fault with a text before it comes to bytes that are no characters,
but does not pass over such bytes, and it complains of them only where there are some. -/
structure Reader where
  read : Stream → Except Failure Data
  read_of_isBroken : ∀ s value, s.isBroken = true → read s ≠ .ok value
  isBroken_of_read : ∀ s, read s = .error .undecodable → s.isBroken = true

/-! ## Documents -/

/-- A document, or a part of one. -/
inductive Node where
  | scalar (meaning : Option Data)
  | list (items : List Node)
  | map (entries : List (Node × Node))
deriving Inhabited

def Node.nothing : Node := .scalar (some .null)

/-- Whether a node is missing where `rest` follows, between two signs of a block. -/
def missingInBlock : List Token → Bool
  | .key :: _ | .value :: _ | .blockEnd :: _ => true
  | _ => false

/-- Whether a node is missing where `rest` follows, between two signs in brackets. -/
def missingInBrackets : List Token → Bool
  | .value :: _ | .comma :: _ | .closeList :: _ | .closeMap :: _ => true
  | _ => false

mutual

/-- Reads a node, over at most `n` levels. A list of entries without a block of its own may stand as
the value of a key; blocks may not stand in brackets. -/
def node (n : Nat) (inBlock entriesAllowed : Bool) (tokens : List Token) :
    Option (Node × List Token) :=
  match n with
  | 0 => none
  | n + 1 =>
    match tokens with
    | .scalar meaning :: rest => some (.scalar meaning, rest)
    | .openList :: rest => bracketItems n true [] rest
    | .openMap :: rest => bracketEntries n true [] rest
    | .listStart :: rest => if inBlock then blockItems n [] rest else none
    | .mapStart :: rest => if inBlock then blockEntries n [] rest else none
    | .entry :: _ => if entriesAllowed then looseItems n [] tokens else none
    | _ => none

def blockItems (n : Nat) (items : List Node) (tokens : List Token) : Option (Node × List Token) :=
  match n with
  | 0 => none
  | n + 1 =>
    match tokens with
    | .blockEnd :: rest => some (.list items, rest)
    | .entry :: .entry :: rest => blockItems n (items ++ [.nothing]) (.entry :: rest)
    | .entry :: .blockEnd :: rest => blockItems n (items ++ [.nothing]) (.blockEnd :: rest)
    | .entry :: rest =>
      (node n true false rest).bind fun (item, rest) ↦ blockItems n (items ++ [item]) rest
    | _ => none

/-- Reads the items of a list that has no block of its own, and so no end of its own either. -/
def looseItems (n : Nat) (items : List Node) (tokens : List Token) : Option (Node × List Token) :=
  match n with
  | 0 => none
  | n + 1 =>
    match tokens with
    | .entry :: .entry :: rest => looseItems n (items ++ [.nothing]) (.entry :: rest)
    | .entry :: rest =>
      if missingInBlock rest then looseItems n (items ++ [.nothing]) rest
      else (node n true false rest).bind fun (item, rest) ↦ looseItems n (items ++ [item]) rest
    | _ => some (.list items, tokens)

def blockEntries (n : Nat) (entries : List (Node × Node)) (tokens : List Token) :
    Option (Node × List Token) :=
  match n with
  | 0 => none
  | n + 1 =>
    match tokens with
    | .blockEnd :: rest => some (.map entries, rest)
    | .key :: rest =>
      (if missingInBlock rest then some (Node.nothing, rest) else node n true true rest).bind
        fun (key, rest) ↦
          (match rest with
            | .value :: rest =>
              if missingInBlock rest then some (Node.nothing, rest) else node n true true rest
            | rest => some (Node.nothing, rest)).bind fun (value, rest) ↦
              blockEntries n (entries ++ [(key, value)]) rest
    | _ => none

/-- Reads the items of a list in brackets. A single entry there is a mapping of its own. -/
def bracketItems (n : Nat) (first : Bool) (items : List Node) (tokens : List Token) :
    Option (Node × List Token) :=
  match n with
  | 0 => none
  | n + 1 =>
    match tokens with
    | .closeList :: rest => some (.list items, rest)
    | _ =>
      let start := if first then some tokens else match tokens with
        | .comma :: rest => some rest
        | _ => none
      start.bind fun tokens ↦
        match tokens with
        | .closeList :: rest => some (.list items, rest)
        | .key :: rest =>
          (bracketEntry n rest).bind fun (key, value, rest) ↦
            bracketItems n false (items ++ [.map [(key, value)]]) rest
        | _ =>
          (node n false false tokens).bind fun (item, rest) ↦
            bracketItems n false (items ++ [item]) rest

/-- Reads the entries of a mapping in braces. -/
def bracketEntries (n : Nat) (first : Bool) (entries : List (Node × Node)) (tokens : List Token) :
    Option (Node × List Token) :=
  match n with
  | 0 => none
  | n + 1 =>
    match tokens with
    | .closeMap :: rest => some (.map entries, rest)
    | _ =>
      let start := if first then some tokens else match tokens with
        | .comma :: rest => some rest
        | _ => none
      start.bind fun tokens ↦
        match tokens with
        | .closeMap :: rest => some (.map entries, rest)
        | .key :: rest =>
          (bracketEntry n rest).bind fun (key, value, rest) ↦
            bracketEntries n false (entries ++ [(key, value)]) rest
        | _ =>
          (node n false false tokens).bind fun (key, rest) ↦
            bracketEntries n false (entries ++ [(key, .nothing)]) rest

/-- Reads a key and its value in brackets. -/
def bracketEntry (n : Nat) (tokens : List Token) : Option (Node × Node × List Token) :=
  match n with
  | 0 => none
  | n + 1 =>
    (if missingInBrackets tokens then some (Node.nothing, tokens)
      else node n false false tokens).bind
      fun (key, rest) ↦
        match rest with
        | .value :: rest =>
          (if missingInBrackets rest then some (Node.nothing, rest)
            else node n false false rest).map
            fun (value, rest) ↦ (key, value, rest)
        | rest => some (key, .nothing, rest)

end

def dropDocumentEnds : List Token → List Token
  | .documentEnd :: rest => dropDocumentEnds rest
  | tokens => tokens

/-- Reads the only document of a text. A text without a document is nothing. -/
def document? (text : List Char) : Option Node :=
  (tokens? text).bind fun tokens ↦
    let whole := match tokens with
      | [] => some (Node.nothing, [])
      | .documentStart :: rest =>
        match rest with
        | [] | .documentStart :: _ | .documentEnd :: _ => some (Node.nothing, rest)
        | _ => node (2 * tokens.length + 2) true false rest
      | _ => node (2 * tokens.length + 2) true false tokens
    whole.bind fun (value, rest) ↦ if (dropDocumentEnds rest).isEmpty then some value else none

/-! ## Meaning -/

namespace Node

def isScalar : Node → Bool
  | .scalar _ => true
  | _ => false

/-- Whether a node is a scalar that means nothing. -/
def isVoid : Node → Bool
  | .scalar meaning => meaning.isNone
  | _ => false

/-- What is wrong with a node, leaving aside the lists and mappings inside it. A key has to be a
scalar. -/
def failure? : Node → Option Failure
  | .scalar meaning => if meaning.isNone then some .aborted else none
  | .list items => if items.any isVoid then some .aborted else none
  | .map entries => entries.findSome? fun (key, value) ↦
      if !key.isScalar then some .malformed
      else if key.isVoid || value.isVoid then some .aborted else none

/-- The lists and mappings directly inside a node. -/
def inner : Node → List Node
  | .scalar _ => []
  | .list items => items.filter (!·.isScalar)
  | .map entries => (entries.map Prod.snd).filter (!·.isScalar)

/-- What is wrong first with nodes, or with what is inside them over at most `n` levels. -/
def firstFailure? : Nat → List Node → Option Failure
  | 0, _ => none
  | n + 1, level => (level.findSome? failure?).or (firstFailure? n (level.flatMap inner))

mutual

def value : Node → Data
  | .scalar meaning => meaning.getD .null
  | .list items => .list (values items)
  | .map entries => mapOf (pairs entries)

def values : List Node → List Data
  | [] => []
  | item :: rest => item.value :: values rest

/-- The values of entries. -/
def pairs : List (Node × Node) → List (Data × Data)
  | [] => []
  | (key, value) :: rest => (key.value, value.value) :: pairs rest

end

theorem failure?_ne_undecodable (node : Node) : node.failure? ≠ some .undecodable := by
  cases node with
  | scalar meaning =>
    rw [failure?]
    split <;> simp
  | list items =>
    rw [failure?]
    split <;> simp
  | map entries =>
    rw [failure?]
    intro h
    obtain ⟨⟨key, value⟩, -, hentry⟩ := List.exists_of_findSome?_eq_some h
    cases hkey : key.isScalar <;> simp [hkey] at hentry

theorem firstFailure?_ne_undecodable (n : Nat) (level : List Node) :
    firstFailure? n level ≠ some .undecodable := by
  induction n generalizing level with
  | zero => simp [firstFailure?]
  | succ n ih =>
    rw [firstFailure?, ne_eq, Option.or_eq_some_iff]
    rintro (h | ⟨-, h⟩)
    · obtain ⟨node, -, hnode⟩ := List.exists_of_findSome?_eq_some h
      exact node.failure?_ne_undecodable hnode
    · exact ih _ h

end Node

def readText (text : List Char) : Except Failure Data :=
  match document? text with
  | none => .error .malformed
  | some node =>
    match Node.firstFailure? (text.length + 1) [node] with
    | some why => .error why
    | none => .ok node.value

theorem readText_ne_undecodable (text : List Char) : readText text ≠ .error .undecodable := by
  rw [readText]
  split
  · simp
  · next node _ =>
    split
    · next why hwhy =>
      rintro ⟨⟩
      exact Node.firstFailure?_ne_undecodable _ _ hwhy
    · simp

/-- The reader of this library. It looks at a text only when it has all of it. -/
def reader : Reader where
  read s := if s.isBroken then .error .undecodable else readText s.text
  read_of_isBroken s value h := by simp [h]
  isBroken_of_read s h := by
    cases hs : s.isBroken with
    | true => rfl
    | false =>
      rw [hs] at h
      exact absurd h (readText_ne_undecodable s.text)

end MissionIndex.Data.Yaml
