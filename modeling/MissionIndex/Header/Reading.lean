import MissionIndex.Disk
import MissionIndex.Header.Comment
import MissionIndex.Header.Entry
import MissionIndex.Header.Section

/-!
# Reading header comments

From the text of a header comment to what it documents. Reading never fails: text that fits no
convention is description, and labels without content leave their part empty. The sections are taken
in order, so of two sections for the same part the later one counts; only descriptions, parameters
and examples add up.
-/

namespace MissionIndex.Header

open Text

/-! ## Descriptions -/

/-- The description made up of several texts. The short form is the first paragraph on one line. -/
def describeParts (parts : List (List Char)) : Description :=
  let text := join ['\n', '\n'] (parts.filter (· != []))
  if text = [] then {}
  else
    let trimmed := (lines text).map trim
    { short := String.ofList (join [' '] (trimmed.takeWhile (· != [])))
      full := String.ofList (trim (join ['\n'] trimmed)) }

/-! ## Returned values -/

/-- The first word of a text, without signs at its end, and what follows it. -/
def firstWord (text : List Char) : List Char × List Char :=
  let word := dropEnd (fun c ↦ c = ',' || c = '.' || c = ':' || c = ';')
    (text.takeWhile fun c ↦ !isBlank c)
  (word, text.drop word.length)

/-- A text as an optional one, where the empty text is none. -/
def nonempty (cs : List Char) : Option String :=
  if cs = [] then none else some (String.ofList cs)

/-- Reads a returns section, whose lines count as one. -/
def readReturns (content : List Char) : Returns :=
  let text := join [' '] (((lines content).map trim).filter (· != []))
  if text = [] then {}
  else
    match splitBrackets? text with
    | some (before, type, behind) =>
      { type := nonempty (trim type), description := joinParts [before, behind] }
    | none =>
      let plain : Returns := { description := String.ofList text }
      let byWhole : Returns :=
        if looksLikeType text then { type := String.ofList text }
        else
          let (word, rest) := firstWord text
          if looksLikeType word then
            { type := String.ofList word
              description := String.ofList (stripBy
                (fun c ↦ c = ' ' || c = ',' || c = '.' || c = ':' || c = ';' || c = '-') rest) }
          else plain
      match cut? [' ', '-', ' '] text with
      | some (head, tail) =>
        if looksLikeType head then
          { type := String.ofList (trim head), description := String.ofList (trim tail) }
        else byWhole
      | none => byWhole

/-! ## Sections -/

/-- What has been read of a comment: its documentation so far, and the texts that will make up its
description. -/
structure Draft where
  info : Info := {}
  parts : List (List Char) := []
deriving DecidableEq, Repr

/-- The truth value that the text of a `Public` section names. -/
def publicValue? (content : List Char) : Option Bool :=
  let word := lower (String.ofList content)
  if word = "yes" || word = "true" then some true
  else if word = "no" || word = "false" then some false
  else none

namespace Draft

def addText (d : Draft) (text : List Char) : Draft :=
  if text = [] then d else { d with parts := d.parts ++ [text] }

/-- Notes a convention. -/
def setStyle (d : Draft) (style : Style) : Draft := { d with info := { d.info with style } }

def readAuthor (d : Draft) (s : Section) : Draft :=
  { d with info := { d.info with author := s.lines.head?.bind fun line ↦ nonempty (trim line) } }

def readParameters (d : Draft) (s : Section) (style : Style) : Draft :=
  let start : Listing := { parameters := d.info.parameters, parameter := d.info.parameter }
  let listing := s.lines.foldl Listing.read start
  let d := d.setStyle (if listing.sawBrackets then .cba else style)
  { d with
    info := { d.info with parameters := listing.parameters, parameter := listing.parameter } }

def read (d : Draft) (s : Section) : Draft :=
  match s.key with
  | none => d.addText s.content
  | some key =>
    if key = "description" then (d.addText s.content).setStyle .bis
    else if key.startsWith "author" then d.readAuthor s
    else if key.startsWith "argument" then d.readParameters s .cba
    else if key.startsWith "param" then
      d.readParameters s (if d.info.style = .plain then .bis else d.info.style)
    else if key.startsWith "return" then
      let d := if key = "return value" then d.setStyle .cba else d
      { d with info := { d.info with returns := readReturns s.content } }
    else if key.startsWith "example" then
      if s.content = [] then d
      else
        { d with info := { d.info with examples := d.info.examples ++ [String.ofList s.content] } }
    else if key = "public" then
      match publicValue? s.content with
      | some value => { d with info := { d.info with isPublic := some value } }
      | none => d
    else d

/-- The documentation that a draft amounts to. -/
def finish (d : Draft) : Info := { d.info with description := describeParts d.parts }

end Draft

/-- What the text of a header comment documents. -/
def readComment (comment : List Char) : Info :=
  ((sections (cleanLines comment)).foldl Draft.read {}).finish

/-- What the header of a script documents. There is nothing to say of a script that cannot be read
or has no header. -/
def ofScript? (disk : Disk) (path : String) : Option Info :=
  match disk.readText (Path.tidy path) with
  | .ok text => (comment? text).map readComment
  | .error _ => none

end MissionIndex.Header
