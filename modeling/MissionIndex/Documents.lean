import MissionIndex.Ordered
import MissionIndex.Uri

/-!
# Open documents

The documents that are open in the editor, by URI. An edit replaces the whole text of a document and
counts its version up unless the editor says otherwise. What is open is read in place of what is on
disk; a path finds its document by the URI that the path has.
-/

namespace MissionIndex

/-- A document open in the editor. -/
structure Document where
  uri : String
  language : String
  version : Int
  text : String
deriving DecidableEq, Repr

/-- The open documents by URI. -/
abbrev Documents := List (String × Document)

namespace Documents

/-- The language of a document for which the editor names none. -/
def plainLanguage : String := "ext"

def opened (uri text : String) (version : Int) (language : Option String) : Document where
  uri
  language := match language with
    | some name => if name.isEmpty then plainLanguage else name
    | none => plainLanguage
  version
  text

/-- Opens a document, also in place of one that is open under its URI. -/
def openAs (docs : Documents) (uri text : String) (version : Int) (language : Option String) :
    Documents :=
  Ordered.put uri (opened uri text version language) docs

/-- Replaces the text of a document, which is opened if it is not open. -/
def update (docs : Documents) (uri text : String) (version : Option Int) : Documents :=
  match docs.lookup uri with
  | none => docs.openAs uri text (version.getD 0) none
  | some d => Ordered.put uri { d with text, version := version.getD (d.version + 1) } docs

def close (docs : Documents) (uri : String) : Documents := Ordered.erase uri docs

def textFor (docs : Documents) (workingDirectory path : String) :
    Except Uri.NoUri (Option String) :=
  (Uri.ofPath workingDirectory path).map fun uri ↦ (docs.lookup uri).map Document.text

end Documents

end MissionIndex
