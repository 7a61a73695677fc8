import MissionIndex.Documentation.Entry
import MissionIndex.FileRole
import MissionIndex.Query.Signature
import MissionIndex.Uri

/-!
# Answers to editors

What an editor asks while a document is open: how a word may go on, what it means, and where it is
defined. Scripts are answered from the function tables and root files from the documented
properties. Names of functions are found in any spelling, while a completion keeps the spelling
typed so far.
-/

namespace MissionIndex.Query

open Documentation

/-- Whether a document holds function code. -/
def isScriptDocument (uri : String) : Bool := FileRole.isScriptExtension (Path.extension uri)

def isRootDocument (uri : String) : Bool := FileRole.isRootName (Path.fileName uri)

/-- What a completion offers. -/
inductive ItemKind where
  | function
  | property
deriving DecidableEq, Repr

/-- One way for a word to go on. -/
structure CompletionItem where
  label : String
  kind : ItemKind
  /-- The name by which the offer is stored. -/
  data : String
  filterText : String
  insertText : String
  documentation : Option String
deriving DecidableEq, Repr

namespace CompletionItem

/-- The offer of a function stored under `key`. -/
def ofRecord (key : String) (r : FunctionRecord) : CompletionItem where
  label := r.name
  kind := .function
  data := key
  filterText := r.name
  insertText := r.name
  documentation := r.info.map fun info ↦ info.description.short

/-- The offer of a property. -/
def ofEntry (e : Entry) : CompletionItem where
  label := e.name
  kind := .property
  data := e.key
  filterText := e.insertText
  insertText := e.insertText
  documentation := some e.description

end CompletionItem

/-- The functions of all tables whose names start with `front` as typed. -/
def completeFunction (tables : FunctionTables) (front : String) : List CompletionItem :=
  tables.flatMap fun (_, table) ↦
    (table.filter fun (_, r) ↦ front.toList.isPrefixOf r.name.toList).map fun (key, r) ↦
      .ofRecord key r

/-- How a word that starts with `front` may go on in a document. -/
def complete (tables : FunctionTables) (properties : Table) (uri front : String) :
    List CompletionItem :=
  (if isScriptDocument uri then completeFunction tables front else []) ++
    if isRootDocument uri then (properties.search front).map .ofEntry else []

def renderEntry (e : Entry) : String := e.description ++ " _([more info](" ++ e.link ++ "))_"

/-- What a word means in a document, as Markdown. -/
def hover? (tables : FunctionTables) (properties : Table) (uri name : String) : Option String :=
  let function := if isScriptDocument uri then tables.find? name else none
  (function.map renderFunction).or <|
    if isRootDocument uri then (properties.find? name).map renderEntry else none

/-- The first character of a script, where an editor goes to show it. -/
def scriptStart : Range := .ofLength .zero 1

/-- Where a function is defined: at the start of its script. The answer has no place or one, and
there is none to be had for a script without a URI. -/
def definition (workingDirectory : String) (tables : FunctionTables) (name : String) :
    Except Uri.NoUri (List (String × Range)) :=
  match tables.find? name with
  | none => .ok []
  | some r => (Uri.ofPath workingDirectory r.script).map fun uri ↦ [(uri, scriptStart)]

end MissionIndex.Query
