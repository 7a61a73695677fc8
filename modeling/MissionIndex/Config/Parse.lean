import MissionIndex.Config.Execution
import MissionIndex.Config.Expansion
import MissionIndex.Config.Reader

/-!
# Parsing

Expansion, reading and execution in a row: from a root file to its config tree. The files opened on
the way are part of the outcome, also when there is no tree.
-/

namespace MissionIndex.Config

/-- What parsing a root file gives. -/
structure Outcome (ε : Type) where
  /-- The files opened, in the order of opening. -/
  opened : List String
  /-- The files announced, each before it was read. -/
  announced : List String
  result : Except (Stop ε) ConfigClass

def rootClass (file : String) (statements : List Statement) : ConfigClass :=
  let start : Store := ⟨#[{ location := ⟨file, .empty⟩ }]⟩
  (Statement.executeAll 0 [] start statements).tree 0

namespace Sources

variable {ε : Type} (sources : Sources ε)

def parse (path : String) : Outcome ε :=
  let file := sources.disk.absolute path
  let expansion := sources.expandRoot file
  { opened := expansion.opened
    announced := expansion.announced
    result := match expansion.stop with
      | some stop => .error stop
      | none =>
        match readStatements file expansion.tokens with
        | .ok statements => .ok (rootClass file statements)
        | .error e => .error (.error e) }

/-- The sources in which `path` is open with the given text, whatever way it is spelled. -/
def withText (path : String) (text : List Char) : Sources ε :=
  { sources with buffer := fun asked ↦
      if sources.disk.absolute asked = sources.disk.absolute path then .ok (some text)
      else sources.buffer asked }

def parseText (path : String) (text : List Char) : Outcome ε :=
  (sources.withText path text).parse path

end Sources

end MissionIndex.Config
