import MissionIndex.CommandLine.Markup
import MissionIndex.Diagnostic
import MissionIndex.Ordered
import MissionIndex.Uri

/-!
# Remarks on a terminal

Diagnostics as lines of text, and what is left of them when all have been published: for each file
those published last, unless there were none.
-/

namespace MissionIndex.CommandLine

/-- The latest diagnostics by the URI of their file. -/
abbrev Remarks := List (String × List Diagnostic)

namespace Remarks

/-- Takes up what is published for a file. -/
def publish (remarks : Remarks) (uri : String) (diagnostics : List Diagnostic) : Remarks :=
  if diagnostics.isEmpty then Ordered.erase uri remarks else Ordered.put uri diagnostics remarks

/-- What is left when everything has been published. -/
def ofPublished (published : List (String × List Diagnostic)) : Remarks :=
  published.foldl (fun remarks (uri, diagnostics) ↦ remarks.publish uri diagnostics) []

def errorCount (remarks : Remarks) : Nat := (remarks.flatMap Prod.snd).countP Diagnostic.isError

end Remarks

/-! ## Lines -/

/-- The word for a severity, and the look of the word. -/
def severityLabel : Option Severity → String × String
  | some .error | none => ("error", "bold red")
  | some .warning => ("warning", "yellow")
  | some .information => ("info", "cyan")
  | some .hint => ("hint", "dim")

/-- The line for a diagnostic, with markup. Lines and columns are counted from one. -/
def markupLine (uri : String) (d : Diagnostic) : String :=
  let (label, look) := severityLabel d.severity
  Markup.escape (Uri.toPath uri) ++ ":" ++ toString (d.range.start.line + 1) ++ ":" ++
    toString (d.range.start.character + 1) ++ ": [" ++ look ++ "]" ++ label ++ "[/" ++
    look ++ "] " ++
    Markup.escape d.message

def markupLines (batch : List (String × List Diagnostic)) : List String :=
  batch.flatMap fun (uri, diagnostics) ↦ diagnostics.map (markupLine uri)

end MissionIndex.CommandLine
