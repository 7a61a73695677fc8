import MissionIndex.Config.Token
import MissionIndex.Path.Mapping

/-!
# Include expansion

An include directive stands for the tokens of the file that it names, so a root file expands to one
row of tokens in which every token knows the file it came from. `Expansion` is such a row together
with the files opened for it, in the order of opening, and the reason to stop early, if there was
one. Whoever asked for the expansion is told of each file before it is read, so what was told is
kept as well.

## What bounds the expansion

A file may be included from its own contents only through an endless nest, so two rules cut the nest
off: a file that is still being read cannot be included, and there are at most `maxDepth` files
between a directive and the root. The second rule is the measure of the recursion here: the *room*
of a file is the number of levels that may still be opened below it.
-/

namespace MissionIndex.Config

open Text

/-- The deepest level at which a file may be included. -/
def maxDepth : Nat := 32

/-- Where the texts of files come from. An open editor buffer comes before the disk. Asking for a
buffer can fail for a reason `ε` of its own, which ends the parse without a parse error. -/
structure Sources (ε : Type) where
  disk : Disk
  mappings : List Path.Mapping := []
  /-- The text of the open buffer for a path, if there is one. -/
  buffer : String → Except ε (Option (List Char)) := fun _ ↦ .ok none

/-- Why an expansion stopped before the end of the root file. -/
inductive Stop (ε : Type) where
  | error (e : ParseError)
  | fault (reason : ε)
deriving DecidableEq, Repr

/-- A row of tokens, the files opened for it, and what ended it early. -/
structure Expansion (ε : Type) where
  opened : List String := []
  tokens : List Token := []
  stop : Option (Stop ε) := none
  /-- The files announced, each before it was read. -/
  announced : List String := []

namespace Expansion

variable {ε : Type}

/-- What one piece or file contributes, followed by what comes after it. Nothing comes after a
stop, so the second part is looked at only where there was none. -/
def andThen (a : Expansion ε) (b : Unit → Expansion ε) : Expansion ε :=
  match a.stop with
  | some _ => a
  | none =>
    let next := b ()
    ⟨a.opened ++ next.opened, a.tokens ++ next.tokens, next.stop, a.announced ++ next.announced⟩

/-- An expansion that ends with an error. -/
def failed (cause : Cause) (location : Location) : Expansion ε :=
  { stop := some (.error ⟨cause, location⟩) }

/-- Puts the pieces of `file` in a row, where `enter` gives the contribution of an include. -/
def ofPieces (enter : String → Range → Expansion ε) : List Piece → Expansion ε
  | [] => {}
  | .token t :: rest => andThen { tokens := [t] } fun _ ↦ ofPieces enter rest
  | .fault e :: _ => { stop := some (.error e) }
  | .include target range :: rest => andThen (enter target range) fun _ ↦ ofPieces enter rest

end Expansion

namespace Sources

variable {ε : Type} (sources : Sources ε)

/-- The file that an include of `target` in `file` names: by the mappings, seen from the folder of
the root file, or else next to the including file. -/
def includePath (rootFolder file target : String) : String :=
  (Path.applyMappings sources.mappings rootFolder target).getD
    (Path.resolve (Path.parent file) target)

/-- The text of a file: its buffer, or else its content on disk. A file that cannot be read is
reported at `blame`. -/
def textOf (path : String) (blame : Location) : Except (Stop ε) (List Char) :=
  match sources.buffer path with
  | .error reason => .error (.fault reason)
  | .ok (some text) => .ok text
  | .ok none =>
    match sources.disk.readText path with
    | .ok text => .ok text
    | .error why => .error (.error ⟨.unreadable path why, blame⟩)

/-- Announces a file, opens it and puts its pieces in a row, where `enter` expands an include in
it. -/
def openFile (enter : String → Range → Expansion ε) (path : String) (blame : Location) :
    Expansion ε :=
  match sources.textOf path blame with
  | .error stop => { announced := [path], opened := [path], stop := some stop }
  | .ok text =>
    Expansion.andThen { announced := [path], opened := [path] } fun _ ↦
      .ofPieces enter (pieces path text)

/-- The contribution of an include of `target` at `range` of `file`. Here `within` holds the files
being read, `file` among them, and `room` the levels that may still be opened. -/
def expandInclude (rootFolder : String) (room : Nat) (within : List String) (file target : String)
    (range : Range) : Expansion ε :=
  let here : Location := ⟨file, range⟩
  match room with
  | 0 => .failed .includeTooDeep here
  | room + 1 =>
    let path := sources.includePath rootFolder file target
    if within.contains path then .failed (.recursiveInclude target) here
    else match sources.buffer path with
      | .error reason => { stop := some (.fault reason) }
      | .ok buffered =>
        if buffered.isNone && !sources.disk.isFile path then .failed (.missingInclude path) here
        else
          sources.openFile (expandInclude rootFolder room (within ++ [path]) path) path here

def expandRoot (file : String) : Expansion ε :=
  sources.openFile (sources.expandInclude (Path.parent file) maxDepth [file] file) file
    ⟨file, .empty⟩

theorem expandRoot_eq (file : String) : sources.expandRoot file
    = sources.openFile (sources.expandInclude (Path.parent file) maxDepth [file] file) file
        ⟨file, .empty⟩ := rfl

-- Unfolding an expansion by its definition runs into all its levels.
attribute [irreducible] expandRoot

end Sources

end MissionIndex.Config
