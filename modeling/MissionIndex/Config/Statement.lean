import MissionIndex.Config.Token

/-!
# Statements

What a description file says, apart from how it is written: assignments, class declarations and
definitions, and deletions. A definition holds the statements of its body. Names keep the spelling
of the file; that spelling does not distinguish names is a matter of what statements do.
-/

namespace MissionIndex.Config

/-- A variable is a text or a list of values. -/
inductive Value where
  | text (s : String)
  | list (items : List Value)
deriving Repr, Inhabited

/-- A name with the place where it stands. -/
structure Name where
  text : String
  location : Location
deriving DecidableEq, Repr

/-- One statement of a class body. -/
inductive Statement where
  /-- `name = value;` -/
  | assign (name : String) (value : String)
  /-- `name[] = items;`, or `name[] += items;` to append -/
  | assignList (name : String) (append : Bool) (items : List Value)
  /-- `class name;` or `class name : base;` -/
  | declare (name : Name) (base : Option String)
  /-- `class name` with a body, with or without a base -/
  | define (name : Name) (base : Option String) (body : List Statement)
  /-- `delete name;` -/
  | delete (name : String)
deriving Repr, Inhabited

end MissionIndex.Config
