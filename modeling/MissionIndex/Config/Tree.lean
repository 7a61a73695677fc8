import MissionIndex.Config.Statement
import MissionIndex.Ordered
import MissionIndex.Text.Lower

/-!
# Config trees

A description file amounts to a tree of classes. Each class has a body with variables and child
classes, both in the order in which their names came in. Names are told apart by their lower-case
forms, under which they are stored; a class also keeps the spelling and the place of its
declaration.
-/

namespace MissionIndex.Config

open Text

/-- Variables and child classes, by lower-case name. -/
structure Body (κ : Type) where
  values : List (String × Value) := []
  classes : List (String × κ) := []
deriving Repr, Inhabited

/-- A class of a config tree. -/
structure ConfigClass where
  name : String
  /-- The name of the class that this one started as a copy of, as written. -/
  base : Option String := none
  location : Location
  body : Body ConfigClass := {}
deriving Repr, Inhabited

namespace ConfigClass

variable (c : ConfigClass)

def child? (name : String) : Option ConfigClass := c.body.classes.lookup (lower name)

def value? (name : String) : Option Value := c.body.values.lookup (lower name)

def text? (name : String) : Option String :=
  match c.value? name with
  | some (.text s) => if s.isEmpty then none else some s
  | _ => none

/-- The class that a path of names leads to. -/
def descend? (c : ConfigClass) : List String → Option ConfigClass
  | [] => some c
  | name :: rest => (c.child? name).bind (descend? · rest)

end ConfigClass

end MissionIndex.Config
