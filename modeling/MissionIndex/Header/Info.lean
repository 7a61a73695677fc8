/-!
# Documentation of a script

What the header comment of a script says about its function. Whatever it does not say is left empty.
-/

namespace MissionIndex.Header

/-- The conventions for header comments. -/
inductive Style where
  /-- labels such as `Description:` and `Parameter(s):` -/
  | bis
  /-- labels such as `Arguments:` and `Return Value:`, and types in angle brackets -/
  | cba
  /-- free text -/
  | plain
deriving DecidableEq, Repr

namespace Style

def name : Style → String
  | bis => "bis"
  | cba => "cba"
  | plain => "plain"

end Style

/-- The type of a parameter of which none is given. -/
def anyType : String := "ANY"

/-- One parameter of a function. -/
structure Parameter where
  name : Option String := none
  type : String := anyType
  description : String := ""
  optional : Bool := false
  default : Option String := none
deriving DecidableEq, Repr, Inhabited

/-- What a function returns. -/
structure Returns where
  type : Option String := none
  description : String := ""
deriving DecidableEq, Repr, Inhabited

/-- What a function does, in one line and in full. -/
structure Description where
  short : String := ""
  full : String := ""
deriving DecidableEq, Repr, Inhabited

/-- All that a header comment says. -/
structure Info where
  description : Description := {}
  parameters : List Parameter := []
  /-- The parameter that is passed by itself and not in an array. -/
  parameter : Option Parameter := none
  returns : Returns := {}
  author : Option String := none
  examples : List String := []
  isPublic : Option Bool := none
  style : Style := .plain
deriving DecidableEq, Repr

instance : Inhabited Info := ⟨{}⟩

end MissionIndex.Header
