import MissionIndex.Registry.Record

/-!
# Rendering functions

How a function is shown to people: the call that a script makes of it, and its documentation as
Markdown.
-/

namespace MissionIndex.Query

open Header

/-- The name of the argument at a position: that of the parameter, or one made up of its type. A
default value of an optional parameter follows it. -/
def argumentName (index : Nat) (p : Parameter) : String :=
  let name := match p.name with
    | some name => if name.isEmpty then none else some name
    | none => none
  let shown := name.getD ("_" ++ Text.lower p.type ++ toString index)
  match p.default with
  | some value => if p.optional && !value.isEmpty then shown ++ "=" ++ value else shown
  | none => shown

def renderArguments (info : Info) : String :=
  match info.parameter with
  | some p => p.type
  | none =>
    if info.parameters.isEmpty then anyType
    else "[" ++ ",".intercalate (info.parameters.mapIdx argumentName) ++ "]"

/-- The call of a function, with what it returns in front. -/
def renderSignature (r : FunctionRecord) : String :=
  let returned := match r.info.bind fun info ↦ info.returns.type with
    | some type => if type.isEmpty then "" else " " ++ type ++ " ="
    | none => ""
  let arguments := (r.info.map renderArguments).getD anyType
  "(function)" ++ returned ++ " " ++ arguments ++ " call " ++ r.name

/-- The line about the parameter at a position. -/
def renderParameter (index : Nat) (p : Parameter) : String :=
  let shown := match p.name with
    | some name => if name.isEmpty then p.type else name ++ " (" ++ p.type ++ ")"
    | none => p.type
  toString index ++ ". " ++ shown ++ " - " ++ p.description

/-- The documentation of a function: its summary, its parameters, and how it is called. -/
def renderFunction (r : FunctionRecord) : String :=
  let summary := match r.info with
    | some info => if info.description.short.isEmpty then "" else info.description.short ++ "\n"
    | none => ""
  let parameters := match r.info with
    | some info =>
      if info.parameters.isEmpty then ""
      else "\n" ++ "\n".intercalate (info.parameters.mapIdx renderParameter) ++ "\n\n"
    | none => ""
  summary ++ parameters ++ "```sqf\n" ++ renderSignature r ++ "\n```"

end MissionIndex.Query
