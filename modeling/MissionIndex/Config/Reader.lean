import MissionIndex.Config.Statement

/-!
# Reading statements

The grammar of description files, read one token at a time by a left fold. A `Reader` holds what has
been read so far and what is awaited next; a step takes one token and either moves on or names the
cause why the token cannot stand there. So the first token that fits no file is the one at which the
fold stops, and an error needs no place of its own: it is the token of the step.

## The state

The bodies still open form a stack, each with the statements read in it. `Awaiting` tells where in a
statement the reader is. Lists nest, so the lists still open form a stack as well, each with the
items read in it.
-/

namespace MissionIndex.Config

/-- What a list is being read for: the variable, and whether the list is appended to it. -/
structure ListTarget where
  name : String
  append : Bool
deriving DecidableEq, Repr

/-- Where in a statement the reader is. -/
inductive Awaiting where
  | statement
  /-- after `class` -/
  | className
  /-- after the name of a class: a base, a body or the end -/
  | classHead (name : Name)
  /-- after the colon -/
  | baseName (name : Name)
  /-- after the base: a body or the end -/
  | classBody (name : Name) (base : String)
  /-- after the body, whose statement is complete but for its semicolon -/
  | classEnd (done : Statement)
  /-- after `delete` -/
  | deletedName
  /-- after the name to delete -/
  | deleteEnd (name : String)
  /-- after the name of a variable: brackets or an assignment -/
  | variableHead (name : String)
  /-- after the opening bracket -/
  | bracket (name : String)
  /-- after the brackets -/
  | listAssignment (name : String)
  /-- after the assignment to a name with brackets -/
  | listStart (target : ListTarget)
  /-- at the start of an item of the innermost list, of which `items` are read -/
  | item (target : ListTarget) (outer : List (List Value)) (items : List Value)
  /-- inside an item, of which `parts` are read -/
  | itemPart (target : ListTarget) (outer : List (List Value)) (items : List Value)
      (parts : List Token)
  /-- after an item that is a list -/
  | separator (target : ListTarget) (outer : List (List Value)) (items : List Value)
  /-- after the outermost list -/
  | listEnd (target : ListTarget) (items : List Value)
  /-- inside a text value, of which `parts` are read -/
  | value (name : String) (parts : List Token)
deriving Repr

/-- A body still open: its statements so far, and the class whose definition comes next in it. -/
structure OpenBody where
  statements : List Statement
  name : Name
  base : Option String
deriving Repr

/-- What has been read so far. -/
structure Reader where
  /-- The bodies around the innermost one, from the inside out. -/
  outer : List OpenBody := []
  /-- The statements read in the innermost body. -/
  statements : List Statement := []
  awaiting : Awaiting := .statement
deriving Repr

/-- The meaning of a row of tokens as a value: that of a single quoted text is what it quotes, and
otherwise the tokens are put in a row as written. -/
def valueOfParts : List Token → String
  | [⟨.quoted value, _, _⟩] => value
  | parts => " ".intercalate (parts.map Token.text)

namespace Reader

variable (r : Reader)

def add (s : Statement) : Reader :=
  { r with statements := r.statements ++ [s], awaiting := .statement }

/-- The reader inside the body of a class. -/
def enter (name : Name) (base : Option String) : Reader :=
  { outer := ⟨r.statements, name, base⟩ :: r.outer, statements := [], awaiting := .statement }

/-- The reader after a list, which is the whole value or an item of the list around it. -/
def closeList (target : ListTarget) (outer : List (List Value)) (items : List Value) : Reader :=
  match outer with
  | [] => { r with awaiting := .listEnd target items }
  | around :: outer => { r with awaiting := .separator target outer (around ++ [.list items]) }

/-- Reads one token at the start of a statement. -/
def stepStatement (t : Token) : Except Cause Reader :=
  match t.kind with
  | .mark .closeBrace =>
    match r.outer with
    | [] => .error (.unexpected t.text)
    | around :: outer =>
      .ok ⟨outer, around.statements, .classEnd (.define around.name around.base r.statements)⟩
  | .mark .semicolon => .ok r
  | .word =>
    if t.text = "class" then .ok { r with awaiting := .className }
    else if t.text = "delete" then .ok { r with awaiting := .deletedName }
    else .ok { r with awaiting := .variableHead t.text }
  | _ => .error (.unexpected t.text)

/-- Reads one token at the start of an item of a list. -/
def stepItem (target : ListTarget) (outer : List (List Value)) (items : List Value) (t : Token) :
    Except Cause Reader :=
  match t.kind with
  | .mark .closeBrace => .ok (r.closeList target outer items)
  | .mark .openBrace => .ok { r with awaiting := .item target (items :: outer) [] }
  | .mark .comma => .error (.expectedValue t.text)
  | .mark .semicolon | .mark .equals | .mark .openBracket | .mark .closeBracket =>
    .error (.unexpected t.text)
  | _ => .ok { r with awaiting := .itemPart target outer items [t] }

def stepItemPart (target : ListTarget) (outer : List (List Value)) (items : List Value)
    (parts : List Token) (t : Token) : Except Cause Reader :=
  let complete := items ++ [.text (valueOfParts parts)]
  match t.kind with
  | .mark .closeBrace => .ok (r.closeList target outer complete)
  | .mark .comma => .ok { r with awaiting := .item target outer complete }
  | .mark .openBrace | .mark .semicolon | .mark .equals | .mark .openBracket
  | .mark .closeBracket => .error (.unexpected t.text)
  | _ => .ok { r with awaiting := .itemPart target outer items (parts ++ [t]) }

def stepValue (name : String) (parts : List Token) (t : Token) : Except Cause Reader :=
  match t.kind with
  | .mark .semicolon =>
    if parts.isEmpty then .error (.expectedValue t.text)
    else .ok (r.add (.assign name (valueOfParts parts)))
  | .mark .closeBrace =>
    .error (if parts.isEmpty then .expectedValue t.text else .expectedMark .semicolon t.text)
  | .mark .openBrace | .mark .openBracket | .mark .closeBracket => .error (.unexpected t.text)
  | _ => .ok { r with awaiting := .value name (parts ++ [t]) }

def step (t : Token) : Except Cause Reader :=
  let found := some t.text
  match r.awaiting with
  | .statement => r.stepStatement t
  | .className =>
    if t.kind = .word then .ok { r with awaiting := .classHead ⟨t.text, t.location⟩ }
    else .error (.expectedName "class name" found)
  | .classHead name =>
    match t.kind with
    | .mark .colon => .ok { r with awaiting := .baseName name }
    | .mark .semicolon => .ok (r.add (.declare name none))
    | .mark .openBrace => .ok (r.enter name none)
    | _ => .error (.expectedMark .openBrace found)
  | .baseName name =>
    if t.kind = .word then .ok { r with awaiting := .classBody name t.text }
    else .error (.expectedName "base class name" found)
  | .classBody name base =>
    match t.kind with
    | .mark .semicolon => .ok (r.add (.declare name base))
    | .mark .openBrace => .ok (r.enter name base)
    | _ => .error (.expectedMark .openBrace found)
  | .classEnd done =>
    if t.kind = .mark .semicolon then .ok (r.add done)
    else .error (.expectedMark .semicolon found)
  | .deletedName =>
    if t.kind = .word then .ok { r with awaiting := .deleteEnd t.text }
    else .error (.expectedName "class name" found)
  | .deleteEnd name =>
    if t.kind = .mark .semicolon then .ok (r.add (.delete name))
    else .error (.expectedMark .semicolon found)
  | .variableHead name =>
    match t.kind with
    | .mark .openBracket => .ok { r with awaiting := .bracket name }
    | .mark .equals => .ok { r with awaiting := .value name [] }
    | .mark .plusEquals => .error .appendToScalar
    | _ => .error (.expectedAssignment name found)
  | .bracket name =>
    if t.kind = .mark .closeBracket then .ok { r with awaiting := .listAssignment name }
    else .error (.expectedMark .closeBracket found)
  | .listAssignment name =>
    match t.kind with
    | .mark .equals => .ok { r with awaiting := .listStart ⟨name, false⟩ }
    | .mark .plusEquals => .ok { r with awaiting := .listStart ⟨name, true⟩ }
    | _ => .error (.expectedAssignment name found)
  | .listStart target =>
    if t.kind = .mark .openBrace then .ok { r with awaiting := .item target [] [] }
    else .error (.expectedList target.name found)
  | .item target outer items => r.stepItem target outer items t
  | .itemPart target outer items parts => r.stepItemPart target outer items parts t
  | .separator target outer items =>
    match t.kind with
    | .mark .comma => .ok { r with awaiting := .item target outer items }
    | .mark .closeBrace => .ok (r.closeList target outer items)
    | _ => .error (.expectedSeparator found)
  | .listEnd target items =>
    if t.kind = .mark .semicolon then
      .ok (r.add (.assignList target.name target.append items))
    else .error (.expectedMark .semicolon found)
  | .value name parts => r.stepValue name parts t

/-- What is missing at the end of the input, or the statements of the whole file. -/
def finish : Except Cause (List Statement) :=
  match r.awaiting with
  | .statement => if r.outer.isEmpty then .ok r.statements
      else .error (.expectedMark .closeBrace none)
  | .className | .deletedName => .error (.expectedName "class name" none)
  | .classHead _ | .classBody .. => .error (.expectedMark .openBrace none)
  | .baseName _ => .error (.expectedName "base class name" none)
  | .classEnd _ | .deleteEnd _ | .listEnd .. => .error (.expectedMark .semicolon none)
  | .variableHead name | .listAssignment name => .error (.expectedAssignment name none)
  | .bracket _ => .error (.expectedMark .closeBracket none)
  | .listStart target => .error (.expectedList target.name none)
  | .item .. | .itemPart .. => .error (.expectedMark .closeBrace none)
  | .separator .. => .error (.expectedSeparator none)
  | .value _ parts =>
    .error (if parts.isEmpty then .expectedValue none else .expectedMark .semicolon none)

/-- Reads tokens up to the first that cannot stand where it does. -/
def run : Reader → List Token → Except ParseError Reader
  | r, [] => .ok r
  | r, t :: rest =>
    match r.step t with
    | .ok next => next.run rest
    | .error cause => .error ⟨cause, t.location⟩

end Reader

/-- The place where an input ends: after its last token, or at the start of `file` when it has
none. -/
def endOfInput (file : String) (tokens : List Token) : Location :=
  match tokens.getLast? with
  | some t => ⟨t.location.file, t.location.range.stop, t.location.range.stop⟩
  | none => ⟨file, .empty⟩

/-- The statements of an input that starts with `file`. -/
def readStatements (file : String) (tokens : List Token) : Except ParseError (List Statement) :=
  match ({} : Reader).run tokens with
  | .error e => .error e
  | .ok r =>
    match r.finish with
    | .ok statements => .ok statements
    | .error cause => .error ⟨cause, endOfInput file tokens⟩

end MissionIndex.Config
