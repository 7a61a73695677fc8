import MissionIndex.Config.Parse

/-!
# Parsers

A parser is an object that parses one root file after another. What it reads of the world it reads
at the moment of the call: the disk, and the open documents by way of a hook. What it has read so
far is in its fields, and so it is still there when the next call comes, also where a call has
failed halfway.

Here a call is told step by step, with each assignment to a field and each exception.
`Sources.parse` says what comes out of it, without the fields.

## Hooks

Whoever owns a parser may be told of each file before it is read, and may have a say in what its
text is. The second hook is replaced for the time of a call that parses a given text.
-/

namespace MissionIndex.Config

/-- Gives the text of a document that is open at a moment, or fails for a reason of its own. -/
abbrev Hook (ω ε : Type) := ω → String → Except ε (Option (List Char))

/-- A parser with its settings and what the last call has left in it. -/
structure Parser (ω ε : Type) where
  mappings : List Path.Mapping := []
  /-- Whether someone is to be told of each file. -/
  announces : Bool := false
  load : Option (Hook ω ε) := none
  rootFolder : String := ""
  /-- The files that are being read. -/
  stack : List String := []
  /-- The files that have been opened. -/
  files : List String := []
  tokens : List Token := []
  /-- The number of tokens that have been read as statements. -/
  index : Nat := 0

/-- A parser, and the files that have been announced. -/
structure Scene (ω ε : Type) where
  parser : Parser ω ε
  told : List String := []

/-- What a parser does: it may end early, and what it has done until then stays done. -/
abbrev Act (ω ε : Type) := ExceptT (Stop ε) (StateM (Scene ω ε))

namespace Parser

variable {ω ε : Type}

/-- What a parser with this hook reads at a moment, where `disk` is the disk of the moment. -/
def sources (disk : ω → Disk) (now : ω) (p : Parser ω ε) : Sources ε where
  disk := disk now
  mappings := p.mappings
  buffer path := match p.load with
    | none => .ok none
    | some load => load now path

/-- Assigns to the fields of the parser. -/
def update (f : Parser ω ε → Parser ω ε) : Act ω ε Unit :=
  modify fun scene ↦ { scene with parser := f scene.parser }

/-- Announces a file, if someone is to be told. -/
def announce (path : String) : Act ω ε Unit :=
  modify fun scene ↦ if scene.parser.announces then { scene with told := scene.told ++ [path] }
  else scene

/-- Goes through the pieces of a file, where `enter` goes through an included file. -/
def tokenize (enter : String → Range → Act ω ε Unit) : List Piece → Act ω ε Unit
  | [] => pure ()
  | .token t :: rest => do
    update fun p ↦ { p with tokens := p.tokens ++ [t] }
    tokenize enter rest
  | .fault e :: _ => throw (.error e)
  | .include target range :: rest => do
    enter target range
    tokenize enter rest

section

variable (disk : ω → Disk) (now : ω)

/-- Reads a file. One that cannot be read is reported at the include, or else in the file itself. -/
def readFile (enter : String → Range → Act ω ε Unit) (path : String) (range : Option Range) :
    Act ω ε Unit := do
  announce path
  update fun p ↦ { p with files := p.files ++ [path] }
  let p := (← get).parser
  let text ← liftExcept ((p.sources disk now).textOf path ⟨p.stack.getLast?.getD path,
    range.getD .empty⟩)
  update fun p ↦ { p with stack := p.stack ++ [path] }
  try tokenize enter (pieces path text)
  finally update fun p ↦ { p with stack := p.stack.dropLast }

/-- Goes through the file that an include of `target` in `file` asks for. Here `room` is the number
of levels that may still be opened. -/
def expand (room : Nat) (file target : String) (range : Range) : Act ω ε Unit := do
  let here : Location := ⟨file, range⟩
  match room with
  | 0 => throw (.error ⟨.includeTooDeep, here⟩)
  | room + 1 =>
    let p := (← get).parser
    let path := (p.sources disk now).includePath p.rootFolder file target
    if p.stack.contains path then throw (.error ⟨.recursiveInclude target, here⟩)
    else match (p.sources disk now).buffer path with
      | .error reason => throw (.fault reason)
      | .ok buffered =>
        if buffered.isNone && !(disk now).isFile path
          then throw (.error ⟨.missingInclude path, here⟩)
        else readFile disk now (expand room path) path (some range)

end

/-- Takes the tokens one by one, and counts them. -/
def readTokens (r : Reader) : List Token → Act ω ε Reader
  | [] => pure r
  | t :: rest =>
    match r.step t with
    | .ok next => do
      update fun p ↦ { p with index := p.index + 1 }
      readTokens next rest
    | .error cause => throw (.error ⟨cause, t.location⟩)

/-- Reads the tokens from the index on as statements. -/
def readTree (file : String) : Act ω ε ConfigClass := do
  let p := (← get).parser
  let r ← readTokens {} (p.tokens.drop p.index)
  match r.finish with
  | .ok statements => pure (rootClass file statements)
  | .error cause => throw (.error ⟨cause, endOfInput (p.files.head?.getD "") p.tokens⟩)

section

variable (disk : ω → Disk) (now : ω)

def readRoot (file : String) : Act ω ε ConfigClass := do
  update fun p ↦ { p with tokens := [] }
  readFile disk now (expand disk now maxDepth file) file none
  update fun p ↦ { p with index := 0 }
  readTree file

/-- Parses a root file. A parse error is the result then, and everything else that ends the call is
passed on. -/
def parse (path : String) : Act ω ε (Except ParseError ConfigClass) := do
  let file := (disk now).absolute path
  update fun p ↦ { p with rootFolder := Path.parent file, stack := [], files := [] }
  try
    let tree ← readRoot disk now file
    pure (.ok tree)
  catch
    | .error e => pure (.error e)
    | .fault reason => throw (.fault reason)

/-- A hook that gives a text for a path, and for all other paths what the hook before it gives. -/
def loading (path : String) (text : List Char) (previous : Option (Hook ω ε)) : Hook ω ε :=
  fun now asked ↦
  if (disk now).absolute asked = (disk now).absolute path then .ok (some text)
  else match previous with
    | none => .ok none
    | some load => load now asked

/-- Parses a text as if it were the content of a root file. -/
def parseText (path : String) (text : List Char) : Act ω ε (Except ParseError ConfigClass) := do
  let previous := (← get).parser.load
  update fun p ↦ { p with load := some (loading disk path text previous) }
  try parse disk now path
  finally update fun p ↦ { p with load := previous }

/-- What may be asked of a parser. -/
inductive Call where
  | parse (path : String)
  | parseText (path : String) (text : List Char)

/-- What a parser does when it is called. -/
def Call.act : Call → Act ω ε (Except ParseError ConfigClass)
  | .parse path => Parser.parse disk now path
  | .parseText path text => Parser.parseText disk now path text

/-- Calls a parser: what comes out of the call, and what is left in the parser. -/
def call (c : Call) (p : Parser ω ε) : Outcome ε × Parser ω ε :=
  let (result, scene) := (c.act disk now).run.run { parser := p }
  ({ opened := scene.parser.files
     announced := scene.told
     result := match result with
       | .ok (.ok tree) => .ok tree
       | .ok (.error e) => .error (.error e)
       | .error stop => .error stop }, scene.parser)

end

/-- Calls a parser again and again, each time at another moment. -/
def calls (disk : ω → Disk) : List (ω × Call) → Parser ω ε → List (Outcome ε) × Parser ω ε
  | [], p => ([], p)
  | (now, c) :: rest, p =>
    let (outcome, next) := p.call disk now c
    let (outcomes, last) := next.calls disk rest
    (outcome :: outcomes, last)

end Parser

end MissionIndex.Config
