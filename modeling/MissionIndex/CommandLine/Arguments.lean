import MissionIndex.Text.Blank
import MissionIndex.Text.Letter

/-!
# Arguments

How the program is called: a command, the folder of a workspace, and switches. A long switch may be
cut short as long as no other starts with the same letters, short ones may be joined, and a value
follows in the next argument or behind an equals sign. Behind `--` everything is an operand, and so
is a number or a text with a blank, even if it starts with a hyphen.

Whatever is written before a call for help is looked at first: a switch without its value ends the
reading there, while an operand too many or an unknown switch is reported at the end only.
-/

namespace MissionIndex.CommandLine

open Text

/-- What the program is asked to do. -/
inductive Command where
  | check
  | functions
  | watch
deriving DecidableEq, Repr

def commands : List (String × Command) :=
  [("check", .check), ("functions", .functions), ("watch", .watch)]

/-- A call of the program. -/
structure Arguments where
  command : Command
  workspace : String
  /-- The settings file, if it is not the workspace's own. -/
  config : Option String := none
  verbose : Bool := false
deriving DecidableEq, Repr

/-- Why a call cannot be followed. -/
inductive Refusal where
  /-- The call asks for help. -/
  | help
  | misuse
deriving DecidableEq, Repr

/-! ## Switches -/

/-- What a switch is for. -/
inductive Switch where
  | help
  | config
  | verbose
deriving DecidableEq, Repr

def Switch.takesValue : Switch → Bool
  | .config => true
  | _ => false

/-- The switches that a call may have, by the ways to write them. -/
abbrev Switches := List (List Char × Switch)

def programSwitches : Switches := [("-h".toList, .help), ("--help".toList, .help)]

def commandSwitches : Switches :=
  programSwitches ++
    [("--config".toList, .config), ("-v".toList, .verbose), ("--verbose".toList, .verbose)]

/-- What an argument is. -/
inductive Meaning where
  | operand
  | unknown
  /-- a switch cut too short -/
  | ambiguous
  /-- a switch, with a text behind an equals sign or joined to it -/
  | switch (switch : Switch) (isJoined : Bool) (attached : Option (List Char))
deriving DecidableEq, Repr

/-- Whether an argument reads as a number below zero. -/
def isNegativeNumber (cs : List Char) : Bool :=
  match cs with
  | '-' :: size =>
    match cut? ['.'] size with
    | some (whole, places) => whole.all isDecimalDigit && places != [] && places.all isDecimalDigit
    | none => size != [] && size.all isDecimalDigit
  | _ => false

/-- The switches that an argument may be, which starts with a hyphen and is no switch in full. -/
def candidates (switches : Switches) (cs : List Char) : List Meaning :=
  match cs with
  | '-' :: '-' :: _ =>
    let (front, attached) := match cut? ['='] cs with
      | some (front, value) => (front, some value)
      | none => (cs, none)
    (switches.filter fun (name, _) ↦ front.isPrefixOf name).map fun (_, s) ↦
      .switch s false attached
  | '-' :: c :: rest =>
    (switches.filter fun (name, _) ↦ name == ['-', c]).map fun (_, s) ↦ .switch s true (some rest)
  | _ => []

/-- What an argument in front of `--` is. -/
def meaning (switches : Switches) (arg : String) : Meaning :=
  let cs := arg.toList
  match cs with
  | '-' :: _ :: _ =>
    match switches.lookup cs with
    | some s => .switch s false none
    | none =>
      let split := (cut? ['='] cs).bind fun (name, value) ↦
        (switches.lookup name).map fun s ↦ Meaning.switch s false (some value)
      match split with
      | some found => found
      | none =>
        match candidates switches cs with
        | [one] => one
        | _ :: _ => .ambiguous
        | [] => if isNegativeNumber cs || cs.contains ' ' then .operand else .unknown
  | _ => .operand

/-- The switches that one argument stands for, each with the value that it may have there. -/
structure Given where
  switches : List (Switch × Option (List Char))
  /-- Whether the argument ends in letters that stand for nothing. -/
  hasSurplus : Bool := false
deriving DecidableEq, Repr

/-- The switches that letters stand for which are joined to a switch without a value. -/
def joined (switches : Switches) : List Char → Option Given
  | [] => some ⟨[], false⟩
  | c :: cs =>
    if c = '-' then none
    else
      match switches.lookup ['-', c], cs with
      | none, _ => some ⟨[], true⟩
      | some s, [] => some ⟨[(s, none)], false⟩
      | some s, '=' :: value => if s.takesValue then some ⟨[(s, some value)], false⟩ else none
      | some s, cs =>
        if s.takesValue then some ⟨[(s, some cs)], false⟩
        else (joined switches cs).map fun more ↦
          { more with switches := (s, none) :: more.switches }

/-- The switches that stand in one argument, where a text may be attached to the first. -/
def spread (switches : Switches) (s : Switch) (isJoined : Bool) : Option (List Char) → Option Given
  | none => some ⟨[(s, none)], false⟩
  | some value =>
    if s.takesValue then some ⟨[(s, some value)], false⟩
    else if isJoined then
      (joined switches value).map fun more ↦ { more with switches := (s, none) :: more.switches }
    else none

/-! ## Reading -/

/-- The arguments of a command as far as they have been read. -/
structure Reading where
  workspace : Option String := none
  config : Option String := none
  verbose : Bool := false
  /-- Whether there was anything that has no place. -/
  hasSurplus : Bool := false
  /-- Whether the workspace was the last argument read. -/
  workspaceLast : Bool := false
deriving DecidableEq, Repr

namespace Reading

def addOperand (r : Reading) (arg : String) : Reading :=
  match r.workspace with
  | none => { r with workspace := some arg, workspaceLast := true }
  | some _ => { r with hasSurplus := true, workspaceLast := false }

/-- Takes up the operands behind `--`. The sign has no place unless it stands beside the
workspace. -/
def addLast (r : Reading) (rest : List String) : Reading :=
  match r.workspace, rest with
  | none, [] => { r with hasSurplus := true }
  | none, workspace :: more =>
    { r with workspace := some workspace, hasSurplus := r.hasSurplus || !more.isEmpty }
  | some _, _ => { r with hasSurplus := r.hasSurplus || !r.workspaceLast || !rest.isEmpty }

/-- Takes up a switch that needs nothing more. -/
def addSwitch (r : Reading) : Switch × Option (List Char) → Reading
  | (.verbose, _) => { r with verbose := true, workspaceLast := false }
  | (.config, value) => { r with config := value.map String.ofList, workspaceLast := false }
  | (.help, _) => r

/-- Takes up the arguments of a command. -/
def addAll (r : Reading) : List String → Except Refusal Reading
  | [] => .ok r
  | "--" :: rest => .ok (r.addLast rest)
  | arg :: rest =>
    match meaning commandSwitches arg with
    | .operand => (r.addOperand arg).addAll rest
    | .unknown => addAll { r with hasSurplus := true, workspaceLast := false } rest
    | .ambiguous => .error .misuse
    | .switch s isJoined attached =>
      match spread commandSwitches s isJoined attached with
      | none => .error .misuse
      | some given =>
        if given.switches.any (·.1 == .help) then .error .help
        else if given.switches.any fun (s, value) ↦ s.takesValue && value.isNone then
          match rest with
          | value :: rest =>
            if value != "--" && meaning commandSwitches value == .operand then
              addAll { r with config := some value, workspaceLast := false } rest
            else .error .misuse
          | [] => .error .misuse
        else
          let r := { r with hasSurplus := r.hasSurplus || given.hasSurplus }
          (given.switches.foldl addSwitch r).addAll rest

end Reading

/-- Reads the arguments of a command. An empty name of a settings file counts as none. -/
def readCommand (command : Command) (args : List String) : Except Refusal Arguments :=
  let front := args.takeWhile (· != "--")
  if front.any (meaning commandSwitches · == .ambiguous) then .error .misuse
  else
    match Reading.addAll {} args with
    | .error refusal => .error refusal
    | .ok r =>
      match r.workspace with
      | some workspace =>
        if r.hasSurplus then .error .misuse
        else .ok { command, workspace, config := r.config.filter (· != ""), verbose := r.verbose }
      | none => .error .misuse

/-- Reads a call of the program behind arguments of which some may have had no place. A call may
also name no command. -/
def readFrom (hasSurplus : Bool) : List String → Except Refusal (Option Arguments)
  | [] => if hasSurplus then .error .misuse else .ok none
  | "--" :: _ => .error .misuse
  | arg :: rest =>
    match meaning programSwitches arg with
    | .operand =>
      match commands.lookup arg with
      | none => .error .misuse
      | some command =>
        match readCommand command rest with
        | .error refusal => .error refusal
        | .ok arguments => if hasSurplus then .error .misuse else .ok (some arguments)
    | .unknown => readFrom true rest
    | .ambiguous => .error .misuse
    | .switch s isJoined attached =>
      match spread programSwitches s isJoined attached with
      | some _ => .error .help
      | none => .error .misuse

def readArguments (args : List String) : Except Refusal (Option Arguments) := readFrom false args

end MissionIndex.CommandLine
