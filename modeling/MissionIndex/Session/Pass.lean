import MissionIndex.Config.Parse
import MissionIndex.Header.Reading
import MissionIndex.Registry.Build
import MissionIndex.Session.Basic

/-!
# Passes over root files

A pass reads a root file with all that it includes and takes up the functions that it declares. It
begins in one step: the diagnostics of every file announced are cleared, then either those of the
pass are published and its table takes the place of the last one, or the error that stopped it is
published and the table stays. After that, the headers of the scripts that are there are read one by
one. By then a later pass may have replaced the table, and what is found goes nowhere.
-/

namespace MissionIndex

/-- A pass that has begun: a root file, the number of the pass, and the functions whose scripts are
still to be looked into. -/
structure Pass where
  root : String
  number : Nat
  scripts : List (String × String)
deriving DecidableEq, Repr

namespace Session

variable (s : Session)

/-- The sources that passes read: the open documents, then the disk. -/
def sources : Config.Sources Uri.NoUri where
  disk := s.disk
  mappings := s.settings.mappings
  buffer path := (s.documents.textFor s.disk.workingDirectory path).map (·.map String.toList)

def clear (paths : List String) : Session := paths.foldl (fun s path ↦ s.publishAt path []) s

def reportOf (e : Config.ParseError) : Diagnostic := .error e.location.range e.message

def publishAll (batch : List (String × List Diagnostic)) : Session :=
  { s with published := s.published ++ batch }

/-- Takes up what a pass has found. -/
def adopt (root : String) (build : Registry.Build) : Session :=
  { s with
    passes := s.passes + 1
    functions := Ordered.put root ⟨s.passes, build.functions⟩ s.functions }.publishAll
      build.diagnostics

/-- Begins a pass over a root file. The outcome is a pass if the file could be read, and the failure
if one of the paths on the way has no URI. -/
def beginPass (root : String) : Session × Except Uri.NoUri (Option Pass) :=
  let outcome := s.sources.parse root
  let cleared := s.clear outcome.announced
  match outcome.result with
  | .error (.fault e) => (cleared, .error e)
  | .error (.error e) => (cleared.publishAt e.location.file [reportOf e], .ok none)
  | .ok tree =>
    match Registry.build s.settings s.disk root tree with
    | .error e => (cleared, .error e)
    | .ok build =>
      let scripts := build.functions.map fun (key, r) ↦ (key, r.script)
      (cleared.adopt root build, .ok (some { root, number := s.passes, scripts }))

/-- Writes down what the header of a function's script says, if the table is still that of the
pass. -/
def document (pass : Nat) (key : String) (info : Header.Info) (indexed : Indexed) : Indexed :=
  if indexed.pass = pass then
    { indexed with
      table := Ordered.modify key (fun r ↦ { r with info := some info }) indexed.table }
  else indexed

def lookInto (begun : Pass) (key script : String) : Session :=
  if s.disk.isFile script then
    match Header.ofScript? s.disk script with
    | some info =>
      let functions := Ordered.modify begun.root (document begun.number key info) s.functions
      { s with functions }
    | none => s
  else s

/-- Looks into all scripts of a pass. -/
def complete (begun : Pass) : Session :=
  begun.scripts.foldl (fun s (key, script) ↦ s.lookInto begun key script) s

/-- A whole pass over a root file, and its failure if it fails. -/
def pass (root : String) : Session × Option Uri.NoUri :=
  match s.beginPass root with
  | (s, .ok (some begun)) => (s.complete begun, none)
  | (s, .ok none) => (s, none)
  | (s, .error e) => (s, some e)

end Session

end MissionIndex
