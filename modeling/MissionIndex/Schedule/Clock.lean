import MissionIndex.Schedule.Agenda
import MissionIndex.Schedule.Dispatcher

/-!
# Running on a clock

A dispatcher in the course of time. Events are planned ahead, and what they set off (waits, tasks
that take a while) is planned as it comes up. Time is virtual: it stands still while anything is
ready to happen and then moves on to what is due next.

## The order of things

Events are due at the very start of their time. Whatever is planned in between is due later than the
moment it is planned at, by a tick that grows with every entry planned, so the waits that end at one
time end one after another, and after all events of that time. Things happen in rounds: a round
makes everything happen that was ready when it began, and what becomes ready by that waits for the
next round. Waits that nobody awaits any more leave the agenda when they are next in it.
-/

namespace MissionIndex.Schedule

/-- A task that acts on a state of type `σ`, with results in `ρ`. -/
structure Task (σ ρ ι : Type) where
  /-- What the task is called in the log. -/
  label : ι
  /-- How long it takes if it is suspended in between. -/
  duration : Option Nat := none
  /-- What it does before it ends, and how it ends. -/
  act : σ → σ × Ending ρ

/-- What can happen from outside. -/
inductive Event (σ ρ ι : Type) where
  | request (key : String) (task : Task σ ρ ι)
  | cancel (key : String)
  /-- The question whether a request for a key is pending. -/
  | ask (key : String)
  /-- A new length of waits. -/
  | setDelay (delay : Nat)
  /-- The request to give up everything pending and to wait for the runs in progress. -/
  | close (label : ι)
  /-- A change of the state. -/
  | change (label : ι) (act : σ → σ)

/-- What has happened. -/
inductive Entry (ρ ι : Type) where
  | started (label : ι)
  | ended (label : ι)
  | settled (label : ι) (outcome : Settled ρ)
  | answered (key : String) (isPending : Bool)
  | closed (label : ι)
  | changed (label : ι)

/-- What can be due or ready. -/
inductive Action (σ ρ ι : Type) where
  | event (event : Event σ ρ ι)
  | endWait (number : Nat)
  | enter
  | wake (gate : Nat)
  /-- Ends a task that was suspended. -/
  | resume (run : Run (Task σ ρ ι))
  /-- Makes the end of a run known to those who wait for it to close. -/
  | noticeEnd (number : Nat)
  | beginClosing (label : ι)
  | closed (label : ι)
  | stop

/-- A state that tasks act on, their dispatcher, and what is due and ready. -/
structure Clock (σ ρ ι : Type) where
  state : σ
  dispatcher : Dispatcher (Task σ ρ ι) ρ := {}
  /-- What the tasks of the requests are called, by number. -/
  labels : List ι := []
  now : Moment := {}
  agenda : Agenda (Action σ ρ ι) := {}
  /-- The number of entries planned so far. -/
  planned : Nat := 0
  ready : List (Action σ ρ ι) := []
  /-- Those who wait to close, with the runs they wait for. -/
  closing : List (ι × List Nat) := []
  log : List (Nat × Entry ρ ι) := []
  stopped : Bool := false

namespace Clock

variable {σ ρ ι : Type} (clock : Clock σ ρ ι)

/-- Writes an entry into the log. -/
def note (entry : Entry ρ ι) : Clock σ ρ ι :=
  { clock with log := clock.log ++ [(clock.now.time, entry)] }

/-- Adds an action to those that the next round makes happen. -/
def soon (action : Action σ ρ ι) : Clock σ ρ ι := { clock with ready := clock.ready ++ [action] }

def planAt (time : Nat) (action : Action σ ρ ι) : Clock σ ρ ι :=
  { clock with
    agenda := clock.agenda.insert { time } action
    planned := clock.planned + 1 }

def planAfter (delay : Nat) (action : Action σ ρ ι) : Clock σ ρ ι :=
  let planned := clock.planned + 1
  { clock with
    agenda := clock.agenda.insert ⟨clock.now.time + delay, clock.now.tick + planned⟩ action
    planned }

/-- Makes a move, and writes down what is settled by it. -/
def move (move : Move (Task σ ρ ι) ρ) : Clock σ ρ ι :=
  let dispatcher := clock.dispatcher.move move
  let news := dispatcher.settled.drop clock.dispatcher.settled.length
  news.foldl
    (fun clock (number, outcome) ↦ match clock.labels[number]? with
      | some label => clock.note (.settled label outcome)
      | none => clock)
    { clock with dispatcher }

/-! ## Actions -/

/-- Lets those know who wait for a run to close that it has ended. -/
def noticeEnd (number : Nat) : Clock σ ρ ι :=
  let left := clock.closing.map fun (label, runs) ↦ (label, runs.filter (· != number))
  let finished := (clock.closing.zip left).filter fun (before, after) ↦
    before.2.contains number && after.2.isEmpty
  finished.foldl (fun clock (_, label, _) ↦ clock.soon (.closed label))
    { clock with closing := left.filter fun (_, runs) ↦ !runs.isEmpty }

/-- Ends the task of a run. The gate that the run leaves can let the next one pass. -/
def finish (run : Run (Task σ ρ ι)) : Clock σ ρ ι :=
  let clock := clock.note (.ended run.task.label)
  let (state, ending) := run.task.act clock.state
  let gate := clock.dispatcher.gateOf.lookup run.key
  let clock := { clock with state }.move (.finish run.number ending)
  let clock := match gate with
    | some gate =>
      if (clock.dispatcher.gateAt gate).queue.isEmpty then clock else clock.soon (.wake gate)
    | none => clock
  clock.soon (.noticeEnd run.number)

def start (run : Run (Task σ ρ ι)) : Clock σ ρ ι :=
  let clock := clock.note (.started run.task.label)
  match run.task.duration with
  | none => clock.finish run
  | some 0 => clock.soon (.resume run)
  | some duration => clock.planAfter duration (.resume run)

def moveOn (move : Move (Task σ ρ ι) ρ) : Clock σ ρ ι :=
  let moved := clock.move move
  (moved.dispatcher.log.drop clock.dispatcher.log.length).foldl
    (fun clock (_, mark) ↦ match mark with
      | .started run => clock.start run
      | _ => clock)
    moved

/-- Gives up everything pending, and waits for the runs in progress. -/
def beginClosing (label : ι) : Clock σ ρ ι :=
  let clock := clock.move .close
  match clock.dispatcher.inProgress.map Run.number with
  | [] => clock.note (.closed label)
  | runs => { clock with closing := clock.closing ++ [(label, runs)] }

/-- Makes an event happen. -/
def take : Event σ ρ ι → Clock σ ρ ι
  | .request key task =>
    let number := clock.dispatcher.made
    let clock := { clock with labels := clock.labels ++ [task.label] }.move (.request key task)
    clock.planAfter clock.dispatcher.delay (.endWait number)
  | .cancel key => clock.move (.cancel key)
  | .ask key => clock.note (.answered key (clock.dispatcher.isPending key))
  | .setDelay delay => clock.move (.setDelay delay)
  | .close label => clock.soon (.beginClosing label)
  | .change label act => { clock with state := act clock.state }.note (.changed label)

/-- Makes an action happen. -/
def perform (clock : Clock σ ρ ι) : Action σ ρ ι → Clock σ ρ ι
  | .event event => clock.take event
  | .endWait number =>
    let isLaunched := clock.dispatcher.isWaiting number
    let clock := clock.move (.endWait number)
    if isLaunched then clock.soon .enter else clock
  | .enter => clock.moveOn .enter
  | .wake gate => clock.moveOn (.wake gate)
  | .resume run => clock.finish run
  | .noticeEnd number => clock.noticeEnd number
  | .beginClosing label => clock.beginClosing label
  | .closed label => clock.note (.closed label)
  | .stop => { clock with stopped := true }

/-! ## Rounds -/

/-- Whether an action is a wait that nobody awaits any more. -/
def isStale : Action σ ρ ι → Bool
  | .endWait number => !clock.dispatcher.isWaiting number
  | _ => false

/-- Drops the waits that nobody awaits from the front of the agenda. -/
def dropStale : Clock σ ρ ι :=
  { clock with agenda := (clock.agenda.span fun _ action ↦ clock.isStale action).2 }

/-- Moves time on if nothing is ready, and makes ready what is due by then. -/
def advance : Clock σ ρ ι :=
  let now := match clock.ready, clock.agenda.next? with
    | [], some (due, _) => due
    | _, _ => clock.now
  let (due, agenda) := clock.agenda.span fun moment _ ↦ !now.before moment
  { clock with now, agenda, ready := clock.ready ++ due }.move (.pass now.time)

/-- Makes a round of things happen. -/
def round : Clock σ ρ ι :=
  let clock := clock.dropStale.advance
  clock.ready.foldl perform { clock with ready := [] }

/-- Whether nothing can happen any more. -/
def isOver : Bool := clock.stopped || (clock.ready.isEmpty && clock.agenda.next?.isNone)

/-- Runs a clock for at most `n` rounds. -/
def run : Nat → Clock σ ρ ι → Clock σ ρ ι
  | 0, clock => clock
  | n + 1, clock => if clock.isOver then clock else run n clock.round

/-- A clock for tasks that act on `state`, with a dispatcher that lets requests wait for a while. -/
def ofState (state : σ) (delay : Nat) : Clock σ ρ ι :=
  { state := state : Clock σ ρ ι }.move (.setDelay delay)

def plan (events : List (Nat × Event σ ρ ι)) : Clock σ ρ ι :=
  events.foldl (fun clock (time, event) ↦ clock.planAt time (.event event)) clock

def planInTurn (events : List (Nat × Event σ ρ ι)) : Clock σ ρ ι :=
  events.foldl (fun clock (time, event) ↦ clock.planAfter time (.event event)) clock

def enoughRounds (n : Nat) : Nat := 8 * (n + 1)

/-- Runs through events, in turn, and everything they set off. -/
def runThrough (events : List (Nat × Event σ ρ ι)) : Clock σ ρ ι :=
  run (enoughRounds events.length) (clock.planInTurn events)

/-- Runs through events, those of one time together, and what they set off up to a time. -/
def runUntil (time : Nat) (events : List (Nat × Event σ ρ ι)) : Clock σ ρ ι :=
  run (enoughRounds (events.length + 1)) ((clock.plan events).planAt time .stop)

end Clock

end MissionIndex.Schedule
