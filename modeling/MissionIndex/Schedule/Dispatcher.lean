import MissionIndex.Schedule.Coordinator

/-!
# Dispatching runs

A dispatcher does what a coordinator asks for, with the tables that it takes: by key, the wait that
is under way, the requests that wait with it, the gate that the runs for the key pass one by one,
and how many of them hold or await it. The tables are kept apart, and each is filled and emptied on
its own.

## Moves

A loop drives a dispatcher and does one thing at a time. A *move* is what happens without anything
else coming in between: a call from outside, the end of a wait, the way of a run up to its gate, its
passing when the gate has become free, and the end of its task. A task is started by one move and
ended by a later one, also if the loop does nothing else meanwhile, because what the task itself
asks of the dispatcher comes in between. A move that is not possible leaves everything as it is, so
any list of moves is a course that things can take.

## What the loop does

Runs take their first step in the order in which they were launched. A gate is free when its holder
has left it; the first run in its queue holds it from the moment it goes on, and a run that comes in
between goes to the end of the queue. Time stands still while a wait is due.
-/

namespace MissionIndex.Schedule

/-- The wait that a request begins. -/
structure Wait (τ : Type) where
  /-- The number of the request. -/
  number : Nat
  key : String
  task : τ
  /-- When the wait is over. -/
  due : Nat
deriving DecidableEq, Repr

/-- A task that has been launched. -/
structure Run (τ : Type) where
  /-- The number of the request that brought the task. -/
  number : Nat
  key : String
  task : τ
  /-- The numbers of the requests that the run answers. -/
  answers : List Nat
deriving DecidableEq, Repr

/-- A run that has come to a gate. -/
structure Visit (τ : Type) where
  run : Run τ
  /-- The number of the gate. -/
  gate : Nat
  /-- Whether the run holds the gate. Its task has started then and has not ended. -/
  isRunning : Bool
deriving DecidableEq, Repr

/-- The visit of a run that goes on to hold its gate. -/
def Visit.start {τ : Type} (visit : Visit τ) : Visit τ := { visit with isRunning := true }

/-- What lets runs pass one by one. -/
structure Gate where
  isHeld : Bool := false
  /-- The numbers of the runs that wait, in the order in which they came. -/
  queue : List Nat := []
deriving DecidableEq, Repr

/-- How a task ends. -/
inductive Ending (ρ : Type) where
  /-- With a result, or in failure without one. -/
  | returned (result : Option ρ)
  /-- By a cancellation, as of a request that the task awaits. That is no failure, and what comes
  after the task is passed over. -/
  | cancelled
deriving DecidableEq, Repr

/-- What has become of a run. -/
inductive Mark (τ ρ : Type) where
  | launched (run : Run τ)
  | started (run : Run τ)
  | ended (run : Run τ) (ending : Ending ρ)
deriving DecidableEq, Repr

/-- What a dispatcher keeps, and what of its doings is under way. -/
structure Dispatcher (τ ρ : Type) where
  now : Nat := 0
  /-- How long requests wait. -/
  delay : Nat := 0
  /-- The number of requests made so far. -/
  made : Nat := 0
  /-- By key, the number of the request whose wait is under way. -/
  handles : List (String × Nat) := []
  /-- By key, the numbers of the requests that wait. -/
  waiters : List (String × List Nat) := []
  /-- The waits under way. -/
  waits : List (Wait τ) := []
  /-- The runs that have not taken their first step, in the order in which they were launched. -/
  launched : List (Run τ) := []
  /-- By key, the number of its gate. -/
  gateOf : List (String × Nat) := []
  /-- By key, how many runs hold or await its gate. -/
  users : List (String × Int) := []
  /-- All gates made so far. -/
  gates : List Gate := []
  /-- The runs that have come to a gate and have not left it, in the order in which they came. -/
  visits : List (Visit τ) := []
  /-- The requests that their callers have given up. -/
  abandoned : List Nat := []
  settled : List (Nat × Settled ρ) := []
  /-- What has become of runs, and when. -/
  log : List (Nat × Mark τ ρ) := []

/-- What can happen to a dispatcher. -/
inductive Move (τ ρ : Type) where
  | request (key : String) (task : τ)
  | cancel (key : String)
  /-- Everything pending is cancelled since the dispatcher is to be closed. -/
  | close
  /-- The caller of a request gives it up. -/
  | abandon (number : Nat)
  | setDelay (delay : Nat)
  /-- Time goes on. -/
  | pass (time : Nat)
  /-- The wait of a request ends. -/
  | endWait (number : Nat)
  /-- The run that was launched first takes its first step. -/
  | enter
  /-- The first run in the queue of a gate goes on. -/
  | wake (gate : Nat)
  /-- The task of a run ends. -/
  | finish (number : Nat) (ending : Ending ρ)

namespace Dispatcher

variable {τ ρ : Type} (d : Dispatcher τ ρ)

/-! ## Keeping the tables -/

def note (mark : Mark τ ρ) : Dispatcher τ ρ := { d with log := d.log ++ [(d.now, mark)] }

def isSettled (number : Nat) : Bool := d.settled.any (·.1 == number)

def settle (outcome : Settled ρ) (number : Nat) : Dispatcher τ ρ :=
  if d.isSettled number then d else { d with settled := d.settled ++ [(number, outcome)] }

def settleAll (numbers : List Nat) (outcome : Settled ρ) : Dispatcher τ ρ :=
  numbers.foldl (settle · outcome) d

/-- Settles the requests that a run answers, unless its task has been cancelled: then nobody
does. -/
def answer (numbers : List Nat) : Ending ρ → Dispatcher τ ρ
  | .returned result => d.settleAll numbers (.done result)
  | .cancelled => d

/-- Breaks off the wait that is under way for a key. -/
def dropHandle (key : String) : Dispatcher τ ρ :=
  match d.handles.lookup key with
  | some number =>
    { d with
      handles := Ordered.erase key d.handles
      waits := d.waits.filter (·.number != number) }
  | none => d

def gateAt (number : Nat) : Gate := d.gates[number]?.getD {}

def provideGate (key : String) : Dispatcher τ ρ :=
  match d.gateOf.lookup key with
  | some _ => d
  | none =>
    { d with
      gateOf := Ordered.put key d.gates.length d.gateOf
      gates := d.gates ++ [{}] }

/-- Counts a run for a key more. -/
def retain (key : String) : Dispatcher τ ρ :=
  { d with users := Ordered.put key ((d.users.lookup key).getD 0 + 1) d.users }

/-- Counts a run for a key less. With the last one the key loses its gate. -/
def release (key : String) : Dispatcher τ ρ :=
  let left := (d.users.lookup key).getD 1 - 1
  if left = 0 then
    { d with
      users := Ordered.erase key d.users
      gateOf := Ordered.erase key d.gateOf }
  else { d with users := Ordered.put key left d.users }

/-! ## Moves -/

/-- Makes a request. It breaks off the wait that is under way for its key, and begins one of its
own. -/
def request (key : String) (task : τ) : Dispatcher τ ρ :=
  let number := d.made
  let d : Dispatcher τ ρ := { d with
    made := number + 1
    waiters := Ordered.push key number d.waiters }.dropHandle key
  { d with
    handles := Ordered.put key number d.handles
    waits := d.waits ++ [{ number, key, task, due := d.now + d.delay }] }

def cancel (key : String) : Dispatcher τ ρ :=
  let d := d.dropHandle key
  let numbers := (d.waiters.lookup key).getD []
  { d with waiters := Ordered.erase key d.waiters }.settleAll numbers .cancelled

/-- Cancels the requests that wait for any key. -/
def close : Dispatcher τ ρ := (d.handles.map Prod.fst).foldl cancel d

/-- Gives up a request that has not been settled. -/
def abandon (number : Nat) : Dispatcher τ ρ :=
  if number < d.made && !d.isSettled number then
    { d with abandoned := d.abandoned ++ [number] }.settle .cancelled number
  else d

/-- Lets time go on, but not past the end of a wait. -/
def pass (time : Nat) : Dispatcher τ ρ :=
  if d.waits.all (time ≤ ·.due) then { d with now := max d.now time } else d

/-- Ends the wait of a request when it is due, and launches a run. -/
def endWait (number : Nat) : Dispatcher τ ρ :=
  match d.waits.find? (·.number == number) with
  | some wait =>
    if wait.due ≤ d.now then
      let answers := (d.waiters.lookup wait.key).getD []
      let run : Run τ := { number, key := wait.key, task := wait.task, answers }
      let d : Dispatcher τ ρ := { d with
        waits := d.waits.filter (·.number != number)
        handles := Ordered.erase wait.key d.handles
        waiters := Ordered.erase wait.key d.waiters
        launched := d.launched ++ [run] }
      d.note (.launched run)
    else d
  | none => d

/-- Puts a run at a gate, which it holds if nobody else does or is about to. -/
def arrive (run : Run τ) (number : Nat) : Dispatcher τ ρ :=
  let gate := d.gateAt number
  if gate.isHeld || !gate.queue.isEmpty then
    { d with
      gates := d.gates.set number { gate with queue := gate.queue ++ [run.number] }
      visits := d.visits ++ [⟨run, number, false⟩] }
  else
    let d : Dispatcher τ ρ := { d with
      gates := d.gates.set number { gate with isHeld := true }
      visits := d.visits ++ [⟨run, number, true⟩] }
    d.note (.started run)

/-- Lets the run that was launched first go to the gate of its key. -/
def enter : Dispatcher τ ρ :=
  match d.launched with
  | run :: launched =>
    let d := ({ d with launched }.provideGate run.key).retain run.key
    match d.gateOf.lookup run.key with
    | some number => d.arrive run number
    | none => d
  | [] => d

/-- Lets the first run in the queue of a gate hold it if it is free. -/
def wake (number : Nat) : Dispatcher τ ρ :=
  let gate := d.gateAt number
  match gate.isHeld, gate.queue with
  | false, first :: queue =>
    match d.visits.find? (·.run.number == first) with
    | some visit =>
      let d : Dispatcher τ ρ := { d with
        gates := d.gates.set number { isHeld := true, queue }
        visits := d.visits.map fun v ↦ if v.run.number = first then v.start else v }
      d.note (.started visit.run)
    | none => d
  | _, _ => d

/-- Ends the task of a run. The run leaves its gate however the task ends, and then the requests
that it answers are settled. -/
def finish (number : Nat) (ending : Ending ρ) : Dispatcher τ ρ :=
  match d.visits.find? fun v ↦ v.run.number == number && v.isRunning with
  | some visit =>
    let gate := d.gateAt visit.gate
    let d : Dispatcher τ ρ := { d with
      gates := d.gates.set visit.gate { gate with isHeld := false }
      visits := d.visits.filter (·.run.number != number) }
    ((d.note (.ended visit.run ending)).release visit.run.key).answer visit.run.answers ending
  | none => d

def move : Move τ ρ → Dispatcher τ ρ
  | .request key task => d.request key task
  | .cancel key => d.cancel key
  | .close => d.close
  | .abandon number => d.abandon number
  | .setDelay delay => { d with delay }
  | .pass time => d.pass time
  | .endWait number => d.endWait number
  | .enter => d.enter
  | .wake gate => d.wake gate
  | .finish number ending => d.finish number ending

/-- What has become of a new dispatcher after moves. -/
def follow (moves : List (Move τ ρ)) : Dispatcher τ ρ := moves.foldl move {}

/-! ## Looking on -/

/-- Whether the wait of a request is under way. -/
def isWaiting (number : Nat) : Bool := d.waits.any (·.number == number)

/-- Whether a request for a key waits. -/
def isPending (key : String) : Bool := (d.handles.lookup key).isSome

/-- The runs that have been launched and have not ended. -/
def inProgress : List (Run τ) := d.launched ++ d.visits.map Visit.run

end Dispatcher

end MissionIndex.Schedule
