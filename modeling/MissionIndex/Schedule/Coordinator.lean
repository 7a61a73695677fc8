import MissionIndex.Ordered

/-!
# Coordinating runs

Requests to run a task come in for keys, often many in a row. A request waits for a while, and a
further one for its key takes its place and starts the wait again: only the last request of such a
*burst* is run, and its result answers the whole burst. Runs for one key follow one another in the
order in which their waits ended, while runs for different keys do not heed each other.

## The life of a request

A request is *pending* while its burst waits. When the wait ends without a further request, the
burst is *launched*; from there it enters the line for its key, and is *running* once it is at the
front. It is settled by the run's result, or at once if the burst is given up while pending. A run
is not given up.

## Locks

The line for a key exists only while some run holds its front, so a lock is never empty. The
coordinator only reacts: the waits themselves, the tasks and the passage of time belong to whoever
drives it. What does so is a dispatcher (`Schedule.Dispatcher`), and whatever that goes through is a
way that a coordinator can go.
-/

namespace MissionIndex.Schedule

/-- A request to run a task. -/
structure Request (τ : Type) where
  /-- How many requests were made before. -/
  number : Nat
  key : String
  task : τ

/-- Requests for one key that a single run answers. -/
structure Burst (τ : Type) where
  earlier : List (Request τ)
  /-- The request whose task is run. -/
  last : Request τ

/-- The requests of a burst, in the order in which they were made. -/
def Burst.members {τ : Type} (burst : Burst τ) : List (Request τ) := burst.earlier ++ [burst.last]

/-- The line for a key. -/
structure Lock (τ : Type) where
  /-- The burst that is running. -/
  holder : Burst τ
  /-- The bursts behind it, in the order in which they came. -/
  waiting : List (Burst τ) := []

/-- What becomes of a request. -/
inductive Settled (ρ : Type) where
  /-- The run has ended, with a result or in failure. -/
  | done (result : Option ρ)
  | cancelled

/-- The requests made so far that matter still, and what became of the others. -/
structure Coordinator (τ ρ : Type) where
  /-- The number of requests made so far. -/
  made : Nat := 0
  /-- By key, the bursts that wait. -/
  pending : List (String × Burst τ) := []
  /-- The bursts whose wait has ended and that are not in line yet. -/
  launched : List (Burst τ) := []
  locks : List (String × Lock τ) := []
  settled : List (Request τ × Settled ρ) := []

namespace Coordinator

variable {τ ρ : Type} (c : Coordinator τ ρ)

def settle (burst : Burst τ) (outcome : Settled ρ) : Coordinator τ ρ :=
  { c with settled := c.settled ++ burst.members.map (·, outcome) }

/-- Makes a request. It joins the burst that is pending for its key as the last of it. -/
def request (key : String) (task : τ) : Coordinator τ ρ :=
  let last : Request τ := { number := c.made, key, task }
  let earlier := match c.pending.lookup key with
    | some burst => burst.members
    | none => []
  { c with made := c.made + 1, pending := Ordered.put key { earlier, last } c.pending }

/-- Gives up the burst that is pending for a key. -/
def cancel (key : String) : Coordinator τ ρ :=
  match c.pending.lookup key with
  | some burst => { c with pending := Ordered.erase key c.pending }.settle burst .cancelled
  | none => c

/-- Ends the wait of request `number` for a key. Unless a further request or a cancellation came
before, its burst is launched. -/
def endWait (key : String) (number : Nat) : Coordinator τ ρ × Option (Burst τ) :=
  match c.pending.lookup key with
  | some burst =>
    if burst.last.number = number then
      ({ c with pending := Ordered.erase key c.pending, launched := c.launched ++ [burst] },
        some burst)
    else (c, none)
  | none => (c, none)

/-- Puts a launched burst in line for its key, and tells whether it is at the front. -/
def enter (burst : Burst τ) : Coordinator τ ρ × Bool :=
  let key := burst.last.key
  let c := { c with launched := c.launched.filter (·.last.number != burst.last.number) }
  match c.locks.lookup key with
  | some lock =>
    ({ c with locks := Ordered.put key { lock with waiting := lock.waiting ++ [burst] } c.locks },
      false)
  | none => ({ c with locks := Ordered.put key { holder := burst } c.locks }, true)

/-- Ends the run for a key with a result, or in failure without one, and tells which burst is at the
front of the line now. -/
def finish (key : String) (result : Option ρ) : Coordinator τ ρ × Option (Burst τ) :=
  match c.locks.lookup key with
  | some lock =>
    let c := c.settle lock.holder (.done result)
    match lock.waiting with
    | next :: waiting =>
      ({ c with locks := Ordered.put key { holder := next, waiting } c.locks }, some next)
    | [] => ({ c with locks := Ordered.erase key c.locks }, none)
  | none => (c, none)

end Coordinator

end MissionIndex.Schedule
