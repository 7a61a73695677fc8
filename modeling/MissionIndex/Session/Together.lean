import MissionIndex.Data.Decimal
import MissionIndex.Schedule.Clock
import MissionIndex.Session.Reindexing

/-!
# Requests at the same time

A session under requests that overlap in time. A request to index a document again waits for the
time that the settings ask for, and requests for one document within that time count as one.
-/

namespace MissionIndex.Session

open Schedule

/-- What can be asked of a session while other requests are under way. -/
inductive Demand where
  | reindex (uri : String)
  /-- A change of a file on disk. -/
  | write (path text : String)
  | close
deriving DecidableEq, Repr

/-- How a demand has ended, and when. -/
structure Answered where
  second : Nat
  isCancelled : Bool
deriving DecidableEq, Repr

def unitsPerSecond : Nat := 1000000000

def waitOf (settings : Settings) : Nat := Data.wholeUnits settings.debounceSeconds unitsPerSecond

def nearestSecond (time : Nat) : Nat := (2 * time + unitsPerSecond) / (2 * unitsPerSecond)

/-- A demand as an event. The demand's number is its label. -/
def Demand.event (number : Nat) : Demand → Event Session Unit Nat
  | .reindex uri =>
    .request uri { label := number, act := fun s ↦ (s.reindex uri, .returned (some ())) }
  | .write path text => .change number fun s ↦ { s with disk := s.disk.writeText path text }
  | .close => .close number

/-- The demand that an entry of the log answers, and whether that is because it was cancelled. -/
def answerIn : Entry Unit Nat → Option (Nat × Bool)
  | .settled number .cancelled => some (number, true)
  | .settled number (.done _) => some (number, false)
  | .changed number => some (number, false)
  | .closed number => some (number, false)
  | _ => none

/-- Meets demands made at given seconds, and tells when each of them was answered. -/
def meet (s : Session) (demands : List (Nat × Demand)) : Session × List (Nat × Answered) :=
  let clock : Clock Session Unit Nat := .ofState s (waitOf s.settings)
  let final := clock.runThrough (demands.zipIdx.map fun ((second, demand), number) ↦
    (second * unitsPerSecond, demand.event number))
  let answers := final.log.filterMap fun (time, entry) ↦
    (answerIn entry).map fun (number, isCancelled) ↦
      (number, Answered.mk (nearestSecond time) isCancelled)
  (final.state, answers.mergeSort fun a b ↦ a.1 ≤ b.1)

end MissionIndex.Session
