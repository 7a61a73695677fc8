/-!
# Agendas

What is due when. An agenda is a binary heap: an array in which no entry is due before the one above
it, where the entries below position `i` are those at `2 * i + 1` and `2 * i + 2`. Both ways of
repairing the heap only swap entries, so nothing is lost. Entries due at the same moment come out in
an order that the shape of the heap decides, not the order of their coming in.
-/

namespace MissionIndex.Schedule

/-- A point in time. At one time many things may happen one after another, which the tick tells
apart. -/
structure Moment where
  time : Nat := 0
  tick : Nat := 0
deriving DecidableEq, Repr, Inhabited

namespace Moment

/-- Whether one moment is earlier than another. -/
def before (a b : Moment) : Bool := a.time < b.time || (a.time = b.time && a.tick < b.tick)

end Moment

/-- Entries with the moments at which they are due. -/
structure Agenda (α : Type) where
  entries : Array (Moment × α) := #[]

namespace Agenda

variable {α : Type}

/-- Whether the entry at position `i` is due before the one at `j`. -/
def isBefore (entries : Array (Moment × α)) (i j : Nat) : Bool :=
  match entries[i]?, entries[j]? with
  | some a, some b => a.1.before b.1
  | _, _ => false

/-- Swaps the entry at position `i` with the ones above it until it is not due before the next. -/
def rise (entries : Array (Moment × α)) (i : Nat) : Array (Moment × α) :=
  if 0 < i then
    let above := (i - 1) / 2
    if isBefore entries i above then rise (entries.swapIfInBounds above i) above else entries
  else entries
termination_by i

/-- Swaps the entry at position `i` with the earlier ones below it until nothing is below it, and
tells where it ends up. Of two entries due at the same moment the right one counts as the
earlier. -/
def sink (entries : Array (Moment × α)) (i : Nat) : Array (Moment × α) × Nat :=
  let left := 2 * i + 1
  if left < entries.size then
    let below :=
      if left + 1 < entries.size && !isBefore entries left (left + 1) then left + 1 else left
    sink (entries.swapIfInBounds i below) below
  else (entries, i)
termination_by entries.size - i
decreasing_by
  simp only [Array.size_swapIfInBounds]
  split <;> omega

def insert (agenda : Agenda α) (due : Moment) (item : α) : Agenda α :=
  ⟨rise (agenda.entries.push (due, item)) agenda.entries.size⟩

def next? (agenda : Agenda α) : Option (Moment × α) := agenda.entries[0]?

/-- Takes out the entry that is due next. The last one takes its place and is put right from
there. -/
def dropNext (agenda : Agenda α) : Agenda α :=
  let entries := (agenda.entries.swapIfInBounds 0 (agenda.entries.size - 1)).pop
  let (entries, leaf) := sink entries 0
  ⟨rise entries leaf⟩

/-- Takes out entries from the front for as long as `p` holds of them. -/
def spanNext (p : Moment → α → Bool) : Nat → Agenda α → List α × Agenda α
  | 0, agenda => ([], agenda)
  | n + 1, agenda =>
    match agenda.next? with
    | none => ([], agenda)
    | some (due, item) =>
      if p due item then
        let (items, rest) := spanNext p n agenda.dropNext
        (item :: items, rest)
      else ([], agenda)

/-- Takes out all entries in front of which `p` holds. -/
def span (p : Moment → α → Bool) (agenda : Agenda α) : List α × Agenda α :=
  spanNext p agenda.entries.size agenda

end Agenda

end MissionIndex.Schedule
